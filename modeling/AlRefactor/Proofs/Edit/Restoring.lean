import AlRefactor.Proofs.Edit.Declaring
import AlRefactor.Proofs.Edit.Undeclared

/-!
# Taking a variable back

A variable that was inserted at the start of a line is removed with exactly the lines that were inserted:
the text is then what it was before.
-/

namespace AlRefactor

open AlRefactor.Tree Lexeme SyntaxTree

namespace Text

variable {a w : Text}

/-- Blanks behind a line break are the beginning of a line. -/
theorem lineStart_indented (ha : ∀ c ∈ a.getLast?, isBreak c) (hw : ∀ c ∈ w, isIndent c) (r : Text) :
    (a ++ (w ++ r)).lineStart (size a + size w) = size a := by
  obtain ⟨u, g, hu, hl, hg, hb⟩ := lineStart_append (a ++ w) r
  rw [List.append_assoc, size_append] at hl
  rw [hl]
  rcases List.append_eq_append_iff.mp hu with ⟨x, rfl, rfl⟩ | ⟨x, rfl, rfl⟩
  · rcases List.eq_nil_or_concat x with rfl | ⟨y, c, rfl⟩
    · rw [List.append_nil]
    · -- The last line break would be one of the blanks.
      have hc := hw c (by simp)
      rcases hb with hn | ⟨z, d, hz, hd⟩
      · simp at hn
      · rw [List.concat_eq_append, ← List.append_assoc] at hz
        obtain ⟨-, hcd⟩ := List.append_inj' hz rfl
        obtain rfl := List.singleton_inj.mp hcd
        simp only [isIndent, isBreak, Bool.or_eq_true, beq_iff_eq] at hc hd
        rcases hc with rfl | rfl <;> rcases hd with hd | hd <;> cases hd
  · rcases List.eq_nil_or_concat x with rfl | ⟨y, c, rfl⟩
    · rw [List.append_nil]
    · have hc := ha c (by simp)
      rw [hg c (by simp)] at hc
      cases hc

theorem lineRest?_newline (t b : Text) : lineRest? (t.newline ++ b) = some (size t.newline) := by
  rcases newline_eq_or t with h | h <;> rw [h] <;> rfl

/-- A range that makes up a line with blanks in front of it is widened to this line. -/
theorem wholeLines?_line (ha : ∀ c ∈ a.getLast?, isBreak c) (hw : ∀ c ∈ w, isIndent c) (core t b : Text) :
    (a ++ (w ++ (core ++ (t.newline ++ b)))).wholeLines? ⟨size a + size w, size a + size w + size core⟩ =
      some ⟨size a, size a + size (w ++ (core ++ t.newline))⟩ := by
  have hs := lineStart_indented ha hw (core ++ (t.newline ++ b))
  have hd : (a ++ (w ++ (core ++ (t.newline ++ b)))).drop? (size a + size w + size core) =
      some (t.newline ++ b) := by
    have := drop?_append (a ++ (w ++ core)) (t.newline ++ b)
    rw [size_append, size_append, ← Nat.add_assoc] at this
    simpa using this
  rw [wholeLines?, startsLine?, hs, slice?_append, Option.map_some, Option.map_some, List.all_eq_true.mpr hw,
    if_pos rfl]
  dsimp only
  rw [hd, Option.bind_some, lineRest?_newline, Option.getD_some, size_append, size_append, Nat.add_assoc,
    Nat.add_assoc]

end Text

namespace Node

/-! ## Removing one declaration -/

section

variable {text : Text} {s d e : Node} {xs ys : List Node} {v : Variable}

/-- The declarations that are to go when one of them is. -/
def only (d : Node) (m : Node) : Bool := [d].any (·.same m)

theorem only_self (d : Node) : d.only d := by simp [only, same]

theorem only_eq_false (hd : d ∈ (parse text).nodes) (he : e ∈ (parse text).nodes) (hne : e ≠ d) :
    d.only e = false := by
  have hi : d.id ≠ e.id := fun hi => hne (eq_of_id he hd hi.symm)
  simp [only, same, hi]

theorem undeclare_single {edit : Edit} (hs : d.varSection? = some s)
    (he : removeFromSection d.only s = [edit]) : undeclare [d] = [edit] := by
  have h : (distinct ([d].filterMap varSection?)).flatMap (removeFromSection d.only) = [edit] := by
    rw [List.filterMap_cons_some hs, List.filterMap_nil]
    simpa [distinct] using he
  show ((distinct ([d].filterMap varSection?)).flatMap (removeFromSection d.only)).mergeSort _ = _
  rw [h, List.mergeSort_singleton]

theorem removeVariablesOf_single (hd : d ∈ (parse text).nodes) (hk : d.kind = NodeKind.variableDeclaration) :
    removeVariablesOf (parse text) [d.id] = .ok (undeclare [d]) := by
  have hg : (parse text).get? d.id = some d := get?_eq_some.mpr ⟨mem_nodes.mp hd, rfl⟩
  rw [removeVariablesOf, List.filterMap_cons_some hg, List.filterMap_nil,
    List.find?_cons_of_neg (by simp [isOneOf, isAny, hk])]
  rfl

/-- A section with one declaration goes as a whole. -/
theorem removeFromSection_opened (hc : s.childNodes = [d]) (hd : d.IsLine v) :
    removeFromSection d.only s = [Edit.delete s.wholeLines] := by
  rw [removeFromSection_eq, if_pos (by rw [sectionDeclarations_of_line hc hd]; simpa using only_self d)]

/-- Every entry of a section declares something. -/
theorem exists_declaration (h : (parse text).ok) (he : e ∈ (parse text).nodes) (hk : e.IsEntry) :
    ∃ x, x ∈ e.entryDeclarations := by
  rw [entryDeclarations]
  rcases hk with hk | hk
  · exact ⟨e, by simp [is, hk]⟩
  · obtain ⟨m, hm⟩ := exists_child? h he hk (j := NodeKind.variableDeclarationName) rfl
    refine ⟨m, ?_⟩
    rw [if_neg (by simp [is, hk]), if_pos (by simp [is, hk])]
    exact List.mem_filter.mpr ⟨List.mem_of_find?_eq_some hm,
      List.find?_some (p := fun c : Node => c.is NodeKind.variableDeclarationName) hm⟩

/-- Of the other entries of a section no declaration is the one that goes. -/
theorem not_only_of_entry (he : e ∈ (parse text).nodes) (hd : d ∈ (parse text).nodes)
    (hk : d.kind = NodeKind.variableDeclaration) (hne : e ≠ d) : ∀ x ∈ e.entryDeclarations, d.only x = false := by
  intro x hx
  rw [entryDeclarations] at hx
  split at hx
  · rw [List.mem_singleton.mp hx]
    exact only_eq_false hd he hne
  · split at hx
    · obtain ⟨hxc, hxk⟩ := mem_of_childrenOf hx
      refine only_eq_false hd (mem_nodes_of_child he hxc) fun hxd => ?_
      rw [hxd, hk] at hxk
      cases hxk
    · exact absurd hx List.not_mem_nil

theorem removeFromEntry_other (he : e ∈ (parse text).nodes) (hd : d ∈ (parse text).nodes)
    (hk : d.kind = NodeKind.variableDeclaration) (hne : e ≠ d) : removeFromEntry d.only e = [] := by
  have hno := not_only_of_entry he hd hk hne
  rw [entryDeclarations] at hno
  rw [removeFromEntry]
  split
  · rename_i hv
    rw [if_pos hv] at hno
    rw [hno e (List.mem_singleton_self e), if_neg Bool.false_ne_true]
  · rename_i hv
    rw [if_neg hv] at hno
    split
    · rename_i hl
      rw [if_pos hl] at hno
      rw [removeFromList, if_pos]
      simpa using fun x hx => hno x hx
    · rfl

/-- One declaration of several goes alone. -/
theorem removeFromSection_extended (h : (parse text).ok) (hs : s ∈ (parse text).nodes)
    (hc : s.childNodes = xs ++ d :: ys) (hk : ∀ e ∈ xs ++ d :: ys, e.IsEntry) (hd : d.IsLine v)
    (hne : ∀ e ∈ xs ++ ys, e ≠ d) (hxy : xs ++ ys ≠ []) :
    removeFromSection d.only s = [Edit.delete d.wholeLines] := by
  have hmem : ∀ e ∈ xs ++ d :: ys, e ∈ (parse text).nodes := fun e he =>
    mem_nodes_of_child hs (mem_of_childNodes (hc ▸ he))
  have hdm := hmem d (by simp)
  have hsub : ∀ e ∈ xs ++ ys, e ∈ xs ++ d :: ys := fun e he => by
    rcases List.mem_append.mp he with he | he
    · exact List.mem_append_left _ he
    · exact List.mem_append_right _ (List.mem_cons_of_mem _ he)
  have hall : ¬ (s.sectionDeclarations.all d.only) = true := by
    obtain ⟨e, he⟩ := List.exists_mem_of_ne_nil _ hxy
    obtain ⟨x, hx⟩ := exists_declaration h (hmem e (hsub e he)) (hk e (hsub e he))
    intro hall
    have hxd := List.all_eq_true.mp hall x (by
      rw [sectionDeclarations_eq, hc]
      exact List.mem_flatMap.mpr ⟨e, hsub e he, hx⟩)
    rw [not_only_of_entry (hmem e (hsub e he)) hdm hd.kind (hne e he) x hx] at hxd
    cases hxd
  have hother (zs : List Node) (hz : ∀ z ∈ zs, z ∈ xs ++ ys) : zs.flatMap (removeFromEntry d.only) = [] :=
    List.flatMap_eq_nil_iff.mpr fun z hzm =>
      removeFromEntry_other (hmem z (hsub z (hz z hzm))) hdm hd.kind (hne z (hz z hzm))
  have hself : removeFromEntry d.only d = [Edit.delete d.wholeLines] := by
    rw [removeFromEntry, if_pos (by simp [is, hd.kind]), if_pos (only_self d)]
  rw [removeFromSection_eq, if_neg hall, hc, List.flatMap_append, List.flatMap_cons, hself,
    hother xs fun z hz => List.mem_append_left _ hz, hother ys fun z hz => List.mem_append_right _ hz]
  rfl

end

/-! ## The lines of a new variable -/

section

variable {text t' gap core behind : Text} {e : Edit} {L B H M : List Lexeme} {v : Variable} {n n' r : Node}

/-- The whole lines of what was inserted at the start of a line are what was inserted. -/
theorem Reread.apply_delete (hr : Reread text t' e gap core behind L B H M v n n') (hk : n.kind.isMethod)
    (hl : text.isLineStart e.span.start) (hm : r ∈ (parse t').nodes)
    (hs : r.Spans t' (Lexeme.solid L).length (Lexeme.solid (lex core)).length) :
    Edit.apply [Edit.delete r.wholeLines] t' = .ok text := by
  have hstretch : Stretch (lex t') (L ++ B) (lex core) (H ++ M) (Lexeme.solid L).length
      (Lexeme.solid (lex core)).length :=
    ⟨by rw [hr.spliced.eq']; simp, by rw [solid_append, hr.before, List.append_nil], rfl, hr.closed.leads, hr.closes⟩
  obtain ⟨hstart, hstop, -⟩ := hs.of_stretch hm hstretch
  rw [List.flatMap_append, Text.size_append] at hstart hstop
  rw [flatMap_text_lex] at hstop
  have hbreak := hr.joins.cut.isLineStart hl
  have hgap : gap = [] := hr.gap.resolve_right fun hg => by
    rw [hk] at hg
    cases hg.2
  obtain ⟨hw, hbehind⟩ := hr.joins.joins.of_isLineStart hbreak
  rw [hgap, List.append_nil] at hbehind
  have ht' : t' = L.flatMap (·.text) ++
      (B.flatMap (·.text) ++ (core ++ (text.newline ++ M.flatMap (·.text)))) := by
    rw [hr.text_eq, hbehind]
    simp
  have hlines : r.wholeLines = ⟨Text.size (L.flatMap (·.text)), Text.size (L.flatMap (·.text)) +
      Text.size (B.flatMap (·.text) ++ (core ++ text.newline))⟩ := by
    have hwhole := Text.wholeLines?_line (a := L.flatMap (·.text)) (fun c hc => by
      rw [Text.isBreak, Bool.or_comm]
      exact hbreak c hc) hw core text (M.flatMap (·.text))
    rw [wholeLines, tree_text hm, show r.span = ⟨r.start, r.stop⟩ from rfl, hstart, hstop]
    nth_rewrite 1 [ht']
    rw [hwhole, Option.getD_some]
  have happly := Edit.apply_single (L.flatMap (·.text)) (B.flatMap (·.text) ++ (core ++ text.newline))
    (M.flatMap (·.text)) []
  rw [List.nil_append, ← hr.joins.cut.text_eq, List.append_assoc, List.append_assoc, ← ht'] at happly
  rw [hlines]
  exact happly

theorem declared_fst (d : Node) : d.declared.1 = d.name.getD [] := by
  rw [declared, toVariable]
  dsimp only
  cases d.owner? <;> rfl

theorem name_of_declared {d : Node} (hd : d.declared.1 = v.name) (hv : v.name ≠ []) : d.name = some v.name := by
  rw [declared_fst] at hd
  cases hn : d.name with
  | none =>
      rw [hn] at hd
      exact absurd hd.symm hv
  | some name =>
      rw [hn] at hd
      exact congrArg some hd

/-- A declaration other than a new one has the name of an old one. -/
theorem eq_of_name {x d : Node} {us ws old : List Node} (hx : x ∈ us ++ d :: ws)
    (ho : (us ++ ws).map declared = old.map declared) (hname : x.name = some v.name) (hv : v.name ≠ [])
    (hno : ∀ y ∈ old, y.name ≠ some v.name) : x = d := by
  by_contra hxd
  have hxo : x ∈ us ++ ws := by
    rcases List.mem_append.mp hx with hx | hx
    · exact List.mem_append_left _ hx
    · exact List.mem_append_right _ ((List.mem_cons.mp hx).resolve_left hxd)
  have hxm : x.declared ∈ old.map declared := ho ▸ List.mem_map_of_mem hxo
  obtain ⟨y, hy, hyx⟩ := List.mem_map.mp hxm
  refine hno y hy (name_of_declared ?_ hv)
  rw [hyx, declared_fst, hname]
  rfl

/-- The children of a node are different nodes. -/
theorem ne_of_siblings {s d : Node} {ws xs ys : List Node} (h : (parse text).ok) (hs : s ∈ (parse text).nodes)
    (hc : s.children = ws ++ (xs ++ d :: ys)) : ∀ e ∈ xs ++ ys, e ≠ d := by
  have hlt : d.start < d.stop := (solid_of_mem_children h hs (by rw [hc]; simp)).start_lt_stop
  have hapart := (ranged hs).apart
  rw [hc] at hapart
  obtain ⟨-, hapart, -⟩ := List.pairwise_append.mp hapart
  obtain ⟨-, hback, hfront⟩ := List.pairwise_append.mp hapart
  rintro e he rfl
  rcases List.mem_append.mp he with he | he
  · have := hfront e he e List.mem_cons_self
    omega
  · have := (List.pairwise_cons.mp hback).1 e he
    omega

theorem localDeclarations_eq {s : Node} (hk : n.kind.isMethod) (hc : n.child? n.kind.sectionKind = some s) :
    n.localDeclarations = s.sectionDeclarations := by
  rw [Kind.sectionKind, if_pos hk] at hc
  rw [localDeclarations, hc]
  rfl

/-- A local variable whose name was not declared before is declared once, and the node to remove is the one
that makes up the new lines. -/
structure Removable (t' core : Text) (L : List Lexeme) (v : Variable) (n' d r : Node) : Prop where
  mem : d ∈ n'.localDeclarations
  node : d ∈ (parse t').nodes
  line : d.IsLine v
  only : ∀ x ∈ n'.localDeclarations, x.name = some v.name → x = d
  lines : r ∈ (parse t').nodes
  spans : r.Spans t' (Lexeme.solid L).length (Lexeme.solid (lex core)).length
  edit : undeclare [d] = [Edit.delete r.wholeLines]

/-- What a procedure has gained is declared once and can be removed with the lines that it came with. -/
theorem Gains.exists_removable {S : List Lexeme} {place : Nat} (h : Gains text t' L S core place v n n')
    (hS : Spliced text t' L S M) (hok : (parse t').ok) (hn : n' ∈ (parse t').nodes) (hk : n'.kind = n.kind)
    (hm : n.kind.isMethod) (hl : text.isLineStart place) (hv : v.name ≠ [])
    (hno : ∀ d ∈ n.localDeclarations, d.name ≠ some v.name) : ∃ d r, Removable t' core L v n' d r := by
  have hsection {s : Node} (hs : s.kind = n.kind.sectionKind) : s.kind.isVarSection := by
    rw [hs, Kind.sectionKind, if_pos hm]
    rfl
  cases h with
  | @extended as as' bs bs' ws ws' xs xs' ys ys' s s' d hc hc' first kind kind' hp hp' tokens entries suits beside
      front back words before behind line spans =>
      -- The section keeps another entry, so the line of the new one is removed alone.
      have hs' : s' ∈ (parse t').nodes := mem_nodes_of_child hn (by rw [hc']; simp)
      have hd : d ∈ (parse t').nodes := mem_nodes_of_child hs' (by rw [hp']; simp)
      have hentries := isEntry_of_twins entries before behind line
      have hcn := childNodes_of_twins entries before behind line hp' tokens words
      have hold : n.localDeclarations = (xs ++ ys).flatMap entryDeclarations := by
        rw [localDeclarations_eq hm (child?_of_parts hc kind first), sectionDeclarations_eq,
          childNodes_of_entries hp tokens entries]
      have hnew : n'.localDeclarations =
          xs'.flatMap entryDeclarations ++ d :: ys'.flatMap entryDeclarations := by
        have hfirst := kinds_of_twins (P := fun k => k ≠ n.kind.sectionKind) front first
        rw [localDeclarations_eq (hk ▸ hm) (hk ▸ child?_of_parts hc' kind' hfirst), sectionDeclarations_eq, hcn,
          List.flatMap_append, List.flatMap_cons, line.entryDeclarations]
        rfl
      have hxy : xs' ++ ys' ≠ [] := fun hnil => beside hl (by
        have hlen : (xs ++ ys).length = (xs' ++ ys').length := (List.rel_append before behind).length_eq
        rw [hnil] at hlen
        exact List.length_eq_zero_iff.mp hlen)
      have hdecl : (xs'.flatMap entryDeclarations ++ ys'.flatMap entryDeclarations).map declared =
          n.localDeclarations.map declared := by
        rw [hold, ← List.flatMap_append, declared_entries hS (List.rel_append before behind)]
      refine ⟨d, d, by rw [hnew]; simp, hd, line, fun x hx hname => eq_of_name (hnew ▸ hx) hdecl hname hv hno, hd,
        spans, undeclare_single (varSection?_of_mem hs' (hsection kind') ?_)
          (removeFromSection_extended hok hs' hcn hentries line (ne_of_siblings hok hs' hp') hxy)⟩
      rw [sectionDeclarations_eq, hcn]
      exact List.mem_flatMap.mpr ⟨d, by simp, by rw [line.entryDeclarations]; simp⟩
  | @opened as as' bs bs' s w d hc hc' none kind hp token front back line spans =>
      -- The section declares nothing else, so it is removed as a whole.
      have hs : s ∈ (parse t').nodes := mem_nodes_of_child hn (by rw [hc']; simp)
      have hd : d ∈ (parse t').nodes := mem_nodes_of_child hs (by rw [hp]; simp)
      have hcn := childNodes_of_opened hp token line
      have hsd := sectionDeclarations_of_line hcn line
      have hnew : n'.localDeclarations = [d] := by
        have hfirst := kinds_of_twins (P := fun k => k ≠ n.kind.sectionKind) front
          fun a ha => none a (List.mem_append_left _ ha)
        rw [localDeclarations_eq (hk ▸ hm) (hk ▸ child?_of_parts hc' kind hfirst), hsd]
      exact ⟨d, s, by rw [hnew]; simp, hd, line, fun x hx _ => List.mem_singleton.mp (hnew ▸ hx), hs, spans,
        undeclare_single (varSection?_of_mem hs (hsection kind) (by rw [hsd]; simp))
          (removeFromSection_opened hcn line)⟩

end

variable {text : Text} {n : Node} {v : Variable} {e : Edit}

/-- A local variable that is inserted at the start of a line is declared once by the new text, under a name
that was free, and removing its declaration gives the old text back. -/
theorem declare?_restored (h : (parse text).ok) (hn : n ∈ (parse text).nodes) (hk : n.kind.isMethod)
    (hv : v.Declarable) (hno : ∀ d ∈ n.localDeclarations, d.name ≠ some v.name)
    (he : n.declare? v = some e) (hl : text.isLineStart e.span.start) :
    ∃ t' n', Edit.apply [e] text = .ok t' ∧ (parse t').ok ∧ n' ∈ (parse t').nodes ∧ n'.id = n.id ∧
      (∃ d ∈ n'.localDeclarations, d.name = some v.name) ∧
      ∀ d ∈ n'.localDeclarations, d.name = some v.name →
        ∃ es, removeVariablesOf (parse t') [d.id] = .ok es ∧ Edit.apply es t' = .ok text := by
  have hname : v.name ≠ [] := fun hname => by
    have := hv.identifier
    rw [hname] at this
    exact absurd this (by decide +kernel)
  obtain ⟨t', n', gap, core, behind, L, B, H, M, hr⟩ := exists_reread h hn (.inl hk) hv he (.inl hl)
  obtain ⟨d, r, hd⟩ := hr.gains.exists_removable hr.spliced hr.ok hr.mem hr.kind hk hl hname hno
  refine ⟨t', n', hr.text_eq ▸ hr.joins.apply, hr.ok, hr.mem, hr.id, ⟨d, hd.mem, hd.line.name⟩, fun x hx hxn => ?_⟩
  obtain rfl := hd.only x hx hxn
  refine ⟨_, removeVariablesOf_single hd.node hd.line.kind, ?_⟩
  rw [hd.edit]
  exact hr.apply_delete hk hl hd.lines hd.spans

/-- A procedure without variables gets a section, which goes with the variable. -/
theorem declare?_restored_section :
    let text : Text := "codeunit 1 A \x7b\n  procedure P()\n  begin\n  end;\n\x7d"
    let v := Variable.plain "x" "Integer"
    (parse text).ok ∧ ∃ n ∈ (parse text).nodes, n.kind.isMethod ∧ v.Declarable ∧
      (∀ d ∈ n.localDeclarations, d.name ≠ some v.name) ∧
      ∃ e, n.declare? v = some e ∧ text.isLineStart e.span.start ∧
        ∃ t' n', Edit.apply [e] text = .ok t' ∧ (parse t').ok ∧ n' ∈ (parse t').nodes ∧ n'.id = n.id ∧
          (∃ d ∈ n'.localDeclarations, d.name = some v.name) ∧
          ∀ d ∈ n'.localDeclarations, d.name = some v.name →
            ∃ es, removeVariablesOf (parse t') [d.id] = .ok es ∧ Edit.apply es t' = .ok text := by
  intro text v
  have hn : (parse text).ok ∧ ∃ n ∈ (parse text).nodes, n.kind.isMethod ∧
      (∀ d ∈ n.localDeclarations, d.name ≠ some v.name) ∧
        n.declare? v = some (Edit.insert 31 "  var\n      x: Integer;\n") := by
    decide +kernel
  have hv : v.Declarable := ⟨by decide +kernel, by decide +kernel, by decide +kernel, by decide +kernel⟩
  have hl : text.isLineStart (Edit.insert 31 "  var\n      x: Integer;\n").span.start := by decide +kernel
  obtain ⟨hok, n, hm, hk, hno, he⟩ := hn
  exact ⟨hok, n, hm, hk, hv, hno, _, he, hl, declare?_restored hok hm hk hv hno he hl⟩

end Node

end AlRefactor
