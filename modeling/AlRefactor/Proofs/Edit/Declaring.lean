import AlRefactor.Proofs.Declaration.Gains

/-!
# Declaring a variable

A variable that is inserted on a line of its own is declared by the new text, at one place of its scope,
and all else is as before. Where the entries of the section were ordered by their types, they still are.
-/

namespace AlRefactor

open AlRefactor.Tree Lexeme SyntaxTree Grammar

namespace Node

/-! ## Sections and what they declare -/

/-- The sections of variables of a scope. -/
def varSections (n : Node) : List Node := n.childrenOf n.kind.sectionKind

/-- The names and types that a section declares, in their order. -/
def contents (s : Node) : List (Text × Text) := s.sectionDeclarations.map declared

/-- The entries of a section are ordered by the ranks of their types. -/
def InOrder (s : Node) : Prop :=
  s.sectionEntries.Pairwise fun a b => Text.typeRank a.typeOfEntry ≤ Text.typeRank b.typeOfEntry

instance (s : Node) : Decidable s.InOrder := inferInstanceAs (Decidable (List.Pairwise _ _))

/-- One more in the first of some lists, or in a list of its own if there is none. -/
inductive OneMore {α : Type} (a : α) : List (List α) → List (List α) → Prop
  | first {us ws rest} : OneMore a ((us ++ ws) :: rest) ((us ++ a :: ws) :: rest)
  | fresh : OneMore a [] [[a]]

/-- A single declaration or a list. -/
def IsEntry (e : Node) : Prop :=
  e.kind = NodeKind.variableDeclaration ∨ e.kind = NodeKind.variableListDeclaration

theorem IsEntry.isToken {e : Node} (h : e.IsEntry) : e.kind.isToken = false := by
  rcases h with h | h <;> rw [h] <;> rfl

section

variable {t t' text : Text} {L S M : List Lexeme} {n s s' d : Node} {xs xs' ws es : List Node} {v : Variable}

theorem childNodes_of_entries (hc : s.children = ws ++ es) (hw : ∀ w ∈ ws, w.kind.isToken)
    (he : ∀ e ∈ es, e.IsEntry) : s.childNodes = es := by
  rw [childNodes, hc, List.filter_append, List.filter_eq_nil_iff.mpr fun w hm => by simp [isToken, hw w hm],
    List.nil_append]
  exact List.filter_eq_self.mpr fun e hm => by simp [isToken, (he e hm).isToken]

/-- A section that was opened for a declaration has no other nodes. -/
theorem childNodes_of_opened {w : Node} (hc : s.children = [w, d]) (hw : w.kind.isToken) (hd : d.IsLine v) :
    s.childNodes = [d] :=
  childNodes_of_entries (show s.children = [w] ++ [d] from hc) (by simpa using hw)
    fun e he => List.mem_singleton.mp he ▸ .inl hd.kind

theorem sectionDeclarations_of_line (hc : s.childNodes = [d]) (hd : d.IsLine v) : s.sectionDeclarations = [d] := by
  rw [sectionDeclarations_eq, hc, List.flatMap_singleton, hd.entryDeclarations]

/-- Entries that are twins declare the same names and types. -/
theorem declared_entries (hS : Spliced t t' L S M) (h : List.Forall₂ (Twin t t' L S) xs xs') :
    (xs.flatMap entryDeclarations).map declared = (xs'.flatMap entryDeclarations).map declared := by
  rw [List.map_flatMap, List.map_flatMap, List.flatMap_def, List.flatMap_def]
  exact congrArg _ (map_eq_of_forall₂ h fun _ _ hx => hx.declared hS)

theorem contents_of_twin (hS : Spliced t t' L S M) (h : Twin t t' L S s s') : s.contents = s'.contents := by
  rw [contents, contents, sectionDeclarations_eq, sectionDeclarations_eq]
  refine declared_entries hS (List.rel_filter (fun a b hab => ?_) h.children)
  show (!a.kind.isToken) = true ↔ (!b.kind.isToken) = true
  rw [hab.kind]

/-- Sections that are twins declare the same, one by one. -/
theorem map_contents (hS : Spliced t t' L S M) (h : List.Forall₂ (Twin t t' L S) xs xs') (k : Kind) :
    (xs.filter (·.is k)).map contents = (xs'.filter (·.is k)).map contents :=
  map_eq_of_forall₂ (List.rel_filter (fun _ _ hab => iff_of_eq (congrArg (· = true) (hab.is k).symm)) h)
    fun _ _ hx => contents_of_twin hS hx

theorem map_typeOfEntry (hS : Spliced t t' L S M) (h : List.Forall₂ (Twin t t' L S) xs xs') :
    xs.map typeOfEntry = xs'.map typeOfEntry :=
  map_eq_of_forall₂ h fun _ _ hx => (hx.typeOfEntry hS).symm

theorem filter_is_of_ne {k : Kind} (h : ∀ x ∈ xs, x.kind ≠ k) : xs.filter (·.is k) = [] :=
  List.filter_eq_nil_iff.mpr fun x hx => by simp [is, h x hx]

theorem child?_of_parts {k : Kind} {as bs : List Node} (hc : n.children = as ++ s :: bs) (hs : s.kind = k)
    (hf : ∀ a ∈ as, a.kind ≠ k) : n.child? k = some s :=
  List.find?_eq_some_iff_append.mpr ⟨by simp [is, hs], as, bs, hc, fun a ha => by simp [is, hf a ha]⟩

theorem kinds_of_twins {P : Kind → Prop} (h : List.Forall₂ (Twin t t' L S) xs xs') (hx : ∀ x ∈ xs, P x.kind) :
    ∀ x ∈ xs', P x.kind := by
  induction h with
  | nil => exact fun _ hn => (List.not_mem_nil hn).elim
  | cons hab _ ih =>
      intro x hm
      rcases List.mem_cons.mp hm with rfl | hm
      · rw [hab.kind]
        exact hx _ List.mem_cons_self
      · exact ih (fun y hy => hx y (List.mem_cons_of_mem _ hy)) x hm

section Entries

variable {ys ys' : List Node} (h : ∀ e ∈ xs ++ ys, e.IsEntry)
  (hx : List.Forall₂ (Twin t t' L S) xs xs') (hy : List.Forall₂ (Twin t t' L S) ys ys') (hd : d.IsLine v)

include h hx hy hd

/-- Among the entries of a section a new one stands with the twins of the others. -/
theorem isEntry_of_twins : ∀ e ∈ xs' ++ d :: ys', e.IsEntry := by
  have htwins := kinds_of_twins (P := fun k => k = NodeKind.variableDeclaration ∨ k = NodeKind.variableListDeclaration)
    (List.rel_append hx hy) h
  intro e he
  rcases List.mem_append.mp he with he | he
  · exact htwins e (List.mem_append_left _ he)
  rcases List.mem_cons.mp he with rfl | he
  · exact .inl hd.kind
  · exact htwins e (List.mem_append_right _ he)

theorem childNodes_of_twins {ws' : List Node} (hc : s.children = ws' ++ (xs' ++ d :: ys'))
    (hw : ∀ w ∈ ws, w.kind.isToken) (hws : List.Forall₂ (Twin t t' L S) ws ws') :
    s.childNodes = xs' ++ d :: ys' :=
  childNodes_of_entries hc (kinds_of_twins (P := fun k => k.isToken) hws hw) (isEntry_of_twins h hx hy hd)

end Entries

end

/-! ## A new variable -/

section

variable {text t' core : Text} {L S M : List Lexeme} {place : Nat} {v : Variable} {n n' : Node}

namespace Gains

variable (h : Gains text t' L S core place v n n') (hS : Spliced text t' L S M)

include h hS

/-- A section whose entries were in order is in order with the new one, if the type has the rank that its
text had. -/
theorem inOrder (ht : Text.typeRank v.declaredType = Text.typeRank v.type) {s' : Node}
    (hs' : n'.child? n.kind.sectionKind = some s')
    (ho : ∀ s, n.child? n.kind.sectionKind = some s → s.InOrder) : s'.InOrder := by
  cases h with
  | @extended as as' bs bs' ws ws' xs xs' ys ys' s s₁ d hc hc' first kind kind' hp hp' tokens entries suits beside
      front back words before behind line =>
      have hs := child?_of_parts hc kind first
      have hs₁ := child?_of_parts hc' kind'
        (kinds_of_twins (P := fun k => k ≠ n.kind.sectionKind) front first)
      obtain rfl : s₁ = s' := Option.some.inj (hs₁.symm.trans hs')
      have hentries := isEntry_of_twins entries before behind line
      have ho := ho s hs
      rw [InOrder, sectionEntries_eq (childNodes_of_entries hp tokens entries) entries] at ho
      rw [InOrder, sectionEntries_eq (childNodes_of_twins entries before behind line hp' tokens words) hentries]
      obtain ⟨hx, hy⟩ := suits ho
      have hrank {zs zs' : List Node} (hz : List.Forall₂ (Twin text t' L S) zs zs') {P : Text → Prop}
          (hP : ∀ z ∈ zs, P z.typeOfEntry) : ∀ z ∈ zs', P z.typeOfEntry := fun z hzm => by
        have hm : z.typeOfEntry ∈ zs.map typeOfEntry := map_typeOfEntry hS hz ▸ List.mem_map_of_mem hzm
        obtain ⟨y, hym, hyz⟩ := List.mem_map.mp hm
        exact hyz ▸ hP y hym
      -- The old entries have the same types in both texts, so they keep their order.
      have hold : ((xs ++ ys).map typeOfEntry).Pairwise fun a b => Text.typeRank a ≤ Text.typeRank b :=
        List.pairwise_map.mpr ho
      have htypes : (xs ++ ys).map typeOfEntry = (xs' ++ ys').map typeOfEntry :=
        map_typeOfEntry hS (List.rel_append before behind)
      rw [htypes] at hold
      obtain ⟨hxs, hys, hxy⟩ := List.pairwise_append.mp (List.pairwise_map.mp hold)
      refine List.pairwise_append.mpr ⟨hxs, List.pairwise_cons.mpr ⟨?_, hys⟩, fun a ha b hb => ?_⟩
      · rw [line.type, ht]
        exact hrank behind (P := fun t => Text.typeRank v.type ≤ Text.typeRank t) hy
      · rcases List.mem_cons.mp hb with rfl | hb
        · rw [line.type, ht]
          exact hrank before (P := fun t => Text.typeRank t ≤ Text.typeRank v.type) hx a ha
        · exact hxy a ha b hb
  | @opened as as' bs bs' s w d hc hc' none kind hp token front back line =>
      have hs := child?_of_parts hc' kind (kinds_of_twins (P := fun k => k ≠ n.kind.sectionKind) front
        fun a ha => none a (List.mem_append_left _ ha))
      obtain rfl : s = s' := Option.some.inj (hs.symm.trans hs')
      rw [InOrder, sectionEntries_eq (childNodes_of_opened hp token line) (by simp [line.kind])]
      exact List.pairwise_singleton _ _

variable (hn : n' ∈ (parse t').nodes) (hk : n'.kind = n.kind)

include hn hk

/-- The variable is declared in the first section, or in a new one. -/
theorem oneMore : OneMore (v.name, v.declaredType) (n.varSections.map contents) (n'.varSections.map contents) := by
  rw [varSections, varSections, childrenOf, childrenOf, hk]
  cases h with
  | @extended as as' bs bs' ws ws' xs xs' ys ys' s s' d hc hc' first kind kind' hp hp' tokens entries suits beside
      front back words before behind line =>
      have hfirst := kinds_of_twins (P := fun k => k ≠ n.kind.sectionKind) front first
      have hs : s.contents = (xs.flatMap entryDeclarations).map declared ++
          (ys.flatMap entryDeclarations).map declared := by
        rw [contents, sectionDeclarations_eq, childNodes_of_entries hp tokens entries, List.flatMap_append,
          List.map_append]
      have hd : d ∈ (parse t').nodes := by
        have hs' : s' ∈ n'.children := by rw [hc']; simp
        exact mem_nodes_of_child (mem_nodes_of_child hn hs') (by rw [hp']; simp)
      have hs' : s'.contents = (xs.flatMap entryDeclarations).map declared ++
          (v.name, v.declaredType) :: (ys.flatMap entryDeclarations).map declared := by
        rw [contents, sectionDeclarations_eq, childNodes_of_twins entries before behind line hp' tokens words,
          List.flatMap_append, List.flatMap_cons, line.entryDeclarations, List.map_append, List.map_append,
          List.map_singleton, line.declared hd, ← declared_entries hS before, ← declared_entries hS behind]
        rfl
      rw [hc, hc', List.filter_append, List.filter_append, filter_is_of_ne first, filter_is_of_ne hfirst,
        List.nil_append, List.nil_append, List.filter_cons_of_pos (by simp [is, kind]),
        List.filter_cons_of_pos (by simp [is, kind']), List.map_cons, List.map_cons, hs, hs',
        map_contents hS back]
      exact .first
  | @opened as as' bs bs' s w d hc hc' none kind hp token front back line =>
      have hno : ∀ x ∈ as' ++ bs', x.kind ≠ n.kind.sectionKind :=
        kinds_of_twins (P := fun k => k ≠ n.kind.sectionKind) (List.rel_append front back) none
      have hd : d ∈ (parse t').nodes := by
        have hs : s ∈ n'.children := by rw [hc']; simp
        exact mem_nodes_of_child (mem_nodes_of_child hn hs) (by rw [hp]; simp)
      have hs : s.contents = [(v.name, v.declaredType)] := by
        rw [contents, sectionDeclarations_of_line (childNodes_of_opened hp token line) line, List.map_singleton,
          line.declared hd]
      rw [hc, hc', filter_is_of_ne none, List.filter_append,
        filter_is_of_ne fun x hx => hno x (List.mem_append_left _ hx), List.nil_append,
        List.filter_cons_of_pos (by simp [is, kind]),
        filter_is_of_ne fun x hx => hno x (List.mem_append_right _ hx), List.map_nil, List.map_singleton, hs]
      exact .fresh

end Gains

end

/-- A text is read with one more variable in a scope of another text, and otherwise with the trees of
this text. -/
structure AddsVariable (text t' : Text) (v : Variable) (n n' : Node) : Prop where
  ok : (parse t').ok
  mem : n' ∈ (parse t').nodes
  id : n'.id = n.id
  trees : ∃ (o : Hole) (t u d : Tree),
    (Tree.node NodeKind.compilationUnit (o.plug t)).ShownBy (parse text).root ∧ t.ShownBy n ∧
    (Tree.node NodeKind.compilationUnit (o.plug u)).ShownBy (parse t').root ∧ u.ShownBy n' ∧
    d.kind = NodeKind.variableDeclaration ∧ d.leaves = Lexeme.solid (lex v.sectionLine) ∧ Rescoped d t u
  contents : OneMore (v.name, v.declaredType) (n.varSections.map contents) (n'.varSections.map contents)
  inOrder : Text.typeRank v.declaredType = Text.typeRank v.type →
    (∀ s, n.child? n.kind.sectionKind = some s → s.InOrder) →
    ∀ s', n'.child? n.kind.sectionKind = some s' → s'.InOrder

variable {text : Text} {n : Node} {v : Variable}

/-- A variable whose line is one declaration can be declared in every procedure, trigger or object with a
body. Where it goes onto a line of its own, the new text is without errors, declares the variable at one
place of this scope, and is read as before otherwise. Where the entries of the first section were ordered
by their types they still are, unless comments hide what the type starts with. -/
theorem declare?_adds (h : (parse text).ok) (hn : n ∈ (parse text).nodes) (hk : n.IsScope) (hv : v.Declarable) :
    ∃ e, n.declare? v = some e ∧ (e.OnOwnLine text →
      ∃ t' n', Edit.apply [e] text = .ok t' ∧ AddsVariable text t' v n n') := by
  have hkind : n.kind.isMethod ∨ n.kind.isObject := hk.imp (·.1) (·.1)
  obtain ⟨o, j, cs, hf, hi, hs⟩ := exists_scopeTree h hn hkind
  obtain ⟨m, w, -, -, -, hp, -⟩ := exists_sectionPlace? h hs hk
  obtain ⟨e, he⟩ := exists_declare? (v := v) (by rwa [Bool.or_eq_true]) ⟨_, hp⟩
  refine ⟨e, he, fun ho => ?_⟩
  obtain ⟨t', n', gap, core, behind, L, B, H, M, hr⟩ := exists_reread h hn (.inr hk) hv he ho
  obtain ⟨o, t, u, d, hf, hf', hi, hdk, hdl, hresc⟩ := hr.trees
  refine ⟨t', n', hr.text_eq ▸ hr.joins.apply, hr.ok, hr.mem, hr.id, ⟨o, t, u, d, ?_, ?_, ?_, ?_, hdk, hdl, hresc⟩,
    hr.gains.oneMore hr.spliced hr.mem hr.kind, fun ht ho s' hs' => hr.gains.inOrder hr.spliced ht hs' ho⟩
  · rw [← hf]
    exact root_shows text
  · exact shownBy_of_plug hf hn hi
  · rw [← hf']
    exact root_shows t'
  · exact shownBy_of_plug hf' hr.mem (hr.id.trans hi)

/-- A record goes before the variables of simpler types. -/
theorem declare?_adds_record :
    let text : Text := "codeunit 1 A \x7b\n  var\n    a: Integer;\n\x7d"
    let v := Variable.plain "x" "Record X"
    (parse text).ok ∧ v.Declarable ∧ ∃ n ∈ (parse text).nodes, n.IsScope ∧
      ∃ e, n.declare? v = some e ∧ e.OnOwnLine text ∧
        ∃ t' n', Edit.apply [e] text = .ok t' ∧ AddsVariable text t' v n n' := by
  intro text v
  have hn : (parse text).ok ∧ ∃ n ∈ (parse text).nodes, (n.kind.isObject ∧
      (n.lastChild? TokenKind.rBrace).isSome) ∧ n.declare? v = some (Edit.insert 21 "    x: Record X;\n") := by
    decide +kernel
  have hv : v.Declarable := ⟨by decide +kernel, by decide +kernel, by decide +kernel, by decide +kernel⟩
  obtain ⟨hok, n, hm, ⟨hk, hb⟩, he⟩ := hn
  have hs : n.IsScope := .inr ⟨hk, Option.isSome_iff_exists.mp hb⟩
  obtain ⟨e, he', hadds⟩ := declare?_adds hok hm hs hv
  obtain rfl : Edit.insert 21 "    x: Record X;\n" = e := Option.some.inj (he.symm.trans he')
  have ho : (Edit.insert 21 "    x: Record X;\n").OnOwnLine text := .inl (by decide +kernel)
  exact ⟨hok, hv, n, hm, hs, _, he, ho, hadds ho⟩

/-- A comment in front of a type hides the word that it starts with: the record goes behind the codeunit,
and the entries of the section are not in order any more. -/
theorem declare?_disorders :
    let text : Text := "codeunit 1 A \x7b\n  var\n    a: Codeunit X;\n    b: Integer;\n\x7d"
    let t' : Text := "codeunit 1 A \x7b\n  var\n    a: Codeunit X;\n    x: /**/Record X;\n    b: Integer;\n\x7d"
    let v := Variable.plain "x" "/**/Record X"
    let e := Edit.insert 40 "    x: /**/Record X;\n"
    (parse text).ok ∧ v.Declarable ∧
      (∃ n ∈ (parse text).nodes, n.IsScope ∧ n.declare? v = some e ∧
        ∃ s ∈ n.child? n.kind.sectionKind, s.InOrder) ∧
      e.OnOwnLine text ∧ Edit.apply [e] text = .ok t' ∧
      ∃ n ∈ (parse t').nodes, n.kind = NodeKind.codeunitObject ∧
        ∃ s ∈ n.child? n.kind.sectionKind, ¬ s.InOrder := by
  intro text t' v e
  have hn : (parse text).ok ∧ ∃ n ∈ (parse text).nodes, (n.kind.isObject ∧
      (n.lastChild? TokenKind.rBrace).isSome) ∧ n.declare? v = some e ∧
        ∃ s ∈ n.child? n.kind.sectionKind, s.InOrder := by
    decide +kernel
  obtain ⟨hok, n, hm, ⟨hk, hb⟩, he, hs⟩ := hn
  refine ⟨hok, ⟨by decide +kernel, by decide +kernel, by decide +kernel, by decide +kernel⟩,
    ⟨n, hm, .inr ⟨hk, Option.isSome_iff_exists.mp hb⟩, he, hs⟩, .inl (by decide +kernel), ?_, by decide +kernel⟩
  have ha : Edit.apply [e] text = .ok (Edit.rewritten [e] 0 text) :=
    Edit.apply_apart (by decide) (by decide) (by decide)
  rw [ha]
  exact congrArg _ (by decide +kernel)

end Node

end AlRefactor
