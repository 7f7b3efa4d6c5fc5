import AlRefactor.Proofs.Action.Changes
import AlRefactor.Proofs.Action.Offers
import AlRefactor.Proofs.Action.Variables
import AlRefactor.Proofs.Edit.Ranges

/-!
# What is looked for in a text is there

Texts that nothing is known about are read and changed by cutting pieces out of them and by going from
node to node. Whatever is wrong with a text, each range that is cut out starts before it ends, ends in
the text and between characters, each number of a node or an entry is in its tree or list, and what is
taken for a declaration is one.
-/

namespace AlRefactor

open SyntaxTree

/-! ## Texts -/

namespace Label

/-- The words of a literal as one name, before it is cut to its length. -/
def joined (content : Text) : Text := (words content).flatMap wordName

theorem utf8Size_of_mem_joined {content : Text} {c : Char} (h : c ∈ joined content) :
    c.utf8Size = 1 := by
  obtain ⟨w, _, h⟩ := List.mem_flatMap.mp h
  rw [wordName] at h
  split at h
  · cases h
  · rename_i d t hd
    have hp : ∀ e ∈ d :: t, e.utf8Size = 1 := fun e he => Text.utf8Size_of_mem_plain (hd ▸ he)
    rcases List.mem_cons.mp h with rfl | h
    · exact Text.utf8Size_toUpper (hp d List.mem_cons_self)
    · exact hp c (.tail _ h)

/-- What comes of a name with a word put in front of it. -/
theorem utf8Size_of_mem_prefixed {content : Text} {c : Char}
    (h : c ∈ "Text".toList ++ (joined content).take baseLength) : c.utf8Size = 1 := by
  rcases List.mem_append.mp h with h | h
  · have ht : "Text".toList.all fun c => c.utf8Size == 1 := by decide
    exact beq_iff_eq.mp (List.all_eq_true.mp ht c h)
  · exact utf8Size_of_mem_joined (List.mem_of_mem_take h)

end Label

namespace Text

/-- Types are cut into pieces of them, and made-up names between their characters. -/
structure InBounds (t : Text) : Prop where
  typeWord : t.typeWord <+: t.trim
  namedObject : ∀ word name, t.namedObject? = some (word, name) → word <+: t.trim ∧ name <:+: t.trim
  labelName : ∀ k ≤ size (Label.joined t), (Label.joined t).isBoundary k
  labelText : let name : Text := "Text".toList ++ (Label.joined t).take Label.baseLength
    ∀ k ≤ size name, name.isBoundary k

variable {t : Text}

theorem infix_of_namedObject? {word name : Text} (h : t.namedObject? = some (word, name)) :
    word = t.typeWord ∧ name <:+: t.trim := by
  have hs : trimStart (t.trim.drop t.typeWord.length) <:+ t.trim :=
    (List.dropWhile_suffix _).trans (List.drop_suffix _ _)
  rw [namedObject?] at h
  dsimp only at h
  split at h
  · cases h
  · rename_i rest hr
    obtain ⟨⟨a, b⟩, ha, h⟩ := Option.map_eq_some_iff.mp h
    cases h
    refine ⟨rfl, List.IsInfix.trans ?_ (hr ▸ hs).isInfix⟩
    rw [(cutAt?_eq_some.mp ha).1]
    exact ⟨[], b, by simp⟩
  · cases h
    exact ⟨rfl, (List.takeWhile_prefix _).isInfix.trans hs.isInfix⟩

theorem inBounds (t : Text) : t.InBounds := by
  refine ⟨List.takeWhile_prefix _, fun word name h => ?_,
    fun _ => isBoundary_of_all fun _ => Label.utf8Size_of_mem_joined,
    fun _ => isBoundary_of_all fun _ => Label.utf8Size_of_mem_prefixed⟩
  obtain ⟨rfl, hn⟩ := infix_of_namedObject? h
  exact ⟨List.takeWhile_prefix _, hn⟩

end Text

/-! ## Nodes -/

namespace Node

/-- What is looked up and cut out for a node is in its tree and in its text: its relatives, its ranges,
its line and whole lines, the runs of names that are removed from it, the value of a property and the
header of a procedure. -/
structure InBounds (n : Node) : Prop where
  parent : ∀ i ∈ n.entry.parent, i < n.tree.size
  children : ∀ i ∈ n.entry.children, i < n.tree.size
  subtree : n.entry.next ≤ n.tree.size
  span : n.tree.text.HasRange n.span
  full : n.tree.text.HasRange n.full
  line : n.tree.text.HasRange ⟨n.lineStart, n.start⟩
  indent : n.tree.text.HasRange ⟨n.lineStart, n.lineStart + n.lineIndent.size⟩
  lines : ∃ w, n.tree.text.wholeLines? n.span = some w ∧ n.tree.text.HasRange w
  names : ∀ doomed, let names := n.childrenOf NodeKind.variableDeclarationName
    names.all doomed = false → names.dropWhile doomed ≠ [] ∧
      ∀ r ∈ doomedRuns doomed none names, n.tree.text.HasRange r
  value : ∀ eq ∈ n.child? TokenKind.eq,
    let stop := ((n.lastChild? TokenKind.semicolon).map (·.start)).getD n.stop
    eq.stop < stop → n.tree.text.HasRange ⟨eq.stop, stop⟩
  header : ∀ first ∈ n.children.find? fun c => !c.is NodeKind.memberAttribute,
    ∀ last ∈ (n.child? NodeKind.returnValue).or (n.child? NodeKind.parameterList),
      n.tree.text.HasRange ⟨first.start, last.stop⟩

/-- What is taken for a declaration below a node is one, and a procedure that lacks parameters has no
more of them than there are arguments. -/
structure WellRead (n : Node) : Prop where
  declarations : ∀ m ∈ n.sectionDeclarations, m.variableOf = .ok m.toVariable
  parameters : ∀ m ∈ n.parameterNodes, m.parameterOf = .ok m.toParameter
  returned : ∀ m ∈ n.child? NodeKind.returnValue, m.returnValueOf = .ok m.toReturnValue
  candidates : ∀ exactOnly name arguments,
    ∀ c ∈ CallTarget.candidates exactOnly (n.proceduresNamed name) arguments,
      c.1.roleOf = .ok c.1.role ∧ c.1.parameters.length ≤ arguments.length

variable {text : Text} {n m : Node} {s : Selection}

theorem hasRange_value {e : Node} (hn : n ∈ (parse text).nodes)
    (he : n.child? TokenKind.eq = some e) {stop : Nat}
    (hs : ((n.lastChild? TokenKind.semicolon).map (·.start)).getD n.stop = stop)
    (hlt : e.stop < stop) : text.HasRange ⟨e.stop, stop⟩ := by
  have hen := mem_nodes_of_child hn (mem_of_child? he).1
  refine Text.hasRange_iff.mpr ⟨Nat.le_of_lt hlt, (isBoundary_span hen).2, ?_⟩
  cases hl : n.lastChild? TokenKind.semicolon with
  | none =>
      rw [hl] at hs
      exact hs ▸ (isBoundary_span hn).2
  | some b =>
      rw [hl] at hs
      exact hs ▸ (isBoundary_span (mem_nodes_of_child hn (mem_of_lastChild? hl).1)).1

theorem inBounds (hn : n ∈ (parse text).nodes) : n.InBounds := by
  obtain ⟨ht, he⟩ := of_mem_nodes hn
  have hsize : n.tree.size = (parse text).entries.size := by rw [ht]; rfl
  have hb := isBoundary_span hn
  refine ⟨fun i hi => ?_, fun i hi => ?_, ?_, ?_, ?_, ?_, ?_, ?_, fun doomed => ?_, fun e h => ?_,
    fun a ha b hb => ?_⟩
  all_goals simp only [lineStart, lineIndent, hsize, tree_text hn]
  · by_cases h0 : n.id = 0
    · obtain ⟨_, hr, _, hp⟩ := (preorder_entries text).root
      rw [h0] at he
      rw [Option.some.inj (he.symm.trans hr), hp] at hi
      cases hi
    · obtain ⟨p, hlt, hp, _⟩ := (preorder_entries text).parent _ _ he h0
      obtain rfl := Option.some.inj (hp.symm.trans hi)
      exact Nat.lt_trans hlt (Array.getElem?_eq_some_iff.mp he).1
  · obtain ⟨_, _, hf, _⟩ := parent_of_child he hi
    exact (Array.getElem?_eq_some_iff.mp hf).1
  · exact ((preorder_entries text).subtree _ _ he).1
  · exact hasRange_span hn
  · exact hasRange_full hn
  · exact Text.hasRange_line hb.1
  · exact Text.hasRange_lineIndent hb.1
  · obtain ⟨w, hw, hr⟩ := hasAddress_wholeLines hn
    exact ⟨w, hw, hr.hasRange⟩
  · refine fun ha => ⟨fun hd => ?_, fun r hr => (hasAddress_doomedRuns hn _ r hr).hasRange⟩
    rw [List.dropWhile_eq_nil_iff] at hd
    rw [List.all_eq_true.mpr hd] at ha
    cases ha
  · exact hasRange_value hn h rfl
  · exact hasRange_header hn ha hb

theorem variableOf_of_section {v : Node} (hm : m ∈ v.sectionDeclarations) :
    m.variableOf = .ok m.toVariable := by
  refine if_pos ?_
  obtain ⟨c, _, ⟨hk, rfl⟩ | ⟨_, hm⟩⟩ := mem_sectionDeclarations.mp hm
  · simp [isOneOf, isAny, hk]
  · simp [isOneOf, isAny, (mem_of_childrenOf hm).2]

theorem wellRead (n : Node) : n.WellRead := by
  refine ⟨fun m => variableOf_of_section, fun m hm => ?_, fun m hm => ?_, fun _ _ _ c hc => ?_⟩
  · rw [parameterNodes] at hm
    cases hl : n.child? NodeKind.parameterList with
    | none => rw [hl] at hm; cases hm
    | some l =>
        rw [hl] at hm
        exact if_pos (List.mem_filter.mp hm).2
  · exact if_pos (List.find?_some hm)
  · obtain ⟨hm, hlt⟩ := CallTarget.of_candidates (s := c.2) hc
    refine ⟨if_pos ?_, Nat.le_of_lt hlt⟩
    rw [(mem_proceduresNamed hm).2]
    rfl

theorem removeVariablesOf_ids {t : SyntaxTree} {ds : List Node}
    (h : ∀ d ∈ ds, d.tree = t ∧ d.variableOf = .ok d.toVariable) :
    removeVariablesOf t (ds.map (·.id)) = .ok (undeclare ds) := by
  have hg : (ds.map (·.id)).filterMap t.get? = ds := by
    rw [List.filterMap_map]
    refine (List.filterMap_congr fun d hd => ?_).trans (List.filterMap_some)
    exact get?_eq_some.mpr ⟨(h d hd).1, rfl⟩
  have hf : ds.find? (fun n => !n.isOneOf [.variableDeclaration, .variableDeclarationName]) = none := by
    refine List.find?_eq_none.mpr fun d hd hk => ?_
    have hv := (h d hd).2
    rw [variableOf, if_neg (by simpa using hk)] at hv
    cases hv
  rw [removeVariablesOf, hg, hf]

end Node

/-! ## Selections -/

/-- The range a selection is looked for in, that of its statements, and what these have behind the first
one are ranges of the text. -/
structure Selection.InBounds (t : SyntaxTree) (u : Span) (s : Selection) : Prop where
  selected : t.text.HasRange u
  statements : s.statements ≠ []
  covered : t.text.HasRange s.span
  rest : t.text.HasRange ⟨u.stop, s.span.stop⟩

/-- The variables that statements use are numbers of declarations, those that move can be removed, and
the call of the new procedure has a place in the new text. -/
structure Extraction.InBounds (t : SyntaxTree) (m : Node) (s : Selection) : Prop where
  usages : ∀ u ∈ Extraction.usages (declarations m) (s.statements.flatMap (·.variableUses)),
    u.1 < (declarations m).length
  removed : Node.removeVariablesOf t ((plan m s).removed.map (·.id)) =
    .ok (Node.undeclare (plan m s).removed)
  renamed : ∀ ctx o name es, edits? ctx t m o s name = some es →
    ∃ k, Edit.offsetAfter? es 0 0 = some k

variable {text : Text} {n m : Node} {s : Selection} {span u : Span}

/-- The statements of a selection start and end with a node each. -/
theorem Selection.hasAddress (hu : touched? (parse text) span = some (u, s)) :
    text.HasAddress s.span := by
  obtain ⟨_, b, f, l, _, ht⟩ := of_touched? hu
  obtain ⟨hf, _⟩ := ht.mem_statements (List.mem_of_head? ht.first.1)
  obtain ⟨hl, _⟩ := ht.mem_statements (List.mem_of_getLast? ht.last.1)
  rw [ht.span]
  exact Node.hasAddress_between ht.block.1 hf hl
    (head?_before_getLast? ht.apart ht.first.1 ht.last.1)

theorem Selection.inBounds (hs : text.HasRange span)
    (hu : touched? (parse text) span = some (u, s)) : s.InBounds (parse text) u := by
  have hc := (hasAddress hu).hasRange
  obtain ⟨hu, b, f, l, _, ht⟩ := of_touched? hu
  obtain ⟨hl, _⟩ := ht.mem_statements (List.mem_of_getLast? ht.last.1)
  have hur := (Text.hasRange_trimSpan? hs hu).1
  have hlb := Node.isBoundary_span (mem_nodes_of_child ht.block.1 hl)
  refine ⟨hur, fun hn => ?_, hc, ?_⟩
  · have := ht.first.1
    rw [hn] at this
    cases this
  · rw [ht.span]
    exact Text.hasRange_iff.mpr ⟨ht.last.2, (Text.hasRange_iff.mp hur).2.2, hlb.2⟩

/-- The procedure around the statements of a selection. -/
theorem Selection.mem_method (hu : touched? (parse text) span = some (u, s))
    (hm : s.statements.head?.bind (·.method?) = some m) :
    m ∈ (parse text).nodes ∧ m.kind.isMethod := by
  obtain ⟨_, b, f, l, _, ht⟩ := of_touched? hu
  obtain ⟨hf, _⟩ := ht.mem_statements (List.mem_of_head? ht.first.1)
  rw [ht.first.1, Option.bind_some] at hm
  have hfn := mem_nodes_of_child ht.block.1 hf
  exact ⟨(below_of_mem_ancestors hfn (List.mem_of_find?_eq_some hm)).1,
    by simpa using List.find?_some hm⟩

theorem Extraction.inBounds (hsize : text.size < 2 ^ 32) (hm : m ∈ (parse text).nodes)
    (hs : s.InBounds (parse text) u) : Extraction.InBounds (parse text) m s := by
  refine ⟨fun v hv => ?_, Node.removeVariablesOf_ids fun d hd => ?_, fun ctx o name es he => ?_⟩
  · rw [usages_eq] at hv
    obtain ⟨i, hi, rfl⟩ := List.mem_map.mp hv
    obtain ⟨r, _, hr⟩ := mem_meanings.mp hi
    exact (List.findIdx?_eq_some_iff_getElem.mp hr).1
  · have hl := mem_removed hd
    refine ⟨mem_nodes.mp (varSection?_of_local hm hl).1, ?_⟩
    rw [Node.localDeclarations] at hl
    cases hv : m.child? NodeKind.varSection with
    | none => rw [hv] at hl; cases hl
    | some v =>
        rw [hv] at hl
        exact Node.variableOf_of_section hl
  · obtain ⟨d, _, rfl⟩ := Option.map_eq_some_iff.mp he
    have hle : s.span.start < 2 ^ 32 :=
      Nat.lt_of_le_of_lt (Text.le_size_of_isBoundary (Text.hasRange_iff.mp hs.covered).2.1) hsize
    exact ⟨_, Option.map_eq_some_iff.mpr
      ⟨_, Option.filter_eq_some_iff.mpr ⟨rfl, by simpa using hle⟩, rfl⟩⟩

/-! ## Trees -/

theorem Token.hasRange {p : Token} (hp : p ∈ text.tokens) : text.HasRange p.span :=
  Text.hasRange_iff.mpr ⟨Nat.le_add_right _ _, Text.isBoundary_token hp⟩

theorem Placed.full_of_isLayout {leading : Nat} {ts : List Token} {p : Placed}
    (hp : p ∈ ofTokens leading ts) (hl : p.isLayout) : p.full = p.token.span := by
  induction ts generalizing leading with
  | nil => cases hp
  | cons t ts ih =>
      unfold ofTokens at hp
      split at hp
      all_goals rcases List.mem_cons.mp hp with rfl | hp
      · rfl
      · exact ih hp
      · exact absurd hl ‹_›
      · exact ih hp

theorem Placed.hasRange_full {p : Placed} (hp : p ∈ ofTokens 0 text.tokens) :
    text.HasRange p.full := by
  have he := (ends_ofTokens (P := fun k => text.isBoundary k) (text.seam_zero).boundary
    (fun t ht => Text.isBoundary_token ht) p hp).2
  refine Text.hasRange_iff.mpr ⟨?_, he⟩
  cases hl : p.isLayout with
  | true =>
      rw [full_of_isLayout hp hl]
      exact p.start_le_stop
  | false =>
      obtain ⟨us, vs, hu⟩ := List.append_of_mem hp
      obtain ⟨hs, he, _⟩ := ((ordered_tokens text).suffix ⟨us, hu.symm⟩).1 hl
      exact Nat.le_trans hs (Nat.le_trans p.start_le_stop he)

/-- What a text is cut into on the way to its tree, what is looked up for the nodes of the tree, and what
is found at a range is there. -/
structure SyntaxTree.InBounds (t : SyntaxTree) : Prop where
  tokens : ∀ p ∈ t.text.tokens, t.text.HasRange p.span
  placed : ∀ p ∈ Placed.ofTokens 0 t.text.tokens, t.text.HasRange p.full
  events : Event.Balanced (reading t.text).1 ∧ Event.Linked (reading t.text).1
  nodes : ∀ n ∈ t.nodes, n.InBounds ∧ n.WellRead
  headers : ∀ span n, Publisher.headerAt? t span = some n → n.roleOf = .ok n.role
  locals : ∀ span n, MoveToGlobal.declarationAt? t span = some n →
    n.variableOf = .ok n.toVariable ∧ Node.removeVariablesOf t [n.id] = .ok (Node.undeclare [n])
  selections : ∀ span u s, t.text.HasRange span → Selection.touched? t span = some (u, s) →
    s.InBounds t u ∧ ∀ m ∈ s.statements.head?.bind (·.method?), Extraction.InBounds t m s

theorem MoveToGlobal.of_declarationAt? (h : declarationAt? (parse text) span = some n) :
    n ∈ (parse text).nodes ∧ n.variableOf = .ok n.toVariable := by
  simp only [declarationAt?, Option.bind_eq_bind, Option.bind_eq_some_iff] at h
  obtain ⟨a, ha, v, _, h⟩ := h
  split at h
  · cases h
    obtain ⟨hn, hk⟩ := of_findAt? ha
    exact ⟨hn, if_pos hk⟩
  · cases h

theorem SyntaxTree.inBounds_parse (hsize : text.size < 2 ^ 32) : (parse text).InBounds := by
  refine ⟨fun p => Token.hasRange, fun p => Placed.hasRange_full,
    ⟨Event.balanced_emit _ _, Event.linked_emit _ _⟩, fun n hn => ⟨n.inBounds hn, n.wellRead⟩,
    fun span n hn => if_pos (Publisher.of_headerAt? hn).2.1, fun span n hn => ?_,
    fun span u s hs hu => ?_⟩
  · obtain ⟨hnn, hv⟩ := MoveToGlobal.of_declarationAt? hn
    have hd : ∀ d ∈ [n], d.tree = parse text ∧ d.variableOf = .ok d.toVariable := fun d hd => by
      obtain rfl := List.mem_singleton.mp hd
      exact ⟨mem_nodes.mp hnn, hv⟩
    exact ⟨hv, Node.removeVariablesOf_ids hd⟩
  · have hb := Selection.inBounds hs hu
    exact ⟨hb, fun m hm => Extraction.inBounds hsize (Selection.mem_method hu hm).1 hb⟩

end AlRefactor
