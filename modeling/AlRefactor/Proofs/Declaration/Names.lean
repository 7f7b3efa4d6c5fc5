import AlRefactor.Declaration.Lookup
import AlRefactor.Proofs.Declaration.Gains
import AlRefactor.Proofs.Grammar.DeclaredNames
import AlRefactor.Proofs.Syntax.Precedence
import AlRefactor.Proofs.Syntax.Recovery

/-!
# What is in scope has a name

Where nothing is wrong with a text, all that a procedure can name without a document of another object,
variables, parameters and a return value, is declared with a single token that is a name.
-/

namespace AlRefactor

open AlRefactor.Tree SyntaxTree Lexeme Grammar

/-- A token is read the same on its own. -/
theorem Lexeme.lex_text {t : Text} {l : Lexeme} (h : l ∈ lex t) : lex l.text = [l] := by
  obtain ⟨L, M, hl⟩ := List.append_of_mem h
  have hr : lex (l.text ++ M.flatMap (·.text)) = [l] ++ M := lex_rest (L := L) hl
  cases M with
  | nil => simpa using hr
  | cons m M =>
      have hm : m.text ≠ [] := text_ne_nil (t := t) (by rw [hl]; simp)
      have hl := lex_append_parted (v := []) hr (by simp) (by simp [hm]) ⟨.inr (by simp), by simp⟩
      simpa [lex] using hl

namespace SyntaxTree

variable {text : Text} {n : Node}

/-- What kind a token has tells what can be written there. -/
theorem matches_of_token (hn : n ∈ (parse text).nodes) {k : TokenKind} (hk : n.kind = k) (he : k ≠ .error) :
    k.Matches n.text :=
  matches_of_mem_lex (mem_lex_of_token hn hk he) he

/-- A mark among the nodes has the spelling of its kind. -/
theorem text_of_mark (hn : n ∈ (parse text).nodes) {k : TokenKind} {v : Text} (hk : n.kind = k)
    (hv : (v, k) ∈ TokenKind.marks) : n.text = v := by
  refine eq_of_mark hv (matches_of_token hn hk ?_)
  rintro rfl
  simp [TokenKind.marks] at hv

end SyntaxTree

namespace Node

variable {text : Text} {n m d : Node}

/-- The node shows a tree whose identifiers are names. -/
def ShowsNames (n : Node) : Prop := ∃ t : Tree, t.ShownBy n ∧ Everywhere Named t

theorem ShowsNames.child (h : n.ShowsNames) (hm : m ∈ n.children) : m.ShowsNames := by
  obtain ⟨t, hs, ht⟩ := h
  obtain ⟨k, ts, rfl, u, hu, hus⟩ := hs.child hm
  exact ⟨u, hus, Hole.everywhere_of_mem ht.2 hu⟩

/-- An identifier that is a name has the text of an identifier. -/
theorem ShowsNames.isIdentifier_text (h : n.ShowsNames) (hn : n ∈ (parse text).nodes)
    (hk : n.kind = NodeKind.identifierName) : n.text.isIdentifier := by
  obtain ⟨t, hs, ht⟩ := h
  have htk := hs.kind.symm.trans hk
  cases t with
  | leaf => cases htk
  | node j us =>
      obtain ⟨l, hl, rfl⟩ := ht.1 htk
      obtain ⟨q, qs, hq, ⟨hqk, hqt, -⟩, hqs⟩ := hs.2.exists_cons
      obtain rfl : qs = [] := hqs
      have hqn := mem_nodes_of_child hn (hq ▸ List.mem_singleton_self q)
      have hi : n.id ≠ 0 := fun hi => by cases hk.symm.trans (kind_root hn hi)
      have hmem := mem_lex_of_token hqn hqk fun he => by rw [he] at hl; cases hl
      rw [text_of_child hn hi hq, Text.isIdentifier, lex_text hmem]
      exact hl

/-- What is declared under a name has an identifier for it. -/
theorem ShowsNames.isIdentifier_name (h : n.ShowsNames) (hn : n ∈ (parse text).nodes) :
    ∀ s ∈ n.name, s.isIdentifier := by
  intro s hs
  rw [name_eq hn] at hs
  split at hs
  · obtain ⟨c, hc, rfl⟩ := Option.map_eq_some_iff.mp hs
    obtain ⟨hc, hk⟩ := mem_of_child? hc
    exact (h.child hc).isIdentifier_text (mem_nodes_of_child hn hc) hk
  · cases hs

/-- The parts of a scope that declare something show names. -/
theorem showsNames_part (h : (parse text).ok) (hn : n ∈ (parse text).nodes)
    (hk : n.kind.isMethod ∨ n.kind.isObject) (hm : m ∈ n.children) (hmk : m.kind ∈ declaringParts) :
    m.ShowsNames := by
  obtain ⟨o, j, cs, hf, hi, hs⟩ := exists_scopeTree h hn hk
  obtain ⟨u, hu, hus⟩ := (shownBy_of_plug hf hn hi).2.exists_of_mem hm
  have hj : j.isMethod ∨ j.isObject := by rwa [hs.kind] at hk
  exact ⟨u, hus, names_scope ((ok_iff text).mp h) hf hj u hu (hus.kind ▸ hmk)⟩

theorem name_toVariable (n : Node) : n.toVariable.name = n.name.getD [] := by
  rw [toVariable]
  cases n.owner? <;> rfl

theorem name_toParameter (n : Node) : n.toParameter.name = n.name.getD [] := by
  rw [toParameter]
  cases n.owner? <;> rfl

section Scope

variable (h : (parse text).ok)
include h

/-- What has to have a name has an identifier for it. -/
theorem ShowsNames.isIdentifier_getD (hn : n ∈ (parse text).nodes) (hs : n.ShowsNames) {k : NodeKind}
    (hk : n.kind = k) (hr : k.production.requires NodeKind.identifierName) (hkn : (Kind.node k).isNamed) :
    Text.isIdentifier (n.name.getD []) := by
  obtain ⟨i, hi⟩ := exists_child? h hn hk hr
  have hname : n.name = some i.text := by
    rw [name_eq hn, hk, if_pos hkn, hi]
    rfl
  exact hname ▸ hs.isIdentifier_name hn _ hname

theorem ShowsNames.sectionDeclarations (hn : n ∈ (parse text).nodes) (hs : n.ShowsNames) :
    ∀ d ∈ n.sectionDeclarations, d.toVariable.name.isIdentifier := by
  intro d hd
  rw [name_toVariable]
  obtain ⟨m, hm, hd⟩ := List.mem_flatMap.mp hd
  have hm := (List.mem_filter.mp hm).1
  have hmn := mem_nodes_of_child hn hm
  split at hd
  · rename_i hk
    obtain rfl := List.mem_singleton.mp hd
    exact (hs.child hm).isIdentifier_getD h hmn (beq_iff_eq.mp hk) rfl rfl
  · split at hd
    · obtain ⟨hd, hk⟩ := mem_of_childrenOf hd
      exact ((hs.child hm).child hd).isIdentifier_getD h (mem_nodes_of_child hmn hd) hk rfl rfl
    · cases hd

theorem isIdentifier_locals (hn : n ∈ (parse text).nodes) (hk : n.kind.isMethod) :
    ∀ v ∈ n.locals, v.name.isIdentifier := by
  intro v hv
  obtain ⟨d, hd, rfl⟩ := List.mem_map.mp hv
  rw [localDeclarations] at hd
  cases hs : n.child? NodeKind.varSection with
  | none => rw [hs] at hd; cases hd
  | some s =>
      rw [hs] at hd
      obtain ⟨hs, hsk⟩ := mem_of_child? hs
      exact (showsNames_part h hn (.inl hk) hs (hsk ▸ by decide)).sectionDeclarations h
        (mem_nodes_of_child hn hs) d hd

theorem isIdentifier_parameters (hn : n ∈ (parse text).nodes) (hk : n.kind.isMethod) :
    ∀ v ∈ n.parameters, v.name.isIdentifier := by
  intro v hv
  obtain ⟨d, hd, rfl⟩ := List.mem_map.mp hv
  rw [parameterNodes] at hd
  cases hs : n.child? NodeKind.parameterList with
  | none => rw [hs] at hd; cases hd
  | some s =>
      rw [hs] at hd
      obtain ⟨hs, hsk⟩ := mem_of_child? hs
      obtain ⟨hd, hdk⟩ := mem_of_childrenOf hd
      rw [name_toParameter]
      exact ((showsNames_part h hn (.inl hk) hs (hsk ▸ by decide)).child hd).isIdentifier_getD h
        (mem_nodes_of_child (mem_nodes_of_child hn hs) hd) hdk rfl rfl

/-- A return value that has a name has an identifier for it. -/
theorem isIdentifier_returned (hn : n ∈ (parse text).nodes) (hk : n.kind.isMethod) :
    ∀ v ∈ n.returnValue?.bind (·.toVariable? none), v.name.isIdentifier := by
  intro v hv
  obtain ⟨r, hr, hv⟩ := Option.bind_eq_some_iff.mp hv
  obtain ⟨s, hs, rfl⟩ := Option.map_eq_some_iff.mp hr
  obtain ⟨hs, hsk⟩ := mem_of_child? hs
  obtain ⟨x, hx, rfl⟩ := Option.map_eq_some_iff.mp hv
  have hv : ((Variable.plain x s.toReturnValue.type).ownedBy? s.toReturnValue.owner).name = x := by
    cases s.toReturnValue.owner <;> rfl
  rw [hv]
  exact (showsNames_part h hn (.inl hk) hs (hsk ▸ by decide)).isIdentifier_name (mem_nodes_of_child hn hs) x hx

theorem isIdentifier_globals (hn : n ∈ (parse text).nodes) (hk : n.kind.isObject) :
    ∀ v ∈ n.globals, v.name.isIdentifier := by
  intro v hv
  obtain ⟨d, hd, rfl⟩ := List.mem_map.mp hv
  obtain ⟨s, hs, hd⟩ := List.mem_flatMap.mp hd
  obtain ⟨hs, hsk⟩ := mem_of_childrenOf hs
  exact (showsNames_part h hn (.inr hk) hs (hsk ▸ by decide)).sectionDeclarations h
    (mem_nodes_of_child hn hs) d hd

/-- All that a procedure can name without a document of another object has an identifier for its name. -/
theorem isIdentifier_scope (hn : n ∈ (parse text).nodes) (hk : n.kind.isMethod) :
    ∀ v ∈ n.locals ++ n.parameters ++ (n.returnValue?.bind (·.toVariable? none)).toList ++
      (n.object?.map (·.globals)).getD [], v.name.isIdentifier := by
  intro v hv
  simp only [List.append_assoc, List.mem_append, Option.mem_toList] at hv
  rcases hv with hv | hv | hv | hv
  · exact isIdentifier_locals h hn hk v hv
  · exact isIdentifier_parameters h hn hk v hv
  · exact isIdentifier_returned h hn hk v hv
  · cases ho : n.object? with
    | none => rw [ho] at hv; cases hv
    | some o =>
        rw [ho] at hv
        have hok : o.kind.isObject := by simpa using List.find?_some ho
        have hon := (below_of_mem_ancestors hn (List.mem_of_find?_eq_some ho)).1
        exact isIdentifier_globals h hon hok v hv

end Scope

end Node

end AlRefactor
