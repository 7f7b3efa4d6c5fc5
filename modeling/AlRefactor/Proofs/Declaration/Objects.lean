import AlRefactor.Proofs.Edit.Insertion
import AlRefactor.Proofs.Syntax.Offsets

/-!
# Procedures stand in objects

Where nothing is wrong with a text, every procedure, trigger or section stands in an object with
braces. So there is always a place for one more procedure and for one more variable.
-/

namespace AlRefactor

open SyntaxTree

namespace Kind

/-- Procedures, triggers and sections. -/
def isMember (k : Kind) : Bool := k.isMethod || k == NodeKind.sectionDeclaration

theorem of_isMember {k : Kind} (h : k.isMember) : k.isObject = false := by
  rcases k with k | k
  · cases h
  · cases k <;> first | rfl | cases h

end Kind

namespace NodeKind

theorem production_of_isObject {k : NodeKind} (h : k.isObject) : k.production = Pattern.object := by
  cases k <;> first | rfl | cases h

/-- Procedures, triggers and sections stand in objects and sections only. -/
theorem symbols_of_not_isObject {k : NodeKind} (h : k.isObject = false)
    (hs : k ≠ .sectionDeclaration) :
    (Pattern.symbols k.production).all fun s => !s.kind.isMember := by
  cases k <;> first | exact absurd rfl hs | decide +kernel | cases h

/-- The variables of a procedure or trigger stand nowhere else. -/
theorem symbols_of_not_isMethod {k : NodeKind} (h : k.isMethod = false) :
    (Pattern.symbols k.production).all fun s => s.kind != NodeKind.varSection := by
  cases k <;> first | decide +kernel | cases h

/-- Objects stand in a file and nowhere else, and a file in nothing. -/
theorem symbols_of_ne_compilationUnit {k : NodeKind} (h : k ≠ .compilationUnit) :
    (Pattern.symbols k.production).all fun s =>
      !s.kind.isObject && s.kind != NodeKind.compilationUnit := by
  cases k <;> first | exact absurd rfl h | decide +kernel

end NodeKind

/-- An object with a member has braces. -/
theorem Pattern.rBrace_of_member {w : List Symbol} (h : w ∈ object.matches') {s : Symbol}
    (hs : s ∈ w) (hk : s.kind.isMember) : ∃ b ∈ w, b.kind = TokenKind.rBrace := by
  obtain ⟨u, hu, v, hv, rfl⟩ := h
  rcases List.mem_append.mp hs with hs | hs
  · have hp : (symbols (token .ident * optional (node .objectId) * node .identifierName *
        optional (node .extendsClause) * optional (node .implementsClause))).all fun s =>
          !s.kind.isMember := rfl
    have := all_symbols hp hu s hs
    rw [hk] at this
    cases this
  · rcases hv with hv | hv
    · obtain ⟨b, hb, hbk⟩ := exists_of_requires (k := TokenKind.rBrace) rfl hv
      exact ⟨b, List.mem_append_right _ hb, hbk⟩
    · rw [show v = [] from hv] at hs
      cases hs

variable {text : Text} {n m o b : Node}

namespace SyntaxTree

theorem exists_above (hn : n ∈ (parse text).nodes) (hi : n.id ≠ 0) :
    ∃ p ∈ (parse text).nodes, n ∈ p.children :=
  exists_parent_of_below (n := (parse text).root) hn (below_root hn) (Ne.symm hi)

theorem exists_rBrace (h : (parse text).ok) (ho : o ∈ (parse text).nodes) (hok : o.kind.isObject)
    (hn : n ∈ o.children) (hk : n.kind.isMember) :
    ∃ b, o.lastChild? TokenKind.rBrace = some b := by
  obtain ⟨_, hnk, _⟩ | ⟨k, hnk, hw⟩ := token_or_rule h ho
  · rw [hnk] at hok
    cases hok
  · rw [hnk] at hok
    rw [NodeKind.production_of_isObject hok] at hw
    obtain ⟨s, hs, hsk⟩ := Pattern.rBrace_of_member hw (List.mem_map_of_mem hn)
      (by rw [kind_symbol]; exact hk)
    obtain ⟨b, hb, rfl⟩ := List.mem_map.mp hs
    exact Node.exists_lastChild? hb (by rw [← kind_symbol, hsk])

/-- Every procedure, trigger or section stands in an object with braces. -/
theorem exists_object (h : (parse text).ok) (hn : n ∈ (parse text).nodes) (hk : n.kind.isMember) :
    ∃ o b, n.object? = some o ∧ o.kind.isObject ∧ o.lastChild? TokenKind.rBrace = some b := by
  induction hi : n.id using Nat.strong_induction_on generalizing n with
  | _ i ih =>
      subst hi
      have hn0 : n.id ≠ 0 := fun hi => by
        rw [kind_root hn hi] at hk
        cases hk
      obtain ⟨p, hp, hnp⟩ := exists_above hn hn0
      have ha : n.object? = p.object? := by
        rw [Node.object?, ancestors_of_mem_children hp hnp, List.find?_cons, Kind.of_isMember hk]
        rfl
      rw [ha]
      by_cases hpo : p.kind.isObject
      · obtain ⟨b, hb⟩ := exists_rBrace h hp hpo hnp hk
        exact ⟨p, b, by rw [Node.object?, Node.ancestors, List.find?_cons, hpo], hpo, hb⟩
      · refine ih p.id (parent_of_mem_children hp hnp).1 hp ?_ rfl
        obtain ⟨_, _, hc⟩ | ⟨k, hpk, hw⟩ := token_or_rule h hp
        · rw [hc] at hnp
          cases hnp
        · rw [hpk] at hpo ⊢
          by_cases hs : k = .sectionDeclaration
          · rw [hs]
            rfl
          · have hp := NodeKind.symbols_of_not_isObject ((Bool.not_eq_true _).mp hpo) hs
            have := Pattern.all_symbols hp hw n.symbol (List.mem_map_of_mem hnp)
            rw [kind_symbol, hk] at this
            cases this

/-- A section of local variables is a child of a procedure or trigger. -/
theorem exists_method_of_section (h : (parse text).ok) (hn : n ∈ (parse text).nodes)
    (hk : n.kind = NodeKind.varSection) :
    ∃ m ∈ (parse text).nodes, n ∈ m.children ∧ m.kind.isMethod := by
  obtain ⟨p, hp, hnp⟩ := exists_above hn fun hi => by cases hk.symm.trans (kind_root hn hi)
  refine ⟨p, hp, hnp, ?_⟩
  obtain ⟨_, _, hc⟩ | ⟨k, hpk, hw⟩ := token_or_rule h hp
  · rw [hc] at hnp
    cases hnp
  · rw [hpk]
    by_contra hm
    have hs := NodeKind.symbols_of_not_isMethod ((Bool.not_eq_true _).mp hm)
    have := Pattern.all_symbols hs hw n.symbol (List.mem_map_of_mem hnp)
    rw [kind_symbol, hk] at this
    cases this

/-- No object stands in a procedure or trigger. -/
theorem not_below_method (h : (parse text).ok) (hm : m ∈ (parse text).nodes)
    (ho : o ∈ (parse text).nodes) (hmk : m.kind.isMethod) (hok : o.kind.isObject) :
    ¬ Below (parse text).entries m.id o.id := by
  intro hb
  have hq := @below_induction text _ _ (fun a => a.kind.isObject = false ∧
    a.kind ≠ NodeKind.compilationUnit) (fun a ha hq c hc => ?_) hm ho hb
      ⟨(Kind.of_isMethod hmk).1, fun hk => by rw [hk] at hmk; cases hmk⟩
  · rw [hok] at hq
    cases hq.1
  · obtain ⟨_, _, hn⟩ | ⟨k, hak, hw⟩ := token_or_rule h ha
    · rw [hn] at hc
      cases hc
    · have hs := NodeKind.symbols_of_ne_compilationUnit (k := k) fun hk => hq.2 (by rw [hak, hk])
      have := Pattern.all_symbols hs hw c.symbol (List.mem_map_of_mem hc)
      rw [kind_symbol] at this
      simpa using this

end SyntaxTree

/-! ## Places -/

theorem Placement.exists_insert? {p : Placement} {current : Option Node} {name : Text}
    {access : Access} {lines : List Text} (ho : o.kind.isObject)
    (hb : o.lastChild? TokenKind.rBrace = some b) :
    ∃ e, p.insert? o current name access lines = some e := by
  obtain ⟨a, ha⟩ : ∃ a, p.anchor? o current name access = some a := by
    rw [← Option.isSome_iff_exists]
    simp [anchor?, hb]
  rw [insert?, if_pos ho, ha]
  exact ⟨_, rfl⟩

namespace Node

variable {v : Variable}

/-- A variable can be declared where a new section has a place. -/
theorem exists_declare? (hk : n.kind.isMethod || n.kind.isObject)
    (hp : ∃ place, n.sectionPlace? = some place) : ∃ e, n.declare? v = some e := by
  obtain ⟨place, hp⟩ := hp
  have hs : ∀ k : NodeKind, ∃ e,
      (n.child? k).elim (n.insertSection? v) (fun s => some (s.addToSection v)) = some e := by
    intro k
    cases n.child? k with
    | some s => exact ⟨_, rfl⟩
    | none =>
        rw [Option.elim_none, insertSection?, hp]
        exact ⟨_, rfl⟩
  rw [declare?_eq]
  split
  · exact hs _
  · rename_i hm
    rw [Bool.or_eq_true, or_iff_right hm] at hk
    rw [if_pos hk]
    exact hs _

end Node

end AlRefactor
