import AlRefactor.Action.Basic
import AlRefactor.Proofs.Syntax.Shape

/-!
# Nodes at an offset

Looking for an offset goes down to every node that the offset is inside of, since no two nodes beside
each other have an offset in common. So a procedure is found again at its name.
-/

namespace AlRefactor

open SyntaxTree

variable {text : Text} {n m i e : Node} {offset : Nat}

namespace SyntaxTree

theorem mem_elementAt (offset : Nat) : (parse text).elementAt offset ∈ (parse text).nodes :=
  mem_descend _ _ (mem_nodes.mpr rfl)

theorem of_findAt? {ks : List Kind} (h : (parse text).findAt? offset ks = some n) :
    n ∈ (parse text).nodes ∧ n.isAny ks :=
  ⟨(below_of_mem_ancestors (mem_elementAt offset) (List.mem_of_find?_eq_some h)).1,
    by simpa using List.find?_some h⟩

theorem of_ancestorAmong? {ks : List Kind} (hn : n ∈ (parse text).nodes)
    (h : n.ancestorAmong? ks = some m) :
    m ∈ (parse text).nodes ∧ Below (parse text).entries m.id n.id ∧ m.isAny ks := by
  obtain ⟨hm, hb⟩ := below_of_mem_ancestors hn (List.mem_of_mem_tail (List.mem_of_find?_eq_some h))
  exact ⟨hm, hb, by simpa using List.find?_some h⟩

/-! ## Going down -/

theorem childAt?_mem (hm : childAt? n offset = some m) : m ∈ n.children := by
  rcases Option.or_eq_some_iff.mp hm with hm | ⟨_, hm⟩
  all_goals exact List.mem_of_find?_eq_some hm

theorem below_descend (fuel : Nat) (hn : n ∈ (parse text).nodes) :
    Below (parse text).entries n.id (descend offset fuel n).id := by
  induction fuel generalizing n with
  | zero => exact .refl _
  | succ fuel ih =>
      rw [descend]
      split
      · have hm := childAt?_mem ‹_›
        exact (below_of_mem_children hn hm).trans (ih (mem_nodes_of_child hn hm))
      · exact .refl _

/-- The child that an offset is inside of is the one that is taken. -/
theorem childAt?_eq (hn : n ∈ (parse text).nodes) (hm : m ∈ n.children)
    (ho : m.span.contains offset) : childAt? n offset = some m := by
  have hf : n.children.find? (·.span.contains offset) = some m := by
    cases hf : n.children.find? (·.span.contains offset) with
    | none => exact absurd ho (List.find?_eq_none.mp hf m hm)
    | some a =>
        have ha := List.find?_some hf
        simp only [Span.contains, Bool.and_eq_true, decide_eq_true_eq] at ha ho
        rcases children_apart hn (List.mem_of_find?_eq_some hf) hm with rfl | h | h
        · rfl
        · simp only [Node.start, Node.stop] at h
          omega
        · simp only [Node.start, Node.stop] at h
          omega
  rw [childAt?, hf]
  rfl

/-- On the way to an offset every node is met that the offset is inside of. -/
theorem below_descend_of_contains (fuel : Nat) (hi : i ∈ (parse text).nodes)
    (ho : i.span.contains offset) (hn : n ∈ (parse text).nodes)
    (hb : Below (parse text).entries n.id i.id) (hf : i.id ≤ n.id + fuel) :
    Below (parse text).entries i.id (descend offset fuel n).id := by
  induction fuel generalizing n with
  | zero =>
      have := ((below_iff_id hn).mp hb).1
      obtain rfl := eq_of_id hn hi (by omega)
      exact .refl _
  | succ fuel ih =>
      by_cases hne : n.id = i.id
      · obtain rfl := eq_of_id hn hi hne
        exact below_descend _ hn
      · obtain ⟨c, hc, hci⟩ := exists_child_of_below hn hb hne
        have hcn := mem_nodes_of_child hn hc
        have hoc : c.span.contains offset := by
          have hcov := covers_of_below hcn hi hci
          simp only [Span.contains, Bool.and_eq_true, decide_eq_true_eq, Node.start, Node.stop]
            at ho hcov ⊢
          omega
        have hlt := (parent_of_mem_children hn hc).1
        rw [descend, childAt?_eq hn hc hoc]
        exact ih hcn hci (by omega)

theorem below_root (hn : n ∈ (parse text).nodes) : Below (parse text).entries 0 n.id := by
  obtain ⟨_, _, _, hr, _⟩ := exists_laid text
  exact (below_iff hr).mpr ⟨Nat.zero_le _, (Array.getElem?_eq_some_iff.mp (of_mem_nodes hn).2).1⟩

/-- The node at an offset is one that the offset is inside of or stands below it. -/
theorem below_elementAt (hi : i ∈ (parse text).nodes) (ho : i.span.contains offset) :
    Below (parse text).entries i.id ((parse text).elementAt offset).id := by
  have hs : i.id < (parse text).size := mem_nodes.mp hi ▸ i.id_lt
  exact below_descend_of_contains _ hi ho (mem_nodes.mpr rfl) (below_root hi)
    (Nat.le_trans (Nat.le_of_lt hs) (Nat.le_add_left ..))

/-! ## Going up -/

/-- Of two nodes above a third one, one is above the other. -/
theorem below_or_below (hn : n ∈ (parse text).nodes) (hm : m ∈ (parse text).nodes)
    (hne : Below (parse text).entries n.id e.id) (hme : Below (parse text).entries m.id e.id) :
    Below (parse text).entries n.id m.id ∨ Below (parse text).entries m.id n.id := by
  rw [below_iff_id hn] at hne ⊢
  rw [below_iff_id hm] at hme ⊢
  omega

theorem exists_parent_of_below (he : e ∈ (parse text).nodes)
    (hb : Below (parse text).entries n.id e.id) (hne : n.id ≠ e.id) :
    ∃ q ∈ (parse text).nodes, e ∈ q.children := by
  obtain ⟨q, f, hf, hq⟩ := hb.last.resolve_left hne
  let a : Node := ⟨parse text, q, (Array.getElem?_eq_some_iff.mp hf).1⟩
  have ha : a.entry = f := Option.some.inj (a.getElem?_id.symm.trans hf)
  exact ⟨a, mem_nodes.mpr rfl, mem_children.mpr ⟨mem_nodes.mp he, ha ▸ hq⟩⟩

/-- The nodes around a node are those that it stands below. -/
theorem mem_ancestors_iff (hn : n ∈ (parse text).nodes) (he : e ∈ (parse text).nodes) :
    n ∈ e.ancestors ↔ Below (parse text).entries n.id e.id := by
  refine ⟨fun h => (below_of_mem_ancestors he h).2, fun hb => ?_⟩
  induction hk : e.id using Nat.strong_induction_on generalizing e with
  | _ k ih =>
      subst hk
      by_cases hne : n.id = e.id
      · obtain rfl := eq_of_id hn he hne
        exact n.mem_ancestors_self
      · obtain ⟨q, hqn, hqe⟩ := exists_parent_of_below he hb hne
        rw [ancestors_of_mem_children hqn hqe]
        exact .tail _ (ih q.id (parent_of_mem_children hqn hqe).1 hqn
          (below_of_below_child hn hqn hqe hb hne) rfl)

/-- The first node with a property on the way up from a node is the one below which nothing on the
way has the property. -/
theorem find?_ancestors {p : Node → Bool} (hn : n ∈ (parse text).nodes)
    (he : e ∈ (parse text).nodes) (hb : Below (parse text).entries n.id e.id) (hp : p n)
    (h : ∀ a ∈ (parse text).nodes, Below (parse text).entries n.id a.id →
      Below (parse text).entries a.id e.id → p a → a = n) : e.ancestors.find? p = some n := by
  induction hk : e.id using Nat.strong_induction_on generalizing e with
  | _ k ih =>
      subst hk
      by_cases hne : n.id = e.id
      · obtain rfl := eq_of_id hn he hne
        rw [Node.ancestors, List.find?_cons, hp]
      · obtain ⟨q, hqn, hqe⟩ := exists_parent_of_below he hb hne
        have hpe : p e = false := by
          rw [Bool.eq_false_iff]
          exact fun hpe => hne (congrArg Node.id (h e he hb (.refl _) hpe)).symm
        rw [ancestors_of_mem_children hqn hqe, List.find?_cons, hpe]
        refine ih q.id (parent_of_mem_children hqn hqe).1 hqn
          (below_of_below_child hn hqn hqe hb hne) (fun a ha hna haq => ?_) rfl
        exact h a ha hna (haq.trans (below_of_mem_children hqn hqe))

/-! ## Procedures at their names -/

theorem exists_methodName (h : (parse text).ok) (hn : n ∈ (parse text).nodes)
    (hk : n.kind.isMethod) : ∃ i, n.child? NodeKind.identifierName = some i := by
  obtain ⟨_, hnk, _⟩ | ⟨k, hnk, _⟩ := token_or_rule h hn
  · rw [hnk] at hk
    cases hk
  · rw [hnk] at hk
    cases k with
    | methodDeclaration | triggerDeclaration => exact exists_child? h hn hnk rfl
    | _ => cases hk

theorem exists_name (h : (parse text).ok) (hn : n ∈ (parse text).nodes) (hk : n.kind.isMethod) :
    ∃ name, n.name = some name := by
  obtain ⟨i, hi⟩ := exists_methodName h hn hk
  exact ⟨i.text, by rw [name_eq hn, Kind.isNamed_of_isMethod hk, hi]; rfl⟩

/-- Where nothing is wrong with a text, a procedure or trigger is found at its name, if it is of one of
the kinds that are looked for and these are kinds of procedures or triggers. -/
theorem findAt?_commandOffset (h : (parse text).ok) (hn : n ∈ (parse text).nodes) {ks : List Kind}
    (hk : n.isAny ks) (hks : ∀ k ∈ ks, k.isMethod) :
    (parse text).findAt? n.commandOffset ks = some n := by
  have hnk : n.kind.isMethod := hks _ (by simpa [Node.isAny] using hk)
  obtain ⟨i, hi⟩ := exists_methodName h hn hnk
  obtain ⟨hin, hik⟩ := Node.mem_of_child? hi
  have hit := mem_nodes_of_child hn hin
  have hlt := (solid_of_mem_children h hn hin).start_lt_stop
  have ho : n.commandOffset = i.start := by rw [Node.commandOffset, hi]; rfl
  have hie : Below (parse text).entries i.id ((parse text).elementAt i.start).id :=
    below_elementAt hit
      (Bool.and_eq_true_iff.mpr ⟨decide_eq_true (Nat.le_refl _), decide_eq_true hlt⟩)
  rw [ho, findAt?]
  refine find?_ancestors hn (mem_elementAt _) ((below_of_mem_children hn hin).trans hie) hk ?_
  intro a ha hna hae hak
  have hak : a.kind.isMethod := hks _ (by simpa [Node.isAny] using hak)
  -- What stands below the name is no procedure, and what stands above it is above the procedure.
  rcases below_or_below hit ha hie hae with hia | hai
  · have hd := isDeclarative_of_below h hit ha hia (by rw [hik]; rfl)
    rw [Kind.isDeclarative_of_isMethod hak] at hd
    cases hd
  · by_cases hne : a.id = i.id
    · rw [eq_of_id ha hit hne, hik] at hak
      cases hak
    · have han := below_of_below_child ha hn hin hai hne
      rw [below_iff_id ha] at han
      rw [below_iff_id hn] at hna
      exact eq_of_id ha hn (by omega)

theorem methodAround?_commandOffset (h : (parse text).ok) (hn : n ∈ (parse text).nodes)
    (hk : n.kind.isMethod) : (parse text).methodAround? n.commandOffset = some n := by
  refine findAt?_commandOffset h hn (by rw [Node.isAny_methods, hk]) fun k hk => ?_
  obtain ⟨j, hj, rfl⟩ := List.mem_map.mp hk
  exact List.contains_iff_mem.mpr hj

theorem procedureAround?_commandOffset (h : (parse text).ok) (hn : n ∈ (parse text).nodes)
    (hk : n.kind = NodeKind.methodDeclaration) :
    (parse text).procedureAround? n.commandOffset = some n := by
  refine findAt?_commandOffset h hn (by simp [Node.isAny, hk]) fun k hk => ?_
  rw [List.mem_singleton.mp hk]
  rfl

end SyntaxTree

end AlRefactor
