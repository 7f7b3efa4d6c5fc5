import AlRefactor.Proofs.Syntax.Leaves

/-!
# The nodes of a text in preorder

The numbers of the nodes of a text are those of a tree in preorder: every node but the root stands
behind its parent, once among the parent's children and nowhere else, and a subtree takes
consecutive numbers.
-/

namespace AlRefactor

open AlRefactor.Tree

/-- A node is reached from another one by going from nodes to their children. -/
inductive Below (es : Array Entry) : Nat → Nat → Prop where
  | refl (i) : Below es i i
  | child {i j k e} : es[i]? = some e → j ∈ e.children → Below es j k → Below es i k

namespace Below

variable {es : Array Entry} {i j : Nat}

/-- What is reached is a child of a node, unless it is where one starts from. -/
theorem last (h : Below es i j) : i = j ∨ ∃ (p : Nat) (e : Entry), es[p]? = some e ∧ j ∈ e.children := by
  induction h with
  | refl i => exact .inl rfl
  | child he hj _ ih =>
      rcases ih with rfl | h
      · exact .inr ⟨_, _, he, hj⟩
      · exact .inr h

theorem trans {k : Nat} (h : Below es i j) (h' : Below es j k) : Below es i k := by
  induction h with
  | refl => exact h'
  | child he hj _ ih => exact .child he hj (ih h')

theorem iff_child {e : Entry} (he : es[i]? = some e) :
    Below es i j ↔ i = j ∨ ∃ k ∈ e.children, Below es k j := by
  refine ⟨fun h => ?_, fun h => ?_⟩
  · cases h with
    | refl => exact .inl rfl
    | child he' hk h =>
        obtain rfl : e = _ := Option.some.inj (he.symm.trans he')
        exact .inr ⟨_, hk, h⟩
  · rcases h with rfl | ⟨k, hk, h⟩
    · exact .refl _
    · exact .child he hk h

end Below

namespace Laid

variable {text : Text} {es : Array Entry} {parent : Option Nat} {ps qs : List Placed}
  {id stop : Nat} {roots : List Nat} {ts : List Tree}

theorem roots_increase (h : Laid text es parent ps id roots ts qs stop) :
    roots.Pairwise (· < ·) := by
  induction h with
  | nil => exact .nil
  | leaf _ _ _ h ih =>
      exact .cons (fun i hi => (h.roots_mem i hi).1) ih
  | node h _ h' _ ih' =>
      refine .cons (fun i hi => ?_) ih'
      have := h.le
      have := (h'.roots_mem i hi).1
      omega

theorem roots_parent (h : Laid text es parent ps id roots ts qs stop) :
    ∀ i ∈ roots, ∃ e, es[i]? = some e ∧ e.parent = parent := by
  induction h with
  | nil => nofun
  | leaf _ _ he _ ih | node _ he _ _ ih =>
      intro i hi
      rcases List.mem_cons.mp hi with rfl | hi
      · exact ⟨_, he, rfl⟩
      · exact ih i hi

/-- The nodes of the trees are those that are reached from their roots. -/
theorem iff_below (h : Laid text es parent ps id roots ts qs stop) (j : Nat) :
    (∃ i ∈ roots, Below es i j) ↔ id ≤ j ∧ j < stop := by
  induction h with
  | nil =>
      simp only [List.not_mem_nil, false_and, exists_false, false_iff]
      omega
  | leaf _ _ he h ih =>
      have := h.le
      simp only [List.mem_cons, exists_eq_or_imp, Below.iff_child he, ih, List.not_mem_nil,
        false_and, exists_false, or_false]
      omega
  | node h he h' ih ih' =>
      have := h.le
      have := h'.le
      simp only [List.mem_cons, exists_eq_or_imp, Below.iff_child he, Entry.closed, ih, ih']
      omega

end Laid

/-- The nodes of an arena form a tree and are numbered in preorder. -/
structure Preorder (es : Array Entry) : Prop where
  /-- The first node is the whole file and has no parent. -/
  root : ∃ e : Entry, es[0]? = some e ∧ e.kind = NodeKind.compilationUnit ∧ e.parent = none
  /-- Every other node stands behind its parent, once among its children and nowhere else. -/
  parent : ∀ (i : Nat) (e : Entry), es[i]? = some e → i ≠ 0 → ∃ p < i, e.parent = some p ∧
    ∀ (q : Nat) (f : Entry), es[q]? = some f → f.children.count i = if q = p then 1 else 0
  children : ∀ (i : Nat) (e : Entry), es[i]? = some e → e.children.Pairwise (· < ·)
  /-- Only an unreadable member has the kind of a token and children. -/
  token : ∀ (i : Nat) (e : Entry), es[i]? = some e →
    e.kind.isToken → e.kind ≠ TokenKind.error → e.children = []
  /-- A node and the nodes below it have consecutive numbers. -/
  subtree : ∀ (i : Nat) (e : Entry), es[i]? = some e → e.next ≤ es.size ∧
    ∀ j, Below es i j ↔ i ≤ j ∧ j < e.next

namespace SyntaxTree

variable {text : Text} {i j : Nat} {e : Entry}

theorem children_increase (he : (parse text).entries[i]? = some e) :
    e.children.Pairwise (· < ·) := by
  obtain ⟨_, _, _, hl, _⟩ := exists_subtree he
  exact hl.roots_increase

theorem parent_of_child (he : (parse text).entries[i]? = some e) (hj : j ∈ e.children) :
    i < j ∧ ∃ f, (parse text).entries[j]? = some f ∧ f.parent = some i := by
  obtain ⟨_, _, _, hl, _⟩ := exists_subtree he
  exact ⟨(hl.roots_mem j hj).1, hl.roots_parent j hj⟩

theorem below_iff (he : (parse text).entries[i]? = some e) :
    Below (parse text).entries i j ↔ i ≤ j ∧ j < e.next := by
  obtain ⟨_, _, _, hl, _⟩ := exists_subtree he
  have := hl.le
  rw [Below.iff_child he, hl.iff_below]
  omega

/-- Every node but the root is a child of its parent alone. -/
theorem exists_parent (he : (parse text).entries[i]? = some e) (hi : i ≠ 0) :
    ∃ p < i, e.parent = some p ∧
      ∀ (q : Nat) (f : Entry), (parse text).entries[q]? = some f →
        f.children.count i = if q = p then 1 else 0 := by
  obtain ⟨roots, rest, hl, hr, _⟩ := exists_laid text
  have hs : i < (parse text).entries.size := (Array.getElem?_eq_some_iff.mp he).1
  have hb : Below (parse text).entries 0 i := (below_iff hr).mpr ⟨Nat.zero_le i, hs⟩
  rcases hb.last with h | ⟨p, g, hg, hm⟩
  · exact absurd h.symm hi
  · obtain ⟨hlt, f, hf, hp⟩ := parent_of_child hg hm
    obtain rfl := Option.some.inj (he.symm.trans hf)
    refine ⟨p, hlt, hp, fun q f hf => ?_⟩
    split
    · rename_i hq
      subst hq
      obtain rfl := Option.some.inj (hg.symm.trans hf)
      have hn : g.children.Nodup := (children_increase hg).imp Nat.ne_of_lt
      rw [hn.count, if_pos hm]
    · rename_i hq
      refine List.count_eq_zero.mpr fun hmem => hq ?_
      obtain ⟨_, e', he', hp'⟩ := parent_of_child hf hmem
      obtain rfl := Option.some.inj (he.symm.trans he')
      exact Option.some.inj (hp'.symm.trans hp)

theorem preorder_entries (text : Text) : Preorder (parse text).entries where
  root := by
    obtain ⟨_, _, _, hr, _⟩ := exists_laid text
    exact ⟨_, hr, rfl, rfl⟩
  parent _ _ he hi := exists_parent he hi
  children _ _ he := children_increase he
  token _ e he hk hn := by
    rcases isLeaf_of_isToken he hk with h | h
    · simpa [Entry.isLeaf, hk] using h
    · exact absurd h hn
  subtree _ _ he := by
    obtain ⟨_, _, _, _, hs, _⟩ := exists_subtree he
    exact ⟨hs, fun _ => below_iff he⟩

/-- The events of every text are balanced, carrying them out closes every node that it opens, and
what it leaves behind is a tree in preorder, whose leaves made of tokens have no children. -/
theorem parse_preorder (text : Text) :
    Event.Balanced (reading text).1 ∧ (build text).unmatched = [] ∧ (build text).opened = [] ∧
      Preorder (parse text).entries ∧
      ∀ t ∈ text.significant, ∃ (i : Nat) (e : Entry), (parse text).entries[i]? = some e ∧
        e.kind = t.kind ∧ e.span = t.span ∧ e.children = [] := by
  obtain ⟨_, _, _, _, ho, hu⟩ := exists_laid text
  refine ⟨Event.balanced_emit _ _, hu, ho, preorder_entries text, fun t ht => ?_⟩
  have hm : t.label ∈ text.significant.map (·.label) := List.mem_map_of_mem ht
  rw [← labels_leaves] at hm
  obtain ⟨e, he, hl⟩ := List.mem_map.mp hm
  obtain ⟨hk, hs⟩ := Prod.mk.inj hl
  obtain ⟨he, hf⟩ := List.mem_filter.mp he
  obtain ⟨i, hi⟩ := List.mem_iff_getElem?.mp he
  rw [Array.getElem?_toList] at hi
  exact ⟨i, e, hi, hk, hs, by simpa [Entry.isLeaf, hk, Kind.isToken] using hf⟩

end SyntaxTree

end AlRefactor
