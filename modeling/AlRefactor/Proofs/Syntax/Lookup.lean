import AlRefactor.Proofs.Syntax.Offsets

/-!
# The node at an offset

Looking for an offset never goes back up. It does not have to: a node that is not empty starts with a
token, so a child that the offset only touches is never taken where another one has a leaf around it,
and empty children, which error recovery leaves behind, are taken only where no leaf is near.
-/

namespace AlRefactor

open AlRefactor.Tree

namespace Laid

variable {text : Text} {es : Array Entry} {parent : Option Nat} {ps qs : List Placed}
  {id stop : Nat} {roots : List Nat} {t : Tree} {ts : List Tree}

/-- Trees of which the first one is not empty start with a leaf. -/
theorem exists_first (h : Laid text es parent ps id roots (t :: ts) qs stop)
    (hh : EverywhereAll Headed (t :: ts)) (ho : Placed.Ordered text ps) (ht : t.leaves ≠ []) :
    ∃ (i : Nat) (e : Entry) (j : Nat) (f : Entry), roots.head? = some i ∧ es[i]? = some e ∧
      es[j]? = some f ∧ f.isLeaf ∧ f.span.start = e.span.start := by
  generalize hts : t :: ts = us at h
  induction h generalizing t ts with
  | nil => cases hts
  | leaf _ _ he =>
      exact ⟨_, _, _, _, rfl, he, he, rfl, rfl⟩
  | @node parent ps id below _ k us _ _ _ mid _ h he _ ih _ =>
      cases hts
      cases us with
      | nil => exact absurd rfl ht
      | cons u us =>
          obtain ⟨i, e, j, f, hi, hie, hj, hf, hs⟩ := ih hh.1.2 ho hh.1.1 rfl
          refine ⟨_, _, j, f, rfl, he, hj, hf, ?_⟩
          have hb : (below.filterMap (es[·]?)).head? = some e := by
            obtain ⟨_, rfl⟩ := List.head?_eq_some_iff.mp hi
            rw [List.filterMap_cons_some hie, List.head?_cons]
          obtain ⟨l, hl⟩ := exists_getLast? hb
          rw [hs, Entry.closed, (h.row hh.1.2 ho).1.around_span hb hl]

/-- What has no leaves is empty. -/
theorem span_empty {e : Entry} (h : Laid text es parent ps id [id] [t] qs stop)
    (he : es[id]? = some e) (hh : Everywhere Headed t) (ht : t.leaves = []) :
    e.span.start = e.span.stop := by
  cases h with
  | leaf => cases ht
  | @node _ _ _ below _ k us _ _ _ _ _ h he' =>
      obtain rfl := Option.some.inj (he'.symm.trans he)
      cases us with
      | nil =>
          obtain ⟨rfl, _⟩ := h.of_nil
          rfl
      | cons u us => exact absurd (List.append_eq_nil_iff.mp ht).1 hh.1

end Laid

/-- How many nodes stand around a node, itself included. -/
def Node.depth (n : Node) : Nat := n.ancestors.length

namespace SyntaxTree

variable {text : Text} {n m l e : Node} {offset : Nat} {ks : List Kind}

/-! ## Leaves -/

theorem children_of_isLeaf (hl : l.isLeaf) : l.children = [] := by
  rw [Node.isLeaf, Entry.isLeaf, Bool.and_eq_true, List.isEmpty_iff] at hl
  rw [Node.children, hl.2, List.filterMap_nil]

theorem mem_leaves (hl : l ∈ (parse text).nodes) (hk : l.isLeaf) : l ∈ l.leaves :=
  List.mem_filter.mpr ⟨(mem_subtree hl).mpr ⟨hl, .refl _⟩, hk⟩

/-- No leaf is empty. -/
theorem leaf_start_lt_stop (hl : l ∈ (parse text).nodes) (hk : l.isLeaf) : l.start < l.stop := by
  obtain ⟨p, hp, hs, he, _⟩ := exists_token hl (mem_leaves hl hk)
  have := Text.start_lt_stop hp
  omega

/-- A node that is not empty starts with a leaf, if it is not the whole file. -/
theorem exists_leaf_at_start (hn : n ∈ (parse text).nodes) (hi : n.id ≠ 0) (h : n.start < n.stop) :
    ∃ l ∈ (parse text).nodes, l.isLeaf ∧ l.start = n.start := by
  obtain ⟨ht, he⟩ := of_mem_nodes hn
  obtain ⟨roots, rest, hl, _⟩ := exists_laid text
  obtain ⟨_, ps, t, qs, hx, hh, hj⟩ := hl.single (headed_forest text) he (by omega)
    (Array.getElem?_eq_some_iff.mp he).1
  have htl : t.leaves ≠ [] := fun htl => Nat.ne_of_lt h (hj.span_empty he hh htl)
  obtain ⟨i, e, j, f, hi, hie, hjf, hf, hs⟩ :=
    hj.exists_first ⟨hh, trivial⟩ ((Placed.ordered_tokens text).suffix hx) htl
  obtain rfl := Option.some.inj hi
  obtain rfl := Option.some.inj (he.symm.trans hie)
  let l : Node := ⟨parse text, j, (Array.getElem?_eq_some_iff.mp hjf).1⟩
  have hl : l.entry = f := Option.some.inj (l.getElem?_id.symm.trans hjf)
  exact ⟨l, mem_nodes.mpr rfl, by rwa [Node.isLeaf, hl], by rw [Node.start, Node.span, hl, hs]; rfl⟩

/-! ## Going down to the end -/

/-- The search ends where no child is at the offset. -/
theorem childAt?_descend (fuel : Nat) (hn : n ∈ (parse text).nodes)
    (hf : (parse text).size ≤ n.id + fuel) : childAt? (descend offset fuel n) offset = none := by
  induction fuel generalizing n with
  | zero => exact absurd n.id_lt (Nat.not_lt_of_le (mem_nodes.mp hn ▸ hf))
  | succ fuel ih =>
      rw [descend]
      split
      · rename_i m hm
        have hm := childAt?_mem hm
        have := (parent_of_mem_children hn hm).1
        exact ih (mem_nodes_of_child hn hm) (by omega)
      · assumption

theorem touches_of_childAt? (hm : childAt? n offset = some m) : m.span.touches offset := by
  rcases Option.or_eq_some_iff.mp hm with hm | ⟨_, hm⟩
  · have hm := List.find?_some hm
    simp only [Span.contains, Span.touches, Bool.and_eq_true, decide_eq_true_eq] at hm ⊢
    omega
  · simpa using List.find?_some hm

/-- The search goes only to nodes that the offset touches. -/
theorem touches_descend (fuel : Nat) :
    descend offset fuel n = n ∨ (descend offset fuel n).span.touches offset := by
  induction fuel generalizing n with
  | zero => exact .inl rfl
  | succ fuel ih =>
      rw [descend]
      split
      · rename_i m hm
        rcases ih (n := m) with h | h
        · rw [h]; exact .inr (touches_of_childAt? hm)
        · exact .inr h
      · exact .inl rfl

theorem not_touches_of_childAt?_eq_none (h : childAt? n offset = none) :
    ∀ m ∈ n.children, ¬ m.span.touches offset := by
  rw [childAt?, Option.or_eq_none_iff] at h
  exact List.find?_eq_none.mp h.2

/-- What stands below a leaf is the leaf. -/
theorem eq_of_below_isLeaf (hl : l ∈ (parse text).nodes) (hk : l.isLeaf)
    (hm : m ∈ (parse text).nodes) (h : Below (parse text).entries l.id m.id) : l = m := by
  by_cases hne : l.id = m.id
  · exact eq_of_id hl hm hne
  · obtain ⟨c, hc, _⟩ := exists_child_of_below hl h hne
    rw [children_of_isLeaf hk] at hc
    cases hc

/-- Where no leaf is around an offset, the child that ends there and is not empty is taken. -/
theorem childAt?_of_stop (hn : n ∈ (parse text).nodes) (hm : m ∈ n.children)
    (hf : ∀ l ∈ (parse text).nodes, l.isLeaf → ¬ l.span.contains offset)
    (hs : m.start < offset) (ho : m.stop = offset) : childAt? n offset = some m := by
  have hc : n.children.find? (·.span.contains offset) = none := by
    refine List.find?_eq_none.mpr fun a ha hao => ?_
    simp only [Span.contains, Bool.and_eq_true, decide_eq_true_eq] at hao
    have han := mem_nodes_of_child hn ha
    have := (parent_of_mem_children hn ha).1
    -- A child that the offset is inside of comes behind `m`, so it starts at the offset with a leaf.
    have hst : a.start = offset := by
      rcases children_apart hn ha hm with rfl | h | h <;> simp only [Node.start, Node.stop] at * <;>
        omega
    obtain ⟨l, hl, hk, hls⟩ := exists_leaf_at_start han (by omega) (hst ▸ hao.2)
    have := leaf_start_lt_stop hl hk
    refine hf l hl hk ?_
    simp only [Span.contains, Bool.and_eq_true, decide_eq_true_eq]
    exact ⟨Nat.le_of_eq (hls.trans hst), by rwa [← hst, ← hls]⟩
  have ht : n.children.find? (·.span.touches offset) = some m := by
    obtain ⟨xs, ys, hxy⟩ := List.append_of_mem hm
    have hp := (ranged hn).apart
    rw [hxy, List.pairwise_append] at hp
    rw [hxy, List.find?_append, List.find?_eq_none.mpr, Option.none_or, List.find?_cons_of_pos]
    · simp only [Span.touches, Bool.and_eq_true, decide_eq_true_eq]
      exact ⟨Nat.le_of_lt hs, Nat.le_of_eq ho.symm⟩
    · intro a ha hao
      have := hp.2.2 a ha m List.mem_cons_self
      simp only [Span.touches, Bool.and_eq_true, decide_eq_true_eq, Node.start, Node.stop] at *
      omega
  rw [childAt?, hc, ht]
  rfl

/-- Where no leaf is around an offset, the search goes to the leaf that ends there. -/
theorem descend_eq_of_stop (fuel : Nat) (hl : l ∈ (parse text).nodes) (hk : l.isLeaf)
    (hf : ∀ l ∈ (parse text).nodes, l.isLeaf → ¬ l.span.contains offset) (ho : l.stop = offset)
    (hn : n ∈ (parse text).nodes) (hb : Below (parse text).entries n.id l.id)
    (hi : l.id ≤ n.id + fuel) : descend offset fuel n = l := by
  induction fuel generalizing n with
  | zero =>
      have := ((below_iff_id hn).mp hb).1
      rw [descend]
      exact eq_of_id hn hl (by omega)
  | succ fuel ih =>
      by_cases hne : n.id = l.id
      · obtain rfl := eq_of_id hn hl hne
        rw [descend, childAt?, children_of_isLeaf hk]
        rfl
      obtain ⟨c, hc, hcl⟩ := exists_child_of_below hn hb hne
      have hcn := mem_nodes_of_child hn hc
      have hcov := covers_of_below hcn hl hcl
      have hlt := leaf_start_lt_stop hl hk
      have hid := (parent_of_mem_children hn hc).1
      have hca : childAt? n offset = some c := by
        by_cases hst : c.stop = offset
        · exact childAt?_of_stop hn hc hf (by omega) hst
        · refine childAt?_eq hn hc ?_
          simp only [Span.contains, Bool.and_eq_true, decide_eq_true_eq, Node.start, Node.stop] at *
          omega
      rw [descend, hca]
      exact ih hcn hcl (by omega)

theorem elementAt_eq_of_contains (hl : l ∈ (parse text).nodes) (hk : l.isLeaf)
    (ho : l.span.contains offset) : (parse text).elementAt offset = l :=
  (eq_of_below_isLeaf hl hk (mem_elementAt offset) (below_elementAt hl ho)).symm

theorem elementAt_eq_of_stop (hl : l ∈ (parse text).nodes) (hk : l.isLeaf)
    (hf : ∀ l ∈ (parse text).nodes, l.isLeaf → ¬ l.span.contains offset) (ho : l.stop = offset) :
    (parse text).elementAt offset = l := by
  have hs : l.id < (parse text).size := mem_nodes.mp hl ▸ l.id_lt
  exact descend_eq_of_stop _ hl hk hf ho (mem_nodes.mpr rfl) (below_root hl)
    (Nat.le_trans (Nat.le_of_lt hs) (Nat.le_add_left ..))

/-! ## Going up to a kind -/

theorem ancestors_of_append {xs ys : List Node} (h : e.ancestors = xs ++ n :: ys) :
    n.ancestors = n :: ys := by
  induction xs generalizing e with
  | nil =>
      rw [Node.ancestors] at h
      obtain ⟨rfl, rfl⟩ := List.cons.inj h
      rw [Node.ancestors]
  | cons x xs ih =>
      rw [Node.ancestors, List.cons_append] at h
      have h := (List.cons.inj h).2
      split at h
      · simp at h
      · split at h
        · exact ih h
        · simp at h

/-- Of the nodes around a node that are on the way up from one of them, that one is the deepest. -/
theorem depth_of_mem_ancestors (hm : m ∈ n.ancestors) :
    m.depth ≤ n.depth ∧ (m.depth = n.depth → m = n) := by
  obtain ⟨xs, ys, h⟩ := List.append_of_mem hm
  have hl : n.depth = xs.length + m.depth := by
    rw [Node.depth, Node.depth, h, ancestors_of_append h, List.length_append]
  refine ⟨by omega, fun he => ?_⟩
  obtain rfl : xs = [] := List.eq_nil_of_length_eq_zero (by omega)
  rw [Node.ancestors] at h
  exact (List.cons.inj h).1.symm

/-- Of the nodes with a property on the way up, the first one stands inside all others. -/
theorem mem_ancestors_of_find? {p : Node → Bool} (h : e.ancestors.find? p = some n)
    (hm : m ∈ e.ancestors) (hp : p m) : m ∈ n.ancestors := by
  obtain ⟨_, xs, ys, hxy, hx⟩ := List.find?_eq_some_iff_append.mp h
  rw [hxy] at hm
  rw [ancestors_of_append hxy]
  refine (List.mem_append.mp hm).resolve_left fun hm => ?_
  have := hx m hm
  rw [hp] at this
  cases this

/-- The first node of one of the kinds on the way up is the deepest one. -/
theorem depth_of_find?_ancestors (h : e.ancestors.find? (·.isAny ks) = some n)
    (hm : m ∈ e.ancestors) (hk : m.isAny ks) :
    m.depth ≤ n.depth ∧ (m.depth = n.depth → m = n) :=
  depth_of_mem_ancestors (mem_ancestors_of_find? h hm hk)

theorem findAt?_eq_some_iff (t : SyntaxTree) : t.findAt? offset ks = some n ↔
    n ∈ (t.elementAt offset).ancestors ∧ n.isAny ks ∧
      ∀ m ∈ (t.elementAt offset).ancestors, m.isAny ks → m.depth ≤ n.depth := by
  rw [findAt?]
  constructor
  · intro h
    exact ⟨List.mem_of_find?_eq_some h, by simpa using List.find?_some h,
      fun m hm hk => (depth_of_find?_ancestors h hm hk).1⟩
  · rintro ⟨hn, hk, hd⟩
    cases hf : (t.elementAt offset).ancestors.find? (·.isAny ks) with
    | none => exact absurd hk (List.find?_eq_none.mp hf n hn)
    | some m =>
        obtain ⟨hle, heq⟩ := depth_of_find?_ancestors hf hn hk
        have := hd m (List.mem_of_find?_eq_some hf) (by simpa using List.find?_some hf)
        rw [heq (by omega)]

/-- The node at an offset is the leaf around it, otherwise the leaf that ends there, and otherwise a
composite node, the whole file or one that the offset touches, of which no child touches it. The node
of some kinds at an offset is the deepest one of these kinds around the node at the offset, and there
is none only if nothing around that node is of these kinds. -/
theorem lookup_exact (text : Text) (offset : Nat) :
    (∀ l ∈ (parse text).nodes, l.isLeaf → l.span.contains offset →
      (parse text).elementAt offset = l) ∧
    ((∀ l ∈ (parse text).nodes, l.isLeaf → ¬ l.span.contains offset) →
      (∀ l ∈ (parse text).nodes, l.isLeaf → l.stop = offset →
        (parse text).elementAt offset = l) ∧
      ((∀ l ∈ (parse text).nodes, l.isLeaf → l.stop ≠ offset) →
        (parse text).elementAt offset ∈ (parse text).nodes ∧
        ¬ ((parse text).elementAt offset).isLeaf ∧
        ((parse text).elementAt offset = (parse text).root ∨
          ((parse text).elementAt offset).span.touches offset) ∧
        ∀ m ∈ ((parse text).elementAt offset).children, ¬ m.span.touches offset)) ∧
    ∀ ks : List Kind,
      (∀ n, (parse text).findAt? offset ks = some n ↔
        n ∈ ((parse text).elementAt offset).ancestors ∧ n.isAny ks ∧
          ∀ m ∈ ((parse text).elementAt offset).ancestors, m.isAny ks → m.depth ≤ n.depth) ∧
      ((parse text).findAt? offset ks = none ↔
        ∀ m ∈ ((parse text).elementAt offset).ancestors, ¬ m.isAny ks) := by
  have hr : (parse text).root ∈ (parse text).nodes := mem_nodes.mpr rfl
  refine ⟨fun l hl hk ho => elementAt_eq_of_contains hl hk ho, fun hc => ⟨fun l hl hk ho =>
    elementAt_eq_of_stop hl hk hc ho, fun he => ⟨mem_elementAt offset, fun hk => ?_,
    touches_descend _, not_touches_of_childAt?_eq_none (childAt?_descend _ hr ?_)⟩⟩,
    fun ks => ⟨fun n => findAt?_eq_some_iff _, List.find?_eq_none⟩⟩
  · -- A leaf that the offset touches is around it or ends there.
    have hl : (parse text).elementAt offset ∈ (parse text).nodes := mem_elementAt offset
    have ht : ((parse text).elementAt offset).span.touches offset := by
      refine (touches_descend _).resolve_left fun h => ?_
      rw [elementAt, h] at hk
      have hk : (parse text).root.kind.isToken := (Bool.and_eq_true_iff.mp hk).1
      rw [kind_root hr rfl] at hk
      cases hk
    have hs := he _ hl hk
    have hn := hc _ hl hk
    simp only [Span.touches, Span.contains, Bool.and_eq_true, decide_eq_true_eq, Node.stop] at *
    omega
  · exact Nat.le_add_left ..

/-- Where one leaf ends and the next one starts, the next one is found. -/
theorem lookup_exact_brace : ∃ l ∈ (parse "codeunit 1 A\x7b\x7d".toList).nodes,
    l.isLeaf ∧ l.span = ⟨12, 13⟩ ∧ (parse "codeunit 1 A\x7b\x7d".toList).elementAt 12 = l := by
  have h : (parse "codeunit 1 A\x7b\x7d".toList).nodes.any fun l =>
      l.isLeaf && l.span == ⟨12, 13⟩ := by decide +kernel
  obtain ⟨l, hl, hs⟩ := List.any_eq_true.mp h
  obtain ⟨hk, hs⟩ := Bool.and_eq_true_iff.mp hs
  have hs : l.span = ⟨12, 13⟩ := by simpa using hs
  exact ⟨l, hl, hk, hs, (lookup_exact _ 12).1 l hl hk (by rw [hs]; rfl)⟩

/-! ## Going up to a range -/

theorem covers_root {span : Span} (hs : span.stop ≤ text.size) :
    (parse text).root.span.covers span := by
  obtain ⟨_, _, _, hr, _⟩ := exists_laid text
  have he : (parse text).root.entry = _ :=
    Option.some.inj ((Node.getElem?_id _).symm.trans hr)
  rw [Node.span, he]
  simpa [Span.covers] using hs

/-- The way up from where a range starts meets a node that covers the range. -/
theorem find?_covers {span : Span} (hs : span.stop ≤ text.size) :
    ((parse text).elementAt span.start).ancestors.find? (·.span.covers span) =
      some ((parse text).covering span) := by
  have hr : (parse text).root ∈ (parse text).nodes := mem_nodes.mpr rfl
  have ha : (parse text).root ∈ ((parse text).elementAt span.start).ancestors :=
    (mem_ancestors_iff hr (mem_elementAt _)).mpr (below_root (mem_elementAt _))
  rw [covering]
  cases hf : ((parse text).elementAt span.start).ancestors.find? (·.span.covers span) with
  | none => exact absurd (covers_root hs) (List.find?_eq_none.mp hf _ ha)
  | some n => rfl

/-- The node for a range that is not empty covers the range, and of all nodes just this one and those
around it do. -/
theorem covering_smallest (text : Text) (span : Span) (h : span.start < span.stop)
    (hs : span.stop ≤ text.size) :
    (parse text).covering span ∈ (parse text).nodes ∧
      ((parse text).covering span).span.covers span ∧
      ∀ m ∈ (parse text).nodes,
        m.span.covers span ↔ m ∈ ((parse text).covering span).ancestors := by
  have hn : (parse text).covering span ∈ (parse text).nodes := mem_covering span
  have hf := find?_covers hs
  have hc : ((parse text).covering span).span.covers span := by simpa using List.find?_some hf
  refine ⟨hn, hc, fun m hm => ⟨fun hmc => ?_, fun ha => ?_⟩⟩
  · -- What covers the range is around its first offset, so the search for that goes through it.
    have ho : m.span.contains span.start := by
      simp only [Span.covers, Span.contains, Bool.and_eq_true, decide_eq_true_eq] at hmc ⊢
      omega
    exact mem_ancestors_of_find? hf
      ((mem_ancestors_iff hm (mem_elementAt _)).mpr (below_elementAt hm ho)) hmc
  · have hb := covers_of_below hm hn (below_of_mem_ancestors hn ha).2
    simp only [Span.covers, Bool.and_eq_true, decide_eq_true_eq, Node.start, Node.stop]
      at hb hc ⊢
    omega

/-- A range that starts behind a brace, which the offset touches, and goes on into unreadable
members. -/
theorem covering_smallest_members :
    (14 : Nat) < 19 ∧ 19 ≤ Text.size "codeunit 1 A \x7b  x y z".toList ∧
      ∀ m ∈ (parse "codeunit 1 A \x7b  x y z".toList).nodes, m.span.covers ⟨14, 19⟩ ↔
        m ∈ ((parse "codeunit 1 A \x7b  x y z".toList).covering ⟨14, 19⟩).ancestors := by
  have hs : 19 ≤ Text.size "codeunit 1 A \x7b  x y z".toList := by decide
  exact ⟨by decide, hs, (covering_smallest _ ⟨14, 19⟩ (by decide) hs).2.2⟩

end SyntaxTree

end AlRefactor
