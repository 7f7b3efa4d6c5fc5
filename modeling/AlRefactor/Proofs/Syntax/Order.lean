import AlRefactor.Proofs.Syntax.Preorder
import AlRefactor.Proofs.Syntax.Ranges
import AlRefactor.Proofs.Token.Breaks
import AlRefactor.Proofs.Token.Seams

/-!
# Where nodes lie in a text

The ends of the ranges of nodes lie between tokens. A node lies in the ranges of the nodes around
it, and what has a number behind a subtree starts behind its range.
-/

namespace AlRefactor

open AlRefactor.Tree

/-! ## Ends of ranges -/

/-- A property of the two ends of a range. -/
def Span.Ends (P : Nat → Prop) (s : Span) : Prop := P s.start ∧ P s.stop

section Ends

variable {P : Nat → Prop} {text : Text} {ps : List Placed}

theorem Span.Ends.join {s u : Span} (hs : s.Ends P) (hu : u.Ends P) : (s.join u).Ends P := by
  refine ⟨?_, ?_⟩
  · rcases Nat.le_total s.start u.start with h | h
    · rw [Span.join, Nat.min_eq_left h]; exact hs.1
    · rw [Span.join, Nat.min_eq_right h]; exact hu.1
  · rcases Nat.le_total s.stop u.stop with h | h
    · rw [Span.join, Nat.max_eq_right h]; exact hu.2
    · rw [Span.join, Nat.max_eq_left h]; exact hs.2

theorem Entry.ends_around {otherwise : Span} {spans : List Span} (ho : otherwise.Ends P)
    (hs : ∀ s ∈ spans, s.Ends P) : (around otherwise spans).Ends P := by
  unfold around
  split
  · rename_i f l hf hl
    exact (hs f (List.mem_of_head? hf)).join (hs l (List.mem_of_getLast? hl))
  · exact ho

theorem Placed.ends_trailingStop {stop : Nat} {ts : List Token} (h : P stop)
    (ht : ∀ t ∈ ts, P t.stop) : P (trailingStop stop ts) := by
  induction ts generalizing stop with
  | nil => exact h
  | cons t ts ih =>
      unfold trailingStop
      split
      · exact h
      · split
        · exact ht t List.mem_cons_self
        · exact ih (ht t List.mem_cons_self) fun u hu => ht u (.tail _ hu)

theorem Placed.ends_ofTokens {leading : Nat} {ts : List Token} (h : P leading)
    (ht : ∀ t ∈ ts, t.span.Ends P) :
    ∀ p ∈ ofTokens leading ts, p.token.span.Ends P ∧ p.full.Ends P := by
  induction ts generalizing leading with
  | nil => nofun
  | cons t ts ih =>
      have hts : ∀ u ∈ ts, u.span.Ends P := fun u hu => ht u (.tail _ hu)
      have hp := ht t List.mem_cons_self
      have hs := ends_trailingStop hp.2 fun u hu => (hts u hu).2
      unfold ofTokens
      split
      all_goals
        intro p hm
        rcases List.mem_cons.mp hm with rfl | hm
      · exact ⟨hp, hp⟩
      · exact ih h hts p hm
      · exact ⟨hp, h, hs⟩
      · exact ih hs hts p hm

theorem Placed.ends_nextStart (hs : P text.size) (hp : ∀ p ∈ ps, p.token.span.Ends P) :
    P (nextStart text ps) := by
  unfold nextStart
  split
  · rename_i q hq
    exact (hp q (List.mem_of_find?_eq_some hq)).1
  · exact hs

end Ends

namespace Laid

variable {text : Text} {es : Array Entry} {parent : Option Nat} {ps qs : List Placed}
  {id stop : Nat} {roots : List Nat} {ts : List Tree}

/-- What holds of the ends of all tokens holds of the ends of all nodes. -/
theorem all_ends {P : Nat → Prop} (h : Laid text es parent ps id roots ts qs stop)
    (hs : P text.size) (hp : ∀ p ∈ ps, p.token.span.Ends P ∧ p.full.Ends P) {j : Nat} {e : Entry}
    (he : es[j]? = some e) (hj : id ≤ j) (hl : j < stop) : e.span.Ends P ∧ e.full.Ends P := by
  induction h generalizing j e with
  | nil => omega
  | @leaf _ _ i _ _ _ q qs _ _ hq _ he' h ih =>
      have hm : ∀ p ∈ q :: qs, p.token.span.Ends P ∧ p.full.Ends P := fun p hm =>
        hp p ((List.dropWhile_suffix _).subset (hq ▸ hm))
      by_cases hn : j = i
      · subst hn
        obtain rfl := Option.some.inj (he'.symm.trans he)
        exact hm q List.mem_cons_self
      · exact ih (fun p hp => hm p (.tail _ hp)) he (by omega) hl
  | @node _ ps i below _ _ _ _ qs _ mid _ h he' h' ih ih' =>
      by_cases hn : j = i
      · subst hn
        obtain rfl := Option.some.inj (he'.symm.trans he)
        have hn := Placed.ends_nextStart hs fun p hm => (hp p hm).1
        have hb : ∀ f ∈ below.filterMap (es[·]?), f.span.Ends P ∧ f.full.Ends P := fun f hf => by
          obtain ⟨k, hk, hf⟩ := List.mem_filterMap.mp hf
          have := h.roots_mem k hk
          exact ih hp hf this.1 this.2
        refine ⟨Entry.ends_around ⟨hn, hn⟩ fun s hm => ?_,
          Entry.ends_around ⟨hn, hn⟩ fun s hm => ?_⟩
        all_goals obtain ⟨f, hf, rfl⟩ := List.mem_map.mp hm
        · exact (hb f hf).1
        · exact (hb f hf).2
      · by_cases hm : j < mid
        · exact ih hp he (by omega) hm
        · exact ih' (fun p hm => hp p (h.suffix.subset hm)) he (by omega) hl

/-- All nodes that trees have laid down are made from one place among the tokens to another. -/
theorem fits (h : Laid text es parent ps id roots ts qs stop) (hh : EverywhereAll Headed ts)
    (ho : Placed.Ordered text ps) {j : Nat} {e : Entry} (he : es[j]? = some e) (hj : id ≤ j)
    (hl : j < stop) : Fits text ps qs e := by
  induction h generalizing j e with
  | nil => omega
  | @leaf parent ps i _ _ _ q qs _ _ hq _ he' h ih =>
      have hx : qs <:+ ps := (List.suffix_cons _ _).trans (hq ▸ List.dropWhile_suffix _)
      by_cases hn : j = i
      · subst hn
        obtain rfl := Option.some.inj (he'.symm.trans he)
        exact (fits_leaf ho hq _ _ _).mono ho (List.suffix_refl _) hx h.suffix
      · exact (ih hh.2 (ho.suffix hx) he (by omega) hl).mono ho hx (h.suffix.trans hx)
          (List.suffix_refl _)
  | @node parent ps i below _ k _ _ qs _ mid _ h he' h' ih ih' =>
      by_cases hn : j = i
      · subst hn
        obtain rfl := Option.some.inj (he'.symm.trans he)
        obtain ⟨hr, hb⟩ := h.row hh.1.2 ho
        exact (hr.closed ho k parent below (j + 1) mid ((hb k hh.1.1).imp_left And.right)).1.mono ho
          (List.suffix_refl _) h.suffix h'.suffix
      · by_cases hm : j < mid
        · exact (ih hh.1.2 ho he (by omega) hm).mono ho (List.suffix_refl _) h.suffix h'.suffix
        · exact (ih' hh.2 (ho.suffix h.suffix) he (by omega) hl).mono ho h.suffix
            (h'.suffix.trans h.suffix) (List.suffix_refl _)

/-- What stands behind a subtree starts behind its range. -/
theorem full_stop_le (h : Laid text es parent ps id roots ts qs stop) (hh : EverywhereAll Headed ts)
    (ho : Placed.Ordered text ps) {i j : Nat} {e f : Entry} (he : es[i]? = some e)
    (hf : es[j]? = some f) (hi : id ≤ i) (hn : i < e.next) (hj : e.next ≤ j) (hl : j < stop) :
    e.full.stop ≤ f.span.start := by
  induction h generalizing i j e f with
  | nil => omega
  | @leaf parent ps k _ _ _ q qs _ _ hq _ he' h ih =>
      have hx : qs <:+ ps := (List.suffix_cons _ _).trans (hq ▸ List.dropWhile_suffix _)
      by_cases hk : i = k
      · subst hk
        obtain rfl := Option.some.inj (he'.symm.trans he)
        have hf := h.fits hh.2 (ho.suffix hx) hf hj hl
        exact Nat.le_trans (fits_leaf ho hq q.token.kind parent i).full_stop_le hf.next_start_le
      · exact ih hh.2 (ho.suffix hx) he hf (by omega) hn hj hl
  | @node parent ps k below _ _ _ _ qs _ mid _ h he' h' ih ih' =>
      by_cases hm : j < mid
      · -- Both stand below the node: what is around the second one is no subtree before it.
        have hk : i ≠ k := by
          rintro rfl
          obtain rfl := Option.some.inj (he'.symm.trans he)
          exact absurd hm (Nat.not_lt_of_le hj)
        exact ih hh.1.2 ho he hf (by omega) hn hj hm
      · have hs := ho.suffix h.suffix
        by_cases hm' : i < mid
        · have he := (Laid.node h he' .nil).fits ⟨hh.1, trivial⟩ ho he hi hm'
          exact Nat.le_trans he.full_stop_le (h'.fits hh.2 hs hf (by omega) hl).next_start_le
        · exact ih' hh.2 hs he hf (by omega) hn hj hl

end Laid

/-! ## Nodes by their places -/

namespace Node

variable {n m a : Node}

theorem getElem?_id (n : Node) : n.tree.entries[n.id]? = some n.entry :=
  Array.getElem?_eq_getElem _

theorem ext_id (ht : n.tree = m.tree) (hi : n.id = m.id) : n = m := by
  cases n; cases m
  cases ht; cases hi
  rfl

theorem mem_ancestors_self (n : Node) : n ∈ n.ancestors := by
  rw [ancestors]
  exact List.mem_cons_self

theorem mem_of_childNodes (h : m ∈ n.childNodes) : m ∈ n.children := (List.mem_filter.mp h).1

theorem mem_of_childrenOf {k : Kind} (h : m ∈ n.childrenOf k) : m ∈ n.children ∧ m.kind = k := by
  simpa [childrenOf, Node.is] using h

theorem mem_of_child? {k : Kind} (h : n.child? k = some m) : m ∈ n.children ∧ m.kind = k :=
  ⟨List.mem_of_find?_eq_some h, by simpa [Node.is] using List.find?_some h⟩

theorem mem_of_lastChild? {k : Kind} (h : n.lastChild? k = some m) : m ∈ n.children ∧ m.kind = k :=
  mem_of_childrenOf (List.mem_of_getLast? h)

theorem exists_lastChild? {k : Kind} (hm : m ∈ n.children) (hk : m.kind = k) :
    ∃ l, n.lastChild? k = some l := by
  have hm : m ∈ n.childrenOf k := List.mem_filter.mpr ⟨hm, by rw [Node.is, hk, beq_self_eq_true]⟩
  exact ⟨_, List.getLast?_eq_some_getLast (List.ne_nil_of_mem hm)⟩

end Node

namespace SyntaxTree

variable {text : Text} {t : SyntaxTree} {n m a c : Node}

theorem get?_eq_some {i : Nat} : t.get? i = some n ↔ n.tree = t ∧ n.id = i := by
  unfold get?
  split
  · rename_i hi
    constructor
    · intro h
      cases h
      exact ⟨rfl, rfl⟩
    · rintro ⟨rfl, rfl⟩
      rfl
  · rename_i hi
    constructor
    · intro h
      cases h
    · rintro ⟨rfl, rfl⟩
      exact absurd n.id_lt hi

theorem mem_nodes : n ∈ t.nodes ↔ n.tree = t := by
  refine ⟨fun h => (of_mem_nodes h).1, fun h => ?_⟩
  subst h
  exact List.mem_filterMap.mpr ⟨n.id, List.mem_range.mpr n.id_lt, get?_eq_some.mpr ⟨rfl, rfl⟩⟩

/-- A node of a tree is given by its number. -/
theorem eq_of_id (hn : n ∈ t.nodes) (hm : m ∈ t.nodes) (hi : n.id = m.id) : n = m :=
  Node.ext_id ((mem_nodes.mp hn).trans (mem_nodes.mp hm).symm) hi

theorem id_ne_of_kind {p : Kind → Bool} (hn : n ∈ t.nodes) (hm : m ∈ t.nodes) (hp : p n.kind)
    (hq : p m.kind = false) : n.id ≠ m.id := fun hi => by
  rw [eq_of_id hn hm hi, hq] at hp
  cases hp

theorem mem_children : m ∈ n.children ↔ m.tree = n.tree ∧ m.id ∈ n.entry.children := by
  simp only [Node.children, List.mem_filterMap, get?_eq_some]
  constructor
  · rintro ⟨_, hi, ht, rfl⟩
    exact ⟨ht, hi⟩
  · rintro ⟨ht, hi⟩
    exact ⟨_, hi, ht, rfl⟩

theorem mem_nodes_of_child (hn : n ∈ t.nodes) (hm : m ∈ n.children) : m ∈ t.nodes :=
  mem_nodes.mpr ((mem_children.mp hm).1.trans (mem_nodes.mp hn))

theorem parent_of_mem_children (hn : n ∈ (parse text).nodes) (hm : m ∈ n.children) :
    n.id < m.id ∧ m.parent = some n := by
  obtain ⟨ht, he⟩ := of_mem_nodes hn
  obtain ⟨htm, hi⟩ := mem_children.mp hm
  obtain ⟨hlt, f, hf, hp⟩ := parent_of_child he hi
  have hfm := m.getElem?_id
  rw [htm, ht, hf] at hfm
  obtain rfl := Option.some.inj hfm
  exact ⟨hlt, by rw [Node.parent, hp, Option.bind_some, get?_eq_some]; exact ⟨htm.symm, rfl⟩⟩

theorem ancestors_of_mem_children (hn : n ∈ (parse text).nodes) (hm : m ∈ n.children) :
    m.ancestors = m :: n.ancestors := by
  obtain ⟨hlt, hp⟩ := parent_of_mem_children hn hm
  rw [Node.ancestors, hp]
  simp [hlt]

theorem mem_children_of_parent (hn : n ∈ (parse text).nodes) (hp : n.parent = some a) :
    a ∈ (parse text).nodes ∧ n ∈ a.children := by
  obtain ⟨ht, he⟩ := of_mem_nodes hn
  obtain ⟨p, hp, hap⟩ := Option.bind_eq_some_iff.mp hp
  obtain ⟨hta, rfl⟩ := get?_eq_some.mp hap
  have hi : n.id ≠ 0 := by
    intro hi
    obtain ⟨_, hr, _, hn⟩ := (preorder_entries text).root
    rw [hi, hr] at he
    obtain rfl := Option.some.inj he
    rw [hn] at hp
    cases hp
  obtain ⟨q, _, hq, hc⟩ := exists_parent he hi
  obtain rfl := Option.some.inj (hq.symm.trans hp)
  have hc := hc a.id a.entry (ht ▸ hta ▸ a.getElem?_id)
  rw [if_pos rfl] at hc
  exact ⟨mem_nodes.mpr (hta.trans ht),
    mem_children.mpr ⟨hta.symm, List.count_pos_iff.mp (by omega)⟩⟩

theorem kind_root (hn : n ∈ (parse text).nodes) (hi : n.id = 0) :
    n.kind = NodeKind.compilationUnit := by
  obtain ⟨_, he⟩ := of_mem_nodes hn
  obtain ⟨e, hr, hk, _⟩ := (preorder_entries text).root
  rw [hi, hr] at he
  obtain rfl := Option.some.inj he
  exact hk

/-- The name of a declaration is the text of its first identifier. -/
theorem name_eq (hn : n ∈ (parse text).nodes) :
    n.name = if n.kind.isNamed then (n.child? NodeKind.identifierName).map (·.text) else none := by
  obtain ⟨ht, he⟩ := of_mem_nodes hn
  have hc : (n.child? NodeKind.identifierName).map (·.text) =
      ((n.entry.children.filterMap ((parse text).entries[·]?)).find?
        (·.kind == .node .identifierName)).map fun c => text.extract c.span := by
    rw [← ht, ← Node.map_entry_children, List.find?_map, Option.map_map]
    refine Option.map_congr fun m hm => ?_
    have hm : m.tree = _ := Node.tree_of_mem_children (List.mem_of_find?_eq_some hm)
    rw [Node.text, hm, ht]
    rfl
  rw [hc]
  obtain ⟨_, _, hl, hr, _⟩ := exists_laid text
  by_cases hi : n.id = 0
  · rw [hi] at he
    rw [Node.name, Node.kind, ← Option.some.inj (hr.symm.trans he)]
    rfl
  · obtain ⟨_, _, _, _, _, _, hs⟩ := hl.single (Grammar.composite_declarations _) he (by omega)
      (Array.getElem?_eq_some_iff.mp he).1
    cases hs with
    | leaf _ _ hx | node _ hx =>
        rw [Node.name, Node.kind, Option.some.inj (he.symm.trans hx)]
        rfl

/-! ## Subtrees -/

theorem below_iff_id (hn : n ∈ (parse text).nodes) :
    Below (parse text).entries n.id m.id ↔ n.id ≤ m.id ∧ m.id < n.entry.next :=
  below_iff (of_mem_nodes hn).2

theorem id_lt_next (hn : n ∈ (parse text).nodes) : n.id < n.entry.next :=
  ((below_iff_id hn).mp (.refl _)).2

theorem below_of_mem_children (hn : n ∈ (parse text).nodes) (hm : m ∈ n.children) :
    Below (parse text).entries n.id m.id :=
  .child (of_mem_nodes hn).2 (mem_children.mp hm).2 (.refl _)

theorem below_of_mem_ancestors (hn : n ∈ (parse text).nodes) (ha : a ∈ n.ancestors) :
    a ∈ (parse text).nodes ∧ Below (parse text).entries a.id n.id := by
  induction hi : n.id using Nat.strong_induction_on generalizing n with
  | _ i ih =>
      subst hi
      rw [Node.ancestors] at ha
      rcases List.mem_cons.mp ha with rfl | ha
      · exact ⟨hn, .refl _⟩
      cases hp : n.parent with
      | none => rw [hp] at ha; cases ha
      | some p =>
          obtain ⟨hpn, hc⟩ := mem_children_of_parent hn hp
          have hlt := (parent_of_mem_children hpn hc).1
          simp only [hp, hlt, if_true] at ha
          obtain ⟨han, hb⟩ := ih p.id hlt hpn ha rfl
          exact ⟨han, hb.trans (below_of_mem_children hpn hc)⟩

theorem mem_subtree (hn : n ∈ (parse text).nodes) : m ∈ n.subtree ↔
    m ∈ (parse text).nodes ∧ Below (parse text).entries n.id m.id := by
  have hlt := id_lt_next hn
  simp only [Node.subtree, List.mem_filterMap, List.mem_range'_1, get?_eq_some, mem_nodes.mp hn,
    mem_nodes, below_iff_id hn]
  constructor
  · rintro ⟨i, hi, ht, rfl⟩
    exact ⟨ht, by omega⟩
  · rintro ⟨ht, hi⟩
    exact ⟨m.id, by omega, ht, rfl⟩

/-- A node below another one is this one or stands below one of its children. -/
theorem exists_child_of_below (hn : n ∈ (parse text).nodes)
    (h : Below (parse text).entries n.id m.id) (hne : n.id ≠ m.id) :
    ∃ c ∈ n.children, Below (parse text).entries c.id m.id := by
  obtain ⟨ht, he⟩ := of_mem_nodes hn
  obtain ⟨k, hk, hb⟩ := ((Below.iff_child he).mp h).resolve_left hne
  obtain ⟨_, f, hf, _⟩ := parent_of_child he hk
  have hlt : k < n.tree.entries.size := by rw [ht]; exact (Array.getElem?_eq_some_iff.mp hf).1
  exact ⟨⟨n.tree, k, hlt⟩, mem_children.mpr ⟨rfl, hk⟩, hb⟩

/-- What goes from nodes to their children goes from a node to all below it. -/
theorem below_induction {Q : Node → Prop}
    (step : ∀ a ∈ (parse text).nodes, Q a → ∀ c ∈ a.children, Q c)
    (hn : n ∈ (parse text).nodes) (hm : m ∈ (parse text).nodes)
    (h : Below (parse text).entries n.id m.id) (hq : Q n) : Q m := by
  induction hk : m.id - n.id using Nat.strong_induction_on generalizing n with
  | _ d ih =>
      by_cases hne : n.id = m.id
      · exact eq_of_id hn hm hne ▸ hq
      · obtain ⟨c, hc, hb⟩ := exists_child_of_below hn h hne
        have hcn := mem_nodes_of_child hn hc
        have := (parent_of_mem_children hn hc).1
        have := ((below_iff_id hcn).mp hb).1
        exact ih (m.id - c.id) (by omega) hcn hb (step n hn hq c hc) rfl

/-- What is above a child of a node is this child or is above the node. -/
theorem below_of_below_child (hn : n ∈ (parse text).nodes) (hm : m ∈ (parse text).nodes)
    (hc : c ∈ m.children) (h : Below (parse text).entries n.id c.id) (hne : n.id ≠ c.id) :
    Below (parse text).entries n.id m.id := by
  have hq := @below_induction _ _ _ (fun a => n.id = a.id ∨
    ∃ q ∈ (parse text).nodes, a ∈ q.children ∧ Below (parse text).entries n.id q.id)
    (fun a ha hq c hc => .inr ⟨a, ha, hc, ?_⟩) hn (mem_nodes_of_child hm hc) h (.inl rfl)
  · obtain ⟨q, hq, hcq, hb⟩ := hq.resolve_left hne
    have hp := (parent_of_mem_children hm hc).2.symm.trans (parent_of_mem_children hq hcq).2
    rwa [Option.some.inj hp]
  · rcases hq with hi | ⟨q, hq, haq, hb⟩
    · exact hi ▸ .refl _
    · exact hb.trans (below_of_mem_children hq haq)

/-! ## Ranges -/

/-- What holds of the ends of the text and of all tokens holds of the ends of all nodes. -/
theorem ends_of_tokens {P : Nat → Prop} (h0 : P 0) (hs : P text.size)
    (ht : ∀ t ∈ text.tokens, t.span.Ends P) (hn : n ∈ (parse text).nodes) :
    n.span.Ends P ∧ n.full.Ends P := by
  obtain ⟨_, he⟩ := of_mem_nodes hn
  obtain ⟨roots, rest, hl, hr, _⟩ := exists_laid text
  by_cases hi : n.id = 0
  · rw [hi] at he
    obtain hq := Option.some.inj (hr.symm.trans he)
    rw [Node.span, Node.full, ← hq]
    exact ⟨⟨h0, hs⟩, h0, hs⟩
  · have hlt : n.id < (parse text).entries.size := (Array.getElem?_eq_some_iff.mp he).1
    exact hl.all_ends hs (Placed.ends_ofTokens h0 ht) he (by omega) hlt

theorem seams (hn : n ∈ (parse text).nodes) :
    n.span.Ends text.Seam ∧ n.full.Ends text.Seam :=
  ends_of_tokens text.seam_zero text.seam_size (fun _ ht => Text.seam_token ht) hn

/-- A line and a column can stand for each end of a node. -/
theorem addressable (hn : n ∈ (parse text).nodes) :
    n.span.Ends text.Addressable ∧ n.full.Ends text.Addressable :=
  ends_of_tokens text.addressable_zero text.addressable_size
    (fun _ ht => Text.addressable_token ht) hn

theorem covers_of_mem_children (hn : n ∈ (parse text).nodes) (hm : m ∈ n.children) :
    n.start ≤ m.start ∧ m.stop ≤ n.stop := by
  have hc := ((ranged hn).covers m hm).1
  rw [Span.covers, Bool.and_eq_true, decide_eq_true_eq, decide_eq_true_eq] at hc
  exact hc

/-- Of two children of a node, one ends before the other one starts. -/
theorem children_apart (hn : n ∈ (parse text).nodes) (ha : a ∈ n.children) (hc : c ∈ n.children) :
    a = c ∨ a.stop ≤ c.start ∨ c.stop ≤ a.start := by
  have hp := (ranged hn).apart
  exact (hp.imp fun h => .inr (.inl h)).forall_of_forall_of_flip
    (R := fun a c : Node => a = c ∨ a.stop ≤ c.start ∨ c.stop ≤ a.start)
    (fun _ _ => .inl rfl) (hp.imp fun h => .inr (.inr h)) ha hc

/-- A node lies in the ranges of the nodes around it. -/
theorem covers_of_below (hn : n ∈ (parse text).nodes) (hm : m ∈ (parse text).nodes)
    (h : Below (parse text).entries n.id m.id) : n.start ≤ m.start ∧ m.stop ≤ n.stop := by
  refine @below_induction _ _ _ (fun a => n.start ≤ a.start ∧ a.stop ≤ n.stop) ?_ hn hm h
    ⟨Nat.le_refl _, Nat.le_refl _⟩
  intro a ha hq c hc
  have hc := covers_of_mem_children ha hc
  exact ⟨hq.1.trans hc.1, hc.2.trans hq.2⟩

theorem stop_le_full (hn : n ∈ (parse text).nodes) : n.stop ≤ n.full.stop := by
  have hc := (ranged hn).full_covers
  rw [Span.covers, Bool.and_eq_true, decide_eq_true_eq, decide_eq_true_eq] at hc
  exact hc.2

/-- What stands behind a subtree starts behind its range. -/
theorem full_stop_le_start (hn : n ∈ (parse text).nodes) (hm : m ∈ (parse text).nodes)
    (h : n.entry.next ≤ m.id) : n.full.stop ≤ m.start := by
  obtain ⟨_, he⟩ := of_mem_nodes hn
  obtain ⟨_, hf⟩ := of_mem_nodes hm
  obtain ⟨roots, rest, hl, hr, _⟩ := exists_laid text
  have hs : m.id < (parse text).entries.size := (Array.getElem?_eq_some_iff.mp hf).1
  have hi : n.id ≠ 0 := by
    intro hi
    rw [hi] at he
    obtain hq := Option.some.inj (hr.symm.trans he)
    rw [← hq] at h
    exact absurd hs (Nat.not_lt_of_le h)
  exact hl.full_stop_le (headed_forest text) (Placed.ordered_tokens text) he hf (by omega)
    (id_lt_next hn) h hs

/-- Of two nodes, neither of which is below the other one, one ends before the other one starts. -/
theorem apart_of_not_below (hn : n ∈ (parse text).nodes) (hm : m ∈ (parse text).nodes)
    (h : ¬ Below (parse text).entries n.id m.id) (h' : ¬ Below (parse text).entries m.id n.id) :
    n.full.stop ≤ m.start ∨ m.full.stop ≤ n.start := by
  rw [below_iff_id hn] at h
  rw [below_iff_id hm] at h'
  rcases Nat.le_total n.id m.id with hle | hle
  · exact .inl (full_stop_le_start hn hm (by omega))
  · exact .inr (full_stop_le_start hm hn (by omega))

/-- A node below another one stands below a child of this one, before it or behind it. -/
theorem child_beside_below (hn : n ∈ (parse text).nodes) (hm : m ∈ (parse text).nodes)
    (hc : c ∈ n.children) (h : Below (parse text).entries n.id m.id) (hne : n.id ≠ m.id) :
    Below (parse text).entries c.id m.id ∨ c.full.stop ≤ m.start ∨ m.full.stop ≤ c.start := by
  have hcn := mem_nodes_of_child hn hc
  by_cases hb : Below (parse text).entries c.id m.id
  · exact .inl hb
  refine .inr (apart_of_not_below hcn hm hb fun hb' => ?_)
  by_cases hi : m.id = c.id
  · exact hb (hi ▸ .refl _)
  · have := (below_iff_id hn).mp h
    have := (below_iff_id hm).mp (below_of_below_child hm hn hc hb' hi)
    omega

/-- A leaf has the range of a token, in the range of each node it stands below. -/
theorem exists_token (hn : n ∈ (parse text).nodes) (hm : m ∈ n.leaves) :
    ∃ p ∈ text.significant, p.start = m.start ∧ p.stop = m.stop ∧
      n.start ≤ m.start ∧ m.stop ≤ n.stop := by
  obtain ⟨hm, hk⟩ := List.mem_filter.mp hm
  obtain ⟨hmn, hb⟩ := (mem_subtree hn).mp hm
  obtain ⟨p, hp, _, hs, _⟩ := exists_significant hmn hk
  exact ⟨p, hp, congrArg Span.start hs, congrArg Span.stop hs, covers_of_below hn hmn hb⟩

/-- If nothing is wrong with a text, every node but the root starts with a token and ends with
one. -/
theorem solid (h : (parse text).ok) (hn : n ∈ (parse text).nodes) (hi : n.id ≠ 0) :
    text.Solid n.span := by
  obtain ⟨f, l, hf, hg, hs, he⟩ := ends_of_ok h hn hi
  obtain ⟨p, hp, hps, hpe, _, hc⟩ := exists_token hn (List.mem_of_head? hf)
  obtain ⟨q, hq, hqs, hqe, hc', _⟩ := exists_token hn (List.mem_of_getLast? hg)
  exact ⟨⟨p, hp, hps.trans hs.symm, hpe ▸ hc⟩, ⟨q, hq, hqs ▸ hc', hqe.trans he.symm⟩⟩

/-! ## Nodes at offsets -/

theorem mem_descend (offset fuel : Nat) (hn : n ∈ (parse text).nodes) :
    descend offset fuel n ∈ (parse text).nodes := by
  induction fuel generalizing n with
  | zero => exact hn
  | succ fuel ih =>
      rw [descend]
      split
      · rename_i m hm
        rcases Option.or_eq_some_iff.mp hm with hm | ⟨_, hm⟩
        all_goals exact ih (mem_nodes_of_child hn (List.mem_of_find?_eq_some hm))
      · exact hn

theorem mem_covering (span : Span) : (parse text).covering span ∈ (parse text).nodes := by
  have hr : (parse text).root ∈ (parse text).nodes := mem_nodes.mpr rfl
  rw [covering]
  cases hf : ((parse text).elementAt span.start).ancestors.find? (·.span.covers span) with
  | none => exact hr
  | some n => exact (below_of_mem_ancestors (mem_descend _ _ hr) (List.mem_of_find?_eq_some hf)).1

end SyntaxTree

end AlRefactor
