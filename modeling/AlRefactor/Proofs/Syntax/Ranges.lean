import AlRefactor.Proofs.Grammar.Halting
import AlRefactor.Proofs.Syntax.Derivation
import AlRefactor.Proofs.Syntax.Places

/-!
# Ranges of nodes

The children of a node follow one another in the text, in the range of the node, and a range with its
layout goes beyond the range without. An empty node, which only a type can be, stands where the next
token starts. If nothing is wrong with a text there is none, and a node goes from its first leaf to
its last one.
-/

namespace AlRefactor

open AlRefactor.Tree

namespace Tree

variable {P Q : Kind → List Tree → Prop}

mutual
theorem everywhere_and : (t : Tree) →
    (Everywhere (fun k ts => P k ts ∧ Q k ts) t ↔ Everywhere P t ∧ Everywhere Q t)
  | .leaf _ => ⟨fun _ => ⟨trivial, trivial⟩, fun _ => trivial⟩
  | .node _ ts => (and_congr_right fun _ => everywhereAll_and ts).trans and_and_and_comm

theorem everywhereAll_and : (ts : List Tree) →
    (EverywhereAll (fun k ts => P k ts ∧ Q k ts) ts ↔ EverywhereAll P ts ∧ EverywhereAll Q ts)
  | [] => ⟨fun _ => ⟨trivial, trivial⟩, fun _ => trivial⟩
  | t :: ts => (and_congr (everywhere_and t) (everywhereAll_and ts)).trans and_and_and_comm
end

end Tree

namespace Laid

variable {text : Text} {es : Array Entry} {parent : Option Nat} {ps qs : List Placed}
  {id stop : Nat} {roots : List Nat} {ts : List Tree}

theorem suffix (h : Laid text es parent ps id roots ts qs stop) : qs <:+ ps := by
  induction h with
  | nil => exact List.suffix_refl _
  | leaf hq _ _ _ ih =>
      exact ih.trans ((List.suffix_cons _ _).trans (hq ▸ List.dropWhile_suffix _))
  | node _ _ _ ih ih' => exact ih'.trans ih

/-- Every node that trees have laid down is the root of one of them or of a tree below. -/
theorem single {P : Kind → List Tree → Prop} (h : Laid text es parent ps id roots ts qs stop)
    (hP : EverywhereAll P ts) {j : Nat} {e : Entry} (he : es[j]? = some e) (hj : id ≤ j)
    (hs : j < stop) : ∃ parent' ps' t qs', ps' <:+ ps ∧ Everywhere P t ∧
      Laid text es parent' ps' j [j] [t] qs' e.next := by
  induction h with
  | nil => omega
  | @leaf _ _ i _ _ _ _ _ _ _ hq hl he' h ih =>
      by_cases hn : j = i
      · subst hn
        obtain rfl := Option.some.inj (he'.symm.trans he)
        exact ⟨_, _, _, _, List.suffix_refl _, hP.1, .leaf hq hl he .nil⟩
      · obtain ⟨parent', ps', t, qs', hx, ht⟩ := ih hP.2 (by omega) hs
        exact ⟨parent', ps', t, qs',
          hx.trans ((List.suffix_cons _ _).trans (hq ▸ List.dropWhile_suffix _)), ht⟩
  | @node _ _ i _ _ _ _ _ _ _ mid _ h he' h' ih ih' =>
      by_cases hn : j = i
      · subst hn
        obtain rfl := Option.some.inj (he'.symm.trans he)
        exact ⟨_, _, _, _, List.suffix_refl _, hP.1, .node h he .nil⟩
      · by_cases hm : j < mid
        · exact ih hP.1.2 (by omega) hm
        · obtain ⟨parent', ps', t, qs', hx, ht⟩ := ih' hP.2 (by omega) hs
          exact ⟨parent', ps', t, qs', hx.trans h.suffix, ht⟩

end Laid

/-! ## Siblings in a row -/

/-- The ranges of a node that is made from one place among the tokens to another. -/
structure Fits (text : Text) (ps qs : List Placed) (e : Entry) : Prop where
  start_le_stop : e.span.start ≤ e.span.stop
  full_start_le : e.full.start ≤ e.span.start
  stop_le_full : e.span.stop ≤ e.full.stop
  next_start_le : Placed.nextStart text ps ≤ e.span.start
  next_full_le : Placed.nextFull text ps ≤ e.full.start
  full_stop_le : e.full.stop ≤ Placed.nextStart text qs

/-- Nodes one behind the other, all made from one place among the tokens to another. -/
structure Row (text : Text) (ps qs : List Placed) (es : List Entry) : Prop where
  fits : ∀ e ∈ es, Fits text ps qs e
  apart : es.Pairwise fun a b => a.full.stop ≤ b.span.start

/-- Places further apart fit as well. -/
theorem Fits.mono {text : Text} {ps ps' qs qs' : List Placed} {e : Entry} (h : Fits text ps' qs e)
    (ho : Placed.Ordered text ps) (hp : ps' <:+ ps) (hq : qs <:+ ps) (hq' : qs' <:+ qs) :
    Fits text ps qs' e :=
  { h with
    next_start_le := Nat.le_trans (ho.next_le hp).1 h.next_start_le
    next_full_le := Nat.le_trans (ho.next_le hp).2 h.next_full_le
    full_stop_le := Nat.le_trans h.full_stop_le ((ho.suffix hq).next_le hq').1 }

namespace Row

variable {text : Text} {ps qs rs : List Placed} {e f l : Entry} {es : List Entry}

theorem nil : Row text ps qs [] := ⟨nofun, .nil⟩

theorem cons (he : Fits text ps qs e) (h : Row text qs rs es) (ho : Placed.Ordered text ps)
    (hq : qs <:+ ps) (hr : rs <:+ qs) : Row text ps rs (e :: es) := by
  refine ⟨fun a ha => ?_, .cons (fun a ha => ?_) h.apart⟩
  · rcases List.mem_cons.mp ha with rfl | ha
    · exact he.mono ho (List.suffix_refl _) hq hr
    · exact (h.fits a ha).mono ho hq (hr.trans hq) (List.suffix_refl _)
  · exact Nat.le_trans he.full_stop_le (h.fits a ha).next_start_le

/-- In a row everything lies between the first and the last. -/
theorem between (h : Row text ps qs es) (hf : es.head? = some f) (hl : es.getLast? = some l) :
    ∀ e ∈ es, (e = f ∨ f.full.stop ≤ e.span.start) ∧ (e = l ∨ e.full.stop ≤ l.span.start) := by
  intro e he
  obtain ⟨rest, rfl⟩ := List.head?_eq_some_iff.mp hf
  have ha := List.pairwise_cons.mp h.apart
  obtain ⟨init, hi⟩ := List.getLast?_eq_some_iff.mp hl
  have hb := hi ▸ h.apart
  have hc := hi ▸ he
  refine ⟨(List.mem_cons.mp he).imp_right (ha.1 e), ?_⟩
  rcases List.mem_append.mp hc with hm | hm
  · exact .inr ((List.pairwise_append.mp hb).2.2 e hm l List.mem_cons_self)
  · exact .inl (List.mem_singleton.mp hm)

/-- The range around a row goes from its first to its last node. -/
theorem around_span (h : Row text ps qs es) (hf : es.head? = some f) (hl : es.getLast? = some l)
    (s : Span) : Entry.around s (es.map (·.span)) = ⟨f.span.start, l.span.stop⟩ := by
  have hb := (h.between hf hl l (List.mem_of_getLast? hl)).1
  have ha := h.fits f (List.mem_of_head? hf)
  have hz := h.fits l (List.mem_of_getLast? hl)
  have := ha.start_le_stop
  have := ha.stop_le_full
  have := hz.start_le_stop
  have hs : f.span.start ≤ l.span.start ∧ f.span.stop ≤ l.span.stop := by
    rcases hb with rfl | hb
    · exact ⟨Nat.le_refl _, Nat.le_refl _⟩
    · omega
  simp [Entry.around, hf, hl, Span.join, hs.1, hs.2]

/-- So does the range with layout if the first node starts with a token. -/
theorem around_full (h : Row text ps qs es) (hf : es.head? = some f) (hl : es.getLast? = some l)
    (hn : f.full.start = Placed.nextFull text ps) (s : Span) :
    Entry.around s (es.map (·.full)) = ⟨f.full.start, l.full.stop⟩ := by
  have hb := (h.between hf hl l (List.mem_of_getLast? hl)).1
  have ha := h.fits f (List.mem_of_head? hf)
  have hz := h.fits l (List.mem_of_getLast? hl)
  have := hz.next_full_le
  have := hz.start_le_stop
  have := hz.stop_le_full
  have hs : f.full.start ≤ l.full.start ∧ f.full.stop ≤ l.full.stop := by
    rcases hb with rfl | hb
    · exact ⟨Nat.le_refl _, Nat.le_refl _⟩
    · omega
  simp [Entry.around, hf, hl, Span.join, hs.1, hs.2]

end Row

/-! ## Around siblings -/

/-- A range without and with layout around those of some nodes, which do not overlap. -/
structure Encloses (span full : Span) (es : List Entry) : Prop where
  start_le_stop : span.start ≤ span.stop
  full_covers : full.covers span
  apart : es.Pairwise fun a b => a.span.stop ≤ b.span.start
  covers : ∀ e ∈ es, span.covers e.span ∧ full.covers e.full

section Siblings

variable {text : Text} {ps qs : List Placed} {es : List Entry} {f l : Entry}

theorem exists_getLast? (hf : es.head? = some f) : ∃ l, es.getLast? = some l :=
  ⟨_, List.getLast?_eq_some_getLast (List.ne_nil_of_mem (List.mem_of_head? hf))⟩

theorem Row.spans_apart (h : Row text ps qs es) :
    es.Pairwise fun a b => a.span.stop ≤ b.span.start :=
  h.apart.imp_of_mem fun ha _ hab => Nat.le_trans (h.fits _ ha).stop_le_full hab

theorem Row.encloses (h : Row text ps qs es) (hf : es.head? = some f) (hl : es.getLast? = some l)
    (hn : f.full.start = Placed.nextFull text ps) :
    Encloses ⟨f.span.start, l.span.stop⟩ ⟨f.full.start, l.full.stop⟩ es := by
  have ha := h.fits f (List.mem_of_head? hf)
  have hz := h.fits l (List.mem_of_getLast? hl)
  have hc (e : Entry) (he : e ∈ es) : f.span.start ≤ e.span.start ∧ e.span.stop ≤ l.span.stop ∧
      f.full.start ≤ e.full.start ∧ e.full.stop ≤ l.full.stop := by
    obtain ⟨hb, hb'⟩ := h.between hf hl e he
    have hx := h.fits e he
    have := ha.start_le_stop
    have := ha.stop_le_full
    have := hx.stop_le_full
    have := hz.start_le_stop
    have := hz.stop_le_full
    refine ⟨?_, ?_, hn ▸ hx.next_full_le, ?_⟩
    · rcases hb with rfl | hb <;> omega
    · rcases hb' with rfl | hb' <;> omega
    · rcases hb' with rfl | hb' <;> omega
  refine ⟨?_, ?_, h.spans_apart, fun e he => ?_⟩
  · exact Nat.le_trans ha.start_le_stop (hc f (List.mem_of_head? hf)).2.1
  · simp [Span.covers, ha.full_start_le, hz.stop_le_full]
  · simpa [Span.covers, and_assoc] using hc e he

theorem fits_leaf {q : Placed} (ho : Placed.Ordered text ps)
    (hq : ps.dropWhile (·.isLayout) = q :: qs) (k : Kind) (parent : Option Nat) (id : Nat) :
    Fits text ps qs ⟨k, q.token.span, q.full, parent, [], id, none⟩ := by
  obtain ⟨hs, hn⟩ := Placed.next_of_dropWhile text hq
  have ho := ho.suffix (hq ▸ List.dropWhile_suffix _)
  obtain ⟨h₁, h₂, h₃⟩ := ho.1 (Builder.isLayout_of_dropWhile hq)
  exact ⟨q.start_le_stop, h₁, h₂, Nat.le_of_eq hs, Nat.le_of_eq hn,
    Nat.le_trans h₃ ho.2.full_le_start⟩

/-- The ranges of a node that is opened at a place and closed when it has its children, of which the
first one starts with a token. -/
theorem Row.closed (h : Row text ps qs es) (ho : Placed.Ordered text ps) (k : Kind)
    (parent : Option Nat) (below : List Nat) (id next : Nat)
    (hf : es = [] ∧ qs = ps ∨ ∃ f, es.head? = some f ∧ f.full.start = Placed.nextFull text ps) :
    let e := Entry.closed text ⟨k, Span.empty (Placed.nextStart text ps),
      Span.empty (Placed.nextStart text ps), parent, below, id, none⟩ es next
    Fits text ps qs e ∧ Encloses e.span e.full es ∧
      (es ≠ [] → e.full.start = Placed.nextFull text ps) := by
  rcases hf with ⟨rfl, rfl⟩ | ⟨f, hf, hn⟩
  · have := ho.full_le_start
    refine ⟨⟨?_, ?_, ?_, ?_, ?_, ?_⟩, ⟨?_, ?_, .nil, nofun⟩, fun hn => absurd rfl hn⟩
    all_goals simp [Entry.closed, Entry.around, Span.empty, Span.covers, this]
  · obtain ⟨l, hl⟩ : ∃ l, es.getLast? = some l := by
      cases es with
      | nil => cases hf
      | cons e es => exact ⟨_, List.getLast?_cons⟩
    have ha := h.fits f (List.mem_of_head? hf)
    have hz := h.fits l (List.mem_of_getLast? hl)
    have he := h.encloses hf hl hn
    simp only [Entry.closed, h.around_span hf hl, h.around_full hf hl hn]
    exact ⟨⟨he.start_le_stop, ha.full_start_le, hz.stop_le_full, ha.next_start_le,
      ha.next_full_le, hz.full_stop_le⟩, he, fun _ => hn⟩

end Siblings

namespace Laid

variable {text : Text} {es : Array Entry} {parent : Option Nat} {ps qs : List Placed}
  {id stop : Nat} {roots : List Nat} {ts : List Tree}

/-- Trees of which only types are empty stand in a row. If a node can be around them, there are none
or the first one starts with a token. -/
theorem row (h : Laid text es parent ps id roots ts qs stop) (hh : EverywhereAll Headed ts)
    (ho : Placed.Ordered text ps) : Row text ps qs (roots.filterMap (es[·]?)) ∧
      ∀ k, Headed k ts → ts = [] ∧ roots.filterMap (es[·]?) = [] ∧ qs = ps ∨
        ∃ f, (roots.filterMap (es[·]?)).head? = some f ∧
          f.full.start = Placed.nextFull text ps := by
  induction h with
  | nil => exact ⟨.nil, fun _ _ => .inl ⟨rfl, rfl, rfl⟩⟩
  | leaf hq _ he h ih =>
      have hx := (List.suffix_cons _ _).trans (hq ▸ List.dropWhile_suffix _)
      rw [List.filterMap_cons_some he]
      refine ⟨.cons (fits_leaf ho hq _ _ _) (ih hh.2 (ho.suffix hx)).1 ho hx h.suffix, ?_⟩
      exact fun _ _ => .inr ⟨_, rfl, (Placed.next_of_dropWhile _ hq).2.symm⟩
  | @node parent ps id below _ k us _ _ _ mid _ h he h' ih ih' =>
      obtain ⟨hr, hb⟩ := ih hh.1.2 ho
      have hb := hb k hh.1.1
      obtain ⟨hc, _, hn⟩ := hr.closed ho k parent below (id + 1) mid (hb.imp_left And.right)
      rw [List.filterMap_cons_some he]
      refine ⟨.cons hc (ih' hh.2 (ho.suffix h.suffix)).1 ho h.suffix h'.suffix, fun _ hl => ?_⟩
      refine .inr ⟨_, rfl, hn fun hn => ?_⟩
      rcases hb with ⟨rfl, _⟩ | ⟨f, hf, _⟩
      · exact hl rfl
      · rw [hn] at hf; cases hf

theorem encloses {j : Nat} {t : Tree} {e : Entry} (h : Laid text es parent ps j [j] [t] qs stop)
    (he : es[j]? = some e) (hh : Everywhere Headed t) (ho : Placed.Ordered text ps) :
    Encloses e.span e.full (e.children.filterMap (es[·]?)) := by
  cases h with
  | leaf hq _ he' h =>
      obtain rfl := Option.some.inj (he'.symm.trans he)
      obtain ⟨h₁, h₂, h₃, _⟩ := fits_leaf ho hq (Kind.node .block) none 0
      exact ⟨h₁, by simpa [Span.covers] using ⟨h₂, h₃⟩, .nil, nofun⟩
  | @node _ _ _ below _ k _ _ _ _ mid _ h he' h' =>
      obtain rfl := Option.some.inj (he'.symm.trans he)
      obtain ⟨hr, hb⟩ := h.row hh.2 ho
      exact (hr.closed ho k parent below (j + 1) mid ((hb k hh.1).imp_left And.right)).2.1

/-- Where the rules are followed a type is not empty either. -/
theorem ne_nil_of_rule {k : Kind} {ts : List Tree} (hh : Headed k ts) (hr : Rule k ts) :
    ts ≠ [] := by
  rintro rfl
  obtain rfl : k = NodeKind.typeReference := hh
  obtain ⟨u, hu, v, _, hv⟩ := Pattern.mem_mul.mp hr
  obtain ⟨l, _, rfl⟩ := Pattern.mem_tokens.mp hu
  cases hv

theorem getLast?_map_cons {a : Entry} {l : List Entry} {n : Entry → Nat} :
    (a :: l).getLast?.map n = some ((l.getLast?.map n).getD (n a)) := by
  rw [List.getLast?_cons, Option.map_some, Option.getD_map]

/-- Trees that follow the rules start with their first leaf and end with their last one. -/
theorem ends (h : Laid text es parent ps id roots ts qs stop) (hh : EverywhereAll Headed ts)
    (hn : EverywhereAll Rule ts) (ho : Placed.Ordered text ps) :
    (roots.filterMap (es[·]?)).head?.map (·.span.start) =
        ((between es id stop).filter (·.isLeaf)).head?.map (·.span.start) ∧
      (roots.filterMap (es[·]?)).getLast?.map (·.span.stop) =
        ((between es id stop).filter (·.isLeaf)).getLast?.map (·.span.stop) := by
  induction h with
  | nil => simp [between]
  | @leaf _ _ id _ l _ _ _ _ stop hq _ he h ih =>
      have hx := (List.suffix_cons _ _).trans (hq ▸ List.dropWhile_suffix _)
      obtain ⟨_, hl⟩ := ih hh.2 hn.2 (ho.suffix hx)
      have hb : between es id stop = _ := between_cons he h.le
      rw [List.filterMap_cons_some he, hb,
        List.filter_cons_of_pos (by simp [Entry.isLeaf, Kind.isToken])]
      exact ⟨rfl, by rw [getLast?_map_cons, getLast?_map_cons, hl]⟩
  | @node parent ps id below _ k us _ _ _ mid stop h he h' ih ih' =>
      obtain ⟨ihf, ihl⟩ := ih hh.1.2 hn.1.2 ho
      obtain ⟨_, ihl'⟩ := ih' hh.2 hn.2 (ho.suffix h.suffix)
      obtain ⟨hr, hf⟩ := h.row hh.1.2 ho
      rcases hf k hh.1.1 with ⟨rfl, _⟩ | ⟨f, hf, _⟩
      · exact absurd rfl (ne_nil_of_rule hh.1.1 hn.1.1)
      obtain ⟨l, hl⟩ := exists_getLast? hf
      have hb : below ≠ [] := fun hb => by rw [hb] at hf; cases hf
      have hk : (Entry.closed text ⟨k, Span.empty (Placed.nextStart text ps),
          Span.empty (Placed.nextStart text ps), parent, below, id + 1, none⟩
          (below.filterMap (es[·]?)) mid).isLeaf = false := by
        simp [Entry.isLeaf, Entry.closed, hb]
      rw [List.filterMap_cons_some he, between_cons he (Nat.lt_of_lt_of_le h.le h'.le),
        ← between_append es h.le h'.le, List.filter_cons_of_neg (by simp [hk]), List.filter_append,
        getLast?_map_cons, List.head?_append, List.getLast?_append, Option.map_or, Option.map_or,
        ← ihf, ← ihl, ← ihl', hf, hl]
      simp only [Entry.closed, hr.around_span hf hl]
      exact ⟨rfl, by simp⟩

end Laid

/-! ## Nodes -/

namespace Node

/-- The leaves that a node is made of, in order; a leaf is made of itself. -/
def leaves (n : Node) : List Node := n.subtree.filter (·.isLeaf)

/-- The ranges of a node and its children. -/
structure Ranged (n : Node) : Prop where
  start_le_stop : n.start ≤ n.stop
  full_covers : n.full.covers n.span
  /-- A child ends before the next one starts. -/
  apart : n.children.Pairwise fun a b => a.stop ≤ b.start
  covers : ∀ m ∈ n.children, n.span.covers m.span ∧ n.full.covers m.full

theorem ranged_of_encloses {n : Node}
    (h : Encloses n.span n.full (n.entry.children.filterMap (n.tree.entries[·]?))) : n.Ranged := by
  rw [← map_entry_children] at h
  exact ⟨h.start_le_stop, h.full_covers, List.pairwise_map.mp h.apart,
    fun m hm => h.covers _ (List.mem_map_of_mem hm)⟩

theorem filterMap_range'_getElem? {α : Type} (l : List α) (i n : Nat) :
    (List.range' i n).filterMap (l[·]?) = (l.drop i).take n := by
  induction n generalizing i with
  | zero => simp
  | succ n ih =>
      rw [List.range'_succ, List.filterMap_cons, ih]
      cases h : l[i]? with
      | none =>
          have hi := List.getElem?_eq_none_iff.mp h
          rw [List.drop_eq_nil_of_le hi, List.drop_eq_nil_of_le (by omega)]
          simp
      | some a =>
          obtain ⟨hi, rfl⟩ := List.getElem?_eq_some_iff.mp h
          rw [List.drop_eq_getElem_cons hi, List.take_succ_cons]

theorem map_entry_leaves (n : Node) : n.leaves.map (·.entry) =
    (between n.tree.entries n.id n.entry.next).filter (·.isLeaf) := by
  have hs : n.subtree.map (·.entry) = between n.tree.entries n.id n.entry.next := by
    rw [subtree, List.map_filterMap, between, ← filterMap_range'_getElem?]
    refine List.filterMap_congr fun i _ => ?_
    rw [SyntaxTree.get?, Array.getElem?_toList]
    split
    · rename_i h; simp [Node.entry, h]
    · rename_i h; simp [h]
  rw [leaves, ← hs, List.filter_map]
  rfl

theorem entry_of_mem_leaves {n m : Node} (h : m ∈ n.leaves) :
    ∃ i : Nat, n.tree.entries[i]? = some m.entry := by
  have hm : m.entry ∈ n.leaves.map (·.entry) := List.mem_map_of_mem h
  rw [map_entry_leaves] at hm
  have hm := List.mem_of_mem_drop (List.mem_of_mem_take (List.mem_filter.mp hm).1)
  obtain ⟨i, hi⟩ := List.mem_iff_getElem?.mp hm
  exact ⟨i, by rwa [Array.getElem?_toList] at hi⟩

end Node

namespace SyntaxTree

variable {text : Text} {n : Node}

theorem headed_forest (text : Text) : EverywhereAll Headed (forest text) :=
  (Grammar.halts_declarations _).headed

/-- Behind the trees of a text no significant token is left. -/
theorem nextStart_rest {es : Array Entry} {parent : Option Nat} {id stop : Nat} {roots : List Nat}
    {rest : List Placed}
    (h : Laid text es parent (Placed.ofTokens 0 text.tokens) id roots (forest text) rest stop) :
    Placed.nextStart text rest = text.size := by
  have hl := h.lexemes
  rw [leavesOf_forest, Placed.lexemes_ofTokens] at hl
  have hn := List.map_eq_nil_iff.mp (List.append_right_eq_self.mp hl)
  have hf : rest.find? (!·.isLayout) = none := by
    rw [List.find?_eq_none]
    exact List.filter_eq_nil_iff.mp hn
  simp [Placed.nextStart, hf]

theorem ranged (hn : n ∈ (parse text).nodes) : n.Ranged := by
  obtain ⟨ht, he⟩ := of_mem_nodes hn
  obtain ⟨roots, rest, hl, hr, _⟩ := exists_laid text
  have ho := Placed.ordered_tokens text
  refine Node.ranged_of_encloses ?_
  rw [ht]
  by_cases hi : n.id = 0
  · have hn := nextStart_rest hl
    obtain ⟨hrow, _⟩ := hl.row (headed_forest text) ho
    rw [hi] at he
    obtain hq := Option.some.inj (hr.symm.trans he)
    rw [Node.span, Node.full, ← hq]
    refine ⟨Nat.zero_le _, by simp [Span.covers], hrow.spans_apart, fun e he => ?_⟩
    have hf := hrow.fits e he
    have := hf.stop_le_full
    have := hf.full_stop_le
    simp only [Span.covers, Bool.and_eq_true, decide_eq_true_eq]
    omega
  · have hs : n.id < (parse text).entries.size := (Array.getElem?_eq_some_iff.mp he).1
    obtain ⟨_, ps, t, qs, hx, hh, hj⟩ := hl.single (headed_forest text) he (by omega) hs
    exact hj.encloses he hh (ho.suffix hx)

/-- If nothing is wrong with a text, a node goes from its first leaf to its last one. -/
theorem ends_of_ok (h : (parse text).ok) (hn : n ∈ (parse text).nodes) (hi : n.id ≠ 0) :
    ∃ f l, n.leaves.head? = some f ∧ n.leaves.getLast? = some l ∧
      n.start = f.start ∧ n.stop = l.stop := by
  obtain ⟨ht, he⟩ := of_mem_nodes hn
  obtain ⟨roots, rest, hl, hr, _⟩ := exists_laid text
  have hs : n.id < (parse text).entries.size := (Array.getElem?_eq_some_iff.mp he).1
  obtain ⟨_, ps, t, qs, hx, hp, hj⟩ := hl.single
    ((everywhereAll_and _).mpr ⟨headed_forest text, (rule_forest h).2⟩) he (by omega) hs
  obtain ⟨hh, hk⟩ := (everywhere_and t).mp hp
  obtain ⟨hf, hl⟩ := hj.ends ⟨hh, trivial⟩ ⟨hk, trivial⟩ ((Placed.ordered_tokens text).suffix hx)
  have hm := n.map_entry_leaves
  rw [ht] at hm
  rw [← hm, List.filterMap_cons_some he] at hf hl
  obtain ⟨a, ha, hs⟩ := Option.map_eq_some_iff.mp hf.symm
  obtain ⟨b, hb, ht⟩ := Option.map_eq_some_iff.mp hl.symm
  rw [List.head?_map] at ha
  rw [List.getLast?_map] at hb
  obtain ⟨f, hf, rfl⟩ := Option.map_eq_some_iff.mp ha
  obtain ⟨l, hl, rfl⟩ := Option.map_eq_some_iff.mp hb
  exact ⟨f, l, hf, hl, hs.symm, ht.symm⟩

/-- The ranges of the root cover the text, those of the children of a node follow one another in its
ranges, and no range goes beyond the one with layout. If nothing is wrong with the text, every node
but the root starts where its first leaf does and ends where its last leaf does, neither of which is
layout. -/
theorem ranges_parse (text : Text) :
    (parse text).root.span = ⟨0, text.size⟩ ∧ (parse text).root.full = ⟨0, text.size⟩ ∧
      (∀ n ∈ (parse text).nodes, n.Ranged) ∧
      ((parse text).ok → ∀ n ∈ (parse text).nodes, n.id ≠ 0 →
        ∃ f l, n.leaves.head? = some f ∧ n.leaves.getLast? = some l ∧
          n.start = f.start ∧ n.stop = l.stop ∧
          f.kind.isTrivia = false ∧ l.kind.isTrivia = false) := by
  obtain ⟨_, _, _, hr, _⟩ := exists_laid text
  have he : (parse text).root.entry = _ := Option.some.inj ((Array.getElem?_eq_getElem _).symm.trans hr)
  refine ⟨?_, ?_, fun n hn => ranged hn, fun h n hn hi => ?_⟩
  · rw [Node.span, he]
  · rw [Node.full, he]
  · have ht := (of_mem_nodes hn).1
    have hk (m : Node) (hm : m ∈ n.leaves) : m.kind.isTrivia = false := by
      obtain ⟨i, hi⟩ := Node.entry_of_mem_leaves hm
      exact (kind_entry (ht ▸ hi)).2
    obtain ⟨f, l, hf, hl, hs, hp⟩ := ends_of_ok h hn hi
    exact ⟨f, l, hf, hl, hs, hp, hk f (List.mem_of_head? hf), hk l (List.mem_of_getLast? hl)⟩

/-- A file with layout in front of a name and at its end. -/
theorem ranges_parse_codeunit :
    (parse "codeunit 1 /* a */ A \x7b\x7d\n".toList).ok ∧
      ∀ n ∈ (parse "codeunit 1 /* a */ A \x7b\x7d\n".toList).nodes, n.id ≠ 0 →
        ∃ f l, n.leaves.head? = some f ∧ n.leaves.getLast? = some l ∧
          n.start = f.start ∧ n.stop = l.stop ∧
          f.kind.isTrivia = false ∧ l.kind.isTrivia = false := by
  have hl : (Lexeme.lex "codeunit 1 /* a */ A \x7b\x7d\n".toList).filter (·.isSignificant) =
      [⟨.ident, "codeunit".toList⟩, ⟨.intLiteral, ['1']⟩, ⟨.ident, ['A']⟩, ⟨.lBrace, ['\x7b']⟩,
       ⟨.rBrace, ['\x7d']⟩] := by decide +kernel
  have h : (parse "codeunit 1 /* a */ A \x7b\x7d\n".toList).ok := by
    rw [ok_iff, Text.lexemes_significant, hl]
    decide +kernel
  exact ⟨h, (ranges_parse _).2.2.2 h⟩

end SyntaxTree

end AlRefactor
