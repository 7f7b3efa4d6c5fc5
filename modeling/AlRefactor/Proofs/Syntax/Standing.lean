import AlRefactor.Proofs.Syntax.Hole
import AlRefactor.Proofs.Syntax.RoundTrip
import AlRefactor.Proofs.Syntax.Shape
import AlRefactor.Proofs.Token.Cuts

/-!
# Which tree a node shows

Where nothing is wrong with a text, every node shows a tree of the text, and the leaves of this tree are
significant tokens that follow one another: the node starts with the first of them and ends with the
last one.
-/

namespace AlRefactor

open AlRefactor.Tree

namespace Tree

/-- The trees below the root of a tree. -/
def parts : Tree → List Tree
  | .leaf _ => []
  | .node _ ts => ts

mutual
/-- How many nodes a tree has, its root and its leaves included. -/
def count : Tree → Nat
  | .leaf _ => 1
  | .node _ ts => countAll ts + 1

def countAll : List Tree → Nat
  | [] => 0
  | t :: ts => count t + countAll ts
end

/-- How many nodes come before the place when the trees are gone through from the roots down. -/
def Hole.number : Hole → Nat
  | .here as _ => countAll as
  | .under as _ o _ => countAll as + 1 + o.number

theorem Hole.everywhere_plug {P : Kind → List Tree → Prop} {o : Hole} {t : Tree}
    (h : EverywhereAll P (o.plug t)) : Everywhere P t := by
  induction o with
  | here as bs => exact (everywhereAll_append.mp h).2.1
  | under as k o bs ih => exact ih (everywhereAll_append.mp h).2.1.2

end Tree

namespace Placed

/-- The tokens that are not layout. -/
def solid (ps : List Placed) : List Token := (ps.filter fun p => !p.isLayout).map (·.token)

theorem solid_ofTokens (leading : Nat) (ts : List Token) :
    solid (ofTokens leading ts) = ts.filter (·.isSignificant) := by
  induction ts generalizing leading with
  | nil => rfl
  | cons t ts ih =>
      simp only [solid, isLayout, Lexeme.isSignificant] at ih ⊢
      by_cases h : t.kind.isTrivia <;> simp [ofTokens, h, ih]

theorem nextStart_of_solid {text : Text} {ps : List Placed} {p : Token} (h : p ∈ (solid ps).head?) :
    nextStart text ps = p.start := by
  rw [solid, List.head?_map, List.head?_filter] at h
  obtain ⟨q, hq, rfl⟩ := Option.map_eq_some_iff.mp h
  rw [nextStart, hq]

theorem labels_eq_solid (ps : List Placed) : labels ps = (solid ps).map (·.label) := by
  rw [labels, solid, List.map_map]
  rfl

end Placed

/-! ## Stretches of tokens -/

/-- A node goes from the significant token of a number on over some tokens, and its layout does not go
beyond the start of the next one. -/
structure Node.Spans (n : Node) (text : Text) (k m : Nat) : Prop where
  start : ∃ p, text.significant[k]? = some p ∧ p.start = n.start
  stop : ∃ p, text.significant[k + m - 1]? = some p ∧ p.stop = n.stop
  full : ∀ p ∈ text.significant[k + m]?, n.full.stop ≤ p.start
  pos : 0 < m

/-- Nodes show trees whose leaves are the significant tokens from a number on. -/
inductive Shows (text : Text) : Nat → List Node → List Tree → Prop where
  | nil {k} : Shows text k [] []
  | cons {k n ns t ts} : n ∈ (SyntaxTree.parse text).nodes → n.kind = t.kind →
      n.Spans text k t.leaves.length → Shows text k n.children t.parts →
      Shows text (k + t.leaves.length) ns ts → Shows text k (n :: ns) (t :: ts)

namespace Laid

variable {text : Text} {es : Array Entry} {parent : Option Nat} {ps qs : List Placed}
  {id stop k : Nat} {roots : List Nat} {t : Tree} {ts : List Tree} {o : Hole}

theorem solid (h : Laid text es parent ps id roots ts qs stop) :
    (leavesOf ts).length + (Placed.solid qs).length = (Placed.solid ps).length := by
  have := congrArg List.length h.lexemes
  simpa [Placed.solid] using this

theorem solid_drop (h : Laid text es parent ps id roots ts qs stop) :
    Placed.solid qs = (Placed.solid ps).drop (leavesOf ts).length := by
  have hs := h.solid
  obtain ⟨us, hu⟩ := h.suffix
  have ha : Placed.solid ps = Placed.solid us ++ Placed.solid qs := by
    rw [← hu, Placed.solid, List.filter_append, List.map_append]
    rfl
  rw [ha, List.length_append] at hs
  rw [ha, List.drop_left' (by omega)]

/-- The stretch of tokens that a tree is made of. -/
theorem spans {n : Node} (h : Laid text (SyntaxTree.parse text).entries parent ps n.id [n.id] [t] qs stop)
    (hn : n ∈ (SyntaxTree.parse text).nodes) (hh : Everywhere Headed t) (hr : Everywhere Rule t)
    (hc : Everywhere Composite t) (ho : Placed.Ordered text ps)
    (hk : Placed.solid ps = text.significant.drop k) : n.Spans text k t.leaves.length := by
  have he : (SyntaxTree.parse text).entries[n.id]? = some n.entry := (SyntaxTree.of_mem_nodes hn).2
  have hs := h.solid
  have hl := h.leaves ⟨hc, trivial⟩
  obtain ⟨hf, hg⟩ := h.ends ⟨hh, trivial⟩ ⟨hr, trivial⟩ ho
  have hfit := h.fits ⟨hh, trivial⟩ ho he (Nat.le_refl _) (h.roots_mem n.id (List.mem_singleton_self _)).2
  rw [List.filterMap_cons_some he] at hf hg
  generalize (between (SyntaxTree.parse text).entries n.id stop).filter (·.isLeaf) = ls at hl hf hg
  -- The leaves are the tokens that the tree takes, and there is one of them at least.
  rw [Placed.labels_eq_solid, Placed.labels_eq_solid] at hl
  rw [leavesOf, leavesOf, List.append_nil] at hs
  have hlen : ls.length = t.leaves.length := by
    have := congrArg List.length hl
    simp only [List.length_append, List.length_map] at this
    omega
  have hget (i : Nat) (hi : i < ls.length) :
      text.significant[k + i]?.map (·.label) = ls[i]?.map (·.label) := by
    rw [← List.getElem?_drop, ← hk, ← List.getElem?_map, ← hl,
      List.getElem?_append_left (by simpa using hi), List.getElem?_map]
  obtain ⟨a, ha, has⟩ := Option.map_eq_some_iff.mp hf.symm
  obtain ⟨b, hb, hbs⟩ := Option.map_eq_some_iff.mp hg.symm
  have hpos : 0 < ls.length := List.length_pos_of_ne_nil fun h => by simp [h] at ha
  refine ⟨?_, ?_, fun p hp => ?_, by omega⟩
  · have h0 := hget 0 hpos
    rw [← List.head?_eq_getElem?, ha] at h0
    obtain ⟨p, hp, hpa⟩ := Option.map_eq_some_iff.mp h0
    exact ⟨p, hp, (congrArg (·.2.start) hpa).trans has⟩
  · have h1 := hget (ls.length - 1) (by omega)
    rw [← List.getLast?_eq_getElem?, hb] at h1
    obtain ⟨p, hp, hpb⟩ := Option.map_eq_some_iff.mp h1
    refine ⟨p, ?_, (congrArg (·.2.stop) hpb).trans hbs⟩
    rw [← hp]
    congr 1
    omega
  · have hq := h.solid_drop
    rw [leavesOf, leavesOf, List.append_nil, hk, List.drop_drop] at hq
    have hstart : Placed.nextStart text qs = p.start :=
      Placed.nextStart_of_solid (by rw [hq, List.head?_drop]; exact hp)
    exact hstart ▸ hfit.full_stop_le

/-- The nodes that trees have laid down show them. -/
theorem shows (h : Laid text (SyntaxTree.parse text).entries parent ps id roots ts qs stop)
    (hh : EverywhereAll Headed ts) (hr : EverywhereAll Rule ts) (hc : EverywhereAll Composite ts)
    (ho : Placed.Ordered text ps) (hk : Placed.solid ps = text.significant.drop k) :
    Shows text k (roots.filterMap (SyntaxTree.parse text).get?) ts := by
  induction h generalizing k with
  | nil => exact .nil
  | @leaf parent ps id _ l _ q qs _ _ hq hl he h ih =>
      obtain ⟨n, hg, hn, ht⟩ := SyntaxTree.get?_of_entry he
      rw [List.filterMap_cons_some hg]
      have hi : n.id = id := (SyntaxTree.get?_eq_some.mp hg).2
      subst hi
      have hs : Laid text (SyntaxTree.parse text).entries parent ps n.id [n.id] [.leaf l] qs (n.id + 1) :=
        .leaf hq hl he .nil
      have hch : n.children = [] := by rw [Node.children, hn]; rfl
      refine .cons (SyntaxTree.mem_nodes.mpr ht) (by rw [Node.kind, hn]; rfl)
        (hs.spans (SyntaxTree.mem_nodes.mpr ht) hh.1 hr.1 hc.1 ho hk) (by rw [hch]; exact .nil) ?_
      exact ih hh.2 hr.2 hc.2 (ho.suffix hs.suffix)
        (by rw [hs.solid_drop, hk, List.drop_drop]; simp [leavesOf])
  | @node parent ps id below _ j us _ qs _ mid _ h he h' ih ih' =>
      obtain ⟨n, hg, hn, ht⟩ := SyntaxTree.get?_of_entry he
      rw [List.filterMap_cons_some hg]
      have hi : n.id = id := (SyntaxTree.get?_eq_some.mp hg).2
      subst hi
      have hs : Laid text (SyntaxTree.parse text).entries parent ps n.id [n.id] [.node j us] qs mid :=
        .node h he .nil
      have hch : n.children = below.filterMap (SyntaxTree.parse text).get? := by
        rw [Node.children, hn, ht]; rfl
      refine .cons (SyntaxTree.mem_nodes.mpr ht) (by rw [Node.kind, hn]; rfl)
        (hs.spans (SyntaxTree.mem_nodes.mpr ht) hh.1 hr.1 hc.1 ho hk) ?_ ?_
      · rw [hch]
        exact ih hh.1.2 hr.1.2 hc.1.2 ho hk
      · exact ih' hh.2 hr.2 hc.2 (ho.suffix hs.suffix)
          (by rw [hs.solid_drop, hk, List.drop_drop]; simp [leavesOf])

theorem stop_eq (h : Laid text es parent ps id roots ts qs stop) : stop = id + countAll ts := by
  induction h with
  | nil => rfl
  | leaf _ _ _ _ ih => rw [ih, countAll, count]; omega
  | node _ _ _ ih ih' => rw [ih', ih, countAll, count]; omega

/-- Every number that trees take is that of a place in them. -/
theorem exists_hole (h : Laid text es parent ps id roots ts qs stop) {j : Nat} (hj : id ≤ j)
    (hs : j < stop) : ∃ (o : Hole) (t : Tree), ts = o.plug t ∧ j = id + o.number := by
  have hwiden {t : Tree} {ts : List Tree} {id mid : Nat} (hm : mid = id + t.count)
      (h : ∃ (o : Hole) (u : Tree), ts = o.plug u ∧ j = mid + o.number) :
      ∃ (o : Hole) (u : Tree), t :: ts = o.plug u ∧ j = id + o.number := by
    obtain ⟨o, u, rfl, hj⟩ := h
    refine ⟨o.widen [t] [], u, by simp, ?_⟩
    cases o <;> simp only [Hole.widen, Hole.number, List.singleton_append, countAll] at hj ⊢ <;> omega
  induction h with
  | nil => omega
  | @leaf _ _ id _ l ts _ _ _ _ _ _ _ _ ih =>
      rcases Nat.eq_or_lt_of_le hj with rfl | hj
      · exact ⟨.here [] ts, .leaf l, rfl, rfl⟩
      · exact hwiden (by rw [count]) (ih hj hs)
  | @node _ _ id _ _ k us ts _ _ mid _ h _ h' ih ih' =>
      have hm := h.stop_eq
      rcases Nat.eq_or_lt_of_le hj with rfl | hj
      · exact ⟨.here [] ts, .node k us, rfl, rfl⟩
      rcases Nat.lt_or_ge j mid with hlt | hge
      · obtain ⟨o, t, rfl, hj⟩ := ih hj hlt
        exact ⟨.under [] k o ts, t, rfl, by rw [Hole.number, countAll]; omega⟩
      · exact hwiden (by rw [count]; omega) (ih' hge hs)

theorem split {us : List Tree} (h : Laid text es parent ps id roots (ts ++ us) qs stop) :
    ∃ roots' rs mid roots'', Laid text es parent ps id roots' ts rs mid ∧
      Laid text es parent rs mid roots'' us qs stop := by
  induction ts generalizing ps id roots with
  | nil => exact ⟨_, _, _, _, .nil, h⟩
  | cons t ts ih =>
      rw [List.cons_append] at h
      cases h with
      | leaf hq hl he h =>
          obtain ⟨_, _, _, _, h, h'⟩ := ih h
          exact ⟨_, _, _, _, .leaf hq hl he h, h'⟩
      | node hb he h =>
          obtain ⟨_, _, _, _, h, h'⟩ := ih h
          exact ⟨_, _, _, _, .node hb he h, h'⟩

theorem head (h : Laid text es parent ps id roots (t :: ts) qs stop) :
    ∃ rs mid, Laid text es parent ps id [id] [t] rs mid := by
  cases h with
  | leaf hq hl he h => exact ⟨_, _, .leaf hq hl he .nil⟩
  | node hb he h => exact ⟨_, _, .node hb he .nil⟩

/-- The tree at a place is laid down from the number of the place on, from the tokens behind those that
stand before it. -/
theorem of_plug (h : Laid text es parent ps id roots (o.plug t) qs stop) :
    ∃ parent' ps' qs' stop', Laid text es parent' ps' (id + o.number) [id + o.number] [t] qs' stop' ∧
      ps' <:+ ps ∧ Placed.solid ps' = (Placed.solid ps).drop o.before.length := by
  induction o generalizing parent ps id roots qs stop with
  | here as bs =>
      obtain ⟨_, rs, mid, _, ha, h⟩ := h.split
      obtain ⟨_, _, ht⟩ := h.head
      exact ⟨_, _, _, _, ha.stop_eq ▸ ht, ha.suffix, ha.solid_drop⟩
  | under as k o bs ih =>
      obtain ⟨_, rs, mid, _, ha, h⟩ := h.split
      cases h with
      | node hb he h =>
          obtain ⟨parent', ps', qs', stop', ht, hx, hd⟩ := ih hb
          have hm := ha.stop_eq
          rw [show mid + 1 + o.number = id + (Hole.under as k o bs).number by
            rw [Hole.number]; omega] at ht
          refine ⟨parent', ps', qs', stop', ht, hx.trans ha.suffix, ?_⟩
          rw [hd, ha.solid_drop, List.drop_drop, Hole.before, List.length_append]

end Laid

namespace SyntaxTree

variable {text : Text} {n : Node} {o : Hole} {t : Tree}

/-- Where nothing is wrong with a text, the tree at a place is shown by the node of its number. -/
theorem exists_shows (h : (parse text).ok) (hf : forest text = o.plug t) :
    ∃ n ∈ (parse text).nodes, n.id = o.number + 1 ∧ Shows text o.before.length [n] [t] := by
  obtain ⟨roots, rest, hl, -, -⟩ := exists_laid text
  rw [hf] at hl
  obtain ⟨_, ps, _, stop, ht, hx, hd⟩ := hl.of_plug
  obtain ⟨e, he, -⟩ := ht.roots_parent _ (List.mem_singleton_self _)
  obtain ⟨n, hg, -, hn⟩ := get?_of_entry he
  have hall {P : Kind → List Tree → Prop} (hP : EverywhereAll P (forest text)) : EverywhereAll P [t] :=
    ⟨Hole.everywhere_plug (hf ▸ hP), trivial⟩
  have hs := ht.shows (hall (headed_forest text)) (hall (rule_forest h).2)
    (hall (Grammar.composite_declarations _)) ((Placed.ordered_tokens text).suffix hx)
    (by rw [hd, Placed.solid_ofTokens]; rfl)
  rw [List.filterMap_cons_some hg, List.filterMap_nil] at hs
  have hi := (get?_eq_some.mp hg).2
  exact ⟨n, mem_nodes.mpr hn, by omega, hs⟩

/-- Where nothing is wrong with a text, every node but the root shows a tree of it. -/
theorem exists_plug (h : (parse text).ok) (hn : n ∈ (parse text).nodes) (hi : n.id ≠ 0) :
    ∃ (o : Hole) (t : Tree), forest text = o.plug t ∧ n.id = o.number + 1 ∧
      Shows text o.before.length [n] [t] := by
  obtain ⟨roots, rest, hl, -, -⟩ := exists_laid text
  obtain ⟨-, he⟩ := of_mem_nodes hn
  have hs : n.id < (parse text).entries.size := (Array.getElem?_eq_some_iff.mp he).1
  obtain ⟨o, t, hf, hj⟩ := hl.exists_hole (Nat.pos_of_ne_zero hi) hs
  obtain ⟨m, hm, hmi, hms⟩ := exists_shows h hf
  obtain rfl : m = n := eq_of_id hm hn (by omega)
  exact ⟨o, t, hf, hmi, hms⟩

end SyntaxTree

/-! ## Places in the text -/

open Lexeme SyntaxTree

namespace Node

variable {text : Text} {n : Node} {k m : Nat}

theorem Spans.exists_stretch (h : n.Spans text k m) (hn : n ∈ (parse text).nodes) :
    ∃ as cs bs, Stretch (lex text) as cs bs k m ∧ n.start = Text.size (as.flatMap (·.text)) ∧
      n.stop = Text.size (as.flatMap (·.text)) + Text.size (cs.flatMap (·.text)) ∧
      n.text = cs.flatMap (·.text) := by
  obtain ⟨p, hp, hps⟩ := h.start
  obtain ⟨q, hq, hqs⟩ := h.stop
  obtain ⟨as, cs, bs, hst, ha, hc⟩ := Text.exists_stretch h.pos hp hq
  refine ⟨as, cs, bs, hst, hps ▸ ha, hqs ▸ hc, ?_⟩
  have hspan : n.span = ⟨Text.size (as.flatMap (·.text)),
      Text.size (as.flatMap (·.text)) + Text.size (cs.flatMap (·.text))⟩ := by
    rw [← hc, ← ha, hps, hqs]
    rfl
  have hx := Text.extract_append (as.flatMap (·.text)) (cs.flatMap (·.text)) (bs.flatMap (·.text))
  rwa [← List.flatMap_append, ← List.flatMap_append, ← hst.eq, flatMap_text_lex, ← hspan, ← tree_text hn] at hx

/-- A node ends where the text can be cut. -/
theorem Spans.cut_stop (h : n.Spans text k m) (hn : n ∈ (parse text).nodes) :
    ∃ L M, text.Cut L M n.stop ∧ (Lexeme.solid L).length = k + m ∧ Closes L := by
  obtain ⟨as, cs, bs, hs, -, hc, -⟩ := h.exists_stretch hn
  obtain ⟨ms, l, hl, hls⟩ := hs.closes
  refine ⟨as ++ cs, bs, ⟨by rw [hs.eq, List.append_assoc], ?_⟩, ?_, as ++ ms, l, by rw [hl, List.append_assoc], hls⟩
  · rw [List.flatMap_append, Text.size_append, hc]
  · rw [solid_append, List.length_append, hs.before, hs.within]

/-- The layout behind a node ends where the text can be cut, too. -/
theorem Spans.cut_full (h : n.Spans text k m) (hn : n ∈ (parse text).nodes) :
    ∃ L M, text.Cut L M n.full.stop ∧ (Lexeme.solid L).length = k + m := by
  obtain ⟨L, M, hc, hk, -⟩ := h.cut_stop hn
  obtain ⟨L', M', hc'⟩ := (ends_of_tokens (P := fun p => ∃ L M, text.Cut L M p) ⟨_, _, text.cut_zero⟩
    ⟨_, _, text.cut_size⟩ (fun _ ht => Text.exists_cut_token ht) hn).2.2
  have hle : n.stop ≤ n.full.stop := by
    have := (ranged hn).full_covers
    rw [Span.covers, Bool.and_eq_true, decide_eq_true_eq, decide_eq_true_eq] at this
    exact this.2
  obtain ⟨ys, rfl, -⟩ := hc.le hc' hle
  refine ⟨_, M', hc', Nat.le_antisymm (hc'.solid_le h.full) ?_⟩
  rw [solid_append, List.length_append, hk]
  exact Nat.le_add_right _ _

/-- Where a node starts its line, the text can be cut at the start of this line. -/
theorem Spans.cut_line (h : n.Spans text k m) (hn : n ∈ (parse text).nodes) (hl : n.startsLine) :
    ∃ L M, text.Cut L M n.lineStart ∧ (Lexeme.solid L).length = k ∧
      ∀ c ∈ (L.flatMap (·.text)).getLast?, isLineBreak c := by
  have ht := tree_text hn
  obtain ⟨as, cs, bs, hs, ha, -, -⟩ := h.exists_stretch hn
  obtain ⟨l, ls, rfl, -⟩ := hs.leads
  rw [startsLine, ht] at hl
  have hl : text.startsLine? n.start = some true := by
    cases hf : text.startsLine? n.start with
    | none => rw [hf] at hl; cases hl
    | some b => rw [hf] at hl; exact congrArg some hl
  obtain ⟨L, G, rfl, hc, hG, hb⟩ := Text.Cut.exists_line ⟨hs.eq, ha.symm⟩ (by simp) hl
  refine ⟨L, _, by rw [lineStart, ht]; exact hc, ?_, hb⟩
  rw [← hs.before, solid_append, hG, List.append_nil]

/-- Where a node does not start its line, the text can be cut in front of it, behind something on this line. -/
theorem Spans.cut_inLine (h : n.Spans text k m) (hn : n ∈ (parse text).nodes) (hl : ¬ n.startsLine) :
    ∃ L M, text.Cut L M n.start ∧ (Lexeme.solid L).length = k ∧
      (∃ c ∈ (L.flatMap (·.text)).getLast?, isLineBreak c = false) ∧ Leads M := by
  obtain ⟨as, cs, bs, hs, ha, -, -⟩ := h.exists_stretch hn
  have hc : text.Cut as (cs ++ bs) n.start := ⟨hs.eq, ha.symm⟩
  refine ⟨as, cs ++ bs, hc, hs.before, ?_, ?_⟩
  · by_contra hno
    refine hl ?_
    rw [startsLine, tree_text hn, hc.startsLine fun c hc => ?_]
    · rfl
    · by_contra hcb
      exact hno ⟨c, hc, by simpa using hcb⟩
  · obtain ⟨l, ls, hl, hs⟩ := hs.leads
    exact ⟨l, ls ++ bs, by rw [hl]; rfl, hs⟩

end Node

namespace Shows

variable {text : Text} {k : Nat} {n : Node} {ns ms : List Node} {t : Tree} {ts us : List Tree}

theorem kinds (h : Shows text k ns ts) : ns.map (·.kind) = ts.map Tree.kind := by
  induction h with
  | nil => rfl
  | cons _ hk _ _ _ _ ih => rw [List.map_cons, List.map_cons, hk, ih]

/-- Of the first nodes the first trees are shown. -/
theorem split (h : Shows text k (ns ++ ms) ts) : ∃ us vs, ts = us ++ vs ∧ Shows text k ns us ∧
    Shows text (k + (leavesOf us).length) ms vs := by
  induction ns generalizing k ts with
  | nil => exact ⟨[], ts, rfl, .nil, h⟩
  | cons n ns ih =>
      rw [List.cons_append] at h
      cases h with
      | cons hn hk hs hc h =>
          obtain ⟨us, vs, rfl, hu, hv⟩ := ih h
          refine ⟨_ :: us, vs, rfl, .cons hn hk hs hc hu, ?_⟩
          rwa [leavesOf, List.length_append, ← Nat.add_assoc]

/-- The first trees are shown by the first nodes. -/
theorem split_trees (h : Shows text k ns (ts ++ us)) : ∃ as bs, ns = as ++ bs ∧ Shows text k as ts ∧
    Shows text (k + (leavesOf ts).length) bs us := by
  induction ts generalizing k ns with
  | nil => exact ⟨[], ns, rfl, .nil, h⟩
  | cons t ts ih =>
      rw [List.cons_append] at h
      cases h with
      | cons hn hk hs hc h =>
          obtain ⟨as, bs, rfl, ha, hb⟩ := ih h
          refine ⟨_ :: as, bs, rfl, .cons hn hk hs hc ha, ?_⟩
          rwa [leavesOf, List.length_append, ← Nat.add_assoc]

theorem singleton (h : Shows text k [n] ts) : ∃ t, ts = [t] := by
  cases h with
  | cons _ _ _ _ h => cases h; exact ⟨_, rfl⟩

theorem head (h : Shows text k (n :: ns) (t :: ts)) : Shows text k [n] [t] := by
  cases h with
  | cons hn hk hs hc _ => exact .cons hn hk hs hc .nil

theorem mem (h : Shows text k [n] [t]) : n ∈ (parse text).nodes := by
  cases h with
  | cons hn => exact hn

theorem kind (h : Shows text k [n] [t]) : n.kind = t.kind := by
  cases h with
  | cons _ hk => exact hk

theorem spans (h : Shows text k [n] [t]) : n.Spans text k t.leaves.length := by
  cases h with
  | cons _ _ hs => exact hs

theorem children (h : Shows text k [n] [t]) : Shows text k n.children t.parts := by
  cases h with
  | cons _ _ _ hc => exact hc

end Shows

end AlRefactor
