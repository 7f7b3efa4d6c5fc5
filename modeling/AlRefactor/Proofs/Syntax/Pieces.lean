import AlRefactor.Proofs.Edit.Ranges
import AlRefactor.Proofs.Syntax.Standing

/-!
# The text of a node piece by piece

Where nothing is wrong with a text, a node starts with its first child and ends with its last one, and
between two neighbours there is only layout. So the text of a node is that of its children, with layout
between them.
-/

namespace AlRefactor

open AlRefactor.Tree Lexeme SyntaxTree

namespace Node

variable {text : Text} {n a b : Node} {as bs cs : List Node}

/-! ## Neighbours -/

/-- What stands between two nodes. -/
def between (a b : Node) : Text := a.tree.text.extract ⟨a.stop, b.start⟩

theorem between_eq (hn : n ∈ (parse text).nodes) (m : Node) : n.between m = text.extract ⟨n.stop, m.start⟩ := by
  rw [between, mem_nodes.mp hn]
  rfl

theorem text_eq_extract (hn : n ∈ (parse text).nodes) : n.text = text.extract ⟨n.start, n.stop⟩ := by
  rw [Node.text, mem_nodes.mp hn]
  rfl

/-- A node is the first piece of what it starts. -/
theorem extract_from (hn : n ∈ (parse text).nodes) {j : Nat} (h : text.HasRange ⟨n.stop, j⟩) :
    text.extract ⟨n.start, j⟩ = n.text ++ text.extract ⟨n.stop, j⟩ := by
  rw [text_eq_extract hn]
  exact Text.extract_split (hasRange_span hn) h

/-- A node cuts in three what it stands in. -/
theorem extract_around (hn : n ∈ (parse text).nodes) {i j : Nat} (h : text.HasRange ⟨i, n.start⟩)
    (h' : text.HasRange ⟨n.stop, j⟩) : text.extract ⟨i, j⟩ =
      text.extract ⟨i, n.start⟩ ++ (n.text ++ text.extract ⟨n.stop, j⟩) := by
  rw [← extract_from hn h']
  exact Text.extract_split h (Text.HasRange.trans (hasRange_span hn) h')

section Order

variable (hn : n ∈ (parse text).nodes) (ha : a ∈ n.children) (hb : b ∈ n.children)

include hn

section Behind

include hb

/-- From the end of a child to the end of the node. -/
theorem hasRange_behind : text.HasRange ⟨b.stop, n.stop⟩ :=
  Text.hasRange_iff.mpr ⟨(covers_of_mem_children hn hb).2,
    (seams (mem_nodes_of_child hn hb)).1.2.boundary, (seams hn).1.2.boundary⟩

end Behind

variable (hab : a.stop ≤ b.start)

include ha hb hab

/-- From the end of a child to the start of one behind it. -/
theorem hasRange_gap : text.HasRange ⟨a.stop, b.start⟩ :=
  Text.hasRange_iff.mpr ⟨hab, (seams (mem_nodes_of_child hn ha)).1.2.boundary,
    (seams (mem_nodes_of_child hn hb)).1.1.boundary⟩

/-- Behind a child stand what is between it and another one, all from there to the end of a third one, and
the rest. -/
theorem extract_stretch {c : Node} (hc : c ∈ n.children) (hbc : b = c ∨ b.stop ≤ c.start) :
    text.extract ⟨a.stop, n.stop⟩ =
      a.between b ++ (text.extract ⟨b.start, c.stop⟩ ++ text.extract ⟨c.stop, n.stop⟩) := by
  have hr := (hasAddress_between hn hb hc hbc).hasRange
  rw [between_eq (mem_nodes_of_child hn ha), ← Text.extract_split hr (hasRange_behind hn hc)]
  exact Text.extract_split (hasRange_gap hn ha hb hab) (hr.trans (hasRange_behind hn hc))

theorem extract_behind :
    text.extract ⟨a.stop, n.stop⟩ = a.between b ++ (b.text ++ text.extract ⟨b.stop, n.stop⟩) := by
  rw [extract_stretch hn ha hb hab hb (.inl rfl), text_eq_extract (mem_nodes_of_child hn hb)]

theorem between_around {c : Node} (hc : c ∈ n.children) (hbc : b.stop ≤ c.start) :
    a.between c = a.between b ++ (b.text ++ b.between c) := by
  have han := mem_nodes_of_child hn ha
  have hbn := mem_nodes_of_child hn hb
  rw [between_eq han, between_eq han, between_eq hbn]
  exact extract_around hbn (hasRange_gap hn ha hb hab) (hasRange_gap hn hb hc hbc)

end Order

section Pieces

variable (h : (parse text).ok) (hn : n ∈ (parse text).nodes) (hi : n.id ≠ 0)

include h hn hi

/-- A node and its children stand in the same stretch of tokens. -/
theorem exists_children : ∃ k m ts, n.Spans text k m ∧ Shows text k n.children ts ∧
    (ts ≠ [] → (leavesOf ts).length = m) := by
  obtain ⟨o, t, -, -, hs⟩ := exists_plug h hn hi
  refine ⟨_, _, t.parts, hs.spans, hs.children, fun ht => ?_⟩
  cases t with
  | leaf l => exact absurd rfl ht
  | node k ts => rfl

theorem start_of_head (hc : n.children = a :: cs) : a.start = n.start := by
  obtain ⟨k, m, ts, hs, hsh, -⟩ := exists_children h hn hi
  rw [hc] at hsh
  obtain ⟨p, hp, hps⟩ := hs.start
  cases hsh with
  | cons _ _ ha _ _ =>
      obtain ⟨q, hq, hqs⟩ := ha.start
      obtain rfl := Option.some.inj (hp.symm.trans hq)
      rw [← hqs, hps]

theorem stop_of_last (hc : n.children = cs ++ [b]) : b.stop = n.stop := by
  obtain ⟨k, m, ts, hs, hsh, hm⟩ := exists_children h hn hi
  rw [hc] at hsh
  obtain ⟨us, vs, rfl, hu, hv⟩ := hsh.split
  obtain ⟨t, rfl⟩ := hv.singleton
  obtain ⟨p, hp, hps⟩ := hs.stop
  obtain ⟨q, hq, hqs⟩ := hv.spans.stop
  rw [← hm (by simp), leavesOf_append, leavesOf, leavesOf, List.append_nil, List.length_append,
    ← Nat.add_assoc] at hp
  obtain rfl := Option.some.inj (hp.symm.trans hq)
  rw [← hqs, hps]

/-- What stands between two neighbours is layout. -/
theorem exists_layout (hc : n.children = as ++ a :: b :: bs) :
    ∃ ls : List Lexeme, a.between b = ls.flatMap (·.text) ∧
      ∀ l ∈ ls, l ∈ lex text ∧ l.kind.isTrivia := by
  obtain ⟨k, m, ts, -, hsh, -⟩ := exists_children h hn hi
  rw [hc] at hsh
  obtain ⟨us, vs, -, -, hsh⟩ := hsh.split
  obtain ⟨_, _, -, ha, hsh⟩ := (show Shows text _ ([a] ++ b :: bs) _ from hsh).split
  obtain ⟨_, _, -, hb, -⟩ := (show Shows text _ ([b] ++ bs) _ from hsh).split
  obtain ⟨t, rfl⟩ := ha.singleton
  obtain ⟨u, rfl⟩ := hb.singleton
  rw [leavesOf, leavesOf, List.append_nil] at hb
  obtain ⟨L, M, hL, hk, -⟩ := ha.spans.cut_stop ha.mem
  obtain ⟨xs, ys, zs, hst, hs, -, -⟩ := hb.spans.exists_stretch hb.mem
  have hab : a.stop ≤ b.start := by
    have := (ranged hn).apart
    rw [hc, List.pairwise_append] at this
    exact (List.pairwise_cons.mp this.2.1).1 b List.mem_cons_self
  -- The cut in front of the second one has as many tokens before it as the cut behind the first one.
  obtain ⟨ls, rfl, hM⟩ := hL.le ⟨hst.eq, hs.symm⟩ hab
  have hls : solid ls = [] := by
    have := hst.before
    rw [solid_append, List.length_append, hk] at this
    exact List.eq_nil_of_length_eq_zero (by omega)
  refine ⟨ls, ?_, fun l hl => ⟨?_, ?_⟩⟩
  · rw [between_eq ha.mem]
    have hx := Text.extract_append (L.flatMap (·.text)) (ls.flatMap (·.text))
      ((ys ++ zs).flatMap (·.text))
    rw [← Text.size_append, ← List.flatMap_append, ← List.flatMap_append, ← List.flatMap_append,
      ← List.append_assoc, ← hst.eq, flatMap_text_lex, hL.size_eq, ← hs] at hx
    exact hx
  · rw [hst.eq]
    simp [hl]
  · simpa [Lexeme.isSignificant] using List.filter_eq_nil_iff.mp hls l hl

end Pieces

end Node

end AlRefactor
