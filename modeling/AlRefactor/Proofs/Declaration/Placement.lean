import AlRefactor.Declaration.Placement
import AlRefactor.Proofs.Syntax.Shape

/-!
# New procedures go between tokens

A procedure that is placed for another one goes before it or behind it, however deep the other one
stands in the object.
-/

namespace AlRefactor

open SyntaxTree

variable {text : Text} {n m o c : Node} {name : Text} {access : Access} {lines : List Text}
  {e : Edit}

namespace Node

theorem seam_lineStart (h : (parse text).ok) (hn : n ∈ (parse text).nodes) (hi : n.id ≠ 0) :
    text.Seam n.lineStart := by
  obtain ⟨q, hq, hqs, _⟩ := (solid h hn hi).first
  rw [lineStart, tree_text hn, start, ← hqs]
  exact Text.seam_lineStart hq

theorem lineStart_le (hn : n ∈ (parse text).nodes) : n.lineStart ≤ n.start := by
  rw [lineStart, tree_text hn]
  exact Text.lineStart_le (seams hn).1.1.boundary

/-- Before a node that starts its line there is nothing but blanks on the line. -/
theorem bare_lineStart (hn : n ∈ (parse text).nodes) (hl : n.startsLine) :
    text.Bare n.lineStart n.start := by
  have ht := tree_text hn
  obtain ⟨first, hf, _, hb, _⟩ := Text.startsLine?_eq (seams hn).1.1.boundary
  rw [startsLine, ht, start, hf] at hl
  rw [lineStart, ht]
  exact hb hl

theorem isLayout_lineIndent (n : Node) : n.lineIndent.IsLayout := Text.isLayout_lineIndent _ _

theorem isLayout_indentOfMembers (n : Node) : n.indentOfMembers.IsLayout := by
  rw [indentOfMembers]
  dsimp only
  split
  · exact Text.isLayout_lineIndent _ _
  · exact (Text.isLayout_lineIndent _ _).append (Text.isLayout_indentUnit _)

end Node

namespace Placement

/-- What is inserted is the lines of the new procedure. -/
theorem writes_insert? {p : Placement} {current : Option Node}
    (he : p.insert? o current name access lines = some e) : e.text.Writes lines := by
  rw [insert?] at he
  split at he
  · obtain ⟨a, _, rfl⟩ := Option.map_eq_some_iff.mp he
    have hn := Text.isLayout_newline o.tree.text
    have hl : List.Forall₂ Text.Indents
        (lines.map fun l => if l.isEmpty then [] else o.indentOfMembers ++ l) lines := by
      refine List.forall₂_map_left_iff.mpr (List.forall₂_same.mpr fun l _ => ?_)
      split
      · exact ⟨[], nofun, (List.isEmpty_iff.mp ‹_›).symm⟩
      · exact ⟨_, o.isLayout_indentOfMembers, rfl⟩
    have hj : ∀ {rest : Text}, rest.IsLayout → _ := fun hr => Text.writes_join hn hr hl
    dsimp only
    split
    · rw [Edit.insert, List.append_assoc]
      refine (hj hn).indent ?_
      split
      · exact hn
      · exact hn.append hn
    · rw [Edit.insert, List.append_assoc]
      exact hj (hn.append hn)
    · rename_i c _
      split
      · rw [Edit.insert, List.append_assoc]
        refine (hj hn).indent ?_
        split
        · nofun
        · exact hn
      · rw [Edit.insert, List.append_assoc, List.append_assoc]
        exact (hj (hn.append c.isLayout_lineIndent)).indent hn
  · cases he

/-- Behind the current procedure, behind or before another one of the object, or before its end. Only
where procedures are sorted is one placed before another. -/
theorem mem_of_anchor? {p : Placement} {current : Option Node} {a : Anchor}
    (ha : p.anchor? o current name access = some a) :
    match a with
    | .behind n => n ∈ current ∨ n ∈ o.children
    | .before n => p = .sortedByName ∧ n ∈ o.children
    | .closing b => b ∈ o.children ∧ b.kind = TokenKind.rBrace := by
  unfold anchor? at ha
  dsimp only at ha
  rcases Option.or_eq_some_iff.mp ha with ha | ⟨_, ha⟩
  · cases p with
    | afterCurrent =>
        obtain ⟨n, hn, rfl⟩ := Option.map_eq_some_iff.mp ha
        exact .inl (Option.filter_eq_some_iff.mp hn).1
    | sortedByName =>
        obtain ⟨n, hn, rfl⟩ := Option.map_eq_some_iff.mp ha
        have hn := (List.mem_filter.mp (List.mem_of_find?_eq_some hn)).1
        exact ⟨rfl, (Node.mem_of_childrenOf hn).1⟩
  · rcases Option.or_eq_some_iff.mp ha with ha | ⟨_, ha⟩
    · obtain ⟨n, hn, rfl⟩ := Option.map_eq_some_iff.mp ha
      exact .inr (Node.mem_of_childrenOf (List.mem_filter.mp (List.mem_of_getLast? hn)).1).1
    · obtain ⟨b, hb, rfl⟩ := Option.map_eq_some_iff.mp ha
      exact Node.mem_of_lastChild? hb

variable (h : (parse text).ok) (ho : o ∈ (parse text).nodes) (hm : m ∈ (parse text).nodes)
  (hb : Below (parse text).entries o.id m.id) (hne : o.id ≠ m.id)

include ho hm hb hne in
/-- The end of a child of an object is not inside of a procedure of the object. -/
theorem full_stop_beside (hn : n = m ∨ n ∈ o.children) :
    n ∈ (parse text).nodes ∧ (n.full.stop ≤ m.start ∨ m.stop ≤ n.full.stop) := by
  rcases hn with rfl | hn
  · exact ⟨hm, .inr (stop_le_full hm)⟩
  have hnn := mem_nodes_of_child ho hn
  refine ⟨hnn, ?_⟩
  rcases child_beside_below ho hm hn hb hne with h | h | h
  · exact .inr (Nat.le_trans (covers_of_below hnn hm h).2 (stop_le_full hnn))
  · exact .inl h
  · right
    calc m.stop ≤ m.full.stop := stop_le_full hm
      _ ≤ n.start := h
      _ ≤ n.stop := (ranged hnn).start_le_stop
      _ ≤ n.full.stop := stop_le_full hnn

include h ho hm hb hne in
/-- The place of a token of an object, or the start of a line with it, is not inside of a
procedure. -/
theorem token_beside {p : Nat} (hc : c ∈ o.children) (hck : c.kind.isToken)
    (hmk : m.kind.isToken = false) (hp : p = c.start ∨ c.startsLine ∧ p = c.lineStart) :
    text.Seam p ∧ (p ≤ m.start ∨ m.stop ≤ p) := by
  have hcn := mem_nodes_of_child ho hc
  have hci : c.id ≠ 0 := Nat.ne_of_gt (Nat.zero_lt_of_lt (parent_of_mem_children ho hc).1)
  have hmi : m.id ≠ 0 := by
    have := (below_iff_id ho).mp hb
    omega
  have hcm : c.full.stop ≤ m.start ∨ m.stop ≤ c.start := by
    rcases child_beside_below ho hm hc hb hne with hcm | hcm | hcm
    · rw [eq_of_below_token h hcn hm hck hcm, hmk] at hck
      cases hck
    · exact .inl hcm
    · exact .inr (Nat.le_trans (stop_le_full hm) hcm)
  have hcs : c.start ≤ c.full.stop := Nat.le_trans (ranged hcn).start_le_stop (stop_le_full hcn)
  rcases hp with rfl | ⟨hl, rfl⟩
  · exact ⟨(seams hcn).1.1, hcm.imp_left (Nat.le_trans hcs)⟩
  · have hs := Node.seam_lineStart h hcn hci
    have hbare := Node.bare_lineStart hcn hl
    refine ⟨hs, hcm.imp (fun hcm => ?_) ((solid h hm hmi).stop_le hbare hs)⟩
    exact Nat.le_trans hbare.le (Nat.le_trans hcs hcm)

include h ho hm hb in
/-- Where a procedure is placed for another one it is inserted between tokens and not inside of this
one. -/
theorem insert?_beside (hmk : m.kind.isMethod)
    (he : afterCurrent.insert? o (some m) name access lines = some e) :
    e.span.start = e.span.stop ∧ text.Seam e.span.start ∧
      (e.span.start ≤ m.start ∨ m.stop ≤ e.span.start) := by
  rw [insert?] at he
  split at he
  · rename_i hok
    have hne : o.id ≠ m.id := id_ne_of_kind (p := Kind.isObject) ho hm hok (Kind.of_isMethod hmk).1
    obtain ⟨a, ha, he⟩ := Option.map_eq_some_iff.mp he
    have hn := mem_of_anchor? ha
    cases a with
    | before => cases hn.1
    | behind n =>
        obtain rfl := he.symm
        have hn := hn.imp_left fun hn => (Option.mem_some.mp hn).symm
        obtain ⟨hnn, hs⟩ := full_stop_beside ho hm hb hne hn
        exact ⟨rfl, (seams hnn).2.2, hs⟩
    | closing c =>
        have hs := fun {p} => token_beside (p := p) h ho hm hb hne hn.1 (by rw [hn.2]; rfl)
          (Kind.of_isMethod hmk).2
        obtain rfl := he.symm
        dsimp only
        split
        · rename_i hl
          exact ⟨rfl, hs (.inr ⟨hl, rfl⟩)⟩
        · exact ⟨rfl, hs (.inl rfl)⟩
  · cases he

end Placement

end AlRefactor
