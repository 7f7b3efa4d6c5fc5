import AlRefactor.Proofs.Declaration.Placement

/-!
# Where a procedure is announced and where it goes

The offset that is given for a new procedure and the edit that inserts it go by one anchor. A closing brace
is where they part: the procedure goes directly before a brace that shares its line with what is before it,
while the offset given is the start of that line.
-/

namespace AlRefactor

open SyntaxTree

variable {text : Text} {o n : Node} {name : Text} {access : Access} {current : Option Node}

/-- Where more than blanks stands before an offset on its line, the line starts earlier. -/
theorem Text.lineStart_lt {t : Text} {k : Nat} (hk : t.isBoundary k) (hl : t.startsLine? k = some false) :
    t.lineStart k < k := by
  obtain ⟨a, b, rfl, rfl⟩ := Text.isBoundary_iff.mp hk
  obtain ⟨u, g, rfl, hu, -⟩ := Text.lineStart_append a b
  rw [Text.startsLine?, hu, Text.size_append, List.append_assoc, Text.slice?_append] at hl
  rw [hu, Text.size_append]
  refine Nat.lt_add_of_pos_right (Nat.pos_of_ne_zero fun hg => ?_)
  obtain rfl := Text.size_eq_zero.mp hg
  cases hl

theorem Node.lineStart_lt (hn : n ∈ (parse text).nodes) (hl : n.startsLine = false) :
    n.lineStart < n.start := by
  have ht := tree_text hn
  have hb := (seams hn).1.1.boundary
  obtain ⟨first, hf, -⟩ := Text.startsLine?_eq hb
  rw [startsLine, ht, start, hf] at hl
  rw [lineStart, ht]
  exact Text.lineStart_lt hb (hf.trans (congrArg some hl))

/-- A closing brace that shares its line with what is before it. -/
def Anchor.isInLine : Anchor → Bool
  | .closing b => !b.startsLine
  | _ => false

namespace Placement

/-- A procedure is announced exactly if it can be inserted into the object, and where it is inserted, except
before a brace that shares its line: then the start of that line is announced, which is further ahead. -/
theorem offset?_insert? (ho : o ∈ (parse text).nodes) (hok : o.kind.isObject) (p : Placement)
    (current : Option Node) (name : Text) (access : Access) (lines : List Text) :
    (p.offset? o current name access).isSome = (p.insert? o current name access lines).isSome ∧
      ∀ e ∈ p.insert? o current name access lines, ∃ a ∈ p.anchor? o current name access,
        ∃ k ∈ p.offset? o current name access,
          if a.isInLine then k = text.lineStart e.span.start ∧ k < e.span.start
          else k = e.span.start := by
  rw [offset?, insert?, if_pos hok]
  refine ⟨by simp, fun e he => ?_⟩
  obtain ⟨a, ha, rfl⟩ := Option.map_eq_some_iff.mp he
  refine ⟨a, ha, _, Option.mem_map_of_mem _ ha, ?_⟩
  cases a with
  | behind m => rfl
  | before m => rfl
  | closing b =>
      obtain ⟨hb, -⟩ := mem_of_anchor? ha
      have hbn := mem_nodes_of_child ho hb
      dsimp only
      by_cases hl : b.startsLine = true
      · rw [if_pos hl, Anchor.isInLine, hl, Bool.not_true, if_neg Bool.false_ne_true]
        rfl
      · rw [if_neg hl, Anchor.isInLine, Bool.eq_false_of_not_eq_true hl, Bool.not_false, if_pos rfl, ← tree_text hbn]
        exact ⟨rfl, Node.lineStart_lt hbn (Bool.eq_false_of_not_eq_true hl)⟩

/-- A procedure for an object on one line is announced in front of the object. -/
theorem offset?_outside :
    let text : Text := "codeunit 1 A \x7b \x7d".toList
    (parse text).ok ∧ ∃ o ∈ (parse text).nodes, o.kind = NodeKind.codeunitObject ∧ o.start = 0 ∧
      sortedByName.offset? o none "P".toList .local = some 0 ∧
      (sortedByName.insert? o none "P".toList .local
        ["local procedure P()".toList, "begin".toList, "end;".toList]).map (·.span) = some ⟨15, 15⟩ := by
  decide +kernel

end Placement

end AlRefactor
