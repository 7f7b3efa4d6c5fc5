import AlRefactor.Proofs.Text.Columns

/-!
# The start of the line of an offset

The start of a line is found by going back to the last line break, whatever it is made of, or by looking it up in
the table of line starts, where a `\r\n` is one line break. Both ways lead to the same offset wherever no `\r\n` is
cut in two.
-/

namespace AlRefactor

namespace Text

variable {a a' b g r t u u' : Text} {l n : Nat}

theorem Plain.isBreak_eq (h : Plain t) : ∀ c ∈ t, isBreak c = false := fun c hc => by
  simpa [isBreak, and_comm] using h c hc

theorem LineBreak.getLast? (h : LineBreak b t) : ∃ c, b.getLast? = some c ∧ isBreak c := by
  cases h with
  | pair | feed => exact ⟨'\n', rfl, rfl⟩
  | alone => exact ⟨'\r', rfl, rfl⟩

/-- In front of a line stands the line break of another one, or nothing. -/
theorem Line.isBreak_before (h : Line l a g r) : ∀ c ∈ a.getLast?, isBreak c := by
  induction h with
  | first => exact fun c hc => by cases hc
  | @next l g b a h r _ hb _ ih =>
      intro c hc
      rcases List.eq_nil_or_concat' a with rfl | ⟨w, d, rfl⟩
      · obtain ⟨d, hd, hbd⟩ := hb.getLast?
        rw [List.append_nil, List.getLast?_append, hd] at hc
        rwa [← Option.some.inj hc]
      · rw [← List.append_assoc, ← List.append_assoc, List.getLast?_concat] at hc
        exact ih c (by rwa [List.getLast?_concat])

/-- Only in one way a text ends with a line. -/
theorem eq_of_lastLine (h : a ++ u = a' ++ u') (ha : ∀ c ∈ a.getLast?, isBreak c)
    (ha' : ∀ c ∈ a'.getLast?, isBreak c) (hu : ∀ c ∈ u, isBreak c = false)
    (hu' : ∀ c ∈ u', isBreak c = false) : a = a' := by
  have key {a m u : Text} (ha : ∀ c ∈ (a ++ m).getLast?, isBreak c) (hu : ∀ c ∈ m ++ u, isBreak c = false) :
      a = a ++ m := by
    rcases List.eq_nil_or_concat' m with rfl | ⟨w, c, rfl⟩
    · rw [List.append_nil]
    · have hc := hu c (by simp)
      rw [ha c (by rw [← List.append_assoc, List.getLast?_concat]; rfl)] at hc
      cases hc
  rcases List.append_eq_append_iff.mp h with ⟨m, rfl, rfl⟩ | ⟨m, rfl, rfl⟩
  · exact key ha' hu
  · exact (key ha hu').symm

/-- The line of a place on a line starts where the line does. -/
theorem lineStart_line (h : Line l a g r) (hu : u <+: g) :
    lineStart (a ++ (g ++ r)) (size (a ++ u)) = size a := by
  obtain ⟨v, rfl⟩ := hu
  obtain ⟨x, y, hx, hl, hy, hbx⟩ := lineStart_append (a ++ u) (v ++ r)
  have hx' : ∀ c ∈ x.getLast?, isBreak c := by
    rcases hbx with rfl | ⟨w, c, rfl, hc⟩
    · exact fun c hc => by cases hc
    · intro d hd
      rw [List.getLast?_concat] at hd
      rwa [← Option.some.inj hd]
  have hu : ∀ c ∈ u, isBreak c = false := fun c hc => h.plain.isBreak_eq c (List.mem_append_left _ hc)
  have ht : a ++ (u ++ v ++ r) = a ++ u ++ (v ++ r) := by simp
  rw [ht, hl, eq_of_lastLine hx h.isBreak_before hx' hu hy]

/-- Only at its start a place on a line starts the line. -/
theorem isLineStart_line (h : Line l a g r) (hu : u <+: g) :
    (a ++ (g ++ r)).isLineStart (size (a ++ u)) ↔ u = [] := by
  obtain ⟨v, rfl⟩ := hu
  have ht : a ++ (u ++ v ++ r) = a ++ u ++ (v ++ r) := by simp
  rw [ht, isLineStart_append]
  constructor
  · intro hb
    rcases List.eq_nil_or_concat' u with rfl | ⟨w, c, rfl⟩
    · rfl
    · have hc := h.plain.isBreak_eq c (by simp)
      rw [hb c (by rw [← List.append_assoc, List.getLast?_concat]; rfl)] at hc
      cases hc
  · rintro rfl
    rw [List.append_nil]
    exact h.isBreak_before

end Text

namespace LineTable

open Text

variable {t : Text} {n : Nat}

/-- The way back to the last line break and the table of line starts lead to the same start of the line of an
offset, and a line starts at the offset if this is the offset itself. -/
theorem start?_eq_lineStart (h : t.Addressable n) : ∃ p, (ofText t).position? t n = some p ∧
    (ofText t).start? p.line = some (t.lineStart n) ∧
      (t.isLineStart n ↔ (ofText t).start? p.line = some n) := by
  obtain ⟨p, hp, ho⟩ := h.exists_position
  obtain ⟨a, g, r, rfl, hl⟩ := exists_line_of_offset? ho
  obtain ⟨u, hu, ho'⟩ := offset?_line hl p.column
  obtain rfl : n = Text.size (a ++ u) := Option.some.inj (ho.symm.trans ho')
  have hs := start?_line hl
  refine ⟨p, hp, ?_, ?_⟩
  · rw [hs, lineStart_line hl hu.start]
  · rw [isLineStart_line hl hu.start, hs, Option.some.injEq, size_append, Nat.left_eq_add, size_eq_zero]

/-- Behind line breaks of all three kinds, at the start of a line. -/
theorem start?_eq_lineStart_mixed :
    let t : Text := "a\r\nb\rc\nd".toList
    t.Addressable 7 ∧ ∃ p, (ofText t).position? t 7 = some p ∧
      (ofText t).start? p.line = some (t.lineStart 7) ∧
        (t.isLineStart 7 ↔ (ofText t).start? p.line = some 7) := by
  intro t
  have h : t.Addressable 7 := by
    refine ⟨"a\r\nb\rc\n".toList, "d".toList, rfl, rfl, ?_⟩
    rintro ⟨u, v, -, hv⟩
    cases hv
  exact ⟨h, start?_eq_lineStart h⟩

/-- In the middle of a `\r\n` the two ways part. -/
example : Text.lineStart "a\r\nb".toList 2 = 2 ∧
    (ofText "a\r\nb".toList).start? ((ofText "a\r\nb".toList).lineOf 2) = some 0 := by decide

end LineTable

end AlRefactor
