import AlRefactor.Proofs.Text.Lines
import AlRefactor.Text.Position

/-!
# Offsets that a line and a column can stand for

A line and a column name every offset between two characters, except one between the two characters of
a `\r\n`: that is behind the last column of its line and before the next line. Everywhere else a text is
cut into two texts with lines of their own, so what is worked out for an offset leads back to it.
-/

namespace AlRefactor.Text

variable {t a b : Text} {n : Nat}

/-! ## Offsets beside line breaks -/

/-- Between the two texts stands the middle of a `\r\n`. -/
def Severs (a b : Text) : Prop := ∃ u v, a = u ++ ['\r'] ∧ b = '\n' :: v

theorem Severs.cons (c : Char) (h : Severs a b) : Severs (c :: a) b := by
  obtain ⟨u, v, rfl, rfl⟩ := h
  exact ⟨c :: u, v, rfl, rfl⟩

theorem Severs.of_append {r : Text} (h : Severs (a ++ b) r) : b = [] ∧ Severs a r ∨ Severs b r := by
  obtain ⟨u, v, hu, rfl⟩ := h
  rcases List.eq_nil_or_concat' b with rfl | ⟨w, c, rfl⟩
  · exact .inl ⟨rfl, u, v, by simpa using hu, rfl⟩
  · rw [← List.append_assoc] at hu
    obtain ⟨_, hc⟩ := List.append_inj' hu rfl
    exact .inr ⟨w, v, by rw [hc], rfl⟩

/-- The offset lies between the characters of a `\r\n`. -/
def SplitsBreak (t : Text) (n : Nat) : Prop := ∃ a b, t = a ++ b ∧ size a = n ∧ Severs a b

/-- The offset lies between two characters, but not between those of a `\r\n`. -/
def Addressable (t : Text) (n : Nat) : Prop := ∃ a b, t = a ++ b ∧ size a = n ∧ ¬ Severs a b

theorem addressable_iff : t.Addressable n ↔ t.isBoundary n ∧ ¬ t.SplitsBreak n := by
  constructor
  · rintro ⟨a, b, rfl, rfl, hn⟩
    refine ⟨isBoundary_iff.mpr ⟨a, b, rfl, rfl⟩, ?_⟩
    rintro ⟨x, y, hx, hs, h⟩
    obtain ⟨rfl, rfl⟩ := append_inj_of_size hx hs.symm
    exact hn h
  · rintro ⟨hb, hn⟩
    obtain ⟨a, b, rfl, rfl⟩ := isBoundary_iff.mp hb
    exact ⟨a, b, rfl, rfl, fun h => hn ⟨a, b, rfl, rfl, h⟩⟩

theorem Addressable.isBoundary (h : t.Addressable n) : t.isBoundary n := (addressable_iff.mp h).1

theorem addressable_zero (t : Text) : t.Addressable 0 :=
  ⟨[], t, rfl, rfl, fun ⟨_, _, h, _⟩ => by simp at h⟩

theorem addressable_size (t : Text) : t.Addressable t.size :=
  ⟨t, [], by simp, rfl, fun ⟨_, _, _, h⟩ => by simp at h⟩

/-- A range of the text with addressable ends. -/
structure HasAddress (t : Text) (s : Span) : Prop where
  ordered : s.start ≤ s.stop
  start : t.Addressable s.start
  stop : t.Addressable s.stop

theorem HasAddress.hasRange {s : Span} (h : t.HasAddress s) : t.HasRange s :=
  hasRange_iff.mpr ⟨h.ordered, h.start.isBoundary, h.stop.isBoundary⟩

/-! ## Lines around an offset -/

theorem Addressable.lineStart (h : t.Addressable n) : t.Addressable (t.lineStart n) := by
  obtain ⟨a, b, rfl, rfl, hn⟩ := h
  obtain ⟨u, g, rfl, hl, hg, _⟩ := lineStart_append a b
  rw [hl, List.append_assoc]
  refine ⟨u, g ++ b, rfl, rfl, fun ⟨x, y, hx, hy⟩ => ?_⟩
  cases g with
  | nil => exact hn ⟨x, y, by simpa using hx, hy⟩
  | cons c g =>
      obtain ⟨rfl, _⟩ := List.cons.inj hy
      exact absurd (hg _ List.mem_cons_self) (by decide)

/-- What is left of a line ends with the whole line break. -/
theorem Addressable.lineRest (h : t.Addressable n) :
    t.Addressable (n + ((t.drop? n).bind lineRest?).getD 0) := by
  obtain ⟨r, hr⟩ := Option.isSome_iff_exists.mp h.isBoundary
  rw [hr, Option.bind_some]
  cases hk : r.lineRest? with
  | none => exact h
  | some k =>
      obtain ⟨u, rfl, rfl⟩ := exists_of_drop? hr
      obtain ⟨g, v, rfl, rfl, _, hv⟩ := lineRest?_eq hk
      refine ⟨u ++ g, v, (List.append_assoc ..).symm, size_append u g, fun ⟨x, y, hx, hy⟩ => ?_⟩
      rcases hv with rfl | ⟨w, c, rfl, _, hc⟩
      · cases hy
      · rw [← List.append_assoc] at hx
        obtain ⟨_, hcr⟩ := List.append_inj' hx rfl
        exact hc (List.cons.inj hcr).1 (by rw [hy]; rfl)

/-- A range that is widened to whole lines stays addressable. -/
theorem HasAddress.wholeLines {s : Span} (h : t.HasAddress s) :
    ∃ w, t.wholeLines? s = some w ∧ t.HasAddress w := by
  obtain ⟨w, hw, hwide⟩ := widened_wholeLines h.start.isBoundary h.stop.isBoundary
  refine ⟨w, hw, (hasRange_iff.mp (hwide.hasRange h.ordered)).1, ?_, ?_⟩
  · rcases hwide.start with hs | ⟨hs, _⟩
    · exact hs ▸ h.start
    · exact hs ▸ h.start.lineStart
  · obtain ⟨_, _, rfl⟩ := Option.map_eq_some_iff.mp hw
    exact h.stop.lineRest

/-! ## Starts of lines -/

theorem crlf_append {c : Char} (h : ¬ Severs (c :: a) b)
    (hc : ∀ x, c = '\r' → a = '\n' :: x → False) :
    ∀ x, c = '\r' → a ++ b = '\n' :: x → False := by
  rintro x rfl hx
  cases a with
  | nil => exact h ⟨[], x, rfl, hx⟩
  | cons d a =>
      obtain ⟨rfl, _⟩ := List.cons.inj hx
      exact hc a rfl rfl

theorem size_crlf (t : Text) : size ('\r' :: '\n' :: t) = 2 + size t := by
  have hr : ('\r' : Char).utf8Size = 1 := rfl
  have hl : ('\n' : Char).utf8Size = 1 := rfl
  rw [size, size, hr, hl]
  omega

theorem size_break {c : Char} (hc : c = '\r' ∨ c = '\n') (t : Text) :
    size (c :: t) = 1 + size t := by
  rw [size, utf8Size_of_isBreak (by simpa [isBreak, or_comm] using hc)]

/-- A text that is cut beside its line breaks has the lines of both parts. -/
theorem laterLineStarts_append (h : ¬ Severs a b) :
    laterLineStarts n (a ++ b) = laterLineStarts n a ++ laterLineStarts (n + size a) b := by
  fun_induction laterLineStarts n a with
  | case1 => rfl
  | case2 n t ih =>
      rw [List.cons_append, List.cons_append, laterLineStarts, size_crlf, ← Nat.add_assoc,
        ih fun hs => h ((hs.cons _).cons _)]
      rfl
  | case3 n c t hne hc ih =>
      rw [List.cons_append, laterLineStarts.eq_3 _ _ _ (crlf_append h hne), if_pos hc,
        size_break hc, ← Nat.add_assoc, ih fun hs => h (hs.cons _)]
      rfl
  | case4 n c t hne hc ih =>
      rw [List.cons_append, laterLineStarts.eq_3 _ _ _ (crlf_append h hne), if_neg hc, size,
        ← Nat.add_assoc, ih fun hs => h (hs.cons _)]

/-- A line starts behind a beginning of the text that is not empty. -/
theorem exists_of_mem_laterLineStarts {m : Nat} (h : m ∈ laterLineStarts n t) :
    ∃ a b, t = a ++ b ∧ m = n + size a ∧ n < m := by
  fun_induction laterLineStarts n t with
  | case1 => cases h
  | case2 n t ih =>
      rcases List.mem_cons.mp h with rfl | h
      · exact ⟨['\r', '\n'], t, rfl, rfl, by omega⟩
      · obtain ⟨a, b, rfl, rfl, hlt⟩ := ih h
        exact ⟨'\r' :: '\n' :: a, b, rfl, by rw [size_crlf]; omega, by omega⟩
  | case3 n c t _ hc ih =>
      rcases List.mem_cons.mp h with rfl | h
      · exact ⟨[c], t, rfl, by rw [size_break hc]; rfl, by omega⟩
      · obtain ⟨a, b, rfl, rfl, hlt⟩ := ih h
        exact ⟨c :: a, b, rfl, by rw [size_break hc]; omega, by omega⟩
  | case4 n c t _ _ ih =>
      obtain ⟨a, b, rfl, rfl, hlt⟩ := ih h
      exact ⟨c :: a, b, rfl, by rw [size]; omega, by omega⟩

/-- The last line of a text has no line break. -/
theorem exists_lastLine (start n : Nat) (t : Text) :
    ∃ u g, t = u ++ g ∧ (∀ c ∈ g, ¬ (c = '\r' ∨ c = '\n')) ∧
      (start :: laterLineStarts n t).getLast? = some (if u = [] then start else n + size u) := by
  fun_induction laterLineStarts n t generalizing start with
  | case1 => exact ⟨[], [], rfl, nofun, rfl⟩
  | case2 n t ih =>
      obtain ⟨u, g, rfl, hg, hl⟩ := ih (n + 2)
      refine ⟨'\r' :: '\n' :: u, g, rfl, hg, ?_⟩
      rw [List.getLast?_cons_cons, hl, size_crlf]
      cases u with
      | nil => rfl
      | cons d u =>
          simp [size]
          omega
  | case3 n c t _ hc ih =>
      obtain ⟨u, g, rfl, hg, hl⟩ := ih (n + 1)
      refine ⟨c :: u, g, rfl, hg, ?_⟩
      rw [List.getLast?_cons_cons, hl, size_break hc]
      cases u with
      | nil => rfl
      | cons d u =>
          simp [size]
          omega
  | case4 n c t _ hc ih =>
      obtain ⟨u, g, rfl, hg, hl⟩ := ih start
      cases u with
      | nil =>
          refine ⟨[], c :: g, rfl, fun d hd => ?_, hl⟩
          rcases List.mem_cons.mp hd with rfl | hd
          · exact hc
          · exact hg d hd
      | cons d u =>
          refine ⟨c :: d :: u, g, rfl, hg, ?_⟩
          rw [hl]
          simp [size]
          omega

/-! ## Columns -/

theorem columnLength_append {g : Text} (hg : ∀ c ∈ g, ¬ (c = '\r' ∨ c = '\n')) (t : Text) :
    columnLength (unitCount g) (g ++ t) = size g := by
  induction g with
  | nil => cases t <;> simp [unitCount, columnLength, size]
  | cons c g ih =>
      have hc : 0 < units c := by
        unfold units
        split <;> decide
      have hn : ¬ (units c + unitCount g = 0 ∨ c = '\r' ∨ c = '\n') := by
        rintro (h | h)
        · omega
        · exact hg c List.mem_cons_self h
      rw [List.cons_append, unitCount, columnLength, if_neg hn, Nat.add_sub_cancel_left,
        ih fun d hd => hg d (.tail _ hd), size]

/-! ## There and back -/

theorem lineStarts_eq (h : ¬ Severs a b) : lineStarts (a ++ b) = lineStarts a ++ laterLineStarts (size a) b := by
  rw [lineStarts, laterLineStarts_append h, Nat.zero_add]
  rfl

/-- Up to a cut beside the line breaks the lines of the first part have started, and no others. -/
theorem lineOf_append (h : ¬ Severs a b) :
    (LineTable.ofText (a ++ b)).lineOf (size a) = (laterLineStarts 0 a).length := by
  have hle : ∀ m ∈ lineStarts a, decide (m ≤ size a) = true := by
    intro m hm
    rcases List.mem_cons.mp hm with rfl | hm
    · simp
    · obtain ⟨x, y, rfl, rfl, _⟩ := exists_of_mem_laterLineStarts hm
      rw [decide_eq_true_eq, size_append]
      omega
  have hgt : (laterLineStarts (size a) b).takeWhile (fun m => decide (m ≤ size a)) = [] := by
    cases hb : laterLineStarts (size a) b with
    | nil => rfl
    | cons m ms =>
        obtain ⟨_, _, _, _, hm⟩ := exists_of_mem_laterLineStarts (hb ▸ List.mem_cons_self)
        exact List.takeWhile_cons_of_neg (by simpa using hm)
  rw [LineTable.lineOf, LineTable.ofText]
  dsimp only
  rw [lineStarts_eq h, List.takeWhile_append_of_pos hle, hgt]
  simp [lineStarts]

/-- The next line behind a cut starts somewhere in the second part, or this part is its rest. -/
theorem exists_nextStart (a b : Text) : ∃ v w, b = v ++ w ∧
    (laterLineStarts (size a) b).head?.getD (size (a ++ b)) = size a + size v := by
  cases hb : laterLineStarts (size a) b with
  | nil => exact ⟨b, [], by simp, size_append a b⟩
  | cons m ms =>
      obtain ⟨v, w, hv, hm, _⟩ := exists_of_mem_laterLineStarts (hb ▸ List.mem_cons_self)
      exact ⟨v, w, hv, hm⟩

/-- The table of a text that is cut beside its line breaks, at the cut. -/
theorem lineStarts_append (h : ¬ Severs a b) :
    ∃ u g v w, a = u ++ g ∧ b = v ++ w ∧ (∀ c ∈ g, ¬ (c = '\r' ∨ c = '\n')) ∧
      let i := LineTable.ofText (a ++ b)
      i.start? (i.lineOf (size a)) = some (size u) ∧
        (i.start? (i.lineOf (size a) + 1)).getD i.size = size a + size v := by
  obtain ⟨u, g, hu, hg, hl⟩ := exists_lastLine 0 0 a
  obtain ⟨v, w, hv, he⟩ := exists_nextStart a b
  have hlast : (lineStarts a).getLast? = some (size u) := by
    rw [lineStarts, hl]
    split
    · rename_i hn
      rw [hn]
      rfl
    · rw [Nat.zero_add]
  refine ⟨u, g, v, w, hu, hv, hg, ?_, ?_⟩
  · rw [lineOf_append h, LineTable.start?, LineTable.ofText]
    dsimp only
    rw [lineStarts_eq h, List.getElem?_append_left (by simp [lineStarts]), ← hlast, List.getLast?_eq_getElem?]
    rfl
  · rw [lineOf_append h, LineTable.start?, LineTable.ofText]
    dsimp only
    rw [lineStarts_eq h, List.getElem?_append_right (by simp [lineStarts]), ← he, List.head?_eq_getElem?]
    simp [lineStarts]

/-- Line and column of an addressable offset lead back to it. -/
theorem Addressable.exists_position (h : t.Addressable n) :
    ∃ p, (LineTable.ofText t).position? t n = some p ∧
      (LineTable.ofText t).offset? t p = some n := by
  obtain ⟨a, b, rfl, rfl, hn⟩ := h
  obtain ⟨u, g, v, w, rfl, rfl, hg, hs, he⟩ := lineStarts_append hn
  have hmin : min (size (u ++ g)) (LineTable.ofText (u ++ g ++ (v ++ w))).size = size (u ++ g) := by
    refine Nat.min_eq_left ?_
    rw [LineTable.ofText, size_append (u ++ g)]
    exact Nat.le_add_right ..
  refine ⟨⟨(LineTable.ofText (u ++ g ++ (v ++ w))).lineOf (size (u ++ g)), unitCount g⟩, ?_, ?_⟩
  · have hb : slice? (u ++ g ++ (v ++ w)) ⟨size u, size (u ++ g)⟩ = some g := by
      rw [size_append u g, List.append_assoc, slice?_append]
    rw [LineTable.position?, hmin, hs, Option.getD_some, hb]
    rfl
  · rw [LineTable.offset?, hs, Option.map_some, he]
    have hx : extract (u ++ g ++ (v ++ w)) ⟨size u, size (u ++ g) + size v⟩ = g ++ v := by
      have ht : u ++ g ++ (v ++ w) = u ++ ((g ++ v) ++ w) := by simp
      rw [ht, size_append u g, Nat.add_assoc, ← size_append g v, extract_append]
    dsimp only
    rw [hx, columnLength_append hg, size_append]

end AlRefactor.Text
