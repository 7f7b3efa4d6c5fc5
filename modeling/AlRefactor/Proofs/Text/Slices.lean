import AlRefactor.Text.Basic

/-!
# Pieces of a text

An offset between two characters cuts a text in two, and two such offsets in order cut it in three.
-/

namespace AlRefactor.Text

/-! ## Cutting at the size of a piece -/

theorem size_append (a b : Text) : size (a ++ b) = size a + size b := by
  induction a with
  | nil => simp [size]
  | cons c a ih => simp [size, ih, Nat.add_assoc]

theorem drop?_append (a b : Text) : drop? (a ++ b) (size a) = some b := by
  induction a with
  | nil => cases b <;> rfl
  | cons c a ih =>
      obtain ⟨n, hn⟩ := Nat.exists_eq_succ_of_ne_zero (Nat.ne_of_gt c.utf8Size_pos)
      simp only [List.cons_append, size, hn, Nat.succ_add, drop?]
      rw [if_pos (by omega)]
      rwa [show n + size a + 1 - (n + 1) = size a by omega]

theorem take?_append (a b : Text) : take? (a ++ b) (size a) = some a := by
  induction a with
  | nil => cases b <;> rfl
  | cons c a ih =>
      obtain ⟨n, hn⟩ := Nat.exists_eq_succ_of_ne_zero (Nat.ne_of_gt c.utf8Size_pos)
      simp only [List.cons_append, size, hn, Nat.succ_add, take?]
      rw [if_pos (by omega), show n + size a + 1 - (n + 1) = size a by omega, ih]
      rfl

theorem slice?_append (a b c : Text) :
    slice? (a ++ (b ++ c)) ⟨size a, size a + size b⟩ = some b := by
  have h : (⟨size a, size a + size b⟩ : Span).length = size b := by simp [Span.length]
  rw [slice?, if_pos (Nat.le_add_right _ _), drop?_append, Option.bind_some, h, take?_append]

theorem extract_append (a b c : Text) :
    extract (a ++ (b ++ c)) ⟨size a, size a + size b⟩ = b := by
  rw [extract, slice?_append, Option.getD_some]

theorem exists_of_drop? {t r : Text} {n : Nat} (h : t.drop? n = some r) :
    ∃ b, t = b ++ r ∧ size b = n := by
  fun_induction drop? t n with
  | case1 t => exact ⟨[], by simpa using h, rfl⟩
  | case2 => cases h
  | case3 c t n hc ih =>
      obtain ⟨b, rfl, hb⟩ := ih h
      exact ⟨c :: b, rfl, by rw [size, hb]; omega⟩
  | case4 => cases h

theorem exists_of_take? {t r : Text} {n : Nat} (h : t.take? n = some r) :
    ∃ b, t = r ++ b ∧ size r = n := by
  fun_induction take? t n generalizing r with
  | case1 t => cases h; exact ⟨t, rfl, rfl⟩
  | case2 => cases h
  | case3 c t n hc ih =>
      obtain ⟨u, hu, rfl⟩ := Option.map_eq_some_iff.mp h
      obtain ⟨b, rfl, hb⟩ := ih hu
      exact ⟨b, rfl, by rw [size, hb]; omega⟩
  | case4 => cases h

theorem drop?_append_add (b t : Text) (n : Nat) : drop? (b ++ t) (size b + n) = drop? t n := by
  induction b with
  | nil => rw [List.nil_append, size, Nat.zero_add]
  | cons c b ih =>
      obtain ⟨k, hk⟩ := Nat.exists_eq_succ_of_ne_zero (Nat.ne_of_gt c.utf8Size_pos)
      have hn : size (c :: b) + n = k + size b + n + 1 := by rw [size]; omega
      rw [List.cons_append, hn, drop?, if_pos (by omega), ← ih]
      congr 1
      omega

/-! ## Offsets between characters -/

theorem size_eq_zero {t : Text} : size t = 0 ↔ t = [] := by
  cases t with
  | nil => simp [size]
  | cons c t => have := c.utf8Size_pos; simp [size]; omega

theorem isBoundary_iff {t : Text} {n : Nat} :
    t.isBoundary n ↔ ∃ a b, t = a ++ b ∧ size a = n := by
  rw [isBoundary, Option.isSome_iff_exists]
  constructor
  · rintro ⟨b, hb⟩
    obtain ⟨a, ha, hn⟩ := exists_of_drop? hb
    exact ⟨a, b, ha, hn⟩
  · rintro ⟨a, b, rfl, rfl⟩
    exact ⟨b, drop?_append a b⟩

theorem le_size_of_isBoundary {t : Text} {n : Nat} (h : t.isBoundary n) : n ≤ t.size := by
  obtain ⟨a, b, rfl, rfl⟩ := isBoundary_iff.mp h
  rw [size_append]
  exact Nat.le_add_right _ _

section Cuts

variable {a a' b b' g t : Text} {c : Char} {s : Span}

/-- Of two beginnings of a text the smaller one is a beginning of the other one. -/
theorem exists_append_of_le (h : a ++ b = a' ++ b') (hs : size a ≤ size a') :
    ∃ m, a' = a ++ m ∧ b = m ++ b' := by
  rcases List.append_eq_append_iff.mp h with ⟨m, ha, hb⟩ | ⟨m, rfl, rfl⟩
  · exact ⟨m, ha, hb⟩
  · rw [size_append] at hs
    obtain rfl := size_eq_zero.mp (show size m = 0 by omega)
    exact ⟨[], by simp, rfl⟩

/-- A text is cut at an offset in one way only. -/
theorem append_inj_of_size (h : a ++ b = a' ++ b') (hs : size a = size a') : a = a' ∧ b = b' := by
  obtain ⟨m, rfl, rfl⟩ := exists_append_of_le h (Nat.le_of_eq hs)
  rw [size_append] at hs
  obtain rfl := size_eq_zero.mp (show size m = 0 by omega)
  simp

/-- A beginning that does not reach beyond a character reaches at most up to it. -/
theorem size_le_of_lt (h : a ++ b = a' ++ c :: b') (hs : size a < size a' + c.utf8Size) :
    size a ≤ size a' := by
  refine Nat.le_of_not_lt fun hn => ?_
  obtain ⟨m, rfl, hm⟩ := exists_append_of_le h.symm (Nat.le_of_lt hn)
  cases m with
  | nil => simp at hn
  | cons d m =>
      obtain ⟨rfl, _⟩ := List.cons.inj hm
      rw [size_append, size] at hs
      omega

/-- A character that starts in a piece belongs to it. -/
theorem mem_of_le_of_lt (h : a ++ (g ++ b) = a' ++ c :: b') (hl : size a ≤ size a')
    (hs : size a' < size a + size g) : c ∈ g := by
  obtain ⟨m, rfl, hm⟩ := exists_append_of_le h hl
  rw [size_append] at hs
  obtain ⟨k, rfl, hk⟩ := exists_append_of_le hm.symm (by omega)
  cases k with
  | nil => rw [size_append] at hs; simp [size] at hs
  | cons d k =>
      obtain ⟨rfl, _⟩ := List.cons.inj hk
      exact List.mem_append_right _ List.mem_cons_self

/-- A range of the text: its ends are in order, in the text and between characters. -/
def HasRange (t : Text) (s : Span) : Prop := (t.slice? s).isSome

instance (t : Text) (s : Span) : Decidable (t.HasRange s) := inferInstanceAs (Decidable (_ = true))

theorem hasRange_iff : t.HasRange s ↔
    s.start ≤ s.stop ∧ t.isBoundary s.start ∧ t.isBoundary s.stop := by
  constructor
  · intro h
    obtain ⟨m, h⟩ := Option.isSome_iff_exists.mp h
    rw [slice?] at h
    split at h
    · rename_i hle
      obtain ⟨r, hr, hm⟩ := Option.bind_eq_some_iff.mp h
      obtain ⟨a, rfl, ha⟩ := exists_of_drop? hr
      refine ⟨hle, isBoundary_iff.mpr ⟨a, r, rfl, ha⟩, ?_⟩
      obtain ⟨v, rfl, hv⟩ := exists_of_take? hm
      refine isBoundary_iff.mpr ⟨a ++ m, v, (List.append_assoc ..).symm, ?_⟩
      rw [size_append, hv, Span.length]
      omega
    · cases h
  · rintro ⟨hle, hs, he⟩
    obtain ⟨a, b, rfl, ha⟩ := isBoundary_iff.mp hs
    obtain ⟨a', b', ht, ha'⟩ := isBoundary_iff.mp he
    obtain ⟨m, rfl, rfl⟩ := exists_append_of_le ht (by omega)
    have hs : s = ⟨size a, size a + size m⟩ := by
      rw [size_append] at ha'
      cases s
      simp_all
    rw [HasRange, hs, slice?_append]
    rfl

end Cuts

/-! ## Pieces in a row -/

section Rows

variable {t : Text} {i j k : Nat}

theorem HasRange.trans (h : t.HasRange ⟨i, j⟩) (h' : t.HasRange ⟨j, k⟩) : t.HasRange ⟨i, k⟩ := by
  obtain ⟨hij, hi, -⟩ := hasRange_iff.mp h
  obtain ⟨hjk, -, hk⟩ := hasRange_iff.mp h'
  exact hasRange_iff.mpr ⟨Nat.le_trans hij hjk, hi, hk⟩

theorem extract_split (h : t.HasRange ⟨i, j⟩) (h' : t.HasRange ⟨j, k⟩) :
    t.extract ⟨i, k⟩ = t.extract ⟨i, j⟩ ++ t.extract ⟨j, k⟩ := by
  obtain ⟨hij, hi, hj⟩ := hasRange_iff.mp h
  obtain ⟨hjk, -, hk⟩ := hasRange_iff.mp h'
  obtain ⟨a, _, rfl, rfl⟩ := isBoundary_iff.mp hi
  obtain ⟨_, b, hb, rfl⟩ := isBoundary_iff.mp hj
  obtain ⟨x, rfl, rfl⟩ := exists_append_of_le hb hij
  obtain ⟨_, c, hc, rfl⟩ := isBoundary_iff.mp hk
  obtain ⟨y, rfl, rfl⟩ := exists_append_of_le ((List.append_assoc ..).trans hc) hjk
  have hx := extract_append a x (y ++ c)
  have hy := extract_append (a ++ x) y c
  have hxy := extract_append a (x ++ y) c
  simp only [size_append, List.append_assoc, Nat.add_assoc] at hx hy hxy ⊢
  rw [hx, hy, hxy]

end Rows

/-! ## Cutting off and cutting apart -/

theorem dropStart?_eq_some {b t u : Text} : dropStart? b t = some u ↔ t = b ++ u := by
  fun_induction dropStart? b t with
  | case1 t => simp
  | case2 b bs => simp
  | case3 b bs t ih => simpa using ih
  | case4 b bs c t hc => simp [Ne.symm hc]

theorem dropEnd?_eq_some {b t u : Text} : dropEnd? b t = some u ↔ t = u ++ b := by
  rw [dropEnd?, Option.map_eq_some_iff]
  constructor
  · rintro ⟨v, hv, rfl⟩
    rw [← List.reverse_reverse t, dropStart?_eq_some.mp hv, List.reverse_append, List.reverse_reverse]
  · rintro rfl
    exact ⟨u.reverse, dropStart?_eq_some.mpr (List.reverse_append ..), List.reverse_reverse u⟩

theorem cutAt?_eq_some {c : Char} {a b t : Text} :
    t.cutAt? c = some (a, b) ↔ t = a ++ c :: b ∧ c ∉ a := by
  fun_induction cutAt? c t generalizing a b with
  | case1 => simp
  | case2 t =>
      cases a with
      | nil => simp
      | cons d a => simp +contextual
  | case3 d t hd ih =>
      rw [Option.map_eq_some_iff]
      constructor
      · rintro ⟨⟨u, v⟩, hu, h⟩
        obtain ⟨rfl, hc⟩ := ih.mp hu
        cases h
        exact ⟨rfl, by simpa [Ne.symm hd] using hc⟩
      · rintro ⟨h, hc⟩
        cases a with
        | nil => exact absurd (List.cons.inj h).1 hd
        | cons e a =>
            obtain ⟨rfl, rfl⟩ := List.cons.inj h
            exact ⟨(a, b), ih.mpr ⟨rfl, fun hm => hc (.tail _ hm)⟩, rfl⟩

/-- What stands before and behind the first occurrence of a character is determined. -/
theorem append_cons_inj {c : Char} {a a' b b' : Text} (h : a ++ c :: b = a' ++ c :: b') (ha : c ∉ a)
    (ha' : c ∉ a') : a = a' ∧ b = b' :=
  Prod.mk.inj <| Option.some.inj <|
    (cutAt?_eq_some.mpr ⟨rfl, ha⟩).symm.trans (cutAt?_eq_some.mpr ⟨h, ha'⟩)

end AlRefactor.Text
