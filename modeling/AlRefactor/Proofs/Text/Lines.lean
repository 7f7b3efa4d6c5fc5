import Mathlib.Data.List.Forall2
import AlRefactor.Proofs.Text.Slices
import AlRefactor.Text.Lines

/-!
# Lines of a text

A line starts behind the last line break before an offset. A range that is widened to whole lines
gets nothing but blanks and the line break behind it.
-/

namespace AlRefactor.Text

/-! ## Layout -/

/-- Only blanks and line breaks. -/
def IsLayout (t : Text) : Prop := ∀ c ∈ t, isIndent c ∨ isBreak c

theorem isLayout_nil : IsLayout [] := nofun

theorem IsLayout.append {a b : Text} (ha : a.IsLayout) (hb : b.IsLayout) : (a ++ b).IsLayout :=
  fun c hc => (List.mem_append.mp hc).elim (ha c) (hb c)

theorem isLayout_newline (t : Text) : t.newline.IsLayout := by
  unfold newline
  split <;> simp [IsLayout, isBreak]

theorem isLayout_indentUnit (t : Text) : t.indentUnit.IsLayout := by
  unfold indentUnit
  split <;> simp [IsLayout, isIndent]

theorem isLayout_lineIndent (t : Text) (offset : Nat) : (t.lineIndent offset).IsLayout :=
  fun c hc => .inl (List.all_eq_true.mp List.all_takeWhile c hc)

/-- The text is some lines in their order, with nothing but layout before, between and behind
them. -/
inductive Writes : Text → List Text → Prop where
  | layout {t} : t.IsLayout → Writes t []
  | line {before l t ls} : before.IsLayout → Writes t ls → Writes (before ++ (l ++ t)) (l :: ls)

/-- The line with an indentation. -/
def Indents (indented l : Text) : Prop := ∃ indent : Text, indent.IsLayout ∧ indented = indent ++ l

section Writes

variable {a b t separator rest : Text} {ks ls : List Text}

theorem Writes.indent (ha : a.IsLayout) (h : t.Writes ls) : (a ++ t).Writes ls := by
  cases h with
  | layout ht => exact .layout (ha.append ht)
  | line hb h =>
      rw [← List.append_assoc]
      exact .line (ha.append hb) h

theorem writes_flatMap (ls : List Text) (ha : a.IsLayout) (hb : b.IsLayout)
    (hr : rest.IsLayout) :
    Writes ((ls.flatMap fun l => a ++ l ++ b) ++ rest) ls := by
  induction ls with
  | nil => exact .layout hr
  | cons l ls ih =>
      have h := Writes.line (l := l) ha (ih.indent hb)
      simpa only [List.flatMap_cons, List.append_assoc] using h

theorem writes_join (hs : separator.IsLayout) (hr : rest.IsLayout)
    (h : List.Forall₂ Indents ks ls) : Writes (join separator ks ++ rest) ls := by
  induction h with
  | nil => exact .layout hr
  | @cons _ l _ _ hk h ih =>
      obtain ⟨indent, hi, rfl⟩ := hk
      cases h with
      | nil =>
          rw [join, List.append_assoc]
          exact .line hi (.layout hr)
      | cons =>
          have h := Writes.line (l := l) hi (ih.indent hs)
          simpa only [join, List.append_assoc] using h

end Writes

/-! ## Between two offsets -/

/-- Nothing but blanks and line breaks stands between two offsets. -/
def Bare (t : Text) (a b : Nat) : Prop :=
  ∃ u g v, t = u ++ (g ++ v) ∧ size u = a ∧ size u + size g = b ∧ g.IsLayout

/-- A line break ends at the offset. -/
def BehindBreak (t : Text) (n : Nat) : Prop :=
  ∃ u c v, t = u ++ c :: v ∧ isBreak c ∧ size u + c.utf8Size = n

section Bare

variable {t u v : Text} {a b n : Nat}

theorem Bare.refl (h : t.isBoundary a) : t.Bare a a := by
  obtain ⟨u, v, rfl, rfl⟩ := isBoundary_iff.mp h
  exact ⟨u, [], v, rfl, rfl, rfl, nofun⟩

theorem Bare.le (h : t.Bare a b) : a ≤ b := by
  obtain ⟨u, g, v, _, rfl, rfl, _⟩ := h
  exact Nat.le_add_right _ _

theorem Bare.isBoundary (h : t.Bare a b) : t.isBoundary a ∧ t.isBoundary b := by
  obtain ⟨u, g, v, rfl, rfl, rfl, _⟩ := h
  refine ⟨isBoundary_iff.mpr ⟨u, _, rfl, rfl⟩, isBoundary_iff.mpr ⟨u ++ g, v, ?_, ?_⟩⟩
  · rw [List.append_assoc]
  · rw [size_append]

end Bare

/-! ## Starts of lines -/

/-- What stands before an offset is the lines before and the beginning of its own line. -/
theorem lineStartFrom_append (a b : Text) (pos start : Nat) :
    ∃ u g, a = u ++ g ∧ (∀ c ∈ g, isBreak c = false) ∧
      ((u = [] ∧ lineStartFrom (pos + size a) pos start (a ++ b) = start) ∨
        ∃ w c, u = w ++ [c] ∧ isBreak c ∧
          lineStartFrom (pos + size a) pos start (a ++ b) = pos + size u) := by
  induction a generalizing pos start with
  | nil =>
      refine ⟨[], [], rfl, nofun, .inl ⟨rfl, ?_⟩⟩
      cases b <;> simp [size, lineStartFrom]
  | cons c a ih =>
      have hc := c.utf8Size_pos
      have hp : pos < pos + size (c :: a) := by rw [size]; omega
      have hs : pos + size (c :: a) = pos + c.utf8Size + size a := by rw [size]; omega
      rw [List.cons_append, lineStartFrom, if_pos hp, hs]
      obtain ⟨u, g, rfl, hg, ⟨rfl, hl⟩ | ⟨w, d, rfl, hd, hl⟩⟩ :=
        ih (pos + c.utf8Size) (if isBreak c then pos + c.utf8Size else start)
      · rw [hl]
        cases hb : isBreak c with
        | true => exact ⟨[c], g, rfl, hg, .inr ⟨[], c, rfl, hb, by simp [size]⟩⟩
        | false =>
            refine ⟨[], c :: g, rfl, fun d hd => ?_, .inl ⟨rfl, rfl⟩⟩
            rcases List.mem_cons.mp hd with rfl | hd
            · exact hb
            · exact hg d hd
      · exact ⟨c :: (w ++ [d]), g, rfl, hg, .inr ⟨c :: w, d, rfl, hd, by rw [hl, size]; omega⟩⟩

theorem lineStart_append (a b : Text) :
    ∃ u g, a = u ++ g ∧ (a ++ b).lineStart (size a) = size u ∧ (∀ c ∈ g, isBreak c = false) ∧
      (u = [] ∨ ∃ w c, u = w ++ [c] ∧ isBreak c) := by
  obtain ⟨u, g, hu, hg, h⟩ := lineStartFrom_append a b 0 0
  rw [Nat.zero_add] at h
  refine ⟨u, g, hu, ?_, hg, ?_⟩
  · rcases h with ⟨rfl, h⟩ | ⟨_, _, _, _, h⟩
    · exact h
    · rw [lineStart, h, Nat.zero_add]
  · rcases h with ⟨hn, _⟩ | ⟨w, c, hw, hc, _⟩
    · exact .inl hn
    · exact .inr ⟨w, c, hw, hc⟩

theorem lineStart_le {t : Text} {o : Nat} (ho : t.isBoundary o) : t.lineStart o ≤ o := by
  obtain ⟨a, b, rfl, rfl⟩ := isBoundary_iff.mp ho
  obtain ⟨u, g, rfl, hl, _⟩ := lineStart_append a b
  rw [hl, size_append]
  exact Nat.le_add_right _ _

/-- No line break that ends before an offset ends behind the start of its line. -/
theorem BehindBreak.le_lineStart {t : Text} {n o : Nat} (h : t.BehindBreak n)
    (ho : t.isBoundary o) (hn : n ≤ o) : n ≤ t.lineStart o := by
  obtain ⟨a, b, rfl, rfl⟩ := isBoundary_iff.mp ho
  obtain ⟨w, c, v, ht, hc, rfl⟩ := h
  obtain ⟨u, g, rfl, hl, hg, _⟩ := lineStart_append a b
  rw [hl]
  refine Nat.le_of_not_lt fun hlt => ?_
  rw [List.append_assoc] at ht
  have hm := mem_of_le_of_lt ht (size_le_of_lt ht hlt) (by
    have := c.utf8Size_pos
    rw [size_append] at hn
    omega)
  rw [hg c hm] at hc
  cases hc

/-- The start of the line of an offset, and what stands on the line before it. -/
theorem startsLine?_eq {t : Text} {o : Nat} (ho : t.isBoundary o) :
    ∃ first, t.startsLine? o = some first ∧ t.isBoundary (t.lineStart o) ∧
      (first → t.Bare (t.lineStart o) o) ∧
      (t.lineStart o = 0 ∨ t.BehindBreak (t.lineStart o)) := by
  obtain ⟨a, b, rfl, rfl⟩ := isBoundary_iff.mp ho
  obtain ⟨u, g, rfl, hl, _, hu⟩ := lineStart_append a b
  rw [startsLine?, hl, size_append, List.append_assoc, slice?_append]
  refine ⟨g.all isIndent, rfl, isBoundary_iff.mpr ⟨u, _, rfl, rfl⟩, fun hf => ?_, ?_⟩
  · exact ⟨u, g, b, rfl, rfl, rfl, fun c hc => .inl (List.all_eq_true.mp hf c hc)⟩
  · rcases hu with rfl | ⟨w, c, rfl, hc⟩
    · exact .inl rfl
    · refine .inr ⟨w, c, g ++ b, by simp, hc, ?_⟩
      rw [size_append, size, size]
      omega

/-! ## Ends of lines -/

theorem size_of_all {p : Char → Bool} (hp : ∀ c, p c → c.utf8Size = 1) {t : Text}
    (h : ∀ c ∈ t, p c) : size t = t.length := by
  induction t with
  | nil => rfl
  | cons c t ih =>
      rw [size, hp c (h c List.mem_cons_self), ih fun d hd => h d (.tail _ hd), List.length_cons]
      omega

theorem size_take_of_all {t : Text} (h : ∀ c ∈ t, c.utf8Size = 1) (k : Nat) :
    size (t.take k) = min k t.size := by
  have hs : ∀ {u : Text}, (∀ c ∈ u, c ∈ t) → size u = u.length := fun hu =>
    size_of_all (p := fun c => c.utf8Size == 1) (fun _ => beq_iff_eq.mp) fun c hc =>
      beq_iff_eq.mpr (h c (hu c hc))
  rw [hs fun _ => List.mem_of_mem_take, hs fun _ => id, List.length_take]

/-- Where every character takes one byte, every offset is between characters. -/
theorem isBoundary_of_all {t : Text} (h : ∀ c ∈ t, c.utf8Size = 1) {k : Nat} (hk : k ≤ t.size) :
    t.isBoundary k := by
  refine isBoundary_iff.mpr ⟨t.take k, t.drop k, (List.take_append_drop k t).symm, ?_⟩
  rw [size_take_of_all h, Nat.min_eq_left hk]

/-- Where every character takes one byte, as many characters as bytes are taken. -/
theorem take?_of_all {t : Text} (h : ∀ c ∈ t, c.utf8Size = 1) (k : Nat) :
    t.take? (min k t.size) = some (t.take k) := by
  have := take?_append (t.take k) (t.drop k)
  rwa [size_take_of_all h, List.take_append_drop] at this

theorem utf8Size_of_isIndent {c : Char} (h : isIndent c) : c.utf8Size = 1 := by
  simp only [isIndent, Bool.or_eq_true, beq_iff_eq] at h
  rcases h with rfl | rfl <;> rfl

theorem utf8Size_of_isBreak {c : Char} (h : isBreak c) : c.utf8Size = 1 := by
  simp only [isBreak, Bool.or_eq_true, beq_iff_eq] at h
  rcases h with rfl | rfl <;> rfl

/-- A line break that starts one byte before an offset is the character in front of this offset. -/
theorem eq_of_charAt? {w b : Text} {c d : Char} (h : (w ++ c :: b).charAt? (size (w ++ [c]) - 1) = some d)
    (hd : isBreak d) : d = c := by
  obtain ⟨r, hr, hrd⟩ := Option.bind_eq_some_iff.mp h
  obtain ⟨r, rfl⟩ := List.head?_eq_some_iff.mp hrd
  obtain ⟨u, hu, hsize⟩ := exists_of_drop? hr
  have hcut : w ++ [c] ++ b = u ++ [d] ++ r := by simpa using hu
  have hs : size (w ++ [c]) = size (u ++ [d]) := by
    have hc := c.utf8Size_pos
    rw [size_append u, hsize, size_append, size, size, size, size, utf8Size_of_isBreak hd]
    omega
  obtain ⟨hwu, -⟩ := append_inj_of_size hcut hs
  exact (List.singleton_inj.mp (List.append_inj' hwu rfl).2).symm

/-- A line starts behind a text that is empty or ends with a line break. -/
theorem isLineStart_append (a b : Text) :
    (a ++ b).isLineStart (size a) ↔ ∀ c ∈ a.getLast?, isBreak c := by
  rcases List.eq_nil_or_concat' a with rfl | ⟨w, c, rfl⟩
  · simp [isLineStart, size]
  have hpos : size (w ++ [c]) ≠ 0 := by simp [size_eq_zero]
  rw [isLineStart, Bool.or_eq_true, beq_iff_eq, or_iff_right hpos, List.getLast?_concat, List.append_assoc,
    List.singleton_append]
  constructor
  · intro hs d hd
    obtain rfl := Option.some.inj hd
    cases hc : charAt? (w ++ c :: b) (size (w ++ [c]) - 1) with
    | none => rw [hc] at hs; cases hs
    | some d =>
        rw [hc] at hs
        exact eq_of_charAt? hc hs ▸ hs
  · intro hb
    have hc := hb c rfl
    have hs : size (w ++ [c]) - 1 = size w := by
      rw [size_append, size, size, utf8Size_of_isBreak hc]
      rfl
    rw [charAt?, hs, drop?_append]
    exact hc

/-- The rest of a line is blanks and the whole line break, or the text ends with it. -/
theorem lineRest?_eq {t : Text} {n : Nat} (h : t.lineRest? = some n) :
    ∃ g v, t = g ++ v ∧ size g = n ∧ (∀ c ∈ g, isIndent c ∨ isBreak c) ∧
      (v = [] ∨ ∃ w c, g = w ++ [c] ∧ isBreak c ∧ (c = '\r' → v.head? ≠ some '\n')) := by
  have hb : ∀ c ∈ t.takeWhile isIndent, isIndent c :=
    fun c hc => List.all_eq_true.mp List.all_takeWhile c hc
  have hs := size_of_all (fun _ => utf8Size_of_isIndent) hb
  rw [lineRest?] at h
  rw [← List.takeWhile_append_dropWhile (p := isIndent) (l := t)]
  generalize t.takeWhile isIndent = blanks at hb hs h ⊢
  split at h <;> rename_i hd <;> rw [hd]
  · exact ⟨blanks, [], rfl, by rw [hs]; exact Option.some.inj h, fun c hc => .inl (hb c hc),
      .inl rfl⟩
  · rename_i v
    refine ⟨blanks ++ ['\r', '\n'], v, by simp, ?_, fun c hc => ?_,
      .inr ⟨blanks ++ ['\r'], '\n', by simp, rfl, fun he => absurd he (by decide)⟩⟩
    · rw [size_append, hs]; exact Option.some.inj h
    · rcases List.mem_append.mp hc with hc | hc
      · exact .inl (hb c hc)
      · rcases List.mem_cons.mp hc with rfl | hc
        · exact .inr rfl
        · rw [List.mem_singleton.mp hc]; exact .inr rfl
  · rename_i c v hcr
    split at h
    · rename_i hc
      have hv : c = '\r' → v.head? ≠ some '\n' := fun he hh => by
        obtain ⟨w, rfl⟩ := List.head?_eq_some_iff.mp hh
        exact hcr w he rfl
      refine ⟨blanks ++ [c], v, by simp, ?_, fun d hd => ?_, .inr ⟨_, c, rfl, hc, hv⟩⟩
      · rw [size_append, hs, size, utf8Size_of_isBreak hc]; exact Option.some.inj h
      · rcases List.mem_append.mp hd with hd | hd
        · exact .inl (hb d hd)
        · rw [List.mem_singleton.mp hd]; exact .inr hc
    · cases h

/-! ## Whole lines -/

/-- A range, and the same range widened to whole lines. -/
structure Widened (t : Text) (s w : Span) : Prop where
  bare_start : t.Bare w.start s.start
  start : w.start = s.start ∨
    w.start = t.lineStart s.start ∧ (w.start = 0 ∨ t.BehindBreak w.start)
  bare_stop : t.Bare s.stop w.stop
  stop : w.stop = s.stop ∨ w.stop = t.size ∨ t.BehindBreak w.stop

theorem bare_rest {t r : Text} {o n : Nat} (ho : t.drop? o = some r) (h : r.lineRest? = some n) :
    t.Bare o (o + n) ∧ (o + n = t.size ∨ t.BehindBreak (o + n)) := by
  obtain ⟨u, rfl, rfl⟩ := exists_of_drop? ho
  obtain ⟨g, v, rfl, rfl, hg, hv⟩ := lineRest?_eq h
  refine ⟨⟨u, g, v, rfl, rfl, rfl, hg⟩, ?_⟩
  rcases hv with rfl | ⟨w, c, rfl, hc, _⟩
  · left
    rw [size_append, List.append_nil]
  · refine .inr ⟨u ++ w, c, v, by simp, hc, ?_⟩
    simp only [size_append, size]
    omega

theorem widened_wholeLines {t : Text} {s : Span} (hs : t.isBoundary s.start)
    (he : t.isBoundary s.stop) : ∃ w, t.wholeLines? s = some w ∧ Widened t s w := by
  obtain ⟨first, hf, hb, hbare, hl⟩ := startsLine?_eq hs
  obtain ⟨r, hr⟩ := Option.isSome_iff_exists.mp he
  rw [wholeLines?, hf, hr]
  refine ⟨_, rfl, ?_, ?_, ?_, ?_⟩
  · cases first with
    | true => exact hbare rfl
    | false => exact .refl hs
  · cases first with
    | true => exact .inr ⟨rfl, hl⟩
    | false => exact .inl rfl
  all_goals cases hn : r.lineRest? with
    | none => simp [hn, Bare.refl he]
    | some n => simp [hn, bare_rest hr hn]

/-! ## Parts of a line -/

section Parts

variable {t : Text} {s w : Span} {o : Nat}

theorem isBoundary_lineStart (ho : t.isBoundary o) : t.isBoundary (t.lineStart o) := by
  obtain ⟨_, _, hb, _⟩ := startsLine?_eq ho
  exact hb

/-- What stands before an offset on its line. -/
theorem hasRange_line (ho : t.isBoundary o) : t.HasRange ⟨t.lineStart o, o⟩ :=
  hasRange_iff.mpr ⟨lineStart_le ho, isBoundary_lineStart ho, ho⟩

theorem hasRange_lineIndent (ho : t.isBoundary o) :
    t.HasRange ⟨t.lineStart o, t.lineStart o + size (t.lineIndent o)⟩ := by
  obtain ⟨r, hr⟩ := Option.isSome_iff_exists.mp (isBoundary_lineStart ho)
  obtain ⟨u, ht, hu⟩ := exists_of_drop? hr
  rw [lineIndent, hr, Option.getD_some, ← hu, HasRange]
  have ht : t = u ++ (r.takeWhile isIndent ++ r.dropWhile isIndent) := by
    rw [List.takeWhile_append_dropWhile, ht]
  rw [ht, slice?_append]
  rfl

theorem Widened.hasRange (h : Widened t s w) (hs : s.start ≤ s.stop) : t.HasRange w := by
  have hle : w.start ≤ w.stop := calc
    w.start ≤ s.start := h.bare_start.le
    _ ≤ s.stop := hs
    _ ≤ w.stop := h.bare_stop.le
  exact hasRange_iff.mpr ⟨hle, h.bare_start.isBoundary.1, h.bare_stop.isBoundary.2⟩

end Parts

/-! ## Trimming -/

section Trimming

variable {t : Text} {s u : Span}

theorem of_mem_solidSpans (a b : Text) : ∀ s ∈ solidSpans (size a) b, size a ≤ s.start ∧
    s.start < s.stop ∧ isBoundary (a ++ b) s.start ∧ isBoundary (a ++ b) s.stop := by
  induction b generalizing a with
  | nil => nofun
  | cons c b ih =>
      have hs : size (a ++ [c]) = size a + c.utf8Size := by simp [size_append, size]
      have hc := c.utf8Size_pos
      have ih := ih (a ++ [c])
      rw [hs, List.append_assoc, List.singleton_append] at ih
      have hrest : ∀ s ∈ solidSpans (size a + c.utf8Size) b, size a ≤ s.start ∧ s.start < s.stop ∧
          isBoundary (a ++ c :: b) s.start ∧ isBoundary (a ++ c :: b) s.stop := fun s hm =>
        ⟨Nat.le_trans (Nat.le_add_right ..) (ih s hm).1, (ih s hm).2⟩
      rw [solidSpans]
      split
      · exact hrest
      · intro s hm
        rcases List.mem_cons.mp hm with rfl | hm
        · refine ⟨Nat.le_refl _, by dsimp only; omega, ?_, ?_⟩
          · exact isBoundary_iff.mpr ⟨a, c :: b, rfl, rfl⟩
          · exact isBoundary_iff.mpr ⟨a ++ [c], b, by simp, hs⟩
        · exact hrest s hm

theorem pairwise_solidSpans (a b : Text) :
    (solidSpans (size a) b).Pairwise fun s u => s.start < u.stop := by
  induction b generalizing a with
  | nil => exact .nil
  | cons c b ih =>
      have hs : size (a ++ [c]) = size a + c.utf8Size := by simp [size_append, size]
      have ih := ih (a ++ [c])
      have hb := of_mem_solidSpans (a ++ [c]) b
      rw [hs] at ih hb
      rw [solidSpans]
      split
      · exact ih
      · refine .cons (fun s hm => ?_) ih
        have := hb s hm
        dsimp only
        omega

theorem isBoundary_max_min {n m : Nat} (hn : t.isBoundary n) (hm : t.isBoundary m) :
    t.isBoundary (max n m) ∧ t.isBoundary (min n m) := by
  rcases Nat.le_total n m with h | h
  · rw [Nat.max_eq_right h, Nat.min_eq_left h]
    exact ⟨hm, hn⟩
  · rw [Nat.max_eq_left h, Nat.min_eq_right h]
    exact ⟨hn, hm⟩

/-- A range without the white space at its ends is a range of the text that is not empty. -/
theorem hasRange_trimSpan? (hs : t.HasRange s) (hu : t.trimSpan? s = some u) :
    t.HasRange u ∧ s.start ≤ u.start ∧ u.start < u.stop ∧ u.stop ≤ s.stop := by
  obtain ⟨_, hstart, hstop⟩ := hasRange_iff.mp hs
  have hmin : min s.stop t.size = s.stop := Nat.min_eq_left (le_size_of_isBoundary hstop)
  simp only [trimSpan?, hmin] at hu
  split at hu
  · rename_i hlt
    have hmem := of_mem_solidSpans [] t
    have hp := (pairwise_solidSpans [] t).filter fun c =>
      decide (s.start < c.stop) && decide (c.start < s.stop)
    rw [size] at hp
    split at hu
    · rename_i f l hf hl
      obtain ⟨hfm, hfs⟩ := List.mem_filter.mp (List.mem_of_head? hf)
      obtain ⟨hlm, hls⟩ := List.mem_filter.mp (List.mem_of_getLast? hl)
      obtain ⟨_, hfp, hfb, _⟩ := hmem f hfm
      obtain ⟨_, _, _, hlb⟩ := hmem l hlm
      rw [Bool.and_eq_true, decide_eq_true_eq, decide_eq_true_eq] at hfs hls
      have hfl : f.start < l.stop := by
        obtain ⟨rest, hr⟩ := List.head?_eq_some_iff.mp hf
        rw [hr] at hp hl
        rcases List.mem_cons.mp (List.mem_of_getLast? hl) with rfl | hm
        · exact hfp
        · exact (List.pairwise_cons.mp hp).1 l hm
      cases hu
      have hlt' : max f.start s.start < min l.stop s.stop := by omega
      exact ⟨hasRange_iff.mpr ⟨Nat.le_of_lt hlt', (isBoundary_max_min hfb hstart).1,
          (isBoundary_max_min hlb hstop).2⟩,
        Nat.le_max_right .., hlt', Nat.min_le_right ..⟩
    · cases hu
  · cases hu

end Trimming

end AlRefactor.Text
