import AlRefactor.Proofs.Text.Lines
import AlRefactor.Proofs.Token.Printing

/-!
# Between the tokens of a text

No token of the grammar starts with a blank or a line break, and only an unclosed comment at the end
of the text has a line break in it. So the start of a line on which nothing but blanks stands before
a token lies in no token.
-/

namespace AlRefactor

namespace Lexeme

theorem isBlank_of_isIndent {c : Char} (h : Text.isIndent c) : isBlank c := by
  simp only [Text.isIndent, isBlank, Bool.or_eq_true] at h ⊢
  exact .inl (.inl h)

/-! ## Tokens without line breaks -/

/-- The first characters of a text, as many as a number says, are no line breaks. -/
def Unbroken (t : Text) (n : Nat) : Prop := ∀ c ∈ t.take n, isLineBreak c = false

theorem isLineBreak_iff {c : Char} : isLineBreak c ↔ c = '\r' ∨ c = '\n' := by
  simp [isLineBreak]

theorem not_isLineBreak {p : Char → Bool} (hr : p '\r' = false) (hn : p '\n' = false) {c : Char}
    (h : p c) : isLineBreak c = false := by
  refine Bool.eq_false_iff.mpr fun hb => ?_
  rcases isLineBreak_iff.mp hb with rfl | rfl
  · exact Bool.false_ne_true (hr.symm.trans h)
  · exact Bool.false_ne_true (hn.symm.trans h)

theorem unbroken_cons {c : Char} {t : Text} {n : Nat} (hc : isLineBreak c = false)
    (h : Unbroken t n) : Unbroken (c :: t) (n + 1) := by
  intro d hd
  rw [List.take_succ_cons] at hd
  rcases List.mem_cons.mp hd with rfl | hd
  · exact hc
  · exact h d hd

theorem unbroken_runLength {p : Char → Bool} (hr : p '\r' = false) (hn : p '\n' = false)
    (t : Text) : Unbroken t (runLength p t) := by
  intro c hc
  rw [runLength, ← List.prefix_iff_eq_take.mp (List.takeWhile_prefix p)] at hc
  exact not_isLineBreak hr hn (List.all_eq_true.mp List.all_takeWhile c hc)

theorem unbroken_startsWithWord {w t : Text} (hw : ∀ c ∈ w, isLineBreak c = false)
    (h : startsWithWord w t) : Unbroken t w.length := by
  induction w generalizing t with
  | nil => simp [Unbroken]
  | cons a w ih =>
      cases t with
      | nil => cases h
      | cons c t =>
          rw [startsWithWord, Bool.and_eq_true] at h
          have ha := hw a List.mem_cons_self
          refine unbroken_cons ?_ (ih (fun d hd => hw d (.tail _ hd)) h.2)
          refine @not_isLineBreak (fun c => foldCase c == a) ?_ ?_ c h.1
          all_goals refine beq_eq_false_iff_ne.mpr fun h => ?_
          all_goals rw [← h] at ha; cases ha

theorem unbroken_word (t : Text) : Unbroken t (word t).2 := by
  have hk : keywords.all fun entry => entry.1.toList.all fun c => !isLineBreak c := by decide
  simp only [List.all_eq_true, Bool.not_eq_true'] at hk
  have hn : Unbroken t (runLength isNamePart t) := unbroken_runLength rfl rfl t
  unfold word keyword?
  cases h : keywords.find? fun entry => startsWithWord entry.1.toList t with
  | none => exact hn
  | some entry =>
      have hs : startsWithWord entry.1.toList t := by simpa using List.find?_some h
      have hs := unbroken_startsWithWord (hk entry (List.mem_of_find?_eq_some h)) hs
      dsimp only [Option.map_some]
      split
      · exact hs
      · exact hn

theorem unbroken_stringLength? {t : Text} {n : Nat} (h : stringLength? t = some n) :
    Unbroken t n := by
  fun_induction stringLength? t generalizing n with
  | case1 => cases h
  | case2 t ih =>
      cases hs : stringLength? t with
      | none =>
          rw [hs] at h
          cases h
          exact unbroken_cons rfl (by simp [Unbroken])
      | some m =>
          rw [hs] at h
          cases h
          exact unbroken_cons rfl (unbroken_cons rfl (ih hs))
  | case3 => cases h; exact unbroken_cons rfl (by simp [Unbroken])
  | case4 => cases h
  | case5 c t _ _ hb ih =>
      obtain ⟨m, hm, rfl⟩ := Option.map_eq_some_iff.mp h
      exact unbroken_cons (by simpa using hb) (ih hm)

theorem unbroken_quotedLength? {t : Text} {n : Nat} (h : quotedLength? t = some n) :
    Unbroken t n := by
  fun_induction quotedLength? t generalizing n with
  | case1 => cases h
  | case2 => cases h; exact unbroken_cons rfl (by simp [Unbroken])
  | case3 => cases h
  | case4 c t _ hb ih =>
      obtain ⟨m, hm, rfl⟩ := Option.map_eq_some_iff.mp h
      exact unbroken_cons (by simpa using hb) (ih hm)

theorem unbroken_add {t : Text} {n m : Nat} (h : Unbroken t n) (h' : Unbroken (t.drop n) m) :
    Unbroken t (n + m) := by
  intro c hc
  rw [List.take_add] at hc
  rcases List.mem_append.mp hc with hc | hc
  · exact h c hc
  · exact h' c hc

theorem unbroken_number (t : Text) : Unbroken t (number t).2 := by
  have hn : Unbroken t (runLength Char.isDigit t) := unbroken_runLength rfl rfl t
  have hl : ∀ a c : Char, isLineBreak a = false → c.toLower = a → isLineBreak c = false := by
    intro a c ha hc
    refine @not_isLineBreak (fun c => c.toLower == a) ?_ ?_ c (beq_iff_eq.mpr hc)
    all_goals refine beq_eq_false_iff_ne.mpr fun h => ?_
    all_goals rw [← h] at ha; cases ha
  have h₀ : ∀ u : Text, Unbroken u 0 := fun u => by simp [Unbroken]
  fun_cases number t with
  | case1 => exact hn
  | case2 _ r hd m _ =>
      rw [Nat.add_assoc, Nat.add_comm 1]
      exact unbroken_add hn (hd ▸ unbroken_cons rfl (unbroken_runLength rfl rfl r))
  | case3 _ c _ hc d _ ht hd =>
      exact unbroken_add hn
        (hd ▸ unbroken_cons (hl 'd' c rfl hc) (unbroken_cons (hl 't' d rfl ht) (h₀ _)))
  | case4 _ c _ hc _ _ _ hd | case5 _ c _ hc hd =>
      exact unbroken_add hn (hd ▸ unbroken_cons (hl 'd' c rfl hc) (h₀ _))
  | case6 _ c _ _ hd _ hc =>
      exact unbroken_add hn (hd ▸ unbroken_cons (hl 't' c rfl hc) (h₀ _))
  | case7 => exact hn
  | case8 => exact hn

/-! ## Significant tokens -/

theorem Unbroken.tail {c : Char} {t : Text} {n : Nat} (h : Unbroken (c :: t) n) :
    Unbroken t (n - 1) := by
  cases n with
  | zero => simp [Unbroken]
  | succ n =>
      intro d hd
      exact h d (by rw [List.take_succ_cons]; exact .tail _ hd)

/-- A token of the grammar starts with no blank and no line break, and has a line break in it only
if nothing follows it. -/
theorem scan_solid {c : Char} {t : Text} : (scan c t).1.isTrivia = false →
    isBlank c = false ∧ isLineBreak c = false ∧
      (Unbroken t (scan c t).2 ∨ t.length ≤ (scan c t).2) := by
  have hl : ∀ t, Unbroken t (lineLength t) := fun t => unbroken_runLength rfl rfl t
  fun_cases scan c t with
  | case2 c t hb hs =>
      exact fun _ => ⟨by simpa using hb, not_isLineBreak rfl rfl hs, .inl (unbroken_word _).tail⟩
  | case3 c t hb _ hs =>
      exact fun _ => ⟨by simpa using hb, not_isLineBreak rfl rfl hs, .inl (unbroken_number t)⟩
  | case9 r => exact fun _ => ⟨rfl, rfl, .inr (Nat.le_of_eq (Nat.add_comm ..))⟩
  | case40 t n hs => rw [hs]; exact fun _ => ⟨rfl, rfl, .inl (unbroken_stringLength? hs)⟩
  | case42 t n hs => rw [hs]; exact fun _ => ⟨rfl, rfl, .inl (unbroken_quotedLength? hs)⟩
  | case41 t hs | case43 t hs => rw [hs]; exact fun _ => ⟨rfl, rfl, .inl (hl t)⟩
  | case44 c t hb _ _ hr hn =>
      exact fun _ => ⟨by simpa using hb, by simpa [isLineBreak] using ⟨hr, hn⟩,
        .inl (by simp [Unbroken])⟩
  | _ => first
    | (intro h; cases h; done)
    | exact fun _ => ⟨rfl, rfl, .inl (by simp [Unbroken, isLineBreak])⟩

theorem lex_solid {t : Text} {ls ms : List Lexeme} {l : Lexeme} (h : lex t = ls ++ l :: ms)
    (hl : l.kind.isTrivia = false) :
    ∃ c v, l.text = c :: v ∧ isBlank c = false ∧ isLineBreak c = false ∧
      ((∀ d ∈ l.text, isLineBreak d = false) ∨ ms = []) := by
  fun_induction lex t generalizing ls with
  | case1 => simp at h
  | case2 c t s =>
      rename_i ih
      cases ls with
      | cons k ls => exact ih (List.cons.inj h).2
      | nil =>
          obtain ⟨rfl, rfl⟩ := List.cons.inj h
          obtain ⟨hb, hn, hs⟩ := scan_solid hl
          refine ⟨c, _, rfl, hb, hn, ?_⟩
          rcases hs with hs | hs
          · refine .inl fun d hd => ?_
            rcases List.mem_cons.mp hd with rfl | hd
            · exact hn
            · exact hs d hd
          · exact .inr (by rw [List.drop_eq_nil_of_le hs, lex])

theorem exists_of_mem_place {n : Nat} {ls : List Lexeme} {p : Token} (h : p ∈ place n ls) :
    ∃ ks ms, ls = ks ++ p.toLexeme :: ms ∧ n + Text.size (ks.flatMap (·.text)) = p.start := by
  induction ls generalizing n with
  | nil => cases h
  | cons l ls ih =>
      rcases List.mem_cons.mp h with rfl | h
      · exact ⟨[], ls, rfl, rfl⟩
      · obtain ⟨ks, ms, rfl, hn⟩ := ih h
        refine ⟨l :: ks, ms, rfl, ?_⟩
        rw [List.flatMap_cons, Text.size_append]
        omega

theorem place_pairwise (n : Nat) (ls : List Lexeme) :
    (place n ls).Pairwise (fun p q => p.stop ≤ q.start) ∧ ∀ p ∈ place n ls, n ≤ p.start := by
  induction ls generalizing n with
  | nil => exact ⟨.nil, nofun⟩
  | cons l ls ih =>
      obtain ⟨hp, hn⟩ := ih (n + l.text.size)
      refine ⟨.cons hn hp, fun p hm => ?_⟩
      rcases List.mem_cons.mp hm with rfl | hm
      · exact Nat.le_refl _
      · exact Nat.le_trans (Nat.le_add_right _ _) (hn p hm)

end Lexeme

namespace Text

variable {t : Text} {p q : Token} {a b n : Nat}

/-! ## Tokens in the text -/

theorem mem_tokens (h : p ∈ t.significant) : p ∈ t.tokens := (List.mem_filter.mp h).1

/-- A token is a piece of the text that starts with a character other than layout. -/
theorem exists_of_significant (h : p ∈ t.significant) :
    ∃ u c v w, t = u ++ (p.text ++ w) ∧ size u = p.start ∧ p.text = c :: v ∧
      Lexeme.isBlank c = false ∧ Lexeme.isLineBreak c = false ∧
      ((∀ d ∈ p.text, Lexeme.isLineBreak d = false) ∨ w = []) := by
  obtain ⟨ks, ms, hl, hn⟩ := Lexeme.exists_of_mem_place (mem_tokens h)
  obtain ⟨c, v, hc, hb, hr, hm⟩ := Lexeme.lex_solid hl (significant_kind h).1
  refine ⟨_, c, v, ms.flatMap (·.text), ?_, by rw [← hn, Nat.zero_add], hc, hb, hr, ?_⟩
  · have ht := Lexeme.flatMap_text_lex t
    rw [hl] at ht
    simpa using ht.symm
  · exact hm.imp_right fun hm => by rw [hm]; rfl

theorem start_lt_stop (h : p ∈ t.significant) : p.start < p.stop := by
  obtain ⟨_, c, v, _, _, _, hc, _⟩ := exists_of_significant h
  have := c.utf8Size_pos
  rw [Token.stop, hc, size]
  omega

theorem isBoundary_token (h : p ∈ t.tokens) : t.isBoundary p.start ∧ t.isBoundary p.stop := by
  obtain ⟨ks, ms, hl, hn⟩ := Lexeme.exists_of_mem_place h
  rw [Nat.zero_add] at hn
  have ht := Lexeme.flatMap_text_lex t
  rw [hl, List.flatMap_append, List.flatMap_cons] at ht
  refine ⟨isBoundary_iff.mpr ⟨_, _, ht.symm, hn⟩,
    isBoundary_iff.mpr ⟨ks.flatMap (·.text) ++ p.text, ms.flatMap (·.text), ?_, ?_⟩⟩
  · rw [← ht, List.append_assoc]
  · rw [size_append, hn, Token.stop]

/-! ## Seams -/

/-- An offset between two characters that no token of the grammar reaches across. -/
structure Seam (t : Text) (n : Nat) : Prop where
  boundary : t.isBoundary n
  clear : ∀ p ∈ t.significant, p.stop ≤ n ∨ n ≤ p.start

theorem seam_zero (t : Text) : t.Seam 0 :=
  ⟨isBoundary_iff.mpr ⟨[], t, rfl, rfl⟩, fun _ _ => .inr (Nat.zero_le _)⟩

theorem seam_size (t : Text) : t.Seam t.size :=
  ⟨isBoundary_iff.mpr ⟨t, [], by simp, rfl⟩,
    fun _ hp => .inl (le_size_of_isBoundary (isBoundary_token (mem_tokens hp)).2)⟩

/-- Two tokens are one or do not overlap. -/
theorem tokens_apart (hp : p ∈ t.tokens) (hq : q ∈ t.tokens) :
    p = q ∨ p.stop ≤ q.start ∨ q.stop ≤ p.start := by
  have h := (Lexeme.place_pairwise 0 (Lexeme.lex t)).1
  have hl : t.tokens.Pairwise fun p q => p = q ∨ p.stop ≤ q.start ∨ q.stop ≤ p.start :=
    h.imp fun h => .inr (.inl h)
  have hr : t.tokens.Pairwise fun q p => p = q ∨ p.stop ≤ q.start ∨ q.stop ≤ p.start :=
    h.imp fun h => .inr (.inr h)
  exact hl.forall_of_forall_of_flip (fun _ _ => .inl rfl) hr hp hq

theorem seam_token (h : p ∈ t.tokens) : t.Seam p.start ∧ t.Seam p.stop := by
  obtain ⟨hs, he⟩ := isBoundary_token h
  have hle : ∀ q : Token, q.start ≤ q.stop := fun q => Nat.le_add_right _ _
  refine ⟨⟨hs, fun q hq => ?_⟩, ⟨he, fun q hq => ?_⟩⟩
  all_goals
    have := hle p
    rcases tokens_apart h (mem_tokens hq) with rfl | h | h <;> omega

/-- Beside a seam no token has a part in a stretch of layout. -/
theorem Bare.clear (h : t.Bare a b) (ha : t.Seam a) (hp : p ∈ t.significant) :
    p.stop ≤ a ∨ b ≤ p.start := by
  refine (ha.clear p hp).imp_right fun hs => Nat.le_of_not_lt fun hlt => ?_
  obtain ⟨u, c, v, w, ht, hu, hc, hb, hr, _⟩ := exists_of_significant hp
  obtain ⟨x, g, y, hx, rfl, rfl, hg⟩ := h
  rw [hc, List.cons_append] at ht
  rcases hg c (mem_of_le_of_lt (hx.symm.trans ht) (by omega) (by omega)) with hi | hi
  · rw [Lexeme.isBlank_of_isIndent hi] at hb
    cases hb
  · exact Bool.false_ne_true (hr.symm.trans ((Bool.or_comm ..).trans hi))

theorem Bare.seam (h : t.Bare a b) (ha : t.Seam a) : t.Seam b :=
  ⟨h.isBoundary.2, fun _ hp => (h.clear ha hp).imp_left fun hs => Nat.le_trans hs h.le⟩

/-- No token reaches into the line on which another one starts. -/
theorem seam_lineStart (hq : q ∈ t.significant) : t.Seam (t.lineStart q.start) := by
  have hqb := (isBoundary_token (mem_tokens hq)).1
  obtain ⟨_, _, hb, _, hl⟩ := startsLine?_eq hqb
  rcases hl with hl | ⟨w, c, v, ht, hc, hl⟩
  · rw [hl]; exact seam_zero t
  refine ⟨hb, fun p hp => ?_⟩
  by_cases hs : p.stop ≤ t.lineStart q.start
  · exact .inl hs
  refine .inr (Nat.le_of_not_lt fun hlt => ?_)
  -- The token would have the line break in it, so it would end the text.
  have hq' := start_lt_stop hq
  have hle := lineStart_le hqb
  have hpq : p.stop ≤ q.start := by
    rcases tokens_apart (mem_tokens hp) (mem_tokens hq) with rfl | h | h <;> omega
  obtain ⟨u, _, _, x, hx, hu, _, _, _, hn⟩ := exists_of_significant hp
  have hm : c ∈ p.text := mem_of_le_of_lt (hx.symm.trans ht)
    (size_le_of_lt (hx.symm.trans ht) (by omega)) (by
      have := c.utf8Size_pos
      have : p.stop = p.start + p.text.size := rfl
      omega)
  rcases hn with hn | rfl
  · exact Bool.false_ne_true ((hn c hm).symm.trans ((Bool.or_comm ..).trans hc))
  · have hsize : t.size = p.stop := by rw [hx, size_append, List.append_nil, hu, Token.stop]
    have := le_size_of_isBoundary (isBoundary_token (mem_tokens hq)).2
    omega

/-! ## Ranges of tokens -/

/-- A range that starts with a token and ends with one. -/
structure Solid (t : Text) (s : Span) : Prop where
  first : ∃ p ∈ t.significant, p.start = s.start ∧ p.stop ≤ s.stop
  last : ∃ p ∈ t.significant, s.start ≤ p.start ∧ p.stop = s.stop

namespace Solid

variable {s : Span}

theorem seams (h : t.Solid s) : t.Seam s.start ∧ t.Seam s.stop := by
  obtain ⟨p, hp, hs, _⟩ := h.first
  obtain ⟨q, hq, _, he⟩ := h.last
  rw [← hs, ← he]
  exact ⟨(seam_token (mem_tokens hp)).1, (seam_token (mem_tokens hq)).2⟩

theorem start_lt_stop (h : t.Solid s) : s.start < s.stop := by
  obtain ⟨p, hp, hs, he⟩ := h.first
  have := Text.start_lt_stop hp
  omega

/-- A range that ends before a token ends before the blanks in front of it. -/
theorem stop_le (h : t.Solid s) (hab : t.Bare a b) (ha : t.Seam a) (hle : s.stop ≤ b) :
    s.stop ≤ a := by
  obtain ⟨p, hp, _, hps⟩ := h.last
  have := Text.start_lt_stop hp
  rcases hab.clear ha hp with h | h <;> omega

end Solid

/-- A part of a range, or the range widened to whole lines. -/
structure Within (t : Text) (s w : Span) : Prop where
  le : w.start ≤ w.stop
  seams : t.Seam w.start ∧ t.Seam w.stop
  part : t.Widened s w ∨ s.start ≤ w.start ∧ w.stop ≤ s.stop

section Widened

variable {s s' w w' : Span}

theorem Widened.within (h : t.Widened s w) (hs : t.Solid s) : t.Within s w := by
  refine ⟨?_, ⟨?_, h.bare_stop.seam hs.seams.2⟩, .inl h⟩
  · have := h.bare_start.le
    have := h.bare_stop.le
    have := hs.start_lt_stop
    omega
  · obtain ⟨q, hq, hs, _⟩ := hs.first
    have hb := h.bare_start
    rcases h.start with hw | ⟨hw, _⟩
    · rw [hw, ← hs]
      exact (seam_token (mem_tokens hq)).1
    · rw [hw, ← hs] at hb ⊢
      exact seam_lineStart hq

/-- No token that ends before a range reaches into what it is widened to. -/
theorem Within.stop_le (h : t.Within s w) (hp : p ∈ t.significant) (hle : p.stop ≤ s.start) :
    p.stop ≤ w.start := by
  rcases h.part with hw | hw
  · rcases hw.bare_start.clear h.seams.1 hp with h | h
    · exact h
    · have := start_lt_stop hp
      omega
  · omega

/-- What a range is widened to does not reach into a token that starts behind it. -/
theorem Within.le_start (h : t.Within s w) (hs : t.Solid s) (hp : p ∈ t.significant)
    (hle : s.stop ≤ p.start) : w.stop ≤ p.start := by
  rcases h.part with hw | hw
  · rcases hw.bare_stop.clear hs.seams.2 hp with h | h
    · have := start_lt_stop hp
      omega
    · exact h
  · omega

/-- Ranges that do not overlap do not overlap when they are widened. -/
theorem Within.apart (h : t.Within s w) (h' : t.Within s' w') (hs : t.Solid s) (hs' : t.Solid s')
    (hle : s.stop ≤ s'.start) : w.stop ≤ w'.start := by
  obtain ⟨p, hp, _, he⟩ := hs.last
  obtain ⟨q, hq, hb, _⟩ := hs'.first
  have hpw := h'.stop_le hp (by omega)
  have hwq := h.le_start hs hq (by omega)
  rcases h.part with hw | hw
  · rcases hw.stop with hn | hn | hn
    · omega
    · have := le_size_of_isBoundary (isBoundary_token (mem_tokens hq)).2
      have := start_lt_stop hq
      omega
    · rcases h'.part with hw' | hw'
      · rcases hw'.start with hw' | ⟨hw', _⟩
        · omega
        · -- The line that the second range starts is none that the first one ends.
          rw [hw', ← hb]
          exact hn.le_lineStart (isBoundary_token (mem_tokens hq)).1 hwq
      · omega
  · omega

end Widened

end Text

end AlRefactor
