import AlRefactor.Proofs.Token.Lexing

/-!
# Lexemes written out and read again

A blank ends every token that is not layout itself, so lexemes with blanks between them are read
again one by one.
-/

namespace AlRefactor

namespace Lexeme

/-- The lexer makes this lexeme of just its text, and it is neither layout nor unreadable. -/
structure Genuine (l : Lexeme) : Prop where
  lex : lex l.text = [l]
  significant : l.isSignificant
  readable : l.kind ≠ .error

instance (l : Lexeme) : Decidable l.Genuine :=
  decidable_of_iff (Lexeme.lex l.text = [l] ∧ l.isSignificant ∧ l.kind ≠ .error)
    ⟨fun h => ⟨h.1, h.2.1, h.2.2⟩, fun h => ⟨h.1, h.2, h.3⟩⟩

/-- Lexemes with a blank between every two. -/
def print (ls : List Lexeme) : Text := Text.join [' '] (ls.map (·.text))

/-! ## Tokens are no longer than the text -/

section

variable {t : Text}

theorem runLength_le (p : Char → Bool) (t : Text) : runLength p t ≤ t.length :=
  (List.takeWhile_prefix p).length_le

theorem number_le (t : Text) : (number t).2 ≤ t.length := by
  have hn := runLength_le Char.isDigit t
  have hd := List.length_drop (i := runLength Char.isDigit t) (l := t)
  fun_cases number t <;> grind [runLength_le]

theorem startsWithWord_le {w : Text} (h : startsWithWord w t) : w.length ≤ t.length := by
  fun_induction startsWithWord w t with
  | case1 => exact Nat.zero_le _
  | case2 => cases h
  | case3 w ws c t ih =>
      rw [Bool.and_eq_true] at h
      exact Nat.succ_le_succ (ih h.2)

theorem word_le (t : Text) : (word t).2 ≤ t.length := by
  have hn := runLength_le isNamePart t
  unfold word keyword?
  cases h : keywords.find? fun entry => startsWithWord entry.1.toList t with
  | none => exact hn
  | some entry =>
      have hs := List.find?_some h
      have hs := startsWithWord_le hs
      dsimp only [Option.map_some]
      split
      · rwa [String.length_toList] at hs
      · exact hn

theorem stringLength?_le {n : Nat} (h : stringLength? t = some n) : n ≤ t.length := by
  fun_induction stringLength? t generalizing n with
  | case1 => cases h
  | case2 t ih =>
      cases hs : stringLength? t with
      | none => rw [hs] at h; cases h; simp
      | some m => rw [hs] at h; cases h; simpa using ih hs
  | case3 => cases h; simp
  | case4 => cases h
  | case5 c u h₁ h₂ hb ih =>
      obtain ⟨m, hm, rfl⟩ := Option.map_eq_some_iff.mp h
      exact Nat.succ_le_succ (ih hm)

theorem quotedLength?_le {n : Nat} (h : quotedLength? t = some n) : n ≤ t.length := by
  fun_induction quotedLength? t generalizing n with
  | case1 => cases h
  | case2 => cases h; simp
  | case3 => cases h
  | case4 c t hc hb ih =>
      obtain ⟨m, hm, rfl⟩ := Option.map_eq_some_iff.mp h
      exact Nat.succ_le_succ (ih hm)

theorem commentLength?_le {n : Nat} (h : commentLength? t = some n) : n ≤ t.length := by
  fun_induction commentLength? t generalizing n with
  | case1 => cases h
  | case2 => cases h; simp
  | case3 c t hc ih =>
      obtain ⟨m, hm, rfl⟩ := Option.map_eq_some_iff.mp h
      exact Nat.succ_le_succ (ih hm)

/-- No token reaches behind the end of the text. -/
theorem scan_le (c : Char) (t : Text) : (scan c t).2 ≤ t.length := by
  have hw := word_le (c :: t)
  have hn := number_le t
  have hl : ∀ t, lineLength t ≤ t.length := fun t => runLength_le _ t
  fun_cases scan c t
  all_goals try grind [runLength_le]
  · rename_i h _ _ _; simpa [Nat.add_comm] using commentLength?_le h
  · rename_i h; simpa [h] using stringLength?_le h
  · rename_i h; simpa [h] using quotedLength?_le h

end

/-! ## A blank behind a token -/

section

variable (t r : Text)

theorem takeWhile_append_blank {p : Char → Bool} (h : p ' ' = false) :
    (t ++ ' ' :: r).takeWhile p = t.takeWhile p := by
  induction t with
  | nil => simp [h]
  | cons c t ih => by_cases hc : p c <;> simp [hc, ih]

theorem runLength_append_blank {p : Char → Bool} (h : p ' ' = false) :
    runLength p (t ++ ' ' :: r) = runLength p t := by
  rw [runLength, takeWhile_append_blank t r h, runLength]

theorem startsWithWord_append_blank {w : Text} (h : ' ' ∉ w) :
    startsWithWord w (t ++ ' ' :: r) = startsWithWord w t := by
  induction w generalizing t with
  | nil => rfl
  | cons c w ih =>
      obtain ⟨hc, hw⟩ := not_or.mp (mt List.mem_cons.mpr h)
      cases t with
      | nil =>
          have : (foldCase ' ' == c) = false := beq_false_of_ne hc
          simp [startsWithWord, this]
      | cons d t => simp [startsWithWord, ih t hw]

theorem keyword?_append_blank : keyword? (t ++ ' ' :: r) = keyword? t := by
  have hk : ∀ entry ∈ keywords, ' ' ∉ entry.1.toList := by decide
  have hf : ∀ entry ∈ keywords, startsWithWord entry.1.toList (t ++ ' ' :: r) =
      startsWithWord entry.1.toList t := fun entry he => startsWithWord_append_blank t r (hk entry he)
  rw [keyword?, keyword?]
  congr 1
  generalize keywords = entries at hf
  induction entries with
  | nil => rfl
  | cons entry entries ih =>
      rw [List.find?_cons, List.find?_cons, hf entry (List.mem_cons_self ..),
        ih fun e he => hf e (List.mem_cons_of_mem _ he)]

theorem word_append_blank : word (t ++ ' ' :: r) = word t := by
  rw [word, takeWhile_append_blank t r rfl, keyword?_append_blank, word]

theorem number_append_blank : number (t ++ ' ' :: r) = number t := by
  have hn := runLength_le Char.isDigit t
  have hr : ∀ u, runLength Char.isDigit (u ++ ' ' :: r) = runLength Char.isDigit u :=
    fun u => runLength_append_blank u r rfl
  simp only [number, hr, List.drop_append_of_le_length hn]
  match t.drop (runLength Char.isDigit t) with
  | [] => rfl
  | '.' :: u => simp only [List.cons_append, hr]
  | [c] => by_cases hc : c = '.' <;> simp [hc, runLength]
  | c :: d :: u =>
      by_cases hc : c = '.'
      · have := hr (d :: u)
        rw [List.cons_append] at this
        simp only [hc, List.cons_append, this]
      · simp

variable {t}

theorem stringLength?_append_blank {n : Nat} (h : stringLength? t = some n) (hn : t.length ≤ n) :
    stringLength? (t ++ ' ' :: r) = some n := by
  fun_induction stringLength? t generalizing n with
  | case1 => cases h
  | case2 t ih =>
      cases hs : stringLength? t with
      | none => rw [hs] at h; cases h; simp at hn
      | some m =>
          rw [hs] at h; cases h
          simp [stringLength?, ih hs (by simpa using hn)]
  | case3 u hu =>
      cases h
      obtain rfl : u = [] := List.eq_nil_of_length_eq_zero (by simpa using hn)
      rfl
  | case4 => cases h
  | case5 c u h₁ h₂ hb ih =>
      obtain ⟨m, hm, rfl⟩ := Option.map_eq_some_iff.mp h
      have := ih hm (Nat.le_of_succ_le_succ hn)
      rw [List.cons_append, stringLength?]
      · simp [hb, this]
      · exact fun _ hc _ => h₂ hc
      · exact h₂

theorem quotedLength?_append_blank {n : Nat} (h : quotedLength? t = some n) (hn : t.length ≤ n) :
    quotedLength? (t ++ ' ' :: r) = some n := by
  fun_induction quotedLength? t generalizing n with
  | case1 => cases h
  | case2 t =>
      cases h
      obtain rfl : t = [] := List.eq_nil_of_length_eq_zero (by simpa using hn)
      rfl
  | case3 => cases h
  | case4 c t hc hb ih =>
      obtain ⟨m, hm, rfl⟩ := Option.map_eq_some_iff.mp h
      have := ih hm (Nat.le_of_succ_le_succ hn)
      simp [quotedLength?, hc, hb, this]

theorem scan_quote (t : Text) : scan '\'' t =
    match stringLength? t with
    | some n => (.stringLiteral, n)
    | none => (.error, lineLength t) := rfl

theorem scan_doubleQuote (t : Text) : scan '"' t =
    match quotedLength? t with
    | some n => (.quotedIdent, n)
    | none => (.error, lineLength t) := rfl

/-- A token that fills a text fills it as well when a blank follows. -/
theorem scan_append_blank {c : Char} (hk : (scan c t).1.isTrivia = false)
    (he : (scan c t).1 ≠ .error) (hl : t.length ≤ (scan c t).2) :
    scan c (t ++ ' ' :: r) = scan c t := by
  revert hk he hl
  fun_cases scan c t <;> intro hk he hl
  case case2 hb hn w =>
    have hw : word (c :: (t ++ ' ' :: r)) = w := word_append_blank (c :: t) r
    simp only [scan, hb, hn, if_true, hw]
    rfl
  case case3 hb hn hd => simp only [scan, hb, hn, hd, if_true, number_append_blank]; rfl
  case case40 n _ _ _ hs =>
    rw [hs] at hl ⊢
    rw [scan_quote, stringLength?_append_blank r hs hl]
  case case42 n _ _ _ hs =>
    rw [hs] at hl ⊢
    rw [scan_doubleQuote, quotedLength?_append_blank r hs hl]
  case case41 hs | case43 hs => rw [hs] at he; exact absurd rfl he
  -- the other tokens have one or two characters
  all_goals first
    | exact absurd rfl he
    | exact absurd hk.symm Bool.false_ne_true
    | (obtain rfl := List.eq_nil_of_length_eq_zero (Nat.le_zero.mp hl); rfl)
    | (obtain rfl := List.eq_nil_of_length_eq_zero (Nat.le_zero.mp (Nat.le_of_succ_le_succ hl))
       rfl)

end

/-! ## Lexemes with blanks between them -/

theorem Genuine.scan {l : Lexeme} (h : l.Genuine) :
    ∃ c t, l.text = c :: t ∧ scan c t = (l.kind, t.length) := by
  have hl := h.lex
  cases ht : l.text with
  | nil => rw [ht, Lexeme.lex] at hl; cases hl
  | cons c t =>
      rw [ht, Lexeme.lex] at hl
      obtain ⟨hk, hr⟩ := List.cons.inj hl
      have hd : t.drop (Lexeme.scan c t).2 = [] := by
        cases hd : t.drop (Lexeme.scan c t).2 with
        | nil => rfl
        | cons d u => rw [hd, Lexeme.lex] at hr; cases hr
      have hle := List.drop_eq_nil_iff.mp hd
      exact ⟨c, t, rfl, Prod.ext (congrArg Lexeme.kind hk) (Nat.le_antisymm (scan_le c t) hle)⟩

theorem Genuine.lex_append_blank {l : Lexeme} (h : l.Genuine) (r : Text) :
    Lexeme.lex (l.text ++ ' ' :: r) = l :: Lexeme.lex (' ' :: r) := by
  obtain ⟨c, t, ht, hs⟩ := h.scan
  have hk : l.kind.isTrivia = false := by simpa [isSignificant] using h.significant
  have hb : Lexeme.scan c (t ++ ' ' :: r) = (l.kind, t.length) := by
    rw [scan_append_blank, hs]
    · rw [hs]; exact hk
    · rw [hs]; exact h.readable
    · exact Nat.le_of_eq (congrArg Prod.snd hs).symm
  rw [ht, List.cons_append, Lexeme.lex, hb]
  simp [← ht]

theorem Genuine.lex_blank {l : Lexeme} (h : l.Genuine) (r : Text) :
    Lexeme.lex (' ' :: (l.text ++ r)) = ⟨.whitespace, [' ']⟩ :: Lexeme.lex (l.text ++ r) := by
  obtain ⟨c, t, ht, hs⟩ := h.scan
  have hb : isBlank c = false := by
    refine Bool.eq_false_iff.mpr fun hb => ?_
    have hk : l.kind = .whitespace := by
      simp only [Lexeme.scan, hb, if_true] at hs
      exact (Prod.ext_iff.mp hs).1.symm
    have := h.significant
    rw [isSignificant, hk] at this
    cases this
  have hs : Lexeme.scan ' ' (c :: (t ++ r)) = (.whitespace, 0) := by
    show (TokenKind.whitespace, runLength isBlank (c :: (t ++ r))) = _
    simp [runLength, hb]
  rw [ht, List.cons_append, Lexeme.lex, hs]
  rfl

theorem print_cons_cons (l m : Lexeme) (ls : List Lexeme) :
    print (l :: m :: ls) = l.text ++ ' ' :: print (m :: ls) := by
  simp [print, Text.join]

theorem exists_print_cons (l : Lexeme) (ls : List Lexeme) : ∃ r, print (l :: ls) = l.text ++ r := by
  cases ls with
  | nil => exact ⟨[], by simp [print, Text.join]⟩
  | cons m ls => exact ⟨_, print_cons_cons l m ls⟩

/-- Genuine lexemes written out with blanks between them are read again. -/
theorem lex_print {ls : List Lexeme} (h : ∀ l ∈ ls, l.Genuine) :
    (Lexeme.lex (print ls)).filter (·.isSignificant) = ls := by
  match ls with
  | [] => simp [print, Text.join, Lexeme.lex]
  | [l] =>
      have hl := h l (List.mem_cons_self ..)
      rw [show print [l] = l.text from rfl, hl.lex, List.filter_cons_of_pos hl.significant]
      rfl
  | l :: m :: ls =>
      have hl := h l (List.mem_cons_self ..)
      have hm := h m (List.mem_cons_of_mem _ (List.mem_cons_self ..))
      have ih := lex_print fun k hk => h k (List.mem_cons_of_mem l hk)
      obtain ⟨r, hr⟩ := exists_print_cons m ls
      rw [print_cons_cons, hl.lex_append_blank, hr, hm.lex_blank, ← hr,
        List.filter_cons_of_pos hl.significant, List.filter_cons_of_neg (by decide), ih]

end Lexeme

end AlRefactor
