import AlRefactor.Proofs.Text.Lowercase
import AlRefactor.Proofs.Text.Names
import AlRefactor.Proofs.Text.Trimming
import AlRefactor.Proofs.Token.Stream

/-!
# Texts that are names

A text is an identifier if it is a word of letters, digits and underscores that starts with no digit and
is no keyword, or if it has quotes around it.
-/

namespace AlRefactor.Text

open Lexeme

variable {t u w : Text} {d : Char}

/-! ## Plain names -/

/-- A letter or an underscore, and behind it letters, underscores and digits. -/
def IsPlainName (t : Text) : Prop :=
  ∃ c u, t = c :: u ∧ Lexeme.isNameStart c ∧ ∀ d ∈ u, Lexeme.isNamePart d

theorem isNamePart_of_mem_plainChar {c d : Char} (h : d ∈ plainChar c) : Lexeme.isNamePart d := by
  unfold plainChar at h
  split at h
  case h_8 =>
    split at h
    · rename_i hc
      rw [List.mem_singleton.mp h]
      exact hc
    · nomatch h
  all_goals exact List.all_eq_true.mp (by decide) d h

theorem isNamePart_of_mem_plain {t : Text} {d : Char} (h : d ∈ plain t) : Lexeme.isNamePart d := by
  obtain ⟨c, _, hd⟩ := List.mem_flatMap.mp h
  exact isNamePart_of_mem_plainChar hd

theorem isNamePart_toUpper {c : Char} (h : Lexeme.isNamePart c) : Lexeme.isNamePart c.toUpper := by
  have hc : c.toUpper = c ∨ c.toUpper.isUpper := by
    unfold Char.toUpper
    split
    · rename_i hl
      refine .inr (decide_eq_true ?_)
      simp only [ge_iff_le, UInt32.le_iff_toNat_le] at hl ⊢
      simp at hl ⊢
      omega
    · exact .inl rfl
  rcases hc with hc | hc
  · rwa [hc]
  · have ha : c.toUpper.isAlpha := Bool.or_eq_true_iff.mpr (.inl hc)
    simp [Lexeme.isNamePart, Char.isAlphanum, ha]

theorem isNamePart_ofNat {n : Nat} {d : Char} (h : d ∈ ofNat n) : Lexeme.isNamePart d := by
  simp [Lexeme.isNamePart, Char.isAlphanum, isDigit_of_mem_ofNat h]

theorem isNamePart_of_isNameStart (h : isNameStart d) : isNamePart d := by
  simp only [isNameStart, Bool.or_eq_true] at h
  rcases h with h | h <;> simp [isNamePart, Char.isAlphanum, h]

/-- What can be part of a name can start one, unless it is a digit. -/
theorem isNameStart_of_isNamePart (h : isNamePart d) (hd : d.isDigit = false) : isNameStart d := by
  simpa [isNamePart, isNameStart, Char.isAlphanum, hd] using h

theorem not_isSpace_of_isNamePart {c : Char} (h : isNamePart c) : isSpace c = false := by
  have hv : c.val.toNat = c.toNat := rfl
  unfold isNamePart Char.isAlphanum Char.isAlpha Char.isUpper Char.isLower Char.isDigit at h
  simp only [Bool.or_eq_true, Bool.and_eq_true, decide_eq_true_eq, ge_iff_le, UInt32.le_iff_toNat_le,
    beq_iff_eq] at h
  rcases h with h | rfl
  · simp [isSpace] at h ⊢
    omega
  · rfl

theorem IsPlainName.append {a b : Text} (ha : a.IsPlainName) (hb : ∀ d ∈ b, Lexeme.isNamePart d) :
    IsPlainName (a ++ b) := by
  obtain ⟨c, u, rfl, hc, hu⟩ := ha
  exact ⟨c, u ++ b, rfl, hc, fun d hd => (List.mem_append.mp hd).elim (hu d) (hb d)⟩

theorem IsPlainName.isNamePart (h : t.IsPlainName) : ∀ c ∈ t, isNamePart c := by
  obtain ⟨c, u, rfl, hc, hu⟩ := h
  exact List.forall_mem_cons.mpr ⟨isNamePart_of_isNameStart hc, hu⟩

/-! ## Keywords -/

/-- A keyword, in any case of its letters. -/
def IsKeyword (t : Text) : Prop := ∃ e ∈ keywords, t.map foldCase = e.1.toList

theorem length_of_fold {e : String × TokenKind} (h : t.map foldCase = e.1.toList) : t.length = e.1.length := by
  rw [← String.length_toList, ← h, List.length_map]

/-- The keyword that a text starts with is the text itself, or the text is none. -/
theorem of_keyword? {k : TokenKind} {m : Nat} (h : keyword? t = some (k, m)) :
    m = t.length ∧ (∃ e ∈ keywords, e.2 = k ∧ t.map foldCase = e.1.toList) ∨ m < t.length ∧ ¬ t.IsKeyword := by
  obtain ⟨e, hf, he⟩ := Option.map_eq_some_iff.mp h
  obtain ⟨rfl, rfl⟩ := Prod.mk.inj he
  have hs := List.find?_some hf
  obtain ⟨u, r, rfl, hw⟩ := startsWithWord_iff.mp hs
  have hl := length_of_fold hw
  by_cases hr : r = []
  · subst hr
    rw [List.append_nil]
    exact .inl ⟨hl.symm, e, List.mem_of_find?_eq_some hf, rfl, hw⟩
  · have hpos := List.length_pos_iff.mpr hr
    rw [List.length_append]
    refine .inr ⟨by omega, fun h' => ?_⟩
    obtain ⟨d, hd, hw⟩ := h'
    -- A longer keyword would have been found.
    obtain ⟨j, m, hs, hm⟩ := keyword?_longest hd (startsWithWord_iff.mpr ⟨u ++ r, [], (List.append_nil _).symm, hw⟩)
    have hd := length_of_fold hw
    rw [List.length_append] at hd
    obtain ⟨-, rfl⟩ := Prod.mk.inj (Option.some.inj (h.symm.trans hs))
    omega

/-- A plain name is read as one word, and just as a keyword if it is one. -/
theorem IsPlainName.word_eq (h : t.IsPlainName) : word t = (.ident, t.length) ∧ ¬ t.IsKeyword ∨
    ∃ e ∈ keywords, word t = (e.2, t.length) ∧ t.map foldCase = e.1.toList := by
  have hn : t.takeWhile Lexeme.isNamePart = t := List.takeWhile_eq_self_iff.mpr h.isNamePart
  rw [word, hn]
  cases hk : keyword? t with
  | none =>
      refine .inl ⟨rfl, fun h => ?_⟩
      obtain ⟨e, he, hw⟩ := h
      obtain ⟨j, m, hs, -⟩ := keyword?_longest he (startsWithWord_iff.mpr ⟨t, [], (List.append_nil _).symm, hw⟩)
      cases hk.symm.trans hs
  | some p =>
      obtain ⟨k, m⟩ := p
      obtain ⟨rfl, e, he, hj, hw⟩ | ⟨hlt, hw⟩ := of_keyword? hk
      · exact .inr ⟨e, he, hj ▸ if_pos (Nat.le_refl _), hw⟩
      · exact .inl ⟨if_neg (Nat.not_le.mpr hlt), hw⟩

theorem IsPlainName.lex_eq (h : t.IsPlainName) : lex t = [⟨(word t).1, t⟩] := by
  have hl : (word t).2 = t.length := by
    obtain ⟨hw, -⟩ | ⟨e, -, hw, -⟩ := h.word_eq <;> rw [hw]
  obtain ⟨c, u, rfl, hc, -⟩ := h
  rw [lex, scan_nameStart hc, hl]
  simp [lex]

/-- A plain name is an identifier unless it is a keyword. -/
theorem IsPlainName.isIdentifier_iff (h : t.IsPlainName) : t.isIdentifier ↔ ¬ t.IsKeyword := by
  have hwords : keywords.all fun e => !e.2.isName := by decide
  rw [isIdentifier, h.lex_eq]
  obtain ⟨hw, hk⟩ | ⟨e, he, hw, hk⟩ := h.word_eq
  · rw [hw]
    exact iff_of_true rfl hk
  · rw [hw]
    have := List.all_eq_true.mp hwords e he
    refine iff_of_false (fun hn => ?_) (not_not_intro ⟨e, he, hk⟩)
    dsimp only at hn
    rw [hn] at this
    cases this

/-- A plain name that is no keyword is one token. -/
theorem IsPlainName.lex_eq_ident (h : t.IsPlainName) (hk : ¬ t.IsKeyword) : lex t = [⟨.ident, t⟩] := by
  obtain ⟨hw, -⟩ | ⟨e, he, -, hw⟩ := h.word_eq
  · rw [h.lex_eq, hw]
  · exact absurd ⟨e, he, hw⟩ hk

/-- No keyword has a digit in it. -/
theorem not_isKeyword_of_isDigit (h : d ∈ t) (hd : d.isDigit) : ¬ t.IsKeyword := by
  rintro ⟨e, he, hw⟩
  have hk : keywords.all fun e => e.1.toList.all (!·.isDigit) := by decide
  have hf : foldCase d = d := by
    obtain ⟨-, -, -, hl⟩ := not_of_isDigit hd
    rw [foldCase, if_neg, if_neg, hl]
    all_goals
      rintro h
      rw [beq_iff_eq] at h
      subst h
      exact absurd hd (by decide)
  have hm : d ∈ e.1.toList := by
    rw [← hw, ← hf]
    exact List.mem_map_of_mem h
  have := List.all_eq_true.mp (List.all_eq_true.mp hk _ he) d hm
  rw [hd] at this
  cases this

/-- A plain name with a number behind it is an identifier. -/
theorem IsPlainName.isIdentifier_numbered (h : t.IsPlainName) (n : Nat) : (t ++ ofNat n).isIdentifier := by
  obtain ⟨d, hd⟩ := List.exists_mem_of_ne_nil _ (ofNat_ne_nil n)
  exact (h.append fun _ => isNamePart_ofNat).isIdentifier_iff.mpr
    (not_isKeyword_of_isDigit (List.mem_append_right _ hd) (isDigit_of_mem_ofNat hd))

/-! ## Identifiers -/

/-- An identifier is one token. -/
theorem isIdentifier_iff_lex : t.isIdentifier ↔ ∃ k : TokenKind, k.isName ∧ lex t = [⟨k, t⟩] := by
  rw [isIdentifier]
  refine ⟨fun h => ?_, fun ⟨k, hk, ht⟩ => by rw [ht]; exact hk⟩
  split at h
  · rename_i l hl
    have ht : l.text = t := by simpa [hl] using flatMap_text_lex t
    exact ⟨l.kind, h, by rw [hl, ← ht]⟩
  · cases h

/-- Quotes around a text without quotes on a single line. -/
def IsQuotedName (t : Text) : Prop :=
  ∃ u, t = '"' :: (u ++ ['"']) ∧ ∀ c ∈ u, c ≠ '"' ∧ isLineBreak c = false

theorem IsQuotedName.isIdentifier (h : t.IsQuotedName) : t.isIdentifier := by
  obtain ⟨u, rfl, hq⟩ := h
  have hs : scan '"' (u ++ ['"']) = (.quotedIdent, (u ++ ['"']).length) := by
    rw [scan_doubleQuote, quotedLength?_append hq, List.length_append]
    rfl
  rw [Text.isIdentifier, lex, hs]
  simp [lex]
  rfl

/-- An identifier is a plain name that is no keyword, or a name in quotes. -/
theorem isIdentifier_iff :
    t.isIdentifier ↔ t.IsPlainName ∧ ¬ t.IsKeyword ∨ t.IsQuotedName := by
  refine ⟨fun h => ?_, ?_⟩
  · suffices ht : t.IsPlainName ∨ t.IsQuotedName from
      ht.imp_left fun hp => ⟨hp, hp.isIdentifier_iff.mp h⟩
    obtain ⟨k, hk, hl⟩ := isIdentifier_iff_lex.mp h
    have he : k ≠ .error := fun he => by rw [he] at hk; cases hk
    have hm := matches_of_mem_lex (show ⟨k, t⟩ ∈ lex t by rw [hl]; exact List.mem_singleton_self _) he
    exact (of_matches_name hm hk).imp And.right And.right
  · rintro (⟨hp, hk⟩ | hq)
    · exact hp.isIdentifier_iff.mpr hk
    · exact hq.isIdentifier

/-- An identifier is not just white space. -/
theorem trim_ne_nil_of_isIdentifier (h : t.isIdentifier) : t.trim ≠ [] := by
  intro ht
  obtain ⟨g, g', hg, hg', heq⟩ := exists_trim t
  rw [ht, List.nil_append] at heq
  have hs : ∀ c ∈ t, isSpace c := by
    rw [heq]
    exact List.forall_mem_append.mpr ⟨isBlank_iff.mp hg, isBlank_iff.mp hg'⟩
  obtain ⟨⟨c, u, rfl, hc, -⟩, -⟩ | ⟨u, rfl, -⟩ := isIdentifier_iff.mp h
  · have := hs c List.mem_cons_self
    rw [not_isSpace_of_isNamePart (isNamePart_of_isNameStart hc)] at this
    cases this
  · cases hs '"' List.mem_cons_self

/-! ## Case and quotes -/

theorem IsPlainName.of_lower (h : t.lower = u.lower) (hu : u.IsPlainName) : t.IsPlainName := by
  have hstart (c : Char) : isNameStart c.toLower = isNameStart c := apply_toLower (by decide) c
  have hpart (c : Char) : Lexeme.isNamePart c.toLower = Lexeme.isNamePart c := apply_toLower (by decide) c
  have hu : IsPlainName u.lower := by
    obtain ⟨c, u, rfl, hc, hu⟩ := hu
    refine ⟨c.toLower, lower u, rfl, (hstart c).trans hc, fun d hd => ?_⟩
    obtain ⟨e, he, rfl⟩ := List.mem_map.mp hd
    exact (hpart e).trans (hu e he)
  obtain ⟨c, v, hv, hc, hp⟩ := h ▸ hu
  obtain ⟨c, t, rfl, rfl, rfl⟩ := List.map_eq_cons_iff.mp hv
  exact ⟨c, t, rfl, (hstart c).symm.trans hc, fun d hd => (hpart d).symm.trans (hp _ (List.mem_map_of_mem hd))⟩

theorem isKeyword_lower (t : Text) : t.lower.IsKeyword ↔ t.IsKeyword := by
  have hf : foldCase ∘ Char.toLower = foldCase := funext fun c => apply_toLower (by decide) c
  rw [IsKeyword, IsKeyword, lower, List.map_map, hf]

/-- Without its quotes a text is as it was, or it had quotes around it. -/
theorem unquote_eq (t : Text) : t.unquote = t ∨ t = '"' :: (t.unquote ++ ['"']) := by
  rw [unquote]
  cases h : (dropStart? "\"" t).bind (dropEnd? "\"") with
  | none => exact .inl rfl
  | some u =>
      obtain ⟨v, hv, hu⟩ := Option.bind_eq_some_iff.mp h
      right
      rw [dropStart?_eq_some.mp hv, dropEnd?_eq_some.mp hu]
      rfl

/-- A text that is the same name as an identifier without quotes is an identifier. -/
theorem isIdentifier_of_sameName (hw : w.IsPlainName) (hk : ¬ w.IsKeyword) (h : t.sameName w) :
    t.isIdentifier := by
  have hq : w.unquote = w := by
    obtain h | h := unquote_eq w
    · exact h
    · obtain ⟨c, v, rfl, hc, -⟩ := hw
      obtain ⟨rfl, -⟩ := List.cons.inj h
      cases hc
  have hl := sameName_iff.mp h
  rw [hq] at hl
  have hp := IsPlainName.of_lower hl hw
  obtain ht | ht := unquote_eq t
  · rw [ht] at hl hp
    exact hp.isIdentifier_iff.mpr fun hkt => hk ((isKeyword_lower w).mp (hl ▸ (isKeyword_lower t).mpr hkt))
  · refine isIdentifier_iff.mpr (.inr ⟨_, ht, fun c hc => ?_⟩)
    have hc := hp.isNamePart c hc
    refine ⟨?_, Bool.eq_false_iff.mpr fun hb => ?_⟩
    · rintro rfl
      cases hc
    · simp only [isLineBreak, Bool.or_eq_true, beq_iff_eq] at hb
      rcases hb with rfl | rfl <;> cases hc

end AlRefactor.Text
