import AlRefactor.Proofs.Text.Indentation
import AlRefactor.Proofs.Token.Names
import AlRefactor.Proofs.Token.WholeLines

/-!
# Tokens of lines that are moved to another indentation

Only block comments reach across the end of a line, and white space in a text without errors is layout wherever it
stands outside of these. So a block has the same significant tokens at any indentation: each of its other tokens ends on
the line that it starts on, and a comment stays one and ends at the same place.
-/

namespace AlRefactor

namespace Text.Realigned

open Lexeme

variable {t t' u w : Text} {c : Char}

/-! ## Corresponding places -/

theorem isLineBreak_of_feed {b : Text} (hb : IsFeed b) : ∀ c ∈ b.head?, isLineBreak c := by
  rintro c hc
  rcases hb with rfl | rfl <;> cases hc <;> rfl

/-- What is no line break has a counterpart. -/
theorem exists_cons (hc : isLineBreak c = false) (h : Realigned (c :: t) t') : ∃ u, t' = c :: u ∧ Realigned t u := by
  have hfeed {b w : Text} (hb : IsFeed b) : c :: t ≠ b ++ w := by
    rintro he
    have := isLineBreak_of_feed hb c (by rcases hb with rfl | rfl <;> exact congrArg some (List.cons.inj he).1.symm)
    rw [hc] at this
    cases this
  generalize hs : c :: t = s at h
  cases h with
  | nil => cases hs
  | char d h =>
      obtain ⟨rfl, rfl⟩ := List.cons.inj hs
      exact ⟨_, rfl, h⟩
  | line hb => exact absurd hs (hfeed hb)
  | last hb => exact absurd (hs.trans (List.append_nil _).symm) (hfeed hb)

theorem exists_append (hu : ∀ c ∈ u, isLineBreak c = false) (h : Realigned (u ++ w) t') :
    ∃ w', t' = u ++ w' ∧ Realigned w w' := by
  induction u generalizing t' with
  | nil => exact ⟨t', rfl, h⟩
  | cons c u ih =>
      obtain ⟨hc, hu⟩ := List.forall_mem_cons.mp hu
      obtain ⟨t', rfl, ht⟩ := h.exists_cons hc
      obtain ⟨w', rfl, hw⟩ := ih hu ht
      exact ⟨w', rfl, hw⟩

theorem eq_nil (h : Realigned [] t') : t' = [] := by
  generalize hs : ([] : Text) = s at h
  cases h with
  | nil => rfl
  | char => cases hs
  | line hb => rcases hb with rfl | rfl <;> cases hs
  | last => exact hs

/-- What is no line break is the counterpart of something. -/
theorem mem_head? (h : Realigned t t') (hc : isLineBreak c = false) (ht : c ∈ t'.head?) : c ∈ t.head? := by
  cases h with
  | nil => exact ht
  | char => exact ht
  | line _ hb =>
      have := isLineBreak_of_feed hb c (by rcases hb with rfl | rfl <;> exact ht)
      rw [hc] at this
      cases this
  | last => cases ht

end Text.Realigned

namespace Lexeme

open Text

variable {b t t' u v w w' : Text} {c : Char}

/-! ## Layout -/

theorem solid_cons_trivia {l : Lexeme} (hl : l.kind.isTrivia) (ls : List Lexeme) : solid (l :: ls) = solid ls :=
  List.filter_cons_of_neg (by simp [isSignificant, hl])

theorem solid_lex_blanks (hu : ∀ c ∈ u, isBlank c) (hv : ∀ c ∈ v.head?, isBlank c = false) :
    solid (lex (u ++ v)) = solid (lex v) := by
  cases u with
  | nil => rfl
  | cons c u => rw [lex_blanks hu (List.cons_ne_nil c u) hv, solid_cons_trivia rfl]

theorem solid_lex_feed (hb : IsFeed b) (t : Text) : solid (lex (b ++ t)) = solid (lex t) := by
  rw [lex_newline hb, solid_cons_trivia rfl]

/-- A single character of layout adds no significant token to what follows. -/
theorem solid_lex_cons (hc : isBlank c ∨ isLineBreak c) (t : Text) : solid (lex (c :: t)) = solid (lex t) := by
  rcases hc with hc | hc
  · obtain ⟨u, v, rfl, -, hu, hv⟩ := exists_runLength isBlank t
    rw [solid_lex_blanks hu hv]
    exact solid_lex_blanks (List.forall_mem_cons.mpr ⟨hc, hu⟩) hv
  · rcases isLineBreak_iff.mp hc with rfl | rfl
    · by_cases ht : t.head? = some '\n'
      · obtain ⟨t, rfl⟩ := List.head?_eq_some_iff.mp ht
        exact (solid_lex_feed (.inr rfl) t).trans (solid_lex_feed (.inl rfl) t).symm
      · rw [← List.singleton_append, lex_lineBreak (.alone ht), solid_cons_trivia rfl]
    · exact solid_lex_feed (.inl rfl) t

theorem solid_lex_layout (hu : ∀ c ∈ u, isBlank c ∨ isLineBreak c) (t : Text) :
    solid (lex (u ++ t)) = solid (lex t) := by
  induction u with
  | nil => rfl
  | cons c u ih =>
      obtain ⟨hc, hu⟩ := List.forall_mem_cons.mp hu
      exact (solid_lex_cons hc _).trans (ih hu)

/-! ## Texts that can be read -/

/-- Nothing in a text is an error. -/
def Readable (t : Text) : Prop := ∀ l ∈ solid (lex t), l.kind ≠ .error

theorem Readable.of_eq (h : Readable t) (hs : solid (lex t) = solid (lex u)) : Readable u := by
  rwa [Readable, ← hs]

theorem Readable.scan (h : Readable (c :: t)) : (scan c t).1 ≠ .error := by
  intro he
  refine h ⟨(Lexeme.scan c t).1, c :: t.take (Lexeme.scan c t).2⟩ ?_ he
  rw [lex_cons, solid_cons (by simp [isSignificant, he, TokenKind.isTrivia])]
  exact List.mem_cons_self

/-- White space that starts a token is layout. -/
theorem isLayout_of_isSpace (hc : isSpace c) (hk : (scan c t).1 ≠ .error) : isBlank c ∨ isLineBreak c := by
  have hn (hp : isNamePart c) : False := by
    rw [not_isSpace_of_isNamePart hp] at hc
    cases hc
  revert hk
  fun_cases scan c t <;> intro hk
  case case1 hb => exact .inl hb
  case case2 hs _ => exact (hn (isNamePart_of_isNameStart hs)).elim
  case case3 hd => exact (hn (by simp [isNamePart, Char.isAlphanum, hd])).elim
  all_goals first
    | exact .inr rfl
    | exact absurd rfl hk
    | exact absurd hc (by decide)

theorem solid_lex_spaces (hu : ∀ c ∈ u, isSpace c) (ht : Readable (u ++ t)) :
    solid (lex (u ++ t)) = solid (lex t) := by
  induction u with
  | nil => rfl
  | cons c u ih =>
      obtain ⟨hc, hu⟩ := List.forall_mem_cons.mp hu
      have hs : solid (lex (c :: (u ++ t))) = solid (lex (u ++ t)) := solid_lex_cons (isLayout_of_isSpace hc ht.scan) _
      exact hs.trans (ih hu (ht.of_eq hs))

/-! ## Comments -/

theorem commentLength?_cons (h : ¬ (c = '*' ∧ '/' ∈ t.head?)) :
    commentLength? (c :: t) = (commentLength? t).map (· + 1) := by
  rw [commentLength?]
  rintro u rfl rfl
  exact h ⟨rfl, rfl⟩

theorem commentLength?_layout (hu : '*' ∉ u) (t : Text) :
    commentLength? (u ++ t) = (commentLength? t).map (u.length + ·) := by
  induction u with
  | nil => simp
  | cons c u ih =>
      obtain ⟨hc, hu⟩ := not_or.mp (mt List.mem_cons.mpr hu)
      rw [List.cons_append, commentLength?_cons fun h => hc h.1.symm, ih hu, Option.map_map]
      congr 1
      funext n
      exact (Nat.succ_add _ _).symm

/-- A comment that is closed in one text is closed at the corresponding place in the other one. -/
theorem exists_commentLength {n : Nat} (h : Realigned t t') (hn : commentLength? t = some n) :
    ∃ m, commentLength? t' = some m ∧ Realigned (t.drop n) (t'.drop m) := by
  have hstar {b w : Text} (hb : IsFeed b) (hw : ∀ c ∈ w, isSpace c) : '*' ∉ b ++ w := by
    intro hm
    rcases List.mem_append.mp hm with hm | hm
    · rcases hb with rfl | rfl <;> simp at hm
    · cases hw _ hm
  induction h generalizing n with
  | nil => cases hn
  | @char t t' c h ih =>
      by_cases hc : c = '*' ∧ '/' ∈ t.head?
      · obtain ⟨rfl, hs⟩ := hc
        obtain ⟨t, rfl⟩ := List.head?_eq_some_iff.mp hs
        obtain ⟨u, rfl, hu⟩ := h.exists_cons rfl
        cases hn
        exact ⟨2, rfl, hu⟩
      · rw [commentLength?_cons hc] at hn
        obtain ⟨k, hk, rfl⟩ := Option.map_eq_some_iff.mp hn
        obtain ⟨m, hm, hr⟩ := ih hk
        rw [commentLength?_cons fun h' => hc ⟨h'.1, h.mem_head? rfl h'.2⟩, hm]
        exact ⟨m + 1, rfl, hr⟩
  | @line b b' w w' t t' hb hb' hw hw' h ih =>
      rw [← List.append_assoc, commentLength?_layout (hstar hb hw)] at hn
      obtain ⟨k, hk, rfl⟩ := Option.map_eq_some_iff.mp hn
      obtain ⟨m, hm, hr⟩ := ih hk
      rw [← List.append_assoc b', commentLength?_layout (hstar hb' fun c hc => isSpace_of_isIndent (hw' c hc)), hm]
      refine ⟨(b' ++ w').length + m, rfl, ?_⟩
      rwa [← List.append_assoc, List.drop_length_add_append, List.drop_length_add_append]
  | last hb => rcases hb with rfl | rfl <;> cases hn

theorem solid_lex_comment {n : Nat} (hn : commentLength? t = some n) :
    solid (lex ('/' :: '*' :: t)) = solid (lex (t.drop n)) := by
  have hs : scan '/' ('*' :: t) = (.blockComment, n + 1) := by rw [scan_slash_star, hn, Nat.add_comm n]
  rw [lex_cons, hs, List.drop_succ_cons, solid_cons_trivia rfl]

/-! ## Token by token -/

/-- Two texts go on to texts that correspond, behind a token that both start with or behind something that no significant
token is in. -/
inductive Advances (t t' : Text) : Prop where
  | token {l : Lexeme} {r r' : Text} : lex t = l :: lex r → lex t' = l :: lex r' → r.length < t.length →
      Realigned r r' → Advances t t'
  | silent {r r' : Text} : solid (lex t) = solid (lex r) → solid (lex t') = solid (lex r') → r.length < t.length →
      Realigned r r' → Advances t t'

theorem lex_cons_append {k : TokenKind} {n : Nat} (hs : scan c (u ++ w) = (k, n)) (hn : n ≤ u.length) :
    lex (c :: (u ++ w)) = ⟨k, c :: u.take n⟩ :: lex (u.drop n ++ w) := by
  rw [lex_cons, hs, List.take_append_of_le_length hn, List.drop_append_of_le_length hn]

/-- What is left of a line decides on a token that ends on it. -/
theorem scan_realigned (h : Realigned w w') (hc : isLineBreak c = false) (hu : ∀ d ∈ u, isLineBreak d = false)
    (hw : ∀ d ∈ w.head?, isLineBreak d) (hle : (scan c (u ++ w)).2 ≤ u.length) :
    scan c (u ++ w') = scan c (u ++ w) := by
  by_cases hw0 : w = []
  · rw [hw0] at h ⊢
    rw [h.eq_nil]
  · refine scan_append_parted hle hw0 ⟨.inr fun d hd => ?_, fun hn => ?_⟩
    · by_contra hd'
      exact hd' (hw d (h.mem_head? (Bool.eq_false_iff.mpr hd') hd))
    · have hall : ∀ d ∈ c :: u, isLineBreak d = false := List.forall_mem_cons.mpr ⟨hc, hu⟩
      cases hall _ (List.mem_of_getLast? hn.1)

theorem advances_token (h : Realigned t t') (hb : ∀ d ∈ c :: t.take (scan c t).2, isLineBreak d = false) :
    Advances (c :: t) (c :: t') := by
  obtain ⟨hc, hb⟩ := List.forall_mem_cons.mp hb
  have hle : (scan c t).2 ≤ lineLength t := by
    have hn := lineLength_append hb (t.drop (scan c t).2)
    rw [List.take_append_drop, List.length_take_of_le (scan_le c t)] at hn
    omega
  obtain ⟨u, w, rfl, hl, hu, hw⟩ := exists_runLength (fun c => !isLineBreak c) t
  have hu : ∀ d ∈ u, isLineBreak d = false := fun d hd => by simpa using hu d hd
  have hw : ∀ d ∈ w.head?, isLineBreak d := fun d hd => by simpa using hw d hd
  replace hle : (scan c (u ++ w)).2 ≤ u.length := Nat.le_trans hle (Nat.le_of_eq hl)
  obtain ⟨w', rfl, hr⟩ := h.exists_append hu
  have hs := scan_realigned hr hc hu hw hle
  refine .token (lex_cons_append rfl hle) (lex_cons_append hs hle) ?_ (hr.append _)
  simp only [List.length_cons, List.length_append, List.length_drop]
  omega

theorem advances_comment (h : Realigned ('*' :: t) t') (hk : (scan '/' ('*' :: t)).1 ≠ .error) :
    Advances ('/' :: '*' :: t) ('/' :: t') := by
  obtain ⟨t', rfl, hr⟩ := h.exists_cons rfl
  cases hn : commentLength? t with
  | none => exact absurd (by rw [scan_slash_star, hn]) hk
  | some n =>
      obtain ⟨m, hm, hd⟩ := exists_commentLength hr hn
      refine .silent (solid_lex_comment hn) (solid_lex_comment hm) ?_ hd
      rw [List.length_drop, List.length_cons, List.length_cons]
      omega

/-- Behind a character that two texts have in common there is the rest of a token on its line or of a comment. -/
theorem advances_char (h : Realigned t t') (ht : Readable (c :: t)) : Advances (c :: t) (c :: t') := by
  by_cases hc : isLineBreak c
  · exact .silent (solid_lex_cons (.inr hc) t) (solid_lex_cons (.inr hc) t') (Nat.lt_succ_self _) h
  · rcases unbroken_or (matches_scan ht.scan) with hb | hb | ⟨v, hv, -⟩
    · exact advances_token h hb
    · refine absurd ?_ hc
      simp only [List.mem_cons, List.not_mem_nil, or_false] at hb
      rcases hb with hb | hb | hb <;> rw [(List.cons.inj hb).1] <;> rfl
    · obtain ⟨rfl, hv⟩ := List.cons.inj hv
      have hs : '*' ∈ (t.take (scan '/' t).2).head? := by rw [hv]; rfl
      obtain ⟨u, hu⟩ := List.head?_eq_some_iff.mp hs
      obtain ⟨t, rfl⟩ : ∃ r, t = '*' :: r := ⟨u ++ t.drop (scan '/' t).2, by
        rw [← List.cons_append, ← hu, List.take_append_drop]⟩
      exact advances_comment h ht.scan

theorem advances (h : Realigned t t') (ht : Readable t) (h0 : t ≠ []) : Advances t t' := by
  cases h with
  | nil => exact absurd rfl h0
  | char c h => exact advances_char h ht
  | @line b b' w w' t t' hb hb' hw hw' h =>
      have hf := solid_lex_feed hb (w ++ t)
      refine .silent (hf.trans (solid_lex_spaces hw (ht.of_eq hf))) ?_ ?_ h
      · exact (solid_lex_feed hb' _).trans (solid_lex_layout (fun c hc => .inl (isBlank_of_isIndent (hw' c hc))) t')
      · have : 0 < b.length := by rcases hb with rfl | rfl <;> simp
        simp only [List.length_append]
        omega
  | last hb =>
      have hf := solid_lex_feed hb []
      rw [List.append_nil] at hf
      exact .silent hf rfl (List.length_pos_iff.mpr h0) .nil

/-- Texts that correspond have the same significant tokens if one of them has no errors. -/
theorem solid_lex_realigned (h : Realigned t t') (ht : Readable t) : solid (lex t') = solid (lex t) := by
  induction hn : t.length using Nat.strong_induction_on generalizing t t' with
  | _ n ih =>
      subst hn
      by_cases h0 : t = []
      · rw [h0] at h ⊢
        rw [h.eq_nil]
      cases advances h ht h0 with
      | @token l r r' hl hl' hlt hr =>
          rw [← List.singleton_append] at hl hl'
          have hrest : Readable r := fun k hk => ht k (by rw [hl, solid_append]; exact List.mem_append_right _ hk)
          rw [hl, hl', solid_append, solid_append, ih _ hlt hr hrest rfl]
      | silent hs hs' hlt hr => rw [hs, hs', ih _ hlt hr (ht.of_eq hs) rfl]

end Lexeme

namespace Text

open Lexeme

variable {t old new newline : Text}

/-- A text without errors keeps all tokens but layout, comments and directives when it is moved from one indentation to
another one. -/
theorem significant_reindent (ht : ∀ l ∈ lex t, l.kind ≠ .error) (ho : ∀ c ∈ old, isIndent c)
    (hn : ∀ c ∈ new, isIndent c) (hb : IsFeed newline) :
    (t.reindent old new newline).significant.map (·.toLexeme) = t.significant.map (·.toLexeme) := by
  have hf := solid_lex_feed (.inl rfl) t
  have hr : Readable (['\n'] ++ t) := by
    rw [Readable, hf]
    exact fun l hl => ht l (List.mem_filter.mp hl).1
  have h := solid_lex_realigned (realigned_reindent ho hn (.inl rfl) hb t) hr
  rw [solid_lex_feed hb, hf] at h
  rw [lexemes_significant, lexemes_significant]
  exact h

/-- Lines with a comment that spans two of them, a carriage return behind a comment, an indentation that is another one,
and white space only. -/
theorem significant_reindent_comment :
    let t : Text := "  if a /* b\r\n   * c */ then\r\n\t x := 'y'; // z\r  end\n \t\n".toList
    let u : Text := "\tif a /* b\r\n\t * c */ then\r\n\tx := 'y'; // z\r  end\r\n".toList
    (∀ l ∈ lex t, l.kind ≠ .error) ∧ t.reindent "  ".toList "\t".toList "\r\n".toList = u ∧
      u.significant.map (·.toLexeme) = t.significant.map (·.toLexeme) := by
  intro t u
  have ht : ∀ l ∈ lex t, l.kind ≠ .error := by decide +kernel
  have hu : t.reindent "  ".toList "\t".toList "\r\n".toList = u := by decide +kernel
  exact ⟨ht, hu, hu ▸ significant_reindent ht (List.all_eq_true.mp (by decide)) (List.all_eq_true.mp (by decide))
    (.inr rfl)⟩

end Text

end AlRefactor
