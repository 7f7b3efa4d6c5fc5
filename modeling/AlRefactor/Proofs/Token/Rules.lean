import Mathlib.Data.List.Infix
import Mathlib.Data.List.TakeWhile
import Mathlib.Tactic.FinCases
import AlRefactor.Proofs.Token.Printing

/-!
# The rules of the tokens

Each kind of token has a rule of its own that says which texts it matches. The lexer takes the longest
text that any rule matches, and a keyword rather than an identifier of the same length.
-/

namespace AlRefactor

open Lexeme

namespace TokenKind

/-- Punctuation and operators. -/
def marks : List (Text × TokenKind) :=
  [([';'], .semicolon), ([':'], .colon), ([':', ':'], .colonColon), ([','], .comma), (['.'], .dot),
   (['.', '.'], .dotDot), (['('], .lParen), ([')'], .rParen), (['['], .lBracket),
   ([']'], .rBracket), (['\x7b'], .lBrace), (['\x7d'], .rBrace), (['@'], .atSign),
   ([':', '='], .assign), (['+', '='], .plusAssign), (['-', '='], .minusAssign),
   (['*', '='], .starAssign), (['/', '='], .slashAssign), (['='], .eq), (['<', '>'], .neq),
   (['<'], .lt), (['<', '='], .ltEq), (['>'], .gt), (['>', '='], .gtEq), (['+'], .plus),
   (['-'], .minus), (['*'], .star), (['/'], .slash)]

/-- What may stand between the quotes of a string literal: characters of one line, quotes doubled. -/
inductive Quotable : Text → Prop where
  | nil : Quotable []
  | char {c : Char} {u : Text} : c ≠ '\'' → isLineBreak c = false → Quotable u → Quotable (c :: u)
  | pair {u : Text} : Quotable u → Quotable ('\'' :: '\'' :: u)

/-- The rule for tokens of a kind matches a text as a whole. The kinds of what is unreadable and of
the end of the text have no rule. -/
inductive Matches : TokenKind → Text → Prop where
  | mark {u : Text} {k : TokenKind} : (u, k) ∈ marks → Matches k u
  | keyword {w : String} {k : TokenKind} {u : Text} :
      (w, k) ∈ keywords → u.map foldCase = w.toList → Matches k u
  /-- `[ \t\x0C\u{FEFF}]+` -/
  | whitespace {u : Text} : u ≠ [] → (∀ c ∈ u, isBlank c) → Matches .whitespace u
  /-- `\r\n|\n|\r` -/
  | newline {u : Text} : u ∈ [['\r', '\n'], ['\n'], ['\r']] → Matches .newline u
  /-- `//[^\r\n]*` -/
  | lineComment {u : Text} :
      (∀ c ∈ u, isLineBreak c = false) → Matches .lineComment ('/' :: '/' :: u)
  /-- Closed by the first `*/` behind its beginning. -/
  | blockComment {u : Text} :
      ¬ ['*', '/'] <:+: u ++ ['*'] → Matches .blockComment ('/' :: '*' :: (u ++ ['*', '/']))
  /-- `#[A-Za-z][^\r\n]*` -/
  | directive {c : Char} {u : Text} :
      c.isAlpha → (∀ c ∈ u, isLineBreak c = false) → Matches .directive ('#' :: c :: u)
  /-- `[0-9]+` -/
  | int {u : Text} : u ≠ [] → (∀ c ∈ u, c.isDigit) → Matches .intLiteral u
  /-- `[0-9]+\.[0-9]+` -/
  | decimal {u v : Text} : u ≠ [] → (∀ c ∈ u, c.isDigit) → v ≠ [] → (∀ c ∈ v, c.isDigit) →
      Matches .decimalLiteral (u ++ '.' :: v)
  /-- `[0-9]+([dD][tT]?|[tT])` -/
  | dateTime {u v : Text} : u ≠ [] → (∀ c ∈ u, c.isDigit) →
      v.map Char.toLower ∈ [['d'], ['d', 't'], ['t']] → Matches .dateTimeLiteral (u ++ v)
  /-- `'([^'\r\n]|'')*'` -/
  | string {u : Text} : Quotable u → Matches .stringLiteral ('\'' :: (u ++ ['\'']))
  /-- `"[^"\r\n]*"` -/
  | quotedIdent {u : Text} :
      (∀ c ∈ u, c ≠ '"' ∧ isLineBreak c = false) → Matches .quotedIdent ('"' :: (u ++ ['"']))
  /-- `[A-Za-z_][A-Za-z0-9_]*` -/
  | ident {c : Char} {u : Text} :
      isNameStart c → (∀ c ∈ u, isNamePart c) → Matches .ident (c :: u)

end TokenKind

/-- A block comment starts here that is never closed. -/
def Unclosed (t : Text) : Prop := ∃ r, t = '/' :: '*' :: r ∧ ¬ ['*', '/'] <:+: r

namespace Lexeme

open TokenKind

/-! ## Comments -/

theorem commentLength?_eq_none {t : Text} : commentLength? t = none ↔ ¬ ['*', '/'] <:+: t := by
  fun_induction commentLength? t with
  | case1 => simp
  | case2 t => simpa using ⟨[], t, rfl⟩
  | case3 c t hc ih =>
      rw [Option.map_eq_none_iff, ih, List.infix_cons_iff, not_or, iff_and_self]
      rintro - ⟨u, hu⟩
      obtain ⟨rfl, rfl⟩ := List.cons.inj hu
      exact hc _ rfl rfl

theorem commentLength?_append {u : Text} (h : ¬ ['*', '/'] <:+: u ++ ['*']) (r : Text) :
    commentLength? (u ++ '*' :: '/' :: r) = some (u.length + 2) := by
  induction u with
  | nil => rfl
  | cons c u ih =>
      rw [List.cons_append, commentLength?]
      · rw [ih fun hi => h (hi.trans (List.suffix_cons c _).isInfix)]
        rfl
      · rintro t rfl ht
        cases u with
        | nil => cases ht
        | cons d u =>
            obtain ⟨rfl, -⟩ := List.cons.inj ht
            exact h ⟨[], u ++ ['*'], rfl⟩

theorem of_commentLength? {t : Text} {n : Nat} (h : commentLength? t = some n) :
    ∃ u r, t = u ++ '*' :: '/' :: r ∧ n = u.length + 2 ∧ ¬ ['*', '/'] <:+: u ++ ['*'] := by
  fun_induction commentLength? t generalizing n with
  | case1 => cases h
  | case2 t => cases h; exact ⟨[], t, rfl, rfl, by decide⟩
  | case3 c t hc ih =>
      obtain ⟨m, hm, rfl⟩ := Option.map_eq_some_iff.mp h
      obtain ⟨u, r, rfl, rfl, hi⟩ := ih hm
      refine ⟨c :: u, r, rfl, rfl, fun hx => ?_⟩
      rw [List.cons_append, List.infix_cons_iff] at hx
      obtain ⟨v, hv⟩ | hx := hx
      · -- The end would be here already.
        obtain ⟨hs, hv⟩ := List.cons.inj hv
        cases u with
        | nil => cases hv
        | cons d u => exact hc _ hs.symm (congrArg (· :: _) (List.cons.inj hv).1.symm)
      · exact hi hx

/-! ## Quotes -/

theorem stringLength?_append {u : Text} (h : Quotable u) (r : Text) :
    ∃ n, stringLength? (u ++ '\'' :: r) = some n ∧ u.length + 1 ≤ n := by
  induction h with
  | nil =>
      cases r with
      | nil => exact ⟨1, rfl, Nat.le_refl _⟩
      | cons c r =>
          by_cases hc : c = '\''
          · subst hc
            refine ⟨_, rfl, ?_⟩
            cases stringLength? r <;> simp
          · refine ⟨1, ?_, Nat.le_refl _⟩
            rw [List.nil_append, stringLength?]
            exact fun _ h => hc (List.cons.inj h).1
  | @char c u hq hb _ ih =>
      obtain ⟨n, hn, hl⟩ := ih
      refine ⟨n + 1, ?_, Nat.succ_le_succ hl⟩
      rw [List.cons_append, stringLength?, hb, hn]
      · rfl
      · exact fun _ hc _ => hq hc
      · exact hq
  | pair _ ih =>
      obtain ⟨n, hn, hl⟩ := ih
      refine ⟨n + 2, ?_, Nat.add_le_add_right hl 2⟩
      rw [List.cons_append, List.cons_append, stringLength?, hn]
      rfl

theorem of_stringLength? {t : Text} {n : Nat} (h : stringLength? t = some n) :
    ∃ u r, t = u ++ '\'' :: r ∧ n = u.length + 1 ∧ Quotable u := by
  fun_induction stringLength? t generalizing n with
  | case1 => cases h
  | case2 t ih =>
      cases hs : stringLength? t with
      | none => rw [hs] at h; cases h; exact ⟨[], _, rfl, rfl, .nil⟩
      | some m =>
          rw [hs] at h; cases h
          obtain ⟨u, r, rfl, rfl, hq⟩ := ih hs
          exact ⟨_, r, rfl, rfl, .pair hq⟩
  | case3 => cases h; exact ⟨[], _, rfl, rfl, .nil⟩
  | case4 => cases h
  | case5 c t h₁ h₂ hb ih =>
      obtain ⟨m, hm, rfl⟩ := Option.map_eq_some_iff.mp h
      obtain ⟨u, r, rfl, rfl, hq⟩ := ih hm
      exact ⟨c :: u, r, rfl, rfl, .char h₂ (Bool.eq_false_iff.mpr hb) hq⟩

theorem quotedLength?_append {u : Text} (h : ∀ c ∈ u, c ≠ '"' ∧ isLineBreak c = false) (r : Text) :
    quotedLength? (u ++ '"' :: r) = some (u.length + 1) := by
  induction u with
  | nil => rfl
  | cons c u ih =>
      obtain ⟨hq, hb⟩ := h c List.mem_cons_self
      rw [List.cons_append, quotedLength?, if_neg hq, hb, ih fun d hd => h d (.tail _ hd)]
      rfl

theorem of_quotedLength? {t : Text} {n : Nat} (h : quotedLength? t = some n) :
    ∃ u r, t = u ++ '"' :: r ∧ n = u.length + 1 ∧ ∀ c ∈ u, c ≠ '"' ∧ isLineBreak c = false := by
  fun_induction quotedLength? t generalizing n with
  | case1 => cases h
  | case2 => cases h; exact ⟨[], _, rfl, rfl, List.forall_mem_nil _⟩
  | case3 => cases h
  | case4 c t hc hb ih =>
      obtain ⟨m, hm, rfl⟩ := Option.map_eq_some_iff.mp h
      obtain ⟨u, r, rfl, rfl, hq⟩ := ih hm
      refine ⟨c :: u, r, rfl, rfl, fun d hd => ?_⟩
      rcases List.mem_cons.mp hd with rfl | hd
      · exact ⟨hc, Bool.eq_false_iff.mpr hb⟩
      · exact hq d hd

/-! ## Runs -/

theorem exists_runLength (p : Char → Bool) (t : Text) :
    ∃ u r, t = u ++ r ∧ runLength p t = u.length ∧ (∀ c ∈ u, p c) ∧ ∀ c ∈ r.head?, p c = false := by
  refine ⟨t.takeWhile p, t.dropWhile p, List.takeWhile_append_dropWhile.symm, rfl,
    fun c hc => List.mem_takeWhile_imp hc, fun c hc => ?_⟩
  have h := List.head?_dropWhile_not p t
  rwa [Option.mem_def.mp hc] at h

theorem runLength_append {p : Char → Bool} {u : Text} (h : ∀ c ∈ u, p c) (r : Text) :
    runLength p (u ++ r) = u.length + runLength p r := by
  rw [runLength, List.takeWhile_append_of_pos h, List.length_append, runLength]

theorem lineLength_append {u : Text} (h : ∀ c ∈ u, isLineBreak c = false) (r : Text) :
    lineLength (u ++ r) = u.length + lineLength r :=
  runLength_append (fun c hc => by rw [h c hc]; rfl) r

/-! ## Keywords -/

theorem startsWithWord_iff {w t : Text} :
    startsWithWord w t ↔ ∃ u r, t = u ++ r ∧ u.map foldCase = w := by
  fun_induction startsWithWord w t with
  | case1 t => exact iff_of_true rfl ⟨[], t, rfl, rfl⟩
  | case2 w ws =>
      refine iff_of_false Bool.false_ne_true ?_
      rintro ⟨u, r, hu, hw⟩
      obtain ⟨rfl, -⟩ := List.append_eq_nil_iff.mp hu.symm
      cases hw
  | case3 w ws c t ih =>
      rw [Bool.and_eq_true, beq_iff_eq, ih]
      constructor
      · rintro ⟨rfl, u, r, rfl, rfl⟩
        exact ⟨c :: u, r, rfl, rfl⟩
      · rintro ⟨u, r, hu, hw⟩
        cases u with
        | nil => cases hw
        | cons d u =>
            obtain ⟨rfl, rfl⟩ := List.cons.inj hu
            obtain ⟨rfl, rfl⟩ := List.cons.inj hw
            exact ⟨rfl, u, r, rfl, rfl⟩

/-- No keyword goes on as one that stands behind it in the table. -/
theorem keywords_pairwise :
    keywords.Pairwise fun e f => ¬ e.1.toList <+: f.1.toList := by decide

/-- The keyword that is found is the longest one. -/
theorem keyword?_longest {w : String} {k : TokenKind} {t : Text} (h : (w, k) ∈ keywords)
    (hw : startsWithWord w.toList t) : ∃ j m, keyword? t = some (j, m) ∧
      (w.length < m ∨ j = k ∧ m = w.length) := by
  obtain ⟨e, he⟩ : ∃ e, keywords.find? (fun e => startsWithWord e.1.toList t) = some e :=
    Option.isSome_iff_exists.mp (List.find?_isSome.mpr ⟨_, h, hw⟩)
  refine ⟨e.2, e.1.length, by rw [keyword?, he]; rfl, ?_⟩
  obtain ⟨hs, before, behind, hk, hb⟩ := List.find?_eq_some_iff_append.mp he
  rw [hk] at h
  rcases List.mem_append.mp h with h | h
  · simpa [hw] using hb _ h
  rcases List.mem_cons.mp h with rfl | h
  · exact .inr ⟨rfl, rfl⟩
  have hp := keywords_pairwise
  rw [hk] at hp
  have hn := List.rel_of_pairwise_cons (List.pairwise_append.mp hp).2.1 h
  -- Both are the beginning of the same text, so the found one goes on as the other.
  obtain ⟨u, r, rfl, hu⟩ := startsWithWord_iff.mp hs
  obtain ⟨v, q, hv, hw⟩ := startsWithWord_iff.mp hw
  have hu : e.1.toList <+: (u ++ r).map foldCase := ⟨r.map foldCase, by rw [List.map_append, hu]⟩
  have hv : w.toList <+: (u ++ r).map foldCase := ⟨q.map foldCase, by rw [hv, List.map_append, hw]⟩
  obtain hl | hl := Nat.lt_or_ge w.length e.1.length
  · exact .inl hl
  · rw [← String.length_toList, ← String.length_toList] at hl
    exact absurd (List.prefix_of_prefix_length_le hu hv hl) hn

/-! ## What a rule matches is read -/

/-- What the lexer makes of a text when a rule matches so many of its characters: just that, something
longer, or the keyword that an identifier is. -/
inductive Covers (s : TokenKind × Nat) (k : TokenKind) (n : Nat) : Prop where
  | exact : s.1 = k → s.2 + 1 = n → Covers s k n
  | longer : s.1 ≠ .error → n ≤ s.2 → Covers s k n
  | keyword : k = .ident → s.1.isKeyword → s.2 + 1 = n → Covers s k n

theorem Covers.of_le {s : TokenKind × Nat} {k : TokenKind} {n : Nat} (hk : s.1 = k)
    (he : k ≠ .error) (h : n ≤ s.2 + 1) : Covers s k n := by
  obtain h | h := Nat.lt_or_eq_of_le h
  · exact .longer (hk ▸ he) (Nat.le_of_lt_succ h)
  · exact .exact hk h.symm

/-! ### Marks -/

theorem not_mark {c : Char} {t : Text} {k : TokenKind} (h : (c :: t, k) ∈ marks) :
    isBlank c = false ∧ isNameStart c = false ∧ c.isDigit = false := by
  have hm : ∀ e ∈ marks,
      e.1.head?.all fun c => !isBlank c && !isNameStart c && !c.isDigit := by decide
  simpa [and_assoc] using hm _ h

theorem covers_single {t : Text} {c : Char} {k : TokenKind} (h : ([c], k) ∈ marks)
    (hc : ¬ Unclosed (c :: t)) : Covers (scan c t) k 1 := by
  obtain ⟨hb, hn, hd⟩ := not_mark h
  fun_cases scan c t
  case case9 r hr _ _ _ => exact absurd ⟨r, rfl, commentLength?_eq_none.mp hr⟩ hc
  -- Either something longer is read, or no other mark has just this character.
  all_goals first
    | exact .longer (by simp) (Nat.le_refl 1)
    | exact .longer (by simp) (Nat.le_add_right 1 _)
    | (simp [marks] at h; exact .exact h.symm rfl)
    | simp_all [marks]

theorem covers_mark {u t : Text} {c : Char} {k : TokenKind} (h : (u, k) ∈ marks) (hu : u <+: c :: t)
    (hc : ¬ Unclosed (c :: t)) : Covers (scan c t) k u.length := by
  obtain ⟨r, hr⟩ := hu
  have h' := h
  fin_cases h
  all_goals
    obtain ⟨rfl, rfl⟩ := List.cons.inj hr
    first
      | exact .exact rfl rfl
      | exact covers_single h' hc

/-! ### Words -/

theorem scan_nameStart {c : Char} (h : isNameStart c) (t : Text) :
    scan c t = ((word (c :: t)).1, (word (c :: t)).2 - 1) := by
  have hb : isBlank c = false := by
    refine Bool.eq_false_iff.mpr fun hb => ?_
    simp only [isBlank, Bool.or_eq_true, beq_iff_eq, or_assoc] at hb
    rcases hb with rfl | rfl | rfl | rfl <;> cases h
  unfold scan
  rw [if_neg (ne_true_of_eq_false hb), if_pos h]

theorem word_ne_error (t : Text) : (word t).1 ≠ .error := by
  have hk : ∀ e ∈ keywords, e.2 ≠ .error := by decide
  unfold word keyword?
  cases h : keywords.find? fun e => startsWithWord e.1.toList t with
  | none => simp
  | some e =>
      have := hk e (List.mem_of_find?_eq_some h)
      dsimp only [Option.map_some]
      split
      · exact this
      · simp

theorem isAlpha_of_isLower_toLower {c : Char} (h : c.toLower.isLower) : c.isAlpha := by
  by_cases hu : c.val ≥ 'A'.val ∧ c.val ≤ 'Z'.val
  · exact Bool.or_eq_true_iff.mpr (.inl (decide_eq_true hu))
  · unfold Char.toLower at h
    rw [dif_neg hu] at h
    exact Bool.or_eq_true_iff.mpr (.inr h)

/-- The letters of keywords other than `s` and `k` are cases of ASCII letters only. -/
theorem isNameStart_of_keyword {w : String} {k : TokenKind} {c : Char} {u : Text}
    (h : (w, k) ∈ keywords) (hw : (c :: u).map foldCase = w.toList) : isNameStart c := by
  have hl : ∀ e ∈ keywords,
      e.1.toList.head?.all fun d => d != 's' && d != 'k' && d.isLower := by decide
  obtain ⟨hs, hk, hl⟩ : foldCase c ≠ 's' ∧ foldCase c ≠ 'k' ∧ (foldCase c).isLower := by
    simpa [← hw, and_assoc] using hl _ h
  unfold foldCase at hs hk hl
  split at hs
  · exact absurd rfl hs
  · rename_i hn
    rw [if_neg hn] at hk hl
    split at hk
    · exact absurd rfl hk
    · rename_i hn
      rw [if_neg hn] at hl
      exact Bool.or_eq_true_iff.mpr (.inl (isAlpha_of_isLower_toLower hl))

theorem covers_keyword {w : String} {k : TokenKind} {u t : Text} {c : Char}
    (h : (w, k) ∈ keywords) (hw : u.map foldCase = w.toList) (hu : u <+: c :: t) :
    Covers (scan c t) k u.length := by
  obtain ⟨r, hr⟩ := hu
  have hk : ∀ e ∈ keywords, 0 < e.1.length ∧ e.2 ≠ .error := by decide
  obtain ⟨h0, hk⟩ := hk _ h
  have hl : u.length = w.length := by rw [← String.length_toList, ← hw, List.length_map]
  have hn : isNameStart c := by
    obtain ⟨d, v, rfl⟩ := List.exists_cons_of_length_pos (hl ▸ h0)
    obtain ⟨rfl, -⟩ := List.cons.inj hr
    exact isNameStart_of_keyword h hw
  have he := word_ne_error (c :: t)
  obtain ⟨j, m, hm, hj⟩ :=
    keyword?_longest h (startsWithWord_iff.mpr ⟨u, r, hr.symm, hw⟩)
  rw [scan_nameStart hn, hl]
  rw [word, hm] at he ⊢
  dsimp only at he h0 ⊢
  split at he
  all_goals rename_i hle
  · rw [if_pos hle]
    rcases hj with hj | ⟨rfl, rfl⟩
    · exact .longer he (Nat.le_sub_one_of_lt hj)
    · exact .exact rfl (Nat.sub_add_cancel h0)
  · rw [if_neg hle]
    exact .longer he (by dsimp only; omega)

theorem covers_ident {u t : Text} {c : Char} (hc : isNameStart c) (hp : ∀ d ∈ u, isNamePart d)
    (hu : u <+: t) : Covers (scan c t) .ident (u.length + 1) := by
  obtain ⟨r, rfl⟩ := hu
  have hn : isNamePart c := by
    simp only [isNameStart, isNamePart, Char.isAlphanum, Bool.or_eq_true] at hc ⊢
    exact hc.imp_left .inl
  have hl : u.length + 1 ≤ ((c :: (u ++ r)).takeWhile isNamePart).length := by
    rw [← List.cons_append, List.takeWhile_append_of_pos (by simpa [hn] using hp)]
    simp
  have hk : ∀ e ∈ keywords, e.2.isKeyword ∧ e.2 ≠ .error := by decide
  rw [scan_nameStart hc, word]
  cases h : keyword? (c :: (u ++ r)) with
  | none => exact .of_le rfl (by decide) (by dsimp only; omega)
  | some e =>
      obtain ⟨j, m⟩ := e
      obtain ⟨e, he, h⟩ := Option.map_eq_some_iff.mp h
      obtain ⟨rfl, -⟩ := Prod.mk.inj h
      obtain ⟨hi, he⟩ := hk _ (List.mem_of_find?_eq_some he)
      dsimp only
      split
      · obtain hm | hm := Nat.lt_or_ge (u.length + 1) m
        · exact .longer he (Nat.le_sub_one_of_lt hm)
        · exact .keyword rfl hi (by dsimp only; omega)
      · exact .of_le rfl (by decide) (by dsimp only; omega)

/-! ### Numbers -/

theorem not_of_isDigit {c : Char} (h : c.isDigit) :
    isBlank c = false ∧ isNameStart c = false ∧ c ≠ '.' ∧ c.toLower = c := by
  have hd := h
  simp only [Char.isDigit, Bool.and_eq_true, decide_eq_true_eq] at hd
  have hu : ¬ 'A'.val ≤ c.val := fun hu => absurd (UInt32.le_trans hu hd.2) (by decide)
  have hl : ¬ 'a'.val ≤ c.val := fun hl => absurd (UInt32.le_trans hl hd.2) (by decide)
  refine ⟨Bool.eq_false_iff.mpr fun hb => ?_, Bool.eq_false_iff.mpr fun hn => ?_, ?_, ?_⟩
  · simp only [isBlank, Bool.or_eq_true, beq_iff_eq, or_assoc] at hb
    rcases hb with rfl | rfl | rfl | rfl <;> cases h
  · unfold isNameStart Char.isAlpha Char.isUpper Char.isLower at hn
    simp only [Bool.or_eq_true, Bool.and_eq_true, decide_eq_true_eq, beq_iff_eq, ge_iff_le, hu, hl,
      false_and, or_self,
      false_or] at hn
    exact absurd h (hn ▸ Bool.false_ne_true)
  · rintro rfl
    cases h
  · unfold Char.toLower
    exact dif_neg fun hc => hu hc.1

theorem scan_digit {c : Char} (h : c.isDigit) (t : Text) : scan c t = number t := by
  obtain ⟨hb, hn, -⟩ := not_of_isDigit h
  unfold scan
  rw [if_neg (ne_true_of_eq_false hb), if_neg (ne_true_of_eq_false hn), if_pos h]

theorem number_ne_error (t : Text) : (number t).1 ≠ .error := by
  fun_cases number t <;> simp [*]

theorem covers_int {u t : Text} {c : Char} (hc : c.isDigit) (hp : ∀ d ∈ u, d.isDigit)
    (hu : u <+: t) : Covers (scan c t) .intLiteral (u.length + 1) := by
  obtain ⟨r, rfl⟩ := hu
  have hl := runLength_append hp r
  have he := number_ne_error (u ++ r)
  rw [scan_digit hc]
  revert he
  fun_cases number (u ++ r) <;> intro he
  all_goals first
    | exact .of_le rfl (by decide) (by dsimp only; omega)
    | exact .longer he (by dsimp only; omega)

section

variable {u r : Text} (hu : ∀ c ∈ u, c.isDigit) (hr : ∀ c ∈ r.head?, c.isDigit = false)
include hu hr

theorem runLength_digits : runLength Char.isDigit (u ++ r) = u.length := by
  rw [runLength_append hu]
  cases r with
  | nil => rfl
  | cons c r => simp [runLength, hr c rfl]

theorem drop_digits : (u ++ r).drop (runLength Char.isDigit (u ++ r)) = r := by
  rw [runLength_digits hu hr, List.drop_left]

end

theorem covers_decimal {u v t : Text} {c : Char} (hc : c.isDigit) (hu : ∀ d ∈ u, d.isDigit)
    (h0 : v ≠ []) (hv : ∀ d ∈ v, d.isDigit) (ht : u ++ '.' :: v <+: t) :
    Covers (scan c t) .decimalLiteral (u.length + 1 + (v.length + 1)) := by
  obtain ⟨r, rfl⟩ := ht
  have h0 := List.length_pos_iff.mpr h0
  rw [List.append_assoc, List.cons_append]
  have hr : ∀ c ∈ ('.' :: (v ++ r)).head?, c.isDigit = false := by rintro _ ⟨⟩; rfl
  have hl := runLength_append hv r
  have hn : number (u ++ '.' :: (v ++ r)) =
      (.decimalLiteral, u.length + 1 + runLength Char.isDigit (v ++ r)) := by
    rw [number, drop_digits hu hr, runLength_digits hu hr]
    exact if_neg (by omega)
  rw [scan_digit hc, hn]
  exact .of_le rfl (by decide) (by dsimp only; omega)

theorem covers_dateTime {u v t : Text} {c : Char} (hc : c.isDigit) (hu : ∀ d ∈ u, d.isDigit)
    (hv : v.map Char.toLower ∈ [['d'], ['d', 't'], ['t']]) (ht : u ++ v <+: t) :
    Covers (scan c t) .dateTimeLiteral (u.length + 1 + v.length) := by
  obtain ⟨r, rfl⟩ := ht
  rw [List.append_assoc, scan_digit hc]
  have hl : v ≠ [] := by rintro rfl; simp at hv
  obtain ⟨x, v, rfl⟩ := List.exists_cons_of_ne_nil hl
  simp only [List.map_cons, List.mem_cons, List.cons.injEq, List.map_eq_nil_iff,
    List.not_mem_nil, or_false] at hv
  have hx : x.toLower = 'd' ∨ x.toLower = 't' := by tauto
  have hd : ∀ d ∈ (x :: (v ++ r)).head?, d.isDigit = false := by
    rintro d ⟨⟩
    refine Bool.eq_false_iff.mpr fun hd => ?_
    rw [(not_of_isDigit hd).2.2.2] at hx
    rcases hx with rfl | rfl <;> cases hd
  have hp : x ≠ '.' := by rintro rfl; revert hx; decide
  rw [List.cons_append, number, drop_digits hu hd, runLength_digits hu hd]
  split
  · rename_i hq
    exact absurd (List.cons.inj hq).1 hp
  · rename_i hq
    obtain ⟨rfl, rfl⟩ := List.cons.inj hq
    rcases hv with ⟨hx, rfl⟩ | ⟨hx, hy⟩ | ⟨hx, rfl⟩
    · rw [if_pos hx]
      refine .of_le ?_ (by decide) ?_
      all_goals
        split
        · split <;> simp
        · simp
    · obtain ⟨y, rfl, hy'⟩ := List.map_eq_singleton_iff.mp hy
      rw [if_pos hx]
      dsimp only [List.cons_append]
      rw [if_pos hy']
      exact .exact rfl rfl
    · rw [if_neg (by rw [hx]; decide), if_pos hx]
      exact .exact rfl rfl
  · rename_i hq
    cases hq

/-! ### All rules -/

theorem scan_slash_star (t : Text) : scan '/' ('*' :: t) =
    match commentLength? t with
    | some n => (.blockComment, 1 + n)
    | none => (.error, 1 + t.length) := rfl

theorem scan_hash (d : Char) (t : Text) : scan '#' (d :: t) =
    if d.isAlpha then (.directive, 1 + lineLength t) else (.error, 0) := rfl

theorem scan_return {c : Char} (hc : c = '\r') (t : Text) : (scan c t).1 = .newline := by
  fun_cases scan c t
  all_goals first
    | rfl
    | exact absurd hc (by decide)
    | simp_all [isBlank, isNameStart]

theorem covers_newline {u t : Text} {c : Char} (hn : u ∈ [['\r', '\n'], ['\n'], ['\r']])
    (hu : u <+: c :: t) : Covers (scan c t) .newline u.length := by
  obtain ⟨r, hr⟩ := hu
  simp only [List.mem_cons, List.not_mem_nil, or_false] at hn
  rcases hn with rfl | rfl | rfl
  all_goals obtain ⟨rfl, rfl⟩ := List.cons.inj hr
  · exact .exact rfl rfl
  · exact .exact rfl rfl
  · exact .of_le (scan_return rfl r) (by decide) (Nat.le_add_left 1 _)

/-- Where a rule matches a beginning of the text, the scanner takes just that or something longer. -/
theorem covers_of_matches {k : TokenKind} {u t : Text} {c : Char} (h : Matches k u)
    (ht : u <+: c :: t) (hc : ¬ Unclosed (c :: t)) : Covers (scan c t) k u.length := by
  -- One case for each rule: its shape fixes the branch of the scanner, unless a longer rule takes over.
  cases h with
  | mark hk => exact covers_mark hk ht hc
  | keyword hk hw => exact covers_keyword hk hw ht
  | newline hn => exact covers_newline hn ht
  | whitespace h0 hb =>
      obtain ⟨d, v, rfl⟩ := List.exists_cons_of_ne_nil h0
      obtain ⟨rfl, r, rfl⟩ := List.cons_prefix_cons.mp ht
      obtain ⟨hd, hv⟩ := List.forall_mem_cons.mp hb
      have hs : scan d (v ++ r) = (.whitespace, runLength isBlank (v ++ r)) := by
        unfold scan; rw [if_pos hd]
      rw [hs, runLength_append hv]
      exact .of_le rfl (by decide) (by rw [List.length_cons]; dsimp only; omega)
  | lineComment hb =>
      obtain ⟨r, hr⟩ := ht
      obtain ⟨rfl, rfl⟩ := List.cons.inj hr
      refine .of_le rfl (by decide) ?_
      show _ ≤ 1 + lineLength (_ ++ r) + 1
      rw [lineLength_append hb, List.length_cons, List.length_cons]
      omega
  | @blockComment u hn =>
      obtain ⟨rfl, r, rfl⟩ := List.cons_prefix_cons.mp ht
      rw [List.cons_append, List.append_assoc, List.cons_append, List.cons_append, List.nil_append,
        scan_slash_star, commentLength?_append hn]
      exact .exact rfl (by simp; omega)
  | directive hd hb =>
      obtain ⟨rfl, r, rfl⟩ := List.cons_prefix_cons.mp ht
      rw [List.cons_append, scan_hash, if_pos hd]
      refine .of_le rfl (by decide) ?_
      rw [lineLength_append hb, List.length_cons, List.length_cons]
      dsimp only
      omega
  | int h0 hu =>
      obtain ⟨d, v, rfl⟩ := List.exists_cons_of_ne_nil h0
      obtain ⟨rfl, ht'⟩ := List.cons_prefix_cons.mp ht
      obtain ⟨hd, hv⟩ := List.forall_mem_cons.mp hu
      exact covers_int hd hv ht'
  | decimal h0 hu h1 hv =>
      obtain ⟨d, u, rfl⟩ := List.exists_cons_of_ne_nil h0
      obtain ⟨rfl, ht'⟩ := List.cons_prefix_cons.mp ht
      obtain ⟨hd, hu⟩ := List.forall_mem_cons.mp hu
      rw [List.length_append]
      exact covers_decimal hd hu h1 hv ht'
  | dateTime h0 hu hv =>
      obtain ⟨d, u, rfl⟩ := List.exists_cons_of_ne_nil h0
      obtain ⟨rfl, ht'⟩ := List.cons_prefix_cons.mp ht
      obtain ⟨hd, hu⟩ := List.forall_mem_cons.mp hu
      rw [List.length_append]
      exact covers_dateTime hd hu hv ht'
  | string hq =>
      obtain ⟨rfl, r, rfl⟩ := List.cons_prefix_cons.mp ht
      obtain ⟨n, hn, hl⟩ := stringLength?_append hq r
      rw [List.append_assoc, List.cons_append, List.nil_append, scan_quote, hn]
      exact .of_le rfl (by decide) (by simpa using hl)
  | quotedIdent hq =>
      obtain ⟨rfl, r, rfl⟩ := List.cons_prefix_cons.mp ht
      rw [List.append_assoc, List.cons_append, List.nil_append, scan_doubleQuote,
        quotedLength?_append hq]
      exact .exact rfl (by simp)
  | ident hn hp =>
      obtain ⟨rfl, ht'⟩ := List.cons_prefix_cons.mp ht
      exact covers_ident hn hp ht'

/-! ## What is read is what a rule matches -/

theorem matches_word {t : Text} {c : Char} (hc : isNameStart c) :
    Matches (word (c :: t)).1 (c :: t.take ((word (c :: t)).2 - 1)) := by
  have hk : ∀ e ∈ keywords, 0 < e.1.length := by decide
  have hn : isNamePart c := by
    simp only [isNameStart, isNamePart, Char.isAlphanum, Bool.or_eq_true] at hc ⊢
    exact hc.imp_left .inl
  have hi : Matches .ident (c :: t.take (((c :: t).takeWhile isNamePart).length - 1)) := by
    rw [List.takeWhile_cons_of_pos hn, List.length_cons, Nat.add_sub_cancel,
      ← List.prefix_iff_eq_take.mp (List.takeWhile_prefix isNamePart)]
    exact .ident hc fun d hd => List.mem_takeWhile_imp hd
  rw [word]
  cases h : keyword? (c :: t) with
  | none => exact hi
  | some e =>
      obtain ⟨e, he, rfl⟩ := Option.map_eq_some_iff.mp h
      dsimp only
      split
      · have hs := List.find?_some he
        obtain ⟨u, r, hr, hu⟩ := startsWithWord_iff.mp hs
        have hm := List.mem_of_find?_eq_some he
        have hl : u.length = e.1.length := by rw [← String.length_toList, ← hu, List.length_map]
        obtain ⟨d, v, rfl⟩ := List.exists_cons_of_length_pos (hl ▸ hk e hm)
        obtain ⟨rfl, rfl⟩ := List.cons.inj hr
        have ht : (v.append r).take v.length = v := List.take_left
        rw [← hl, List.length_cons, Nat.add_sub_cancel, ht]
        exact .keyword hm hu
      · exact hi

theorem matches_number {t : Text} {c : Char} (hc : c.isDigit) :
    Matches (number t).1 (c :: t.take (number t).2) := by
  obtain ⟨u, r, rfl, -, hu, hr⟩ := exists_runLength Char.isDigit t
  have hd : ∀ d ∈ c :: u, d.isDigit := List.forall_mem_cons.mpr ⟨hc, hu⟩
  have hi : Matches .intLiteral (c :: (u ++ r).take u.length) := by
    rw [List.take_left]
    exact .int nofun hd
  have ht (v w : Text) (h : v.map Char.toLower ∈ [['d'], ['d', 't'], ['t']]) :
      Matches .dateTimeLiteral (c :: (u ++ (v ++ w)).take (u.length + v.length)) := by
    rw [← List.append_assoc, ← List.length_append, List.take_left, ← List.cons_append]
    exact .dateTime (List.cons_ne_nil c u) hd h
  rw [number, drop_digits hu hr, runLength_digits hu hr]
  split
  · rename_i r
    obtain ⟨v, w, rfl, hl, hv, -⟩ := exists_runLength Char.isDigit r
    rw [hl]
    dsimp only
    split
    · exact hi
    · rename_i h0
      have ht : (u ++ '.' :: (v ++ w)).take (u.length + 1 + v.length) = u ++ '.' :: v := by
        rw [← List.cons_append, ← List.append_assoc, List.take_left' (by simp; omega)]
      rw [ht, ← List.cons_append]
      exact .decimal (List.cons_ne_nil c u) hd (mt (congrArg List.length) h0) hv
  · rename_i d r _
    split
    · rename_i hx
      split
      · rename_i e r
        split
        · rename_i hy
          exact ht [d, e] r (by simp [hx, hy])
        · exact ht [d] _ (by simp [hx])
      · exact ht [d] [] (by simp [hx])
    · split
      · rename_i hx
        exact ht [d] r (by simp [hx])
      · exact hi
  · exact hi

/-- Where something readable is read, a rule matches just that. -/
theorem matches_scan {c : Char} {t : Text} (h : (scan c t).1 ≠ .error) :
    Matches (scan c t).1 (c :: t.take (scan c t).2) := by
  have hl (t : Text) : ∀ d ∈ t.take (lineLength t), isLineBreak d = false := fun d hd => by
    rw [lineLength, runLength, ← List.prefix_iff_eq_take.mp (List.takeWhile_prefix _)] at hd
    simpa using List.mem_takeWhile_imp hd
  revert h
  fun_cases scan c t <;> intro h
  case case1 hb => 
    refine .whitespace (List.cons_ne_nil _ _) (List.forall_mem_cons.mpr ⟨hb, fun d hd => ?_⟩)
    rw [runLength, ← List.prefix_iff_eq_take.mp (List.takeWhile_prefix _)] at hd
    exact List.mem_takeWhile_imp hd
  case case2 hn _ => exact matches_word hn
  case case3 hd => exact matches_number hd
  case case4 | case5 | case6 => exact .newline (by simp)
  case case7 r _ _ _ =>
    rw [Nat.add_comm, List.take_succ_cons]
    exact .lineComment (hl r)
  case case8 r n hn _ _ _ =>
    obtain ⟨u, r, rfl, rfl, hu⟩ := of_commentLength? hn
    have ht : (u ++ '*' :: '/' :: r).take (u.length + 2) = u ++ ['*', '/'] := by
      simp [List.take_append]
    rw [Nat.add_comm, List.take_succ_cons, ht]
    exact .blockComment hu
  case case12 d r hd _ _ _ =>
    rw [Nat.add_comm, List.take_succ_cons]
    exact .directive hd (hl r)
  case case40 n _ _ _ hs =>
    obtain ⟨u, r, rfl, rfl, hu⟩ := of_stringLength? hs
    have ht : (u ++ '\'' :: r).take (u.length + 1) = u ++ ['\''] := by simp [List.take_append]
    rw [hs]
    dsimp only
    rw [ht]
    exact .string hu
  case case42 n _ _ _ hs =>
    obtain ⟨u, r, rfl, rfl, hu⟩ := of_quotedLength? hs
    have ht : (u ++ '"' :: r).take (u.length + 1) = u ++ ['"'] := by simp [List.take_append]
    rw [hs]
    dsimp only
    rw [ht]
    exact .quotedIdent hu
  case case41 hs | case43 hs =>
    rw [hs] at h
    exact absurd rfl h
  all_goals first
    | exact absurd rfl h
    | exact .mark (by simp [marks])

/-- A mark has one spelling. -/
theorem eq_of_mark {k : TokenKind} {u v : Text} (hv : (v, k) ∈ marks) (h : Matches k u) : u = v := by
  cases h with
  | mark hu =>
      have hm : marks.all fun e => marks.all fun f => e.2 != f.2 || e.1 == f.1 := by decide
      simpa using List.all_eq_true.mp (List.all_eq_true.mp hm _ hu) _ hv
  | keyword hw =>
      have hm : keywords.all fun e => marks.all fun f => e.2 != f.2 := by decide
      simpa using List.all_eq_true.mp (List.all_eq_true.mp hm _ hw) _ hv
  | _ => simp [marks] at hv

/-- What a rule for names matches. -/
theorem of_matches_name {k : TokenKind} {u : Text} (h : Matches k u) (hk : k.isName) :
    (k = .ident ∧ ∃ c v, u = c :: v ∧ isNameStart c ∧ ∀ d ∈ v, isNamePart d) ∨
      k = .quotedIdent ∧ ∃ v, u = '"' :: (v ++ ['"']) ∧ ∀ c ∈ v, c ≠ '"' ∧ isLineBreak c = false := by
  cases h with
  | mark h =>
      have hm : marks.all fun e => !e.2.isName := by decide
      have := List.all_eq_true.mp hm _ h
      simp [hk] at this
  | keyword h =>
      have hm : keywords.all fun e => !e.2.isName := by decide
      have := List.all_eq_true.mp hm _ h
      simp [hk] at this
  | ident hc hp => exact .inl ⟨rfl, _, _, rfl, hc, hp⟩
  | quotedIdent hq => exact .inr ⟨rfl, _, rfl, hq⟩
  | _ => cases hk

/-! ## Nothing else is unreadable -/

theorem not_matches_error {u : Text} (h : Matches .error u) : False := by
  cases h with
  | mark h => exact (by decide : ∀ e ∈ marks, e.2 ≠ .error) _ h rfl
  | keyword h => exact (by decide : ∀ e ∈ keywords, e.2 ≠ .error) _ h rfl

theorem scan_unclosed {c : Char} {t : Text} (h : Unclosed (c :: t)) :
    scan c t = (.error, t.length) := by
  obtain ⟨r, hr, hn⟩ := h
  obtain ⟨rfl, rfl⟩ := List.cons.inj hr
  rw [scan_slash_star, commentLength?_eq_none.mpr hn, List.length_cons, Nat.add_comm]

/-- How far something unreadable goes that is no comment. -/
theorem scan_error {c : Char} {t : Text} (h : (scan c t).1 = .error) (hc : ¬ Unclosed (c :: t)) :
    (scan c t).2 = if c ∈ ['\'', '"'] then lineLength t else 0 := by
  revert h
  fun_cases scan c t <;> intro h
  case case2 => exact absurd h (word_ne_error _)
  case case3 => exact absurd h (number_ne_error _)
  case case9 r hr _ _ _ => exact absurd ⟨r, rfl, commentLength?_eq_none.mp hr⟩ hc
  case case40 hs | case42 hs =>
    rw [hs] at h
    cases h
  case case41 hs | case43 hs => rw [hs]; rfl
  case case44 => exact (if_neg (by simp_all)).symm
  all_goals first
    | rfl
    | cases h

end Lexeme

/-- A rule matches the beginning of a text, none matches more of it, and of the rules that match as
much only that of identifiers stands back, behind a keyword. -/
structure Longest (k : TokenKind) (u t : Text) : Prop where
  matched : k.Matches u
  beginning : u <+: t
  longest : ∀ j v, TokenKind.Matches j v → v <+: t → v.length ≤ u.length
  preferred : ∀ j, TokenKind.Matches j u → j = k ∨ j = .ident ∧ k.isKeyword

/-- No rule matches the beginning of a text. -/
def Unmatched (t : Text) : Prop := ∀ k v, TokenKind.Matches k v → ¬ v <+: t

/-- What becomes an unreadable token at the beginning of a text: a comment that is never closed, up to
the end; a literal or quoted identifier that is not closed, up to the end of its line; otherwise one
character. -/
inductive Unreadable : Text → Text → Prop where
  | comment {t : Text} : Unclosed t → Unreadable t t
  | quote {c : Char} {t : Text} : Unmatched (c :: t) → c ∈ ['\'', '"'] →
      Unreadable (c :: t.takeWhile fun d => !isLineBreak d) (c :: t)
  | char {c : Char} {t : Text} : Unmatched (c :: t) → c ∉ ['\'', '"'] → Unreadable [c] (c :: t)

namespace Lexeme

theorem unmatched_of_error {c : Char} {t : Text} (h : (scan c t).1 = .error)
    (hc : ¬ Unclosed (c :: t)) : Unmatched (c :: t) := by
  intro k v hv ht
  cases covers_of_matches hv ht hc with
  | exact hk => exact not_matches_error (hk.symm.trans h ▸ hv)
  | longer he => exact he h
  | keyword _ hk => rw [h] at hk; cases hk

theorem unreadable_scan {c : Char} {t : Text} (h : (scan c t).1 = .error) :
    Unreadable (c :: t.take (scan c t).2) (c :: t) := by
  by_cases hc : Unclosed (c :: t)
  · rw [scan_unclosed hc, List.take_length]
    exact .comment hc
  · have hu := unmatched_of_error h hc
    rw [scan_error h hc]
    split
    · rename_i hq
      rw [lineLength, runLength, ← List.prefix_iff_eq_take.mp (List.takeWhile_prefix _)]
      exact .quote hu hq
    · rename_i hq
      exact .char hu hq

theorem longest_scan {c : Char} {t : Text} (h : (scan c t).1 ≠ .error) :
    Longest (scan c t).1 (c :: t.take (scan c t).2) (c :: t) := by
  have hc : ¬ Unclosed (c :: t) := fun hc => h (by rw [scan_unclosed hc])
  have hl : (c :: t.take (scan c t).2).length = (scan c t).2 + 1 := by
    rw [List.length_cons, List.length_take_of_le (scan_le c t)]
  have hp : c :: t.take (scan c t).2 <+: c :: t :=
    List.cons_prefix_cons.mpr ⟨rfl, List.take_prefix _ _⟩
  refine ⟨matches_scan h, hp, fun j v hv ht => ?_, fun j hj => ?_⟩
  · rw [hl]
    cases covers_of_matches hv ht hc with
    | exact _ hn | keyword _ _ hn => exact Nat.le_of_eq hn.symm
    | longer _ hn => exact Nat.le_succ_of_le hn
  · cases covers_of_matches hj hp hc with
    | exact hk => exact .inl hk.symm
    | longer _ hn => rw [hl] at hn; exact absurd hn (Nat.not_succ_le_self _)
    | keyword hi hk => exact .inr ⟨hi, hk⟩

end Lexeme

end AlRefactor
