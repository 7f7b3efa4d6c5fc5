import AlRefactor.Proofs.Text.Columns
import AlRefactor.Proofs.Token.Breaks
import AlRefactor.Proofs.Token.Joints
import AlRefactor.Proofs.Token.Stretches

/-!
# Texts of whole lines

Behind a token that is a line break the lexer starts anew: what stands in front of it does not depend on what follows,
and what follows becomes the same tokens as it would alone. Only a comment that is never closed takes a line break
into another token, so whole lines can be put into a text or taken out of it, and every other token stays as it was.
-/

namespace AlRefactor

/-- The same token in a text with so much more in front of it. -/
def Token.shift (n : Nat) (p : Token) : Token := { p with start := n + p.start }

/-- The text is empty or ends with a token that is a line break. -/
def Text.WholeLines (t : Text) : Prop := ∀ p ∈ t.tokens.getLast?, p.kind = .newline

instance (t : Text) : Decidable t.WholeLines := inferInstanceAs (Decidable (∀ p ∈ t.tokens.getLast?, _))

namespace Lexeme

open Text TokenKind

variable {a b t x : Text} {l : Lexeme} {L : List Lexeme}

theorem place_shift (n m : Nat) (ls : List Lexeme) :
    place (n + m) ls = (place m ls).map (·.shift n) := by
  induction ls generalizing m with
  | nil => rfl
  | cons l ls ih => rw [place, place, List.map_cons, ← ih, Token.shift, Nat.add_assoc]

theorem tokens_append (h : lex (a ++ b) = lex a ++ lex b) :
    (a ++ b).tokens = a.tokens ++ b.tokens.map (·.shift a.size) := by
  rw [tokens, h, place_append, flatMap_text_lex, Nat.zero_add, ← Nat.add_zero a.size, place_shift]
  rfl

theorem wholeLines_of_lex (h : lex t = L ++ [l]) : t.WholeLines ↔ l.kind = .newline := by
  rw [WholeLines, tokens, h, place_append, place, place, List.getLast?_concat]
  simp

/-- A line break that nothing else belongs to is a token of its own. -/
theorem lex_lineBreak (h : LineBreak x b) : lex (x ++ b) = ⟨.newline, x⟩ :: lex b := by
  cases h with
  | pair => exact lex_newline (.inr rfl) b
  | feed => exact lex_newline (.inl rfl) b
  | alone hb =>
      have hs : scan '\r' b = (.newline, 0) := by
        cases b with
        | nil => rfl
        | cons c b =>
            have hc : c ≠ '\n' := fun hc => hb (by rw [hc]; rfl)
            simp [scan, isBlank, isNameStart, hc]
      rw [List.singleton_append, lex_cons, hs]
      rfl

theorem lineBreaks_of_matches (h : Matches .newline x) : x ∈ [['\r', '\n'], ['\n'], ['\r']] := by
  cases h with
  | mark h => exact absurd rfl ((by decide : ∀ e ∈ marks, e.2 ≠ .newline) _ h)
  | keyword h => exact absurd rfl ((by decide : ∀ e ∈ keywords, e.2 ≠ .newline) _ h)
  | newline h => exact h

/-- A line break at the end of a text is not part of another one where no `\r\n` is cut in two. -/
theorem lineBreak_of_lex (h : lex t = L ++ [l]) (hl : l.kind = .newline) (hb : ¬ Severs t b) :
    LineBreak l.text b := by
  have hm := matches_of_mem_lex (show l ∈ lex t by rw [h]; simp) (by rw [hl]; decide)
  have ht := flatMap_text_lex t
  rw [h, List.flatMap_append, List.flatMap_singleton] at ht
  have hx := lineBreaks_of_matches (hl ▸ hm)
  simp only [List.mem_cons, List.not_mem_nil, or_false] at hx
  rcases hx with hx | hx | hx
  · exact hx ▸ .pair
  · exact hx ▸ .feed
  · refine hx ▸ .alone fun hn => hb ?_
    obtain ⟨v, rfl⟩ := List.head?_eq_some_iff.mp hn
    exact ⟨_, v, by rw [← ht, hx], rfl⟩

/-- Nothing unreadable has a line break in it but a comment that is left open. -/
theorem unbroken_of_unreadable (h : Unreadable x t) (hx : ¬ Unclosed x) : ∀ c ∈ x, isLineBreak c = false := by
  cases h with
  | comment hc => exact absurd hc hx
  | quote _ hq =>
      refine List.forall_mem_cons.mpr ⟨?_, fun d hd => by simpa using List.mem_takeWhile_imp hd⟩
      rcases List.mem_pair.mp hq with rfl | rfl <;> rfl
  | @char c t hu =>
      refine List.forall_mem_singleton.mpr (Bool.eq_false_iff.mpr fun hb => ?_)
      refine hu .newline [c] (.newline ?_) ⟨t, rfl⟩
      rcases isLineBreak_iff.mp hb with rfl | rfl <;> simp

/-- In front of a line break a line ends, if no `\r\n` is cut in two there. -/
theorem parted_lineBreak {u : Text} (h : LineBreak x b) (hu : ¬ Severs u x) : Parted u (x ++ b) := by
  obtain ⟨c, r, rfl, hc⟩ : ∃ c r, x = c :: r ∧ isLineBreak c := by
    cases h <;> exact ⟨_, _, rfl, rfl⟩
  refine ⟨.inr fun d hd => ?_, fun ⟨hr, hn⟩ => hu ?_⟩
  · rwa [← Option.some.inj hd]
  · obtain ⟨w, rfl⟩ := List.getLast?_eq_some_iff.mp hr
    exact ⟨w, r, rfl, by rw [Option.some.inj hn]⟩

/-- What the lexer makes of whole lines and of what follows them is what it makes of each alone. -/
theorem lex_append_wholeLines (ha : a.WholeLines) (hb : ¬ Severs a b) : lex (a ++ b) = lex a ++ lex b := by
  have ht := flatMap_text_lex a
  rcases List.eq_nil_or_concat' (lex a) with h | ⟨L, l, h⟩
  · rw [h] at ht ⊢
    obtain rfl : [] = a := ht
    rfl
  · have hl := (wholeLines_of_lex h).mp ha
    have hx := lineBreak_of_lex h hl hb
    have hn : l.text ≠ [] := text_ne_nil (t := a) (by rw [h]; simp)
    have hp := parted_lineBreak hx (by simpa using not_severs_lex h)
    rw [h, List.flatMap_append, List.flatMap_singleton] at ht
    rw [← ht] at h
    rw [← ht, List.append_assoc, lex_append_parted h rfl hn hp, lex_lineBreak hx, h, ← hl, List.append_assoc]
    rfl

end Lexeme

namespace Text

open Lexeme

variable {a b t : Text}

/-- A text that ends with a line break consists of whole lines, unless a comment is left open at its end. -/
theorem wholeLines_iff : t.WholeLines ↔
    (∀ c ∈ t.getLast?, isLineBreak c) ∧ ∀ l ∈ (lex t).getLast?, ¬ Unclosed l.text := by
  have ht := flatMap_text_lex t
  rcases List.eq_nil_or_concat' (lex t) with h | ⟨L, l, h⟩
  · rw [h] at ht ⊢
    obtain rfl : [] = t := ht
    simp [WholeLines, tokens, lex, place]
  have hm := munches_lex h 0
  have hn : l.text ≠ [] := text_ne_nil (t := t) (by rw [h]; simp)
  rw [h, List.flatMap_append, List.flatMap_singleton] at ht
  rw [wholeLines_of_lex h, h, List.getLast?_concat, ← ht, List.getLast?_append_of_ne_nil _ hn]
  constructor
  · intro hl
    rw [Token.Munches, if_neg (by rw [hl]; decide)] at hm
    have hx := lineBreaks_of_matches (hl ▸ hm.matched)
    have hb : ∀ c ∈ l.text, isLineBreak c := by
      simp only [List.mem_cons, List.not_mem_nil, or_false] at hx
      rcases hx with hx | hx | hx <;> simp [hx, isLineBreak]
    refine ⟨fun c hc => hb c (List.mem_of_getLast? hc), fun k hk hu => ?_⟩
    obtain rfl := Option.some.inj hk
    obtain ⟨r, hr, -⟩ := hu
    cases hb '/' (by rw [hr]; exact List.mem_cons_self)
  · rintro ⟨hb, hu⟩
    have hu := hu l rfl
    have hbreak : ¬ ∀ c ∈ l.text, isLineBreak c = false := fun hn' => by
      have := hb _ (List.getLast?_eq_some_getLast hn)
      rw [hn' _ (List.getLast_mem hn)] at this
      cases this
    rw [Token.Munches] at hm
    split at hm
    · exact absurd (unbroken_of_unreadable hm hu) hbreak
    · rcases unbroken_or hm.matched with hn' | hx | ⟨v, hv, -⟩
      · exact absurd hn' hbreak
      · exact ((hm.preferred _ (.newline hx)).resolve_right fun hi => by cases hi.1).symm
      · rw [show l.text = '/' :: '*' :: (v ++ ['*', '/']) from hv,
          show '/' :: '*' :: (v ++ ['*', '/']) = '/' :: '*' :: (v ++ ['*']) ++ ['/'] by simp,
          List.getLast?_concat] at hb
        cases hb _ rfl

/-- Behind whole lines a text has the tokens that it has alone, and whole lines that are put between two parts of a
text, or taken out from between them, leave all other tokens as they are. -/
theorem tokens_wholeLines (ha : a.WholeLines) (hb : ¬ Severs a b) :
    (a ++ b).tokens = a.tokens ++ b.tokens.map (·.shift a.size) ∧
      ∀ m : Text, m.WholeLines → ¬ Severs a m → ¬ Severs m b →
        (a ++ (m ++ b)).tokens =
          a.tokens ++ (m.tokens.map (·.shift a.size) ++ b.tokens.map (·.shift (a.size + m.size))) := by
  refine ⟨tokens_append (lex_append_wholeLines ha hb), fun m hm ham hmb => ?_⟩
  have h : ¬ Severs a (m ++ b) := by
    rintro ⟨u, v, hu, hv⟩
    cases m with
    | nil => exact hb ⟨u, v, hu, hv⟩
    | cons c m => exact ham ⟨u, m, hu, by rw [(List.cons.inj hv).1]⟩
  rw [tokens_append (lex_append_wholeLines ha h), tokens_append (lex_append_wholeLines hm hmb), List.map_append,
    List.map_map]
  have hs : (·.shift a.size) ∘ (·.shift m.size) = (Token.shift (a.size + m.size) ·) := by
    funext p
    simp [Token.shift, Nat.add_assoc]
  rw [hs]

/-- Lines with a comment that spans two of them, in front of one where a comment is left open. -/
theorem tokens_wholeLines_comment :
    let a : Text := "x /* y\n*/\r".toList
    let b : Text := "'z /*".toList
    a.WholeLines ∧ ¬ Severs a b ∧ (a ++ b).tokens = a.tokens ++ b.tokens.map (·.shift a.size) ∧
      ∀ m : Text, m.WholeLines → ¬ Severs a m → ¬ Severs m b →
        (a ++ (m ++ b)).tokens =
          a.tokens ++ (m.tokens.map (·.shift a.size) ++ b.tokens.map (·.shift (a.size + m.size))) := by
  intro a b
  have ha : a.WholeLines := by decide +kernel
  have hb : ¬ Severs a b := by
    rintro ⟨u, v, -, hv⟩
    have hv : "'z /*".toList = '\n' :: v := hv
    cases hv
  exact ⟨ha, hb, tokens_wholeLines ha hb⟩

/-- A comment that is left open takes the line break along. -/
example : ¬ WholeLines "x /* y\n".toList := by decide +kernel

end Text

end AlRefactor
