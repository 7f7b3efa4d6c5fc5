import Mathlib.Data.List.TakeWhile
import AlRefactor.Proofs.Token.Lexing
import AlRefactor.Syntax.Arena

/-!
# The places of tokens

A significant token lies in its range with layout, which ends where that of the next one starts or
before.
-/

namespace AlRefactor

namespace Placed

variable {text : Text} {ps qs : List Placed} {q : Placed}

/-- Where the full range of the next significant token starts, or the text ends. -/
def nextFull (text : Text) (ps : List Placed) : Nat :=
  match ps.find? (!·.isLayout) with
  | some p => p.full.start
  | none => text.size

/-- Every significant token lies in its full range, behind which that of the next one starts. -/
def Ordered (text : Text) : List Placed → Prop
  | [] => True
  | p :: ps => (p.isLayout = false → p.full.start ≤ p.token.start ∧
      p.token.stop ≤ p.full.stop ∧ p.full.stop ≤ nextFull text ps) ∧ Ordered text ps

theorem Ordered.suffix (h : Ordered text ps) (hs : qs <:+ ps) : Ordered text qs := by
  obtain ⟨rs, rfl⟩ := hs
  induction rs with
  | nil => exact h
  | cons r rs ih => exact ih h.2

theorem next_of_isLayout (text : Text) (ps : List Placed) {p : Placed} (h : p.isLayout = true) :
    nextStart text (p :: ps) = nextStart text ps ∧ nextFull text (p :: ps) = nextFull text ps := by
  simp [nextStart, nextFull, h]

theorem next_of_significant (text : Text) (ps : List Placed) {p : Placed} (h : p.isLayout = false) :
    nextStart text (p :: ps) = p.token.start ∧ nextFull text (p :: ps) = p.full.start := by
  simp [nextStart, nextFull, h]

theorem next_of_dropWhile (text : Text) (h : ps.dropWhile (·.isLayout) = q :: qs) :
    nextStart text ps = q.token.start ∧ nextFull text ps = q.full.start := by
  have hq : ps.find? (!·.isLayout) = some q := by
    rw [List.find?_eq_head?_dropWhile_not]
    simp [h]
  simp [nextStart, nextFull, hq]

theorem start_le_stop (p : Placed) : p.token.start ≤ p.token.stop := Nat.le_add_right _ _

/-- The full range of the next token starts where the token does or before. -/
theorem Ordered.full_le_start (h : Ordered text ps) : nextFull text ps ≤ nextStart text ps := by
  induction ps with
  | nil => exact Nat.le_refl _
  | cons p ps ih =>
      cases hp : p.isLayout with
      | true =>
          obtain ⟨hs, hf⟩ := next_of_isLayout text ps hp
          rw [hs, hf]
          exact ih h.2
      | false =>
          obtain ⟨hs, hf⟩ := next_of_significant text ps hp
          rw [hs, hf]
          exact (h.1 hp).1

/-- What comes later starts later. -/
theorem Ordered.next_le (h : Ordered text ps) (hs : qs <:+ ps) :
    nextStart text ps ≤ nextStart text qs ∧ nextFull text ps ≤ nextFull text qs := by
  obtain ⟨rs, rfl⟩ := hs
  induction rs with
  | nil => exact ⟨Nat.le_refl _, Nat.le_refl _⟩
  | cons r rs ih =>
      have h : Ordered text (r :: (rs ++ qs)) := h
      obtain ⟨ihs, ihf⟩ := ih h.2
      cases hr : r.isLayout with
      | true =>
          obtain ⟨hs, hf⟩ := next_of_isLayout text (rs ++ qs) hr
          rw [List.cons_append, hs, hf]
          exact ⟨ihs, ihf⟩
      | false =>
          obtain ⟨hs, hf⟩ := next_of_significant text (rs ++ qs) hr
          obtain ⟨h₁, h₂, h₃⟩ := h.1 hr
          have := h.2.full_le_start
          have := r.start_le_stop
          rw [List.cons_append, hs, hf]
          omega

/-! ### The tokens of a text -/

/-- Where the next significant one of some tokens starts, or the text ends. -/
def startOf (text : Text) (ts : List Token) : Nat :=
  match ts.find? (!·.kind.isTrivia) with
  | some t => t.start
  | none => text.size

theorem startOf_layout {t : Token} {ts : List Token} (h : t.kind.isTrivia = true) :
    startOf text (t :: ts) = startOf text ts := by
  simp [startOf, h]

theorem startOf_significant {t : Token} {ts : List Token} (h : t.kind.isTrivia = false) :
    startOf text (t :: ts) = t.start := by
  simp [startOf, h]

theorem le_nextFull {leading : Nat} {ts : List Token} (h : leading ≤ startOf text ts) :
    leading ≤ nextFull text (ofTokens leading ts) := by
  induction ts with
  | nil => exact h
  | cons t ts ih =>
      cases ht : t.kind.isTrivia with
      | true =>
          rw [startOf_layout ht] at h
          rw [ofTokens, if_pos ht, (next_of_isLayout _ _ (p := ⟨t, t.span⟩) ht).2]
          exact ih h
      | false =>
          rw [ofTokens, if_neg (by simp [ht])]
          exact Nat.le_of_eq (next_of_significant _ _ (p := ⟨t, ⟨leading, _⟩⟩) ht).2.symm

theorem size_behind {n : Nat} {l : Lexeme} {ls : List Lexeme}
    (h : n + Text.size ((l :: ls).flatMap (·.text)) = text.size) :
    n + l.text.size + Text.size (ls.flatMap (·.text)) = text.size := by
  rwa [List.flatMap_cons, Text.size_append, ← Nat.add_assoc] at h

section Lexemes

variable {n : Nat} {ls : List Lexeme} (h : n + Text.size (ls.flatMap (·.text)) = text.size)
include h

theorem le_startOf : n ≤ startOf text (Lexeme.place n ls) := by
  induction ls generalizing n with
  | nil => exact Nat.le_of_eq h
  | cons l ls ih =>
      rw [Lexeme.place]
      cases hl : l.kind.isTrivia with
      | true =>
          rw [startOf_layout hl]
          exact Nat.le_trans (Nat.le_add_right _ _) (ih (size_behind h))
      | false => rw [startOf_significant hl]

/-- The layout behind a token ends before the next one starts. -/
theorem trailingStop_le : n ≤ trailingStop n (Lexeme.place n ls) ∧
    trailingStop n (Lexeme.place n ls) ≤ startOf text (Lexeme.place n ls) := by
  induction ls generalizing n with
  | nil => exact ⟨Nat.le_refl _, Nat.le_of_eq h⟩
  | cons l ls ih =>
      have hs := le_startOf h
      have hb := size_behind h
      rw [Lexeme.place] at hs ⊢
      rw [trailingStop]
      split
      · exact ⟨Nat.le_refl _, hs⟩
      · rename_i hk
        have hl : l.kind.isTrivia = true := by
          simp only [Bool.or_eq_true, not_or] at hk
          simpa using hk.1
        rw [startOf_layout hl]
        split
        · exact ⟨Nat.le_add_right _ _, le_startOf hb⟩
        · exact ⟨Nat.le_trans (Nat.le_add_right _ _) (ih hb).1, (ih hb).2⟩

theorem ordered_ofTokens {leading : Nat} (hl : leading ≤ startOf text (Lexeme.place n ls)) :
    Ordered text (ofTokens leading (Lexeme.place n ls)) := by
  induction ls generalizing n leading with
  | nil => exact trivial
  | cons l ls ih =>
      have hb := size_behind h
      rw [Lexeme.place] at hl ⊢
      rw [ofTokens]
      split
      · rename_i hk
        rw [startOf_layout hk] at hl
        exact ⟨fun hn => absurd (hn.symm.trans hk) Bool.false_ne_true, ih hb hl⟩
      · rename_i hk
        rw [startOf_significant (by simpa using hk)] at hl
        obtain ⟨ht, ht'⟩ := trailingStop_le hb
        exact ⟨fun _ => ⟨hl, ht, le_nextFull ht'⟩, ih hb ht'⟩

end Lexemes

theorem ordered_tokens (text : Text) : Ordered text (ofTokens 0 text.tokens) :=
  ordered_ofTokens (by rw [Lexeme.flatMap_text_lex, Nat.zero_add]) (Nat.zero_le _)

end Placed

end AlRefactor
