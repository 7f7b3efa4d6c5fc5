import AlRefactor.Proofs.Token.Rules
import AlRefactor.Proofs.Token.Seams
import AlRefactor.Token.Stream

/-!
# The tokens of a text

The tokens cover a text without gaps, each is what the rules say of the rest of the text, and no
number is ever split.
-/

namespace AlRefactor

open Lexeme

/-- Tokens that are not empty follow one another from one offset to another. -/
def Tile : Nat → List Token → Nat → Prop
  | n, [], m => n = m
  | n, p :: ps, m => p.start = n ∧ p.start < p.stop ∧ Tile p.stop ps m

/-- What the rules say of a token at the beginning of a text. -/
def Token.Munches (p : Token) (rest : Text) : Prop :=
  if p.kind = .error then Unreadable p.text rest else Longest p.kind p.text rest

namespace Lexeme

theorem text_ne_nil {t : Text} {l : Lexeme} (h : l ∈ lex t) : l.text ≠ [] := by
  fun_induction lex t with
  | case1 => cases h
  | case2 c t s ih =>
      rcases List.mem_cons.mp h with rfl | h
      · exact List.cons_ne_nil _ _
      · exact ih h

theorem tile_place {ls : List Lexeme} (h : ∀ l ∈ ls, l.text ≠ []) (n : Nat) :
    Tile n (place n ls) (n + Text.size (ls.flatMap (·.text))) := by
  induction ls generalizing n with
  | nil => rfl
  | cons l ls ih =>
      obtain ⟨hl, hs⟩ := List.forall_mem_cons.mp h
      have h0 : 0 < l.text.size := Nat.pos_of_ne_zero (mt Text.size_eq_zero.mp hl)
      refine ⟨rfl, Nat.lt_add_of_pos_right h0, ?_⟩
      rw [List.flatMap_cons, Text.size_append, ← Nat.add_assoc]
      exact ih hs _

/-- Each lexeme is what the rules say of the text from it on. -/
theorem munches_lex {t : Text} {ls ms : List Lexeme} {l : Lexeme} (h : lex t = ls ++ l :: ms)
    (n : Nat) : Token.Munches ⟨l, n⟩ (l.text ++ ms.flatMap (·.text)) := by
  fun_induction lex t generalizing ls with
  | case1 => simp at h
  | case2 c t s =>
      rename_i ih
      cases ls with
      | cons k ls => exact ih (List.cons.inj h).2
      | nil =>
          obtain ⟨rfl, rfl⟩ := List.cons.inj h
          rw [flatMap_text_lex, List.cons_append, List.take_append_drop, Token.Munches]
          split
          · exact unreadable_scan ‹_›
          · exact longest_scan ‹_›

/-- A readable token is what the rule of its kind matches. -/
theorem matches_of_mem_lex {t : Text} {l : Lexeme} (h : l ∈ lex t) (hk : l.kind ≠ .error) :
    TokenKind.Matches l.kind l.text := by
  obtain ⟨ls, ms, hl⟩ := List.append_of_mem h
  have hm := munches_lex hl 0
  rw [Token.Munches, if_neg hk] at hm
  exact hm.matched

end Lexeme

namespace Lexer

theorem digits_of_matches {u : Text} (h : TokenKind.Matches .intLiteral u) :
    ∀ c ∈ u, c.isDigit := by
  cases h with
  | mark h => exact absurd rfl ((by decide : ∀ e ∈ TokenKind.marks, e.2 ≠ .intLiteral) _ h)
  | keyword h => exact absurd rfl ((by decide : ∀ e ∈ keywords, e.2 ≠ .intLiteral) _ h)
  | int _ hd => exact hd

/-- The rules never leave a dot at the end of a number. -/
theorem not_swallowsDot (c : Char) (t : Text) (n : Nat) :
    Token.swallowsDot ⟨⟨(scan c t).1, c :: t.take (scan c t).2⟩, n⟩ = false := by
  refine Bool.eq_false_iff.mpr fun h => ?_
  simp only [Token.swallowsDot, Bool.and_eq_true, Bool.or_eq_true, beq_iff_eq,
    decide_eq_true_eq, List.all_eq_true] at h
  obtain ⟨⟨⟨hk, hs⟩, hl⟩, hd⟩ := h
  have hc : c.isDigit := by
    cases ht : t.take (scan c t).2 with
    | nil =>
        rw [ht] at hs hl
        obtain rfl := Option.some.inj hl
        exact absurd hs (by decide)
    | cons d u => exact hd c (by rw [ht, List.dropLast_cons_cons]; exact List.mem_cons_self)
  -- So this is a number, and numbers are readable.
  have he : (scan c t).1 ≠ .error := scan_digit hc t ▸ number_ne_error t
  have hm := matches_scan he
  rw [hk.resolve_right he] at hm
  exact absurd (digits_of_matches hm '.' (List.mem_of_getLast? hl)) (by decide)

/-- While nothing waits, a token is what the rules make of the rest. -/
theorem next?_eq_read? {l : Lexer} (h : l.pending = []) : l.next? = l.read? := by
  rw [next?, h]
  cases hr : l.read? with
  | none => rfl
  | some s =>
      unfold read? at hr
      split at hr
      · cases hr
      · cases hr
        exact congrArg some (if_neg (ne_true_of_eq_false (not_swallowsDot ..)))

theorem run_spec (l : Lexer) (h : l.pending = []) :
    l.run.map (·.1) = place l.position (lex l.rest) ∧ ∀ s ∈ l.run, s.2.pending = [] := by
  fun_induction run l with
  | case1 l hn =>
      rw [next?_eq_read? h, read?] at hn
      split at hn
      · rename_i hr
        rw [hr, lex]
        exact ⟨rfl, List.forall_mem_nil _⟩
      · cases hn
  | case2 l t m hn _ ih =>
      rw [next?_eq_read? h, read?] at hn
      split at hn
      · cases hn
      · rename_i hr
        cases hn
        obtain ⟨hp, hs⟩ := ih h
        rw [hr, lex, List.map_cons, hp]
        exact ⟨rfl, List.forall_mem_cons.mpr ⟨h, hs⟩⟩

end Lexer

/-- The lexer is maximal munch: the tokens of a text cover it without gaps, from character to
character; a readable one is the longest text that a rule matches there, as a keyword rather than as
an identifier; an unreadable one stands where no rule matches or where a comment is never closed. No
number is split, so no token ever waits for its turn. -/
theorem tokens_munch (t : Text) :
    Tile 0 t.tokens t.size ∧
      (∀ p ∈ t.tokens, t.isBoundary p.start ∧ t.isBoundary p.stop ∧
        ∃ rest, t.drop? p.start = some rest ∧ p.Munches rest) ∧
      (Lexer.start t).run.map (·.1) = t.tokens ∧
      ∀ s ∈ (Lexer.start t).run, s.2.pending = [] := by
  refine ⟨?_, fun p hp => ?_, Lexer.run_spec _ rfl⟩
  · have h := tile_place (fun l => text_ne_nil (t := t) (l := l)) 0
    rwa [flatMap_text_lex, Nat.zero_add] at h
  · obtain ⟨hb, he⟩ := Text.isBoundary_token hp
    obtain ⟨ks, ms, hl, hn⟩ := exists_of_mem_place hp
    have ht := flatMap_text_lex t
    rw [hl, List.flatMap_append, List.flatMap_cons] at ht
    refine ⟨hb, he, _, ?_, munches_lex hl p.start⟩
    rw [← hn, Nat.zero_add, ← ht, Text.drop?_append]

/-- A range of numbers, a string literal that falls back to its last closing quote, and a comment that
is never closed. -/
example : ((Text.tokens "1..5'a''b /*/".toList).map fun p => (p.kind, String.ofList p.text)) =
    [(.intLiteral, "1"), (.dotDot, ".."), (.intLiteral, "5"), (.stringLiteral, "'a'"),
     (.error, "'b /*/")] := by decide +kernel

end AlRefactor
