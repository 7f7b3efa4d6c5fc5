import AlRefactor.Proofs.Text.Slices
import AlRefactor.Token.Lexer

/-!
# What the lexer makes of a text

The lexemes of a text are the text cut into pieces, each of which is the slice at the place of its
token. None of them has the kind that stands for the end of the text.
-/

namespace AlRefactor

namespace Lexeme

/-! ## Pieces of a text -/

theorem flatMap_text_lex (t : Text) : (lex t).flatMap (·.text) = t := by
  fun_induction lex t with
  | case1 => rfl
  | case2 c t s ih => simp [ih]

theorem extract_place {text before : Text} {ls : List Lexeme}
    (h : text = before ++ ls.flatMap (·.text)) :
    ∀ t ∈ place before.size ls, text.extract t.span = t.text := by
  induction ls generalizing before with
  | nil => nofun
  | cons l ls ih =>
      rw [List.flatMap_cons] at h
      intro t ht
      rcases List.mem_cons.mp ht with rfl | ht
      · rw [h]; exact Text.extract_append ..
      · refine ih ?_ t (by rwa [Text.size_append])
        rw [h, List.append_assoc]

/-! ## The end of the text -/

theorem number_ne_eof (t : Text) : (number t).1 ≠ .eof := by
  fun_cases number t <;> simp [*]

theorem word_ne_eof (t : Text) : (word t).1 ≠ .eof := by
  have hk : ∀ entry ∈ keywords, entry.2 ≠ .eof := by decide
  unfold word keyword?
  cases h : keywords.find? fun entry => startsWithWord entry.1.toList t with
  | none => simp
  | some entry =>
      have := hk entry (List.mem_of_find?_eq_some h)
      dsimp only [Option.map_some]
      split
      · exact this
      · simp

theorem scan_ne_eof (c : Char) (t : Text) : (scan c t).1 ≠ .eof := by
  have hw := word_ne_eof (c :: t)
  have hn := number_ne_eof t
  unfold scan
  repeat' split
  all_goals first | assumption | simp

theorem lex_ne_eof (t : Text) : ∀ l ∈ lex t, l.kind ≠ .eof := by
  fun_induction lex t with
  | case1 => nofun
  | case2 c t s ih =>
      intro l hl
      rcases List.mem_cons.mp hl with rfl | hl
      · exact scan_ne_eof c t
      · exact ih l hl

theorem map_place (n : Nat) (ls : List Lexeme) : (place n ls).map (·.toLexeme) = ls := by
  induction ls generalizing n with
  | nil => rfl
  | cons l ls ih => simp [place, ih]

end Lexeme

namespace Text

theorem lexemes_significant (t : Text) :
    t.significant.map (·.toLexeme) = (Lexeme.lex t).filter (·.isSignificant) := by
  have h := Lexeme.map_place 0 (Lexeme.lex t)
  rw [significant, tokens, ← h, List.filter_map]
  rw [h]
  rfl

theorem extract_token {text : Text} {t : Token} (h : t ∈ text.tokens) :
    text.extract t.span = t.text :=
  @Lexeme.extract_place text [] (Lexeme.lex text) (Lexeme.flatMap_text_lex text).symm t h

/-- The grammar reads no layout, and nothing behind the end of the text. -/
theorem significant_kind {text : Text} {t : Token} (h : t ∈ text.significant) :
    t.kind.isTrivia = false ∧ t.kind ≠ .eof := by
  obtain ⟨ht, hs⟩ := List.mem_filter.mp h
  refine ⟨by simpa [Lexeme.isSignificant] using hs, ?_⟩
  refine Lexeme.lex_ne_eof text t.toLexeme ?_
  rw [← Lexeme.map_place 0 (Lexeme.lex text)]
  exact List.mem_map_of_mem ht

end Text

end AlRefactor
