import AlRefactor.Proofs.Text.Positions
import AlRefactor.Proofs.Token.Seams

/-!
# Tokens and line breaks

A token that ends with a carriage return takes a line feed behind it along. So a line and a column can
stand for each end of a token.
-/

namespace AlRefactor

namespace Lexeme

open Text

variable {c : Char} {t : Text} {n : Nat}

theorem not_severs_of_unbroken (hc : isLineBreak c = false) (h : Unbroken t n) :
    ¬ Severs (c :: t.take n) (t.drop n) := by
  rintro ⟨u, v, hu, _⟩
  have hr : '\r' ∈ c :: t.take n := hu ▸ List.mem_append_right u (List.mem_singleton_self _)
  have hb : isLineBreak '\r' = false := by
    rcases List.mem_cons.mp hr with rfl | hr
    · exact hc
    · exact h _ hr
  cases hb

/-- The last character of a comment is a slash. -/
theorem take_commentLength? (h : commentLength? t = some n) : ∃ u, t.take n = u ++ ['/'] := by
  fun_induction commentLength? t generalizing n with
  | case1 => cases h
  | case2 t => cases h; exact ⟨['*'], rfl⟩
  | case3 c t _ ih =>
      obtain ⟨m, hm, rfl⟩ := Option.map_eq_some_iff.mp h
      obtain ⟨u, hu⟩ := ih hm
      exact ⟨c :: u, by rw [List.take_succ_cons, hu]; rfl⟩

/-- No token ends between the characters of a `\r\n`. -/
theorem not_severs_scan (c : Char) (t : Text) :
    ¬ Severs (c :: t.take (scan c t).2) (t.drop (scan c t).2) := by
  have hline : ∀ r, Unbroken r (lineLength r) := fun r => unbroken_runLength rfl rfl r
  have hlast : ∀ {a : Text} {d : Char} (b : Text), d ≠ '\r' → ¬ Severs (a ++ [d]) b := by
    rintro a d b hd ⟨u, v, hu, _⟩
    exact hd (List.cons.inj (List.append_inj' hu rfl).2).1
  -- A token has no line break at its end, is one as a whole, or has nothing behind it.
  fun_cases scan c t with
  | case1 c t hb =>
      exact not_severs_of_unbroken (not_isLineBreak rfl rfl hb) (unbroken_runLength rfl rfl t)
  | case2 c t _ hs =>
      exact not_severs_of_unbroken (not_isLineBreak rfl rfl hs) (unbroken_word _).tail
  | case3 c t _ _ hs =>
      exact not_severs_of_unbroken (not_isLineBreak rfl rfl hs) (unbroken_number t)
  | case4 r => exact hlast (a := ['\r']) (d := '\n') _ (by decide)
  | case5 t hn =>
      rintro ⟨_, v, _, hv⟩
      exact hn v hv
  | case6 t => exact hlast (a := []) (d := '\n') _ (by decide)
  | case7 r =>
      rw [Nat.add_comm]
      exact not_severs_of_unbroken rfl (unbroken_cons rfl (hline r))
  | case8 r n hn =>
      obtain ⟨u, hu⟩ := take_commentLength? hn
      dsimp only
      rw [Nat.add_comm, List.take_succ_cons, hu]
      exact hlast (a := '/' :: '*' :: u) _ (by decide)
  | case9 r hn =>
      dsimp only
      rw [List.drop_eq_nil_of_le (Nat.le_of_eq (Nat.add_comm ..))]
      rintro ⟨_, _, _, h⟩
      cases h
  | case12 d r hd =>
      rw [Nat.add_comm]
      exact not_severs_of_unbroken rfl (unbroken_cons (not_isLineBreak rfl rfl hd) (hline r))
  | case40 t n hs =>
      rw [hs]
      exact not_severs_of_unbroken rfl (unbroken_stringLength? hs)
  | case42 t n hs =>
      rw [hs]
      exact not_severs_of_unbroken rfl (unbroken_quotedLength? hs)
  | case41 t hs | case43 t hs =>
      rw [hs]
      exact not_severs_of_unbroken rfl (hline t)
  | case44 c t _ _ _ hr hn =>
      exact not_severs_of_unbroken (by simpa [isLineBreak] using ⟨hr, hn⟩) (by simp [Unbroken])
  | _ => exact not_severs_of_unbroken rfl (by simp [Unbroken, isLineBreak])

/-- No two tokens share a line break. -/
theorem not_severs_lex {ls ms : List Lexeme} (h : lex t = ls ++ ms) :
    ¬ Severs (ls.flatMap (·.text)) (ms.flatMap (·.text)) := by
  fun_induction lex t generalizing ls with
  | case1 =>
      obtain ⟨rfl, rfl⟩ := List.append_eq_nil_iff.mp h.symm
      rintro ⟨u, v, hu, _⟩
      simp at hu
  | case2 c t =>
      rename_i ih
      cases ls with
      | nil =>
          rintro ⟨u, v, hu, _⟩
          simp at hu
      | cons l ls =>
          obtain ⟨rfl, hr⟩ := List.cons.inj h
          have ht := flatMap_text_lex (t.drop (scan c t).2)
          rw [hr, List.append_eq, List.flatMap_append] at ht
          rw [List.flatMap_cons]
          intro hs
          rcases hs.of_append with ⟨hn, hs⟩ | hs
          · rw [hn, List.nil_append] at ht
            rw [ht] at hs
            exact not_severs_scan c t hs
          · exact ih hr hs

end Lexeme

namespace Text

variable {t : Text} {p : Token}

theorem addressable_token (h : p ∈ t.tokens) : t.Addressable p.start ∧ t.Addressable p.stop := by
  obtain ⟨ks, ms, hl, hn⟩ := Lexeme.exists_of_mem_place h
  rw [Nat.zero_add] at hn
  have ht := Lexeme.flatMap_text_lex t
  have hs := Lexeme.not_severs_lex hl
  have hl' : Lexeme.lex t = (ks ++ [p.toLexeme]) ++ ms := by rw [hl]; simp
  have he := Lexeme.not_severs_lex hl'
  rw [List.flatMap_append] at he
  rw [hl, List.flatMap_append, List.flatMap_cons] at ht
  refine ⟨⟨_, _, ht.symm, hn, hs⟩, ks.flatMap (·.text) ++ p.text, ms.flatMap (·.text), ?_, ?_, ?_⟩
  · rw [← ht, List.append_assoc]
  · rw [size_append, hn, Token.stop]
  · simpa using he

end Text

end AlRefactor
