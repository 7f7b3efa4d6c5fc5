import AlRefactor.Proofs.Action.Bounds
import AlRefactor.Proofs.Action.Written

/-!
# Names made of the contents of literals

Whatever a literal says, the words of it that can stand in an identifier are joined to a text of one-byte characters, so
that it does not matter whether it is cut off by characters or by bytes. What is left of it never is empty and never
starts with a digit, and no keyword ends like the name of a label.
-/

namespace AlRefactor.Label

open Lexeme Text

/-! ## The base of a name -/

/-- A text cut off after 26 bytes, unless that splits a character. -/
def cut? (t : Text) : Option Text := t.take? (min 26 t.size)

/-- The base of a name where what is too long is cut off after bytes. -/
def cutBase? (content : Text) : Option Text :=
  (cut? (joined content)).bind fun name =>
    match name with
    | [] => cut? "Text"
    | c :: _ => if c.isDigit then cut? (("Text" : Text) ++ name) else some name

variable {t u : Text}

theorem cut?_of_all (h : ∀ c ∈ t, c.utf8Size = 1) : cut? t = some (t.take baseLength) := take?_of_all h 26

theorem size_of_cut? (h : cut? t = some u) : u.size ≤ 26 := by
  obtain ⟨_, -, hs⟩ := exists_of_take? h
  rw [hs]
  exact Nat.min_le_left _ _

/-- All characters of a base take one byte, so that none is split. -/
theorem cutBase?_eq (content : Text) : cutBase? content = some (base content) := by
  have hp : ∀ c ∈ "Text".toList ++ (joined content).take baseLength, c.utf8Size = 1 := fun _ =>
    utf8Size_of_mem_prefixed
  rw [cutBase?, cut?_of_all fun c => utf8Size_of_mem_joined, Option.bind_some, base,
    show (words content).flatMap wordName = joined content from rfl]
  generalize (joined content).take baseLength = name at hp
  cases name with
  | nil =>
      rw [List.append_nil] at hp
      exact cut?_of_all hp
  | cons d name =>
      dsimp only
      split
      · exact cut?_of_all hp
      · rfl

theorem size_base (content : Text) : (base content).size ≤ 26 := by
  obtain ⟨name, hn, hb⟩ := Option.bind_eq_some_iff.mp (cutBase?_eq content)
  split at hb
  · exact size_of_cut? hb
  · split at hb
    · exact size_of_cut? hb
    · rw [← Option.some.inj hb]
      exact size_of_cut? hn

/-! ## The whole name -/

/-- The base of the name of a label is not empty and has at most 26 bytes, and it is cut off between characters. With its
ending and the least number that makes it free it is one plain identifier, which nothing in the scope has for a name up
to case and quotes. -/
theorem name_free (content : Text) (callee : Option Text) (s : TakenNames) :
    (base content ≠ [] ∧ (base content).size ≤ 26 ∧ cutBase? content = some (base content)) ∧
      let name := fresh sameName s.all (base content ++ ending callee)
      FirstFree (fun name => s.contains name = false) (base content ++ ending callee) (s.all.length + 1) name ∧
        lex name = [⟨.ident, name⟩] ∧ ∀ t ∈ s.all, t.unquote.lower ≠ name.unquote.lower := by
  have hc (name : Text) : s.contains name = false ↔ ∀ t ∈ s.all, t.sameName name = false := by
    simp [TakenNames.contains]
  have hf := firstFree_fresh s.all (base content ++ ending callee)
  obtain ⟨hp, hi⟩ := isIdentifier_fresh s.all content callee
  refine ⟨⟨fun hb => ?_, size_base content, cutBase?_eq content⟩, hf.congr (hc _).symm fun _ => (hc _).symm,
    hp.lex_eq_ident (hp.isIdentifier_iff.mp hi), fun t ht h => ?_⟩
  · obtain ⟨d, u, hd, -⟩ := isPlainName_base content
    rw [hb] at hd
    cases hd
  · have := fresh_not_same s.all (base content ++ ending callee) t ht
    rw [sameName_iff.mpr h] at this
    cases this

/-- A literal of digits and signs only, where the name of it is taken in quotes and in other letters. -/
example :
    fresh sameName (TakenNames.all ⟨["textmsg".toList], [], ["\"TextMsg2\"".toList]⟩)
      (base "%1 - 42".toList ++ ending (some "Message".toList)) = "TextMsg3".toList := by
  decide +kernel

end AlRefactor.Label
