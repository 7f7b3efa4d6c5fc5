import AlRefactor.Text.Lowercase
import AlRefactor.Text.Name

/-!
# Lower case of texts that differ in the case of ASCII letters

Names are compared up to the case of ASCII letters, the names of candidates by their lower case. The
lower case of a text does not depend on the case of its ASCII letters, so names that are the same have
the same lower case.
-/

namespace AlRefactor.Text

variable {a b t : Text} {c : Char}

/-- The ASCII letters in upper case. -/
def upperLetters : Text := "ABCDEFGHIJKLMNOPQRSTUVWXYZ"

theorem toLower_eq_or_upper (c : Char) : c.toLower = c ∨ c ∈ upperLetters := by
  by_cases h : 65 ≤ c.toNat ∧ c.toNat ≤ 90
  · refine .inr ?_
    have hc : c = Char.ofNat c.toNat := (Char.ofNat_toNat c).symm
    have hu : ∀ n ∈ List.range' 65 26, Char.ofNat n ∈ upperLetters := by decide
    rw [hc]
    exact hu _ (List.mem_range'_1.mpr (by omega))
  · refine .inl ?_
    unfold Char.toLower
    rw [dif_neg]
    simpa [UInt32.le_iff_toNat_le] using fun hl => Nat.lt_of_not_le fun hg => h ⟨hl, hg⟩

/-- A property of characters that the upper case ASCII letters share with the lower case ones. -/
theorem apply_toLower {α : Type} [DecidableEq α] {f : Char → α}
    (h : upperLetters.all fun c => f c.toLower = f c) (c : Char) : f c.toLower = f c := by
  obtain hc | hc := toLower_eq_or_upper c
  · rw [hc]
  · simpa using List.all_eq_true.mp h c hc

theorem isCased_toLower (c : Char) : isCased c.toLower = isCased c :=
  apply_toLower (by decide +kernel) c

theorem isCaseIgnorable_toLower (c : Char) : isCaseIgnorable c.toLower = isCaseIgnorable c :=
  apply_toLower (by decide +kernel) c

theorem lowerChar_toLower (c : Char) : lowerChar c.toLower = lowerChar c :=
  apply_toLower (by decide +kernel) c

theorem sigma_toLower (c : Char) : (c.toLower.toNat = 0x3a3) = (c.toNat = 0x3a3) := by
  have h := apply_toLower (f := fun c : Char => decide (c.toNat = 0x3a3)) (by decide) c
  simpa using h

theorem casedNext_lower (t : Text) : casedNext (lower t) = casedNext t := by
  have hp : isCaseIgnorable ∘ Char.toLower = isCaseIgnorable := funext isCaseIgnorable_toLower
  rw [casedNext, casedNext, lower, List.dropWhile_map, hp]
  cases t.dropWhile isCaseIgnorable with
  | nil => rfl
  | cons c _ => exact isCased_toLower c

theorem lowercaseAfter_lower (before t : Text) :
    lowercaseAfter (lower before) (lower t) = lowercaseAfter before t := by
  induction t generalizing before with
  | nil => rfl
  | cons c t ih =>
      have hi : lowercaseAfter (c.toLower :: lower before) (lower t) = lowercaseAfter (c :: before) t :=
        ih (c :: before)
      rw [show lower (c :: t) = c.toLower :: lower t from rfl, lowercaseAfter, lowercaseAfter, hi,
        casedNext_lower, casedNext_lower, lowerChar_toLower]
      simp only [sigma_toLower]

theorem lowercase_lower (t : Text) : lowercase (lower t) = lowercase t := lowercaseAfter_lower [] t

/-- Names that are the same have the same lower case. -/
theorem lowercase_eq_of_sameName (h : a.sameName b) : lowercase a.unquote = lowercase b.unquote := by
  have he : lower a.unquote = lower b.unquote := beq_iff_eq.mp h
  rw [← lowercase_lower, he, lowercase_lower]

end AlRefactor.Text
