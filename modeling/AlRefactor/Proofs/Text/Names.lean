import AlRefactor.Text.Name
import Mathlib.Data.List.Nodup
import Mathlib.Data.List.Perm.Subperm

/-!
# Names up to case and quotes

To be the same name is an equivalence, and a made-up name is the first one that differs from all that are
taken: there are more numbers to try than names that can be in the way, and different numbers give different
names.
-/

namespace AlRefactor.Text

variable {a b c t : Text} {d : Char}

theorem sameName_iff : a.sameName b ↔ a.unquote.lower = b.unquote.lower := beq_iff_eq

theorem sameName_refl (a : Text) : a.sameName a := sameName_iff.mpr rfl

theorem sameName_comm (a b : Text) : a.sameName b = b.sameName a := by
  rw [Bool.eq_iff_iff, sameName_iff, sameName_iff, eq_comm]

theorem sameName_trans (h : a.sameName b) (h' : b.sameName c) : a.sameName c :=
  sameName_iff.mpr ((sameName_iff.mp h).trans (sameName_iff.mp h'))

/-! ## Plain names -/

theorem utf8Size_of_isAlphanum (h : d.isAlphanum) : d.utf8Size = 1 := by
  rw [Char.utf8Size_eq_one_iff]
  unfold Char.isAlphanum Char.isAlpha Char.isUpper Char.isLower Char.isDigit at h
  simp only [Bool.or_eq_true, Bool.and_eq_true, decide_eq_true_eq, UInt32.le_iff_toNat_le] at h ⊢
  simp at h ⊢
  omega

/-- What is left of a text in a plain name takes one byte for each character. -/
theorem utf8Size_of_mem_plain (h : d ∈ plain t) : d.utf8Size = 1 := by
  obtain ⟨e, _, h⟩ := List.mem_flatMap.mp h
  rw [plainChar.eq_def] at h
  split at h
  all_goals try (simp at h; rcases h with rfl | rfl <;> rfl)
  split at h
  · obtain rfl := List.mem_singleton.mp h
    rcases Bool.or_eq_true_iff.mp ‹_› with hd | hd
    · exact utf8Size_of_isAlphanum hd
    · rw [beq_iff_eq.mp hd]
      rfl
  · cases h

theorem utf8Size_toUpper (h : d.utf8Size = 1) : d.toUpper.utf8Size = 1 := by
  rw [Char.utf8Size_eq_one_iff] at *
  unfold Char.toUpper
  split
  · rename_i hl
    simp only [UInt32.le_iff_toNat_le] at hl h ⊢
    simp at hl h ⊢
    omega
  · exact h

/-! ## Names with a number -/

theorem unquote_concat (hd : d ≠ '"') : unquote (t ++ [d]) = t ++ [d] := by
  have he : ((dropStart? ['"'] (t ++ [d])).bind (dropEnd? ['"'])) = none := by
    rw [Option.bind_eq_none_iff]
    intro u hu
    cases t with
    | nil =>
        obtain ⟨hq, _⟩ : '"' = d ∧ _ := by simpa [dropStart?] using hu
        exact absurd hq.symm hd
    | cons c t =>
        obtain ⟨_, rfl⟩ : '"' = c ∧ t ++ [d] = u := by simpa [dropStart?] using hu
        simp [dropEnd?, dropStart?, hd.symm]
  exact congrArg (·.getD (t ++ [d])) he

theorem isDigit_of_mem_ofNat {n : Nat} (h : d ∈ ofNat n) : d.isDigit := by
  rw [ofNat, Nat.toString_eq_repr, Nat.toList_repr] at h
  exact Nat.isDigit_of_mem_toDigits (by decide) (by decide) h

theorem ofNat_injective : Function.Injective ofNat := by
  intro n m h
  simp only [ofNat, Nat.toString_eq_repr, Nat.toList_repr] at h
  simpa using congrArg (fun ds => Nat.ofDigitChars 10 ds 0) h

theorem lower_append (a b : Text) : lower (a ++ b) = lower a ++ lower b := List.map_append

theorem lower_ofNat (n : Nat) : lower (ofNat n) = ofNat n := by
  refine (List.map_congr_left fun d hd => ?_).trans (List.map_id _)
  have hd := isDigit_of_mem_ofNat hd
  simp only [Char.isDigit, Bool.and_eq_true, decide_eq_true_eq] at hd
  unfold Char.toLower
  rw [id, dif_neg]
  intro h
  exact absurd (UInt32.le_trans h.1 hd.2) (by decide)

theorem ofNat_ne_nil (n : Nat) : ofNat n ≠ [] := by
  rw [ofNat, Nat.toString_eq_repr, Nat.toList_repr]
  exact Nat.toDigits_ne_nil

theorem unquote_append_ofNat (base : Text) (n : Nat) :
    unquote (base ++ ofNat n) = base ++ ofNat n := by
  have hn := ofNat_ne_nil n
  have hd : ((ofNat n).getLast hn).isDigit := isDigit_of_mem_ofNat (List.getLast_mem hn)
  rw [← List.dropLast_append_getLast hn, ← List.append_assoc, unquote_concat]
  intro hq
  rw [hq] at hd
  cases hd

theorem nodup_numbered (base : Text) (k n : Nat) :
    ((List.range' k n).map fun i => (unquote (base ++ ofNat i)).lower).Nodup := by
  refine List.Nodup.map (fun i j h => ofNat_injective ?_) (List.nodup_range' ..)
  rw [unquote_append_ofNat, unquote_append_ofNat] at h
  simpa only [lower_append, lower_ofNat, List.append_cancel_left_eq] using h

/-- There are more numbers to try than names that can be in the way. -/
theorem exists_free_number (taken : List Text) (base : Text) :
    ∃ n ∈ List.range' 2 (taken.length + 1), ∀ t ∈ taken, t.sameName (base ++ ofNat n) = false := by
  by_contra h
  have hs : ((List.range' 2 (taken.length + 1)).map fun i => (unquote (base ++ ofNat i)).lower) ⊆
      taken.map fun t => (unquote t).lower := by
    intro x hx
    obtain ⟨i, hi, rfl⟩ := List.mem_map.mp hx
    by_contra hn
    refine h ⟨i, hi, fun t ht => Bool.eq_false_iff.mpr fun hs => hn ?_⟩
    exact List.mem_map.mpr ⟨t, ht, sameName_iff.mp hs⟩
  have hl := (List.subperm_of_subset (nodup_numbered base _ _) hs).length_le
  simp only [List.length_map, List.length_range'] at hl
  omega

/-! ## The first free name -/

/-- The base if it is free, and otherwise the base with the least number from 2 on that makes it free. No more than
`tries` numbers have to be tried. -/
inductive FirstFree (free : Text → Prop) (base : Text) (tries : Nat) : Text → Prop where
  | plain : free base → FirstFree free base tries base
  | numbered {n : Nat} : ¬ free base → 2 ≤ n → n < 2 + tries → free (base ++ ofNat n) →
      (∀ i, 2 ≤ i → i < n → ¬ free (base ++ ofNat i)) → FirstFree free base tries (base ++ ofNat n)

namespace FirstFree

variable {free free' : Text → Prop} {base name : Text} {tries : Nat}

theorem free_name (h : FirstFree free base tries name) : free name := by
  cases h with
  | plain h => exact h
  | numbered _ _ _ h _ => exact h

theorem eq_or (h : FirstFree free base tries name) : name = base ∨ ∃ n, name = base ++ ofNat n := by
  cases h with
  | plain => exact .inl rfl
  | numbered => exact .inr ⟨_, rfl⟩

/-- Only whether the names that are tried are free matters. -/
theorem congr (h : FirstFree free base tries name) (hb : free base ↔ free' base)
    (hn : ∀ n, free (base ++ ofNat n) ↔ free' (base ++ ofNat n)) : FirstFree free' base tries name := by
  cases h with
  | plain h => exact .plain (hb.mp h)
  | numbered h hl hu hf hm =>
      exact .numbered (mt hb.mpr h) hl hu ((hn _).mp hf) fun i hi hin => mt (hn i).mpr (hm i hi hin)

end FirstFree

/-- A made-up name is the first one that differs from all that are taken. -/
theorem firstFree_fresh (taken : List Text) (base : Text) :
    FirstFree (fun name => ∀ t ∈ taken, t.sameName name = false) base (taken.length + 1)
      (fresh sameName taken base) := by
  have hfree (name : Text) : (!taken.any (·.sameName name)) = true ↔ ∀ t ∈ taken, t.sameName name = false := by
    simp
  rw [fresh]
  dsimp only
  split
  · rename_i hb
    rw [List.find?_map]
    cases hf : (List.range' 2 (taken.length + 1)).find?
        ((fun name => !taken.any (·.sameName name)) ∘ fun n => base ++ ofNat n) with
    | none =>
        obtain ⟨n, hn, hfn⟩ := exists_free_number taken base
        exact absurd ((hfree _).mpr hfn) (List.find?_eq_none.mp hf n hn)
    | some n =>
        obtain ⟨hn, hmem, hleast⟩ := List.find?_range'_eq_some.mp hf
        rw [List.mem_range'_1] at hmem
        refine .numbered (fun h => ?_) hmem.1 hmem.2 ((hfree _).mp hn) fun i hi hin h => ?_
        · rw [← hfree, hb] at h
          cases h
        · have hi := hleast i hi hin
          rw [Function.comp_apply, (hfree _).mpr h] at hi
          cases hi
  · rename_i hb
    exact .plain ((hfree base).mp (by rw [(Bool.not_eq_true _).mp hb]; rfl))

/-- A made-up name differs from every name that is taken. -/
theorem fresh_not_same (taken : List Text) (base : Text) :
    ∀ t ∈ taken, t.sameName (fresh sameName taken base) = false :=
  (firstFree_fresh taken base).free_name

end AlRefactor.Text
