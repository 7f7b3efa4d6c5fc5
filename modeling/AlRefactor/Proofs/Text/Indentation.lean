import AlRefactor.Proofs.Text.Trimming
import AlRefactor.Text.Lines

/-!
# Lines that are moved to another indentation

A block is cut into lines at its line feeds, and the lines are put together again. Whatever is done to them in between
only concerns the white space they start with, so nothing else of the block changes but its line breaks, and the last one
of these is left out.
-/

namespace AlRefactor.Text

variable {b l m t t' old new newline : Text} {c : Char}

/-! ## Lines -/

/-- A line feed, alone or behind a carriage return. -/
def IsFeed (b : Text) : Prop := b = ['\n'] ∨ b = ['\r', '\n']

theorem exists_feed (l : Text) : ∃ b, IsFeed b ∧ l ++ ['\n'] = endLine l ++ b := by
  rw [endLine]
  cases h : dropEnd? "\r" l with
  | none => exact ⟨['\n'], .inl rfl, rfl⟩
  | some u =>
      refine ⟨['\r', '\n'], .inr rfl, ?_⟩
      rw [dropEnd?_eq_some.mp h, List.append_assoc]
      rfl

theorem linesFrom_feed (hl : '\n' ∉ l) (m t : Text) :
    linesFrom m (l ++ '\n' :: t) = endLine (m.reverse ++ l) :: lines t := by
  induction l generalizing m with
  | nil => rw [List.append_nil]; rfl
  | cons c l ih =>
      obtain ⟨hc, hl⟩ := not_or.mp (mt List.mem_cons.mpr hl)
      rw [List.cons_append, linesFrom, if_neg (Ne.symm hc), ih hl, List.reverse_cons, List.append_assoc]
      rfl

theorem linesFrom_last (hl : '\n' ∉ l) (h : m.reverse ++ l ≠ []) : linesFrom m l = [m.reverse ++ l] := by
  induction l generalizing m with
  | nil => simpa [linesFrom] using h
  | cons c l ih =>
      obtain ⟨hc, hl⟩ := not_or.mp (mt List.mem_cons.mpr hl)
      have hm : (c :: m).reverse ++ l = m.reverse ++ c :: l := by simp
      rw [linesFrom, if_neg (Ne.symm hc), ih hl (hm ▸ h), hm]

theorem lines_feed (hl : '\n' ∉ l) (t : Text) : lines (l ++ '\n' :: t) = endLine l :: lines t :=
  linesFrom_feed hl [] t

theorem lines_last (hl : '\n' ∉ l) (h : l ≠ []) : lines l = [l] := linesFrom_last (m := []) hl h

/-- A text is the last line of it or has a line in front of its first line feed. -/
theorem induction_lines {P : Text → Prop} (last : ∀ l, '\n' ∉ l → P l)
    (feed : ∀ l t, '\n' ∉ l → P t → P (l ++ '\n' :: t)) (t : Text) : P t := by
  induction hn : t.length using Nat.strong_induction_on generalizing t with
  | _ n ih =>
      by_cases h : '\n' ∈ t
      · obtain ⟨l, t, rfl, hl⟩ := List.eq_append_cons_of_mem h
        rw [List.length_append, List.length_cons] at hn
        exact feed l t hl (ih t.length (by omega) t rfl)
      · exact last t h

theorem lines_ne_nil (h : t ≠ []) : lines t ≠ [] := by
  by_cases hn : '\n' ∈ t
  · obtain ⟨l, s, rfl, hl⟩ := List.eq_append_cons_of_mem hn
    rw [lines_feed hl]
    exact List.cons_ne_nil _ _
  · rw [lines_last hn h]
    exact List.cons_ne_nil _ _

theorem reindent_last (hl : '\n' ∉ l) : l.reindent old new newline = reindentLine old new l := by
  cases l with
  | nil => rfl
  | cons c l => rw [reindent, lines_last hl (List.cons_ne_nil c l)]; rfl

theorem reindent_feed (hl : '\n' ∉ l) : (l ++ '\n' :: t).reindent old new newline =
    reindentLine old new (endLine l) ++ if t = [] then [] else newline ++ t.reindent old new newline := by
  rw [reindent, reindent, lines_feed hl]
  split
  · rename_i ht
    rw [ht, List.append_nil]
    rfl
  · rename_i ht
    obtain ⟨k, ks, hk⟩ := List.exists_cons_of_ne_nil (lines_ne_nil ht)
    rw [hk]
    exact List.append_assoc ..

/-! ## The same text with other indentations -/

/-- A text with other white space behind its line feeds, with other line breaks in place of these or without the one at
its end. -/
inductive Realigned : Text → Text → Prop where
  | nil : Realigned [] []
  | char {t t' : Text} (c : Char) : Realigned t t' → Realigned (c :: t) (c :: t')
  | line {b b' w w' t t' : Text} : IsFeed b → IsFeed b' → (∀ c ∈ w, isSpace c) → (∀ c ∈ w', isIndent c) →
      Realigned t t' → Realigned (b ++ (w ++ t)) (b' ++ (w' ++ t'))
  | last {b : Text} : IsFeed b → Realigned b []

theorem Realigned.append (u : Text) (h : Realigned t t') : Realigned (u ++ t) (u ++ t') := by
  induction u with
  | nil => exact h
  | cons c u ih => exact .char c ih

theorem isSpace_of_isIndent (h : isIndent c) : isSpace c := by
  rcases Bool.or_eq_true_iff.mp h with hc | hc <;> rw [beq_iff_eq.mp hc] <;> rfl

/-- A line changes in the white space at its start only. -/
theorem exists_reindentLine (ho : ∀ c ∈ old, isIndent c) (hn : ∀ c ∈ new, isIndent c) (l : Text) :
    ∃ w w' m, l = w ++ m ∧ reindentLine old new l = w' ++ m ∧ (∀ c ∈ w, isSpace c) ∧ ∀ c ∈ w', isIndent c := by
  rw [reindentLine]
  split
  · rename_i hl
    exact ⟨l, [], [], (List.append_nil l).symm, rfl, isBlank_iff.mp hl, fun _ h => absurd h List.not_mem_nil⟩
  · cases h : dropStart? old l with
    | some m => exact ⟨old, new, m, dropStart?_eq_some.mp h, rfl, fun c hc => isSpace_of_isIndent (ho c hc), hn⟩
    | none => exact ⟨l.takeWhile isSpace, new, l.trimStart, List.takeWhile_append_dropWhile.symm, rfl,
        fun c => List.mem_takeWhile_imp, hn⟩

/-- A block that is moved to another indentation, where it stands behind a line break. -/
theorem realigned_reindent (ho : ∀ c ∈ old, isIndent c) (hn : ∀ c ∈ new, isIndent c) (hb : IsFeed b)
    (hb' : IsFeed newline) (t : Text) : Realigned (b ++ t) (newline ++ t.reindent old new newline) := by
  -- One line, and what is known of the text behind it.
  have hline {b l t t' : Text} (hb : IsFeed b) (h : Realigned t t') :
      Realigned (b ++ (l ++ t)) (newline ++ (reindentLine old new l ++ t')) := by
    obtain ⟨w, w', m, rfl, hl, hw, hw'⟩ := exists_reindentLine ho hn l
    rw [hl, List.append_assoc, List.append_assoc]
    exact .line hb hb' hw hw' (h.append m)
  induction t using induction_lines generalizing b with
  | last l hl =>
      have h := hline (l := l) hb .nil
      rwa [List.append_nil, List.append_nil, ← reindent_last hl] at h
  | feed l t hl ih =>
      obtain ⟨d, hd, he⟩ := exists_feed l
      have hs : l ++ '\n' :: t = endLine l ++ (d ++ t) := by
        rw [← List.append_assoc, ← he, List.append_assoc]
        rfl
      rw [reindent_feed hl, hs]
      split
      · rename_i ht
        rw [ht, List.append_nil]
        exact hline hb (.last hd)
      · exact hline hb (ih hd)

end AlRefactor.Text
