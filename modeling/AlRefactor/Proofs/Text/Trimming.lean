import AlRefactor.Proofs.Text.Slices
import AlRefactor.Text.Blank
import Mathlib.Data.List.TakeWhile

/-!
# White space around a text

Trimming takes the white space at both ends away and nothing else. So it gives a piece of a text back
if and only if there is only white space around the piece.
-/

namespace AlRefactor.Text

variable {t g g' x y u v : Text}

theorem isBlank_iff : t.isBlank ↔ ∀ c ∈ t, isSpace c := List.all_eq_true

/-! ## What trimming leaves -/

/-- White space at the ends does not matter. -/
theorem trim_append (hg : g.isBlank) (hg' : g'.isBlank) : (g ++ (x ++ g')).trim = x.trim := by
  have hr : ∀ c ∈ g'.reverse, isSpace c := fun c hc => isBlank_iff.mp hg' c (List.mem_reverse.mp hc)
  rw [trim, trim, trimWhere, trimWhere, List.dropWhile_append_of_pos (isBlank_iff.mp hg),
    List.dropWhile_append]
  split
  · rename_i hx
    rw [List.isEmpty_iff.mp hx, List.dropWhile_eq_nil_iff.mpr (isBlank_iff.mp hg')]
  · rw [List.reverse_append, List.dropWhile_append_of_pos hr]

theorem exists_trim (t : Text) : ∃ g g', g.isBlank ∧ g'.isBlank ∧ t = g ++ (t.trim ++ g') := by
  refine ⟨t.takeWhile isSpace, ((t.dropWhile isSpace).reverse.takeWhile isSpace).reverse,
    isBlank_iff.mpr fun _ => List.mem_takeWhile_imp,
    isBlank_iff.mpr fun c hc => List.mem_takeWhile_imp (List.mem_reverse.mp hc), ?_⟩
  rw [trim, trimWhere, ← List.reverse_append, List.takeWhile_append_dropWhile, List.reverse_reverse,
    List.takeWhile_append_dropWhile]

theorem trim_trim (t : Text) : t.trim.trim = t.trim := by
  obtain ⟨g, g', hg, hg', ht⟩ := exists_trim t
  have h := trim_append (x := t.trim) hg hg'
  rw [← ht] at h
  exact h.symm

/-- What is not white space is left. -/
theorem countP_trim {p : Char → Bool} (hp : ∀ c, isSpace c → p c = false) (t : Text) :
    t.trim.countP p = t.countP p := by
  obtain ⟨g, g', hg, hg', ht⟩ := exists_trim t
  have hz {w : Text} (hw : w.isBlank) : w.countP p = 0 :=
    List.countP_eq_zero.mpr fun c hc => by simp [hp c (isBlank_iff.mp hw c hc)]
  calc t.trim.countP p
      = (g ++ (t.trim ++ g')).countP p := by
        rw [List.countP_append, List.countP_append, hz hg, hz hg', Nat.zero_add, Nat.add_zero]
    _ = t.countP p := by rw [← ht]

/-- Trimming gives a piece of a text back if there is only white space around it, and not otherwise. -/
theorem trim_eq_iff : (g ++ (x ++ g')).trim = x ↔ g.isBlank ∧ g'.isBlank ∧ x.trim = x := by
  constructor
  · intro h
    have hc := countP_trim (p := (!isSpace ·)) (by simp) (g ++ (x ++ g'))
    rw [h, List.countP_append, List.countP_append] at hc
    have hz {w : Text} (hw : w.countP (!isSpace ·) = 0) : w.isBlank :=
      isBlank_iff.mpr fun c hc => by simpa using List.countP_eq_zero.mp hw c hc
    exact ⟨hz (by omega), hz (by omega), by rw [← h, trim_trim]⟩
  · rintro ⟨hg, hg', hx⟩
    rw [trim_append hg hg', hx]

/-! ## Where white space ends -/

theorem trimStart_eq_nil : trimStart t = [] ↔ t.isBlank := by
  rw [isBlank_iff, trimStart, List.dropWhile_eq_nil_iff]

theorem of_head_trimStart {c : Char} (h : c ∈ (trimStart t).head?) : c ∈ t ∧ isSpace c = false := by
  refine ⟨(List.dropWhile_suffix _).mem (List.mem_of_mem_head? h), ?_⟩
  have hd := List.head?_dropWhile_not isSpace t
  rwa [show (t.dropWhile isSpace).head? = some c from h] at hd

theorem trimStart_append (h : trimStart u ≠ []) (v : Text) : trimStart (u ++ v) = trimStart u ++ v := by
  have h : ¬ (u.dropWhile isSpace).isEmpty := mt List.isEmpty_iff.mp h
  rw [trimStart, List.dropWhile_append, if_neg h]
  rfl

/-- What does not end with white space stands in front of the white space at the end. -/
theorem exists_of_blank_end (h : u ++ v = x ++ y) (hv : v.isBlank)
    (hx : ∀ c ∈ x.getLast?, isSpace c = false) : ∃ m, u = x ++ m ∧ y = m ++ v := by
  rcases List.append_eq_append_iff.mp h with ⟨m, rfl, rfl⟩ | ⟨m, rfl, rfl⟩
  · rcases List.eq_nil_or_concat m with rfl | ⟨m, c, rfl⟩
    · exact ⟨[], by simp, rfl⟩
    · have hc := isBlank_iff.mp hv c (by simp)
      rw [hx c (by simp)] at hc
      cases hc
  · exact ⟨m, rfl, rfl⟩

/-- What stands at the start does not depend on white space at the end, where white space may stand
there as well. -/
theorem head_append_blank {P : Char → Prop} (hv : v.isBlank) (hP : ∀ c, isSpace c → P c) :
    (∀ c ∈ (u ++ v).head?, P c) ↔ ∀ c ∈ u.head?, P c := by
  cases u with
  | nil =>
      refine iff_of_true (fun c hc => hP c ?_) (by simp)
      exact isBlank_iff.mp hv c (List.mem_of_mem_head? hc)
  | cons c u => rfl

/-- Not empty, and without white space at the ends. -/
structure Tight (t : Text) : Prop where
  ne_nil : t ≠ []
  head : ∀ c ∈ t.head?, isSpace c = false
  last : ∀ c ∈ t.getLast?, isSpace c = false

namespace Tight

/-- Behind a tight text only white space is trimmed away. -/
theorem exists_trim_append (h : x.Tight) (y : Text) :
    ∃ m v, v.isBlank ∧ y = m ++ v ∧ (x ++ y).trim = x ++ m := by
  obtain ⟨u, v, hu, hv, ht⟩ := exists_trim (x ++ y)
  obtain ⟨d, x, rfl⟩ := List.exists_cons_of_ne_nil h.ne_nil
  obtain rfl : u = [] := by
    cases u with
    | nil => rfl
    | cons c u =>
        have hc := isBlank_iff.mp hu c List.mem_cons_self
        rw [← (List.cons.inj ht).1, h.head d rfl] at hc
        cases hc
  obtain ⟨m, hm, hs⟩ := exists_of_blank_end (show _ ++ v = _ from ht.symm) hv h.last
  exact ⟨m, v, hv, hs, hm⟩

theorem trimStart_eq (h : x.Tight) (y : Text) : trimStart (x ++ y) = x ++ y := by
  obtain ⟨d, x, rfl⟩ := List.exists_cons_of_ne_nil h.ne_nil
  exact List.dropWhile_cons_of_neg (by simp [h.head d rfl])

end Tight

/-! ## Words -/

theorem takeWhile_eq_iff {p : Char → Bool} :
    (x ++ y).takeWhile p = x ↔ (∀ c ∈ x, p c) ∧ ∀ c ∈ y.head?, p c = false := by
  constructor
  · intro h
    have hx : ∀ c ∈ x, p c := fun c hc => List.mem_takeWhile_imp (by rw [h]; exact hc)
    rw [List.takeWhile_append_of_pos hx] at h
    refine ⟨hx, fun c hc => ?_⟩
    obtain ⟨y, rfl⟩ := List.head?_eq_some_iff.mp hc
    by_contra hn
    simp [hn] at h
  · rintro ⟨hx, hy⟩
    rw [List.takeWhile_append_of_pos hx]
    cases y with
    | nil => simp
    | cons c y => simp [hy c rfl]

end AlRefactor.Text
