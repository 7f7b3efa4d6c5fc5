import Mathlib.Data.List.Sort
import AlRefactor.Edit.Basic
import AlRefactor.Proofs.Text.Slices

/-!
# Batches of edits are simultaneous replacements

A batch is carried out in one go: the text is walked once, what no edit covers is copied, and every
edit writes its text where its range starts. Nothing else about the order of a batch counts than the
order of its insertions at one offset.
-/

namespace AlRefactor

/-- Sorting keeps the order of what is not told apart by it. -/
theorem filter_mergeSort {α : Type} {le : α → α → Bool} {p : α → Bool}
    (trans : ∀ a b c, le a b → le b c → le a c) (total : ∀ a b, le a b || le b a)
    (h : ∀ a b, p a → p b → le a b) (l : List α) : (l.mergeSort le).filter p = l.filter p := by
  have hp : (l.filter p).Pairwise fun a b => le a b :=
    List.pairwise_of_forall_mem_list fun a ha b hb =>
      h a b (List.mem_filter.mp ha).2 (List.mem_filter.mp hb).2
  have hs := (List.sublist_mergeSort trans total hp List.filter_sublist).filter p
  rw [List.filter_filter] at hs
  simp only [Bool.and_self] at hs
  exact (hs.eq_of_length ((List.mergeSort_perm l le).filter p).length_eq.symm).symm

namespace Edit

/-! ## What a batch says -/

/-- The ends of the range are in order, and none of them is inside of a character of the text. -/
def Aligned (t : Text) (e : Edit) : Prop :=
  e.span.start ≤ e.span.stop ∧ ∀ n ∈ [e.span.start, e.span.stop], n ≤ t.size → t.isBoundary n

/-- Ordered by start, then by end, the first of two edits does not end behind the start of the
second one. -/
def Apart (a b : Edit) : Prop :=
  (le a b → a.span.stop ≤ b.span.start) ∧ (le b a → b.span.stop ≤ a.span.start)

instance (t : Text) (e : Edit) : Decidable (Aligned t e) := inferInstanceAs (Decidable (_ ∧ _))

instance (a b : Edit) : Decidable (Apart a b) := inferInstanceAs (Decidable (_ ∧ _))

/-- What the edits that start at an offset write there: the insertions first, in the order of the
batch. -/
def written (edits : List Edit) (pos : Nat) : Text :=
  let here := edits.filter (·.span.start == pos)
  (here.filter (·.isInsert) ++ here.filter (!·.isInsert)).flatMap (·.text)

/-- The text from an offset on, walked once. -/
def rewritten (edits : List Edit) (pos : Nat) : Text → Text
  | [] => written edits pos
  | c :: t =>
    written edits pos ++ (if edits.any (·.span.contains pos) then [] else [c]) ++
      rewritten edits (pos + c.utf8Size) t

/-- Two batches with the same edits, and the insertions at any one offset in the same order. -/
structure SameBatch (es fs : List Edit) : Prop where
  perm : es.Perm fs
  insertions : ∀ pos, es.filter (fun e => e.isInsert && e.span.start == pos) =
    fs.filter fun e => e.isInsert && e.span.start == pos

/-! ## The order of edits -/

theorem le_iff {a b : Edit} : le a b ↔ a.span.start < b.span.start ∨
    (a.span.start = b.span.start ∧ a.span.stop ≤ b.span.stop) := by
  simp [le]

theorem le_trans (a b c : Edit) (h : le a b) (h' : le b c) : le a c := by
  rw [le_iff] at *
  omega

theorem le_total (a b : Edit) : le a b || le b a := by
  rw [Bool.or_eq_true, le_iff, le_iff]
  omega

theorem span_eq_of_le {a b : Edit} (h : le a b) (h' : le b a) : a.span = b.span := by
  rw [le_iff] at h h'
  obtain ⟨⟨s, e⟩, _⟩ := a
  obtain ⟨⟨s', e'⟩, _⟩ := b
  simp only [Span.mk.injEq] at h h' ⊢
  omega

theorem sort_perm (edits : List Edit) : (sort edits).Perm edits := List.mergeSort_perm ..

theorem sort_ordered (edits : List Edit) : (sort edits).Pairwise fun a b => le a b :=
  List.pairwise_mergeSort le_trans le_total edits

/-- Edits of one range stay in their order. -/
theorem filter_sort {edits : List Edit} {p : Edit → Bool}
    (h : ∀ a b, p a → p b → a.span = b.span) :
    (sort edits).filter p = edits.filter p := by
  refine filter_mergeSort le_trans le_total (fun a b ha hb => le_iff.mpr (.inr ?_)) edits
  rw [h a b ha hb]
  simp

theorem Apart.symm {a b : Edit} (h : Apart a b) : Apart b a := ⟨h.2, h.1⟩

theorem apart_iff {a b : Edit} (h : le a b) : Apart a b ↔ a.span.stop ≤ b.span.start := by
  refine ⟨fun ha => ha.1 h, fun ha => ⟨fun _ => ha, fun h' => ?_⟩⟩
  have hs := span_eq_of_le h h'
  rw [hs] at ha ⊢
  exact ha

/-- Neighbours that do not reach into each other are enough: then no two edits do. -/
theorem clash?_eq_none {s : List Edit} (ho : s.Pairwise fun a b => le a b) :
    clash? s = none ↔ s.Pairwise fun a b => a.span.stop ≤ b.span.start := by
  induction s with
  | nil => simp [clash?]
  | cons a s ih =>
      cases s with
      | nil => simp [clash?]
      | cons b s =>
          obtain ⟨_, hb⟩ := List.pairwise_cons.mp ho
          rw [clash?, List.pairwise_cons, ← ih hb]
          split
          · rename_i hab
            refine ⟨nofun, fun h => ?_⟩
            have := h.1 b List.mem_cons_self
            omega
          · rename_i hab
            refine ⟨fun h => ⟨fun c hc => ?_, h⟩, fun h => h.2⟩
            rcases List.mem_cons.mp hc with rfl | hc
            · omega
            · have := le_iff.mp ((List.pairwise_cons.mp hb).1 c hc)
              omega

section Walk

variable {e : Edit} {es : List Edit} {pos : Nat} {b m t : Text}

theorem written_cons_of_ne (h : e.span.start ≠ pos) : written (e :: es) pos = written es pos := by
  simp [written, h]

theorem written_eq_nil (h : ∀ e ∈ es, pos < e.span.start) : written es pos = [] := by
  have hn : es.filter (·.span.start == pos) = [] :=
    List.filter_eq_nil_iff.mpr fun e he => by have := h e he; simp; omega
  simp [written, hn]

theorem written_insert (h : e.span.start = pos) (hi : e.isInsert) :
    written (e :: es) pos = e.text ++ written es pos := by
  simp [written, h, hi]

theorem written_cons_of_lt (h : e.span.start = pos) (hes : ∀ f ∈ es, pos < f.span.start) :
    written (e :: es) pos = e.text := by
  have hn : es.filter (·.span.start == pos) = [] :=
    List.filter_eq_nil_iff.mpr fun e he => by have := hes e he; simp; omega
  cases hi : e.isInsert <;> simp [written, h, hi, hn]

theorem not_covered (h : ∀ e ∈ es, pos < e.span.start) :
    es.any (·.span.contains pos) = false := by
  refine List.any_eq_false.mpr fun e he => ?_
  have := h e he
  simp [Span.contains]
  omega

/-- Before the first edit the text is copied. -/
theorem rewritten_before (h : ∀ e ∈ es, pos + b.size ≤ e.span.start) :
    rewritten es pos (b ++ t) = b ++ rewritten es (pos + b.size) t := by
  induction b generalizing pos with
  | nil => rfl
  | cons c b ih =>
      have hc := c.utf8Size_pos
      have hlt : ∀ e ∈ es, pos < e.span.start := fun e he => by
        have := h e he
        rw [Text.size] at this
        omega
      rw [List.cons_append, rewritten, written_eq_nil hlt, not_covered hlt,
        ih fun e he => by rw [Nat.add_assoc]; exact h e he]
      simp [Text.size, Nat.add_assoc]

/-- Behind its range an edit writes nothing. -/
theorem rewritten_behind (h : e.span.start < pos) (h' : e.span.stop ≤ pos) :
    rewritten (e :: es) pos t = rewritten es pos t := by
  induction t generalizing pos with
  | nil => exact written_cons_of_ne (by omega)
  | cons c t ih =>
      have hn : e.span.contains pos = false := by simp [Span.contains]; omega
      rw [rewritten, rewritten, written_cons_of_ne (by omega), ih (by omega) (by omega),
        List.any_cons, hn, Bool.false_or]

/-- Nothing of the range of an edit is copied. -/
theorem rewritten_inside (h : e.span.start < pos) (hm : pos + m.size = e.span.stop)
    (hes : ∀ f ∈ es, e.span.stop ≤ f.span.start) :
    rewritten (e :: es) pos (m ++ t) = rewritten es e.span.stop t := by
  induction m generalizing pos with
  | nil =>
      obtain rfl : pos = e.span.stop := hm
      exact rewritten_behind h (Nat.le_refl _)
  | cons c m ih =>
      have hc := c.utf8Size_pos
      rw [Text.size] at hm
      have hi : e.span.contains pos = true := by simp [Span.contains]; omega
      have hw : written es pos = [] := written_eq_nil fun f hf => by have := hes f hf; omega
      rw [List.cons_append, rewritten, written_cons_of_ne (by omega), hw, List.any_cons, hi,
        ih (by omega) (by omega)]
      simp

/-- Where an edit starts it writes its text, and the walk goes on behind its range. -/
theorem rewritten_at (hm : e.span.start + m.size = e.span.stop)
    (hes : ∀ f ∈ es, e.span.stop ≤ f.span.start) :
    rewritten (e :: es) e.span.start (m ++ t) = e.text ++ rewritten es e.span.stop t := by
  cases m with
  | nil =>
      have hs : e.span.start = e.span.stop := hm
      have hi : e.isInsert := by simp [isInsert, Span.isEmpty, hs]
      have hn : e.span.contains e.span.start = false := by simp [Span.contains, hs]
      rw [List.nil_append, ← hs]
      cases t with
      | nil => exact written_insert rfl hi
      | cons c t =>
          have hc := c.utf8Size_pos
          rw [rewritten, rewritten, written_insert rfl hi, List.any_cons, hn,
            rewritten_behind (by omega) (by omega)]
          simp
  | cons c m =>
      have hc := c.utf8Size_pos
      rw [Text.size] at hm
      have hi : e.span.contains e.span.start = true := by simp [Span.contains]; omega
      have hw : written (e :: es) e.span.start = e.text :=
        written_cons_of_lt rfl fun f hf => by have := hes f hf; omega
      rw [List.cons_append, rewritten, hw, List.any_cons, hi,
        rewritten_inside (by omega) (by omega) hes]
      simp

end Walk

theorem rewritten_nil (pos : Nat) (t : Text) : rewritten [] pos t = t := by
  have h : rewritten [] pos (t ++ []) = t ++ rewritten [] (pos + t.size) [] :=
    rewritten_before (by simp)
  rw [List.append_nil] at h
  rw [h]
  simp [rewritten, written]

/-- Splicing ordered edits that are apart and lie on boundaries is the walk. -/
theorem splice?_eq {s : List Edit} {pos : Nat} {t : Text}
    (hs : s.Pairwise fun a b => a.span.stop ≤ b.span.start)
    (hb : ∀ e ∈ s, pos ≤ e.span.start ∧ e.span.start ≤ e.span.stop ∧
      ∀ n ∈ [e.span.start, e.span.stop], (t.drop? (n - pos)).isSome) :
    splice? pos t s = some (rewritten s pos t) := by
  induction s generalizing pos t with
  | nil => rw [splice?, rewritten_nil]
  | cons e s ih =>
      obtain ⟨hse, hs⟩ := List.pairwise_cons.mp hs
      obtain ⟨hp, hle, hd⟩ := hb e List.mem_cons_self
      obtain ⟨u, hu⟩ := Option.isSome_iff_exists.mp (hd _ (by simp : e.span.start ∈ _))
      obtain ⟨b, rfl, hbs⟩ := Text.exists_of_drop? hu
      obtain ⟨r, hr⟩ := Option.isSome_iff_exists.mp (hd _ (by simp : e.span.stop ∈ _))
      have hn : e.span.stop - pos = b.size + (e.span.stop - e.span.start) := by omega
      have hm := hr
      rw [hn, Text.drop?_append_add] at hm
      obtain ⟨m, rfl, hms⟩ := Text.exists_of_drop? hm
      have ih : splice? e.span.stop r s = some (rewritten s e.span.stop r) := ih hs fun f hf => by
        obtain ⟨_, hlf, hdf⟩ := hb f (.tail _ hf)
        have hef := hse f hf
        refine ⟨hef, hlf, fun n hn => ?_⟩
        have hnf : f.span.start ≤ n := by
          rcases List.mem_pair.mp hn with rfl | rfl
          · exact Nat.le_refl _
          · exact hlf
        have hx := hdf n hn
        have hk : n - pos = (b ++ m).size + (n - e.span.stop) := by
          rw [Text.size_append]; omega
        rwa [hk, ← List.append_assoc, Text.drop?_append_add] at hx
      have hstart : pos + b.size = e.span.start := by omega
      rw [splice?, ← hbs, Text.take?_append, hr, rewritten_before (fun f hf => ?_), hstart,
        rewritten_at (by omega) hse]
      · simp [ih]
      · rcases List.mem_cons.mp hf with rfl | hf
        · omega
        · have := hse f hf; omega

/-! ## Batches in another order -/

theorem any_covered_perm {es fs : List Edit} (h : es.Perm fs) (pos : Nat) :
    es.any (·.span.contains pos) = fs.any (·.span.contains pos) := by
  rw [Bool.eq_iff_iff, List.any_eq_true, List.any_eq_true]
  simp only [h.mem_iff]

/-- Of edits that are apart at most one starts at an offset and covers something. -/
theorem filter_replacements {es fs : List Edit} (h : es.Perm fs) (ha : es.Pairwise Apart)
    (hle : ∀ e ∈ es, e.span.start ≤ e.span.stop) (pos : Nat) :
    es.filter (fun e => !e.isInsert && e.span.start == pos) =
      fs.filter fun e => !e.isInsert && e.span.start == pos := by
  have hp := h.filter fun e => !e.isInsert && e.span.start == pos
  have hm : ∀ e ∈ es.filter fun e => !e.isInsert && e.span.start == pos,
      e.span.start = pos ∧ pos < e.span.stop := fun e he => by
    obtain ⟨he, hc⟩ := List.mem_filter.mp he
    have := hle e he
    simp only [isInsert, Span.isEmpty, Bool.and_eq_true, Bool.not_eq_eq_eq_not, Bool.not_true,
      beq_eq_false_iff_ne, beq_iff_eq] at hc
    omega
  have hw := ha.filter fun e => !e.isInsert && e.span.start == pos
  generalize es.filter (fun e => !e.isInsert && e.span.start == pos) = us at hp hm hw
  match us with
  | [] => exact (List.nil_perm.mp hp).symm
  | [e] => exact List.singleton_perm.mp hp
  | e :: f :: us =>
      -- One of the two comes first, and it ends behind the start of the other one.
      have he := hm e List.mem_cons_self
      have hf := hm f (by simp)
      have hef := (List.pairwise_cons.mp hw).1 f List.mem_cons_self
      rcases Bool.or_eq_true_iff.mp (le_total e f) with hl | hl
      · have := hef.1 hl; omega
      · have := hef.2 hl; omega

theorem written_congr {es fs : List Edit} (h : SameBatch es fs) (ha : es.Pairwise Apart)
    (hle : ∀ e ∈ es, e.span.start ≤ e.span.stop) (pos : Nat) :
    written es pos = written fs pos := by
  simp only [written, List.filter_filter]
  rw [h.insertions, filter_replacements h.perm ha hle]

theorem rewritten_congr {es fs : List Edit} (h : SameBatch es fs) (ha : es.Pairwise Apart)
    (hle : ∀ e ∈ es, e.span.start ≤ e.span.stop) (pos : Nat) (t : Text) :
    rewritten es pos t = rewritten fs pos t := by
  induction t generalizing pos with
  | nil => exact written_congr h ha hle pos
  | cons c t ih =>
      rw [rewritten, rewritten, written_congr h ha hle, any_covered_perm h.perm, ih]

theorem SameBatch.sort (es : List Edit) : SameBatch (sort es) es where
  perm := sort_perm es
  insertions pos := filter_sort fun a b ha hb => by
    simp only [isInsert, Span.isEmpty, Bool.and_eq_true, beq_iff_eq] at ha hb
    obtain ⟨⟨s, e⟩, _⟩ := a
    obtain ⟨⟨s', e'⟩, _⟩ := b
    simp only [Span.mk.injEq] at ha hb ⊢
    omega

/-! ## Carrying out a batch -/

section Apply

variable {es fs : List Edit} {t : Text}

theorem apart_sort : es.Pairwise Apart ↔
    (sort es).Pairwise fun a b => a.span.stop ≤ b.span.start := by
  rw [← (sort_perm es).pairwise_iff fun h => Apart.symm h]
  refine ⟨fun h => ?_, fun h => ?_⟩
  · exact (h.and (sort_ordered es)).imp fun h => (apart_iff h.2).mp h.1
  · exact (h.and (sort_ordered es)).imp fun h => (apart_iff h.2).mpr h.1

theorem find?_outside (h : ∀ e ∈ es, e.span.stop ≤ t.size) :
    ((sort es).find? fun e => e.span.stop > t.size) = none :=
  List.find?_eq_none.mpr fun e he => by
    have := h e ((sort_perm es).mem_iff.mp he)
    simpa using this

theorem apply_apart (hb : ∀ e ∈ es, e.Aligned t) (h : ∀ e ∈ es, e.span.stop ≤ t.size)
    (ha : es.Pairwise Apart) : apply es t = .ok (rewritten es 0 t) := by
  have hs := apart_sort.mp ha
  have hc := (clash?_eq_none (sort_ordered es)).mpr hs
  have hsp : splice? 0 t (sort es) = some (rewritten (sort es) 0 t) := splice?_eq hs fun e he => by
    have he := (sort_perm es).mem_iff.mp he
    obtain ⟨hle, hd⟩ := hb e he
    have := h e he
    refine ⟨Nat.zero_le _, hle, fun n hn => hd n hn ?_⟩
    rcases List.mem_pair.mp hn with rfl | rfl <;> omega
  have hr : rewritten (sort es) 0 t = rewritten es 0 t :=
    rewritten_congr (SameBatch.sort es) (((sort_perm es).pairwise_iff Apart.symm).mpr ha)
      (fun e he => (hb e ((sort_perm es).mem_iff.mp he)).1) 0 t
  rw [apply, find?_outside h, hc, hsp, hr]

end Apply

end Edit

namespace Change

theorem editsOf_ofEdits (document : Nat) (es : List Edit) :
    (ofEdits document es).editsOf document = es := by
  cases es with
  | nil => rfl
  | cons e es => simp [ofEdits, add, addTo, empty, editsOf]

end Change

end AlRefactor
