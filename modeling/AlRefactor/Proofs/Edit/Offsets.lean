import AlRefactor.Proofs.Edit.Batch
import Mathlib.Data.List.TakeWhile

/-!
# Where the text of an edit ends up

When a batch is carried out, the text of an edit stands behind the text in front of it with all edits
carried out that are sorted before this one. How long that is follows from the lengths of these edits.
The insertions that come later in the batch but go in front of a replacement at their offset are the only
ones that are not counted.
-/

namespace AlRefactor.Edit

/-! ## Lengths -/

section Lengths

variable {e : Edit} {es fs : List Edit} {pos : Nat} {t r : Text}

theorem totalShift_append (es fs : List Edit) :
    totalShift (es ++ fs) = totalShift es + totalShift fs := by
  induction es with
  | nil => simp [totalShift]
  | cons e es ih => rw [List.cons_append, totalShift, totalShift, ih, Int.add_assoc]

theorem totalShift_perm (h : es.Perm fs) : totalShift es = totalShift fs := by
  induction h with
  | nil => rfl
  | cons e _ ih => rw [totalShift, totalShift, ih]
  | swap e f es => simp only [totalShift]; omega
  | trans _ _ ih ih' => exact ih.trans ih'

theorem size_flatMap_perm (h : es.Perm fs) :
    Text.size (es.flatMap (·.text)) = Text.size (fs.flatMap (·.text)) := by
  induction h with
  | nil => rfl
  | cons e _ ih => simp only [List.flatMap_cons, Text.size_append, ih]
  | swap e f es => simp only [List.flatMap_cons, Text.size_append]; omega
  | trans _ _ ih ih' => exact ih.trans ih'

/-- Insertions make a text longer by what they insert. -/
theorem totalShift_inserts (h : ∀ e ∈ es, e.isInsert) :
    totalShift es = Text.size (es.flatMap (·.text)) := by
  induction es with
  | nil => rfl
  | cons e es ih =>
      obtain ⟨he, hes⟩ := List.forall_mem_cons.mp h
      have hl : e.span.length = 0 := by
        have : e.span.start = e.span.stop := by simpa [isInsert, Span.isEmpty] using he
        simp [Span.length, this]
      rw [totalShift, ih hes, shift, hl, List.flatMap_cons, Text.size_append]
      simp

/-- The edits of a list are in order and do not reach into each other. -/
def Sequential (pos : Nat) (es : List Edit) : Prop :=
  es.Pairwise (fun a b => a.span.stop ≤ b.span.start) ∧
    ∀ e ∈ es, pos ≤ e.span.start ∧ e.span.start ≤ e.span.stop

theorem Sequential.of_cons (h : Sequential pos (e :: es)) :
    pos ≤ e.span.start ∧ e.span.start ≤ e.span.stop ∧ Sequential e.span.stop es := by
  obtain ⟨hs, hp⟩ := h
  obtain ⟨he, hs⟩ := List.pairwise_cons.mp hs
  obtain ⟨⟨hp, hle⟩, hes⟩ := List.forall_mem_cons.mp hp
  exact ⟨hp, hle, hs, fun f hf => ⟨he f hf, (hes f hf).2⟩⟩

/-- The first edit cuts its range out of the text, and the others change what is behind it. -/
theorem exists_of_splice? (hs : Sequential pos (e :: es)) (h : splice? pos t (e :: es) = some r) :
    ∃ b m s after, t = b ++ (m ++ s) ∧ pos + b.size = e.span.start ∧ m.size = e.span.length ∧
      splice? e.span.stop s es = some after ∧ r = b ++ (e.text ++ after) := by
  obtain ⟨hp, hle, -⟩ := hs.of_cons
  simp only [splice?, Option.bind_eq_bind, Option.bind_eq_some_iff] at h
  obtain ⟨b, hb, s, hd, after, ha, h⟩ := h
  obtain ⟨u, rfl, hbs⟩ := Text.exists_of_take? hb
  have hn : e.span.stop - pos = b.size + e.span.length := by
    rw [Span.length]
    omega
  rw [hn, Text.drop?_append_add] at hd
  obtain ⟨m, rfl, hm⟩ := Text.exists_of_drop? hd
  refine ⟨b, m, s, after, rfl, by omega, hm, ha, ?_⟩
  rw [← List.append_assoc]
  exact (Option.some.inj h).symm

theorem size_splice? (hs : Sequential pos es) (h : splice? pos t es = some r) :
    (r.size : Int) = t.size + totalShift es := by
  induction es generalizing pos t r with
  | nil =>
      cases h
      simp [totalShift]
  | cons e es ih =>
      obtain ⟨b, m, s, after, rfl, -, hm, ha, rfl⟩ := exists_of_splice? hs h
      have ih := ih hs.of_cons.2.2 ha
      simp only [Text.size_append, totalShift, shift]
      omega

/-- A text holds all that is written into it. -/
theorem size_le_splice? (hs : Sequential pos es) (h : splice? pos t es = some r) :
    Text.size (es.flatMap (·.text)) ≤ r.size := by
  induction es generalizing pos t r with
  | nil => exact Nat.zero_le _
  | cons e es ih =>
      obtain ⟨b, m, s, after, rfl, -, -, ha, rfl⟩ := exists_of_splice? hs h
      have ih := ih hs.of_cons.2.2 ha
      simp only [List.flatMap_cons, Text.size_append]
      omega

/-- What stands in front of an edit is changed by the edits before it, and nothing else is. -/
theorem splice?_split {as bs : List Edit} (hs : Sequential pos (as ++ e :: bs))
    (h : splice? pos t (as ++ e :: bs) = some r) :
    ∃ p u before after, t = p ++ u ∧ pos + p.size = e.span.start ∧ splice? pos p as = some before ∧
      r = before ++ (e.text ++ after) := by
  induction as generalizing pos t r with
  | nil =>
      obtain ⟨b, m, s, after, rfl, hb, -, -, rfl⟩ := exists_of_splice? hs h
      exact ⟨b, m ++ s, b, after, rfl, hb, rfl, rfl⟩
  | cons a as ih =>
      rw [List.cons_append] at hs h
      obtain ⟨-, hle, hs'⟩ := hs.of_cons
      obtain ⟨b, m, s, rest, rfl, hb, hm, ha, rfl⟩ := exists_of_splice? hs h
      obtain ⟨p, u, before, after, rfl, hp, hsp, rfl⟩ := ih hs' ha
      have hn : a.span.stop - pos = b.size + m.size := by
        rw [hm, Span.length]
        omega
      refine ⟨b ++ (m ++ p), u, b ++ (a.text ++ before), after, by simp, ?_, ?_, by simp⟩
      · simp only [Text.size_append]
        omega
      · have ht : Text.take? (b ++ (m ++ p)) (a.span.start - pos) = some b := by
          rw [show a.span.start - pos = b.size by omega, Text.take?_append]
        have hd : Text.drop? (b ++ (m ++ p)) (a.span.stop - pos) = some p := by
          rw [hn, Text.drop?_append_add, Text.drop?_append]
        simp [splice?, ht, hd, hsp]

end Lengths

/-! ## What is sorted before an edit -/

section Order

variable {e : Edit} {es : List Edit} {i : Nat}

/-- The edits with their numbers in the batch, in order. -/
def numbered (es : List Edit) : List (Edit × Nat) := es.zipIdx.mergeSort (List.zipIdxLE le)

/-- The edits that are sorted before the one with a number. -/
def sortedBefore (es : List Edit) (i : Nat) : List Edit :=
  ((numbered es).takeWhile (·.2 != i)).map (·.1)

/-- The edits that are counted before the one with a number. -/
def counted (es : List Edit) (i : Nat) (e : Edit) : List Edit :=
  (es.zipIdx.filter fun f => f.2 != i && (f.1.span.start < e.span.start ||
    (f.1.span.start == e.span.start && f.2 < i && f.1.isInsert))).map (·.1)

/-- The insertions that come later in a batch than a replacement but go in front of it. -/
def overtaking (es : List Edit) (i : Nat) (e : Edit) : List Edit :=
  (es.zipIdx.filter fun f => f.1.isInsert && f.1.span.start == e.span.start && !e.isInsert &&
    decide (i < f.2)).map (·.1)

theorem isInsert_of_mem_overtaking {f : Edit} (h : f ∈ overtaking es i e) : f.isInsert := by
  obtain ⟨g, hg, rfl⟩ := List.mem_map.mp h
  have hg := (List.mem_filter.mp hg).2
  simp only [Bool.and_eq_true] at hg
  exact hg.1.1.1

theorem numbered_perm (es : List Edit) : (numbered es).Perm es.zipIdx := List.mergeSort_perm ..

theorem map_numbered (es : List Edit) : (numbered es).map (·.1) = sort es := List.mergeSort_zipIdx

theorem numbered_ordered (es : List Edit) :
    (numbered es).Pairwise fun a b => List.zipIdxLE le a b :=
  List.pairwise_mergeSort (List.zipIdxLE_trans le_trans) (List.zipIdxLE_total le_total) _

theorem eq_of_number {f : Edit × Nat} (hi : es[i]? = some e) (hf : f ∈ es.zipIdx) (h : f.2 = i) :
    f = (e, i) := by
  obtain ⟨f, j⟩ := f
  obtain rfl : j = i := h
  rw [List.mem_zipIdx_iff_getElem?, hi] at hf
  rw [Option.some.inj hf]

/-- The edit stands behind those that are sorted before it. -/
theorem exists_numbered (hi : es[i]? = some e) : ∃ bs, numbered es =
    (numbered es).takeWhile (·.2 != i) ++ (e, i) :: bs := by
  have hm : (e, i) ∈ numbered es :=
    (numbered_perm es).mem_iff.mpr (List.mem_zipIdx_iff_getElem?.mpr hi)
  have hd : (numbered es).dropWhile (·.2 != i) ≠ [] := fun hn => by
    simpa using List.dropWhile_eq_nil_iff.mp hn _ hm
  obtain ⟨f, bs, hf⟩ := List.exists_cons_of_ne_nil hd
  have hfi : f.2 = i := by
    have := List.head?_dropWhile_not (·.2 != i) (numbered es)
    simpa [hf] using this
  have hfm : f ∈ numbered es := (List.dropWhile_sublist _).subset (hf ▸ List.mem_cons_self)
  obtain rfl := eq_of_number hi ((numbered_perm es).mem_iff.mp hfm) hfi
  exact ⟨bs, by rw [← hf, List.takeWhile_append_dropWhile]⟩

theorem exists_sort (hi : es[i]? = some e) : ∃ bs, sort es = sortedBefore es i ++ e :: bs := by
  obtain ⟨bs, hb⟩ := exists_numbered hi
  exact ⟨bs.map (·.1), by rw [← map_numbered, congrArg (List.map (·.1)) hb, List.map_append]; rfl⟩

/-- An edit is sorted before another one if it starts earlier, or if it is an insertion at the same offset
and the other one is a replacement or comes later in the batch. -/
theorem zipIdxLE_iff {f : Edit} {j : Nat} (hf : f.span.start ≤ f.span.stop)
    (he : e.span.start ≤ e.span.stop) (ha : Apart f e) (hj : j ≠ i) :
    List.zipIdxLE le (f, j) (e, i) ↔ f.span.start < e.span.start ∨
      f.span.start = e.span.start ∧ f.isInsert ∧ (j < i ∨ e.isInsert = false) := by
  have hi (g : Edit) : g.isInsert = true ↔ g.span.start = g.span.stop := by
    simp [isInsert, Span.isEmpty]
  have hn : e.isInsert = false ↔ e.span.start ≠ e.span.stop := by
    rw [← Bool.not_eq_true, hi]
  obtain ⟨h₁, h₂⟩ := ha
  rw [hi, hn]
  rw [le_iff] at h₁ h₂
  by_cases hfe : le f e
  · by_cases hef : le e f
    · simp only [List.zipIdxLE, hfe, hef, if_true, decide_eq_true_eq]
      rw [le_iff] at hfe hef
      omega
    · simp only [List.zipIdxLE, hfe, hef, if_true, Bool.false_eq_true, if_false, true_iff]
      rw [le_iff] at hfe hef
      omega
  · simp only [List.zipIdxLE, hfe, Bool.false_eq_true, if_false, false_iff]
    rw [le_iff] at hfe
    omega

/-- Of two different edits of a batch only one is sorted before the other. -/
theorem number_eq_of_zipIdxLE {a b : Edit × Nat} (h : List.zipIdxLE le a b) (h' : List.zipIdxLE le b a) :
    a.2 = b.2 := by
  unfold List.zipIdxLE at h h'
  by_cases hab : le a.1 b.1
  · by_cases hba : le b.1 a.1
    · simp only [hab, hba, if_true, decide_eq_true_eq] at h h'
      omega
    · simp [hba] at h'
  · simp [hab] at h

theorem sortedBefore_perm_filter (hi : es[i]? = some e) : (sortedBefore es i).Perm
    ((es.zipIdx.filter fun f => f.2 != i && List.zipIdxLE le f (e, i)).map (·.1)) := by
  refine List.Perm.map _ ?_
  obtain ⟨bs, hb⟩ := exists_numbered hi
  have ho := numbered_ordered es
  rw [hb] at ho
  obtain ⟨-, hbs, hab⟩ := List.pairwise_append.mp ho
  have hf : (numbered es).filter (fun f => f.2 != i && List.zipIdxLE le f (e, i)) =
      (numbered es).takeWhile (·.2 != i) := by
    rw [congrArg (List.filter _) hb, List.filter_append, List.filter_cons, if_neg (by simp),
      List.filter_eq_self.mpr, List.filter_eq_nil_iff.mpr, List.append_nil]
    · intro f hf hp
      obtain ⟨hn, hp⟩ := Bool.and_eq_true_iff.mp hp
      exact bne_iff_ne.mp hn (number_eq_of_zipIdxLE hp ((List.pairwise_cons.mp hbs).1 f hf))
    · intro f hf
      exact Bool.and_eq_true_iff.mpr ⟨List.mem_takeWhile_imp (p := fun g : Edit × Nat => g.2 != i) hf,
        hab f hf (e, i) List.mem_cons_self⟩
  rw [← hf]
  exact (numbered_perm es).filter _

/-- What is sorted before an edit is counted or overtakes it. -/
theorem sortedBefore_perm (hle : ∀ f ∈ es, f.span.start ≤ f.span.stop) (ha : es.Pairwise Apart)
    (hi : es[i]? = some e) : (sortedBefore es i).Perm (counted es i e ++ overtaking es i e) := by
  have he : e.span.start ≤ e.span.stop := hle e (List.mem_of_getElem? hi)
  have hord : ∀ f ∈ es.zipIdx, f.2 ≠ i → (List.zipIdxLE le f (e, i) ↔ f.1.span.start < e.span.start ∨
      f.1.span.start = e.span.start ∧ f.1.isInsert ∧ (f.2 < i ∨ e.isInsert = false)) := by
    intro f hf hfi
    have hf := List.mem_zipIdx_iff_getElem?.mp hf
    refine zipIdxLE_iff (hle _ (List.mem_of_getElem? hf)) he ?_ hfi
    obtain ⟨hj, hfj⟩ := List.getElem?_eq_some_iff.mp hf
    obtain ⟨hk, hek⟩ := List.getElem?_eq_some_iff.mp hi
    rcases Nat.lt_or_gt_of_ne hfi with hlt | hlt
    · exact hfj ▸ hek ▸ List.pairwise_iff_getElem.mp ha _ _ hj hk hlt
    · exact hfj ▸ hek ▸ (List.pairwise_iff_getElem.mp ha _ _ hk hj hlt).symm
  refine (sortedBefore_perm_filter hi).trans ?_
  rw [counted, overtaking, ← List.map_append]
  refine List.Perm.map _ ((List.filter_append_perm (fun f => f.1.span.start < e.span.start ||
    (f.1.span.start == e.span.start && decide (f.2 < i) && f.1.isInsert)) _).symm.trans ?_)
  rw [List.filter_filter, List.filter_filter]
  refine List.Perm.of_eq (congrArg₂ _ (List.filter_congr fun f hf => ?_)
    (List.filter_congr fun f hf => ?_))
  all_goals
    by_cases hfi : f.2 = i
    · simp [hfi]
    · have := hord f hf hfi
      grind

end Order

/-! ## Places of texts -/

variable {es : List Edit} {t r : Text} {i : Nat} {e : Edit}

/-- A batch that is carried out does not reach into itself. -/
theorem of_apply (h : apply es t = .ok r) : (∀ f ∈ es, f.span.stop ≤ t.size) ∧ es.Pairwise Apart ∧
    splice? 0 t (sort es) = some r := by
  unfold apply at h
  dsimp only at h
  split at h
  · cases h
  rename_i hf
  split at h
  · cases h
  rename_i hc
  split at h
  · rename_i u hu
    cases h
    refine ⟨fun f hf' => ?_, apart_sort.mpr ((clash?_eq_none (sort_ordered es)).mp hc), hu⟩
    simpa using List.find?_eq_none.mp hf f ((sort_perm es).mem_iff.mpr hf')
  · cases h

theorem sequential_sort (hle : ∀ f ∈ es, f.span.start ≤ f.span.stop) (ha : es.Pairwise Apart) :
    Sequential 0 (sort es) :=
  ⟨apart_sort.mp ha, fun f hf => ⟨Nat.zero_le _, hle f ((sort_perm es).mem_iff.mp hf)⟩⟩

/-- A batch in order that does not reach behind the text is carried out as it stands. -/
theorem apply_of_sequential (hs : Sequential 0 es) (ho : es.Pairwise fun a b => le a b)
    (hn : ∀ f ∈ es, f.span.stop ≤ t.size) (h : splice? 0 t es = some r) : apply es t = .ok r := by
  have hsort : sort es = es := List.mergeSort_of_pairwise ho
  rw [apply, find?_outside hn, hsort, (clash?_eq_none ho).mpr hs.1, h]

/-- The text of an edit stands behind the text in front of it with the edits carried out that are sorted
before it. The place given for a byte of it is this one, less what is inserted by the edits that overtake it. -/
theorem offsetAfter?_apply (hle : ∀ f ∈ es, f.span.start ≤ f.span.stop) (h : apply es t = .ok r)
    (hi : es[i]? = some e) : ∃ p before after, t.take? e.span.start = some p ∧
      apply (sortedBefore es i) p = .ok before ∧ r = before ++ (e.text ++ after) ∧
      ∀ within, e.span.start + within < 0x100000000 → before.size + within < 0x100000000 →
        ∃ n, offsetAfter? es i within = some n ∧
          n + Text.size ((overtaking es i e).flatMap (·.text)) = before.size + within := by
  obtain ⟨hn, ha, hr⟩ := of_apply h
  obtain ⟨bs, hb⟩ := exists_sort hi
  have hs := sequential_sort hle ha
  have ho := sort_ordered es
  rw [hb] at hs hr ho
  obtain ⟨p, u, before, after, rfl, hp, hsp, rfl⟩ := splice?_split hs hr
  rw [Nat.zero_add] at hp
  have hfront : Sequential 0 (sortedBefore es i) :=
    ⟨(List.pairwise_append.mp hs.1).1, fun f hf => hs.2 f (List.mem_append_left _ hf)⟩
  have hstop : ∀ f ∈ sortedBefore es i, f.span.stop ≤ p.size := fun f hf => by
    rw [hp]
    exact (List.pairwise_append.mp hs.1).2.2 f hf e List.mem_cons_self
  refine ⟨p, before, after, ?_, ?_, rfl, fun within hw hlt => ?_⟩
  · rw [← hp, Text.take?_append]
  · exact apply_of_sequential hfront (List.pairwise_append.mp ho).1 hstop hsp
  have hperm := sortedBefore_perm hle ha hi
  have hsize := size_splice? hfront hsp
  rw [totalShift_perm hperm, totalShift_append,
    totalShift_inserts fun f hf => isInsert_of_mem_overtaking hf, hp] at hsize
  have hover : Text.size ((overtaking es i e).flatMap (·.text)) ≤ before.size := by
    have := size_le_splice? hfront hsp
    rw [size_flatMap_perm hperm, List.flatMap_append, Text.size_append] at this
    omega
  have hof : offsetAfter? es i within = some
      (if 0 ≤ totalShift (counted es i e) + (e.span.start + within : Nat) ∧
          totalShift (counted es i e) + (e.span.start + within : Nat) < 0x100000000 then
        (totalShift (counted es i e) + (e.span.start + within : Nat)).toNat else 0) := by
    rw [offsetAfter?, hi, Option.filter_some, if_pos (by simpa using hw)]
    rfl
  rw [hof, if_pos (by omega)]
  exact ⟨_, rfl, by omega⟩

/-- An insertion behind a replacement in the batch pushes the new text away from the place given for it. -/
theorem offsetAfter?_overtaken :
    let es : List Edit := [⟨⟨0, 1⟩, "X"⟩, insert 0 "Y"]
    apply es "ab" = .ok "YXb" ∧ offsetAfter? es 0 0 = some 0 := by
  intro es
  exact ⟨apply_apart (by decide) (by decide) (by decide), by decide⟩

end AlRefactor.Edit
