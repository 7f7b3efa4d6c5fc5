import AlRefactor.Proofs.Text.Positions

/-!
# Lines and columns of a text

The lines of a text are described by the text alone: a line break ends a line, and a `\r\n` is one line
break. The table of line starts agrees with this description, and the two ways between offsets and
positions lead back to each other wherever a position can lead.
-/

namespace AlRefactor

/-- Earlier in reading order. -/
def Position.Before (p q : Position) : Prop :=
  p.line < q.line ∨ p.line = q.line ∧ p.column < q.column

namespace Text

/-! ## Lines -/

/-- The text is one line break in front of another text. -/
inductive LineBreak : Text → Text → Prop where
  | pair {r : Text} : LineBreak ['\r', '\n'] r
  | feed {r : Text} : LineBreak ['\n'] r
  | alone {r : Text} : r.head? ≠ some '\n' → LineBreak ['\r'] r

/-- No line break stands in the text. -/
def Plain (t : Text) : Prop := ∀ c ∈ t, ¬ (c = '\r' ∨ c = '\n')

/-- The text is empty or goes on with a line break. -/
def AtBreak (t : Text) : Prop := ∀ c ∈ t.head?, c = '\r' ∨ c = '\n'

/-- Where the line of a number lies in a text: what stands before it, what is on it without its line
break, and what follows. -/
inductive Line : Nat → Text → Text → Text → Prop where
  | first {g r : Text} : Plain g → AtBreak r → Line 0 [] g r
  | next {l : Nat} {g b a h r : Text} : Plain g → LineBreak b (a ++ (h ++ r)) → Line l a h r →
      Line (l + 1) (g ++ (b ++ a)) h r

variable {a b g r s t u : Text} {l n : Nat}

theorem LineBreak.atBreak (h : LineBreak b t) (r : Text) : AtBreak (b ++ r) := by
  cases h <;> simp [AtBreak]

theorem LineBreak.size_pos (h : LineBreak b t) : 0 < size b := by
  cases h <;> decide

theorem Line.plain (h : Line l a g r) : Plain g := by
  induction h with
  | first hg _ => exact hg
  | next _ _ _ ih => exact ih

/-- What goes on with a line break has one whole line break there. -/
theorem exists_lineBreak (h : AtBreak t) (ht : t ≠ []) : ∃ b s, t = b ++ s ∧ LineBreak b s := by
  obtain ⟨c, s, rfl⟩ := List.exists_cons_of_ne_nil ht
  rcases h c rfl with rfl | rfl
  · by_cases hs : s.head? = some '\n'
    · obtain ⟨w, rfl⟩ := List.head?_eq_some_iff.mp hs
      exact ⟨['\r', '\n'], w, rfl, .pair⟩
    · exact ⟨['\r'], s, rfl, .alone hs⟩
  · exact ⟨['\n'], s, rfl, .feed⟩

/-- Every text starts with a line. -/
theorem exists_plain (t : Text) : ∃ g r, t = g ++ r ∧ Plain g ∧ AtBreak r := by
  induction t with
  | nil => exact ⟨[], [], rfl, List.forall_mem_nil _, fun _ h => by cases h⟩
  | cons c t ih =>
      by_cases hc : c = '\r' ∨ c = '\n'
      · refine ⟨[], c :: t, rfl, List.forall_mem_nil _, fun d hd => ?_⟩
        rwa [← Option.some.inj hd]
      · obtain ⟨g, r, rfl, hg, hr⟩ := ih
        exact ⟨c :: g, r, rfl, List.forall_mem_cons.mpr ⟨hc, hg⟩, hr⟩

/-! ## The table -/

theorem laterLineStarts_plain (hg : Plain g) (t : Text) :
    laterLineStarts n (g ++ t) = laterLineStarts (n + size g) t := by
  induction g generalizing n with
  | nil => rfl
  | cons c g ih =>
      obtain ⟨hc, hg⟩ := List.forall_mem_cons.mp hg
      have hr : ∀ x, c = '\r' → g ++ t = '\n' :: x → False := fun _ h _ => hc (.inl h)
      rw [List.cons_append, laterLineStarts.eq_3 _ _ _ hr, if_neg hc, ih hg, size, ← Nat.add_assoc]

theorem laterLineStarts_lineBreak (h : LineBreak b t) :
    laterLineStarts n (b ++ t) = (n + size b) :: laterLineStarts (n + size b) t := by
  cases h with
  | pair => rfl
  | feed => rfl
  | alone ht =>
      have hr : ∀ x, '\r' = '\r' → t = '\n' :: x → False := fun x _ hx => ht (by rw [hx]; rfl)
      rw [List.singleton_append, laterLineStarts.eq_3 _ _ _ hr, if_pos (.inl rfl)]
      rfl

/-- The starts of lines behind a whole line. -/
theorem laterLineStarts_line (hg : Plain g) (hb : LineBreak b t) :
    laterLineStarts n (g ++ (b ++ t)) =
      (n + size (g ++ b)) :: laterLineStarts (n + size (g ++ b)) t := by
  rw [laterLineStarts_plain hg, laterLineStarts_lineBreak hb, size_append, Nat.add_assoc]

/-- The table has the start of every line. -/
theorem Line.getElem?_start (h : Line l a g r) (n : Nat) :
    (n :: laterLineStarts n (a ++ (g ++ r)))[l]? = some (n + size a) := by
  induction h generalizing n with
  | first => rfl
  | @next l g b a h r hg hb _ ih =>
      have ht : g ++ (b ++ a) ++ (h ++ r) = g ++ (b ++ (a ++ (h ++ r))) := by simp
      rw [ht, List.getElem?_cons_succ, laterLineStarts_line hg hb, ih, Nat.add_assoc, ← size_append,
        List.append_assoc]

/-- Between a line and the next line start, or the end of the text, stands at most a line break. -/
theorem Line.getElem?_next (h : Line l a g r) (n : Nat) : ∃ b s, r = b ++ s ∧ AtBreak b ∧
    (n :: laterLineStarts n (a ++ (g ++ r)))[l + 1]?.getD (n + size (a ++ (g ++ r))) =
      n + size (a ++ (g ++ b)) := by
  induction h generalizing n with
  | @first g r hg hr =>
      rw [List.nil_append, List.getElem?_cons_succ]
      by_cases hn : r = []
      · subst hn
        refine ⟨[], [], rfl, hr, ?_⟩
        rw [laterLineStarts_plain hg]
        rfl
      · obtain ⟨b, s, rfl, hb⟩ := exists_lineBreak hr hn
        have hb' := hb.atBreak []
        rw [List.append_nil] at hb'
        refine ⟨b, s, rfl, hb', ?_⟩
        rw [laterLineStarts_line hg hb]
        rfl
  | @next l g b a h r hg hb _ ih =>
      obtain ⟨d, s, hr, hd, he⟩ := ih (n + size (g ++ b))
      refine ⟨d, s, hr, hd, ?_⟩
      have ht (x : Text) : g ++ (b ++ a) ++ (h ++ x) = (g ++ b) ++ (a ++ (h ++ x)) := by simp
      rw [ht, ht, size_append (g ++ b), size_append (g ++ b), ← Nat.add_assoc, ← Nat.add_assoc, ← he,
        List.getElem?_cons_succ, List.append_assoc g, laterLineStarts_line hg hb]

/-- The line of an offset on a line is that line. -/
theorem Line.length_takeWhile (h : Line l a g r) (hu : u <+: g) (n : Nat) :
    ((n :: laterLineStarts n (a ++ (g ++ r))).takeWhile
      (fun m => decide (m ≤ n + size (a ++ u)))).length = l + 1 := by
  induction h generalizing n with
  | @first g r hg hr =>
      have hn : (laterLineStarts n (g ++ r)).takeWhile (fun m => decide (m ≤ n + size u)) = [] := by
        by_cases hr' : r = []
        · subst hr'
          rw [laterLineStarts_plain hg]
          rfl
        · obtain ⟨b, s, rfl, hb⟩ := exists_lineBreak hr hr'
          obtain ⟨v, rfl⟩ := hu
          have hp := hb.size_pos
          rw [laterLineStarts_line hg hb]
          refine List.takeWhile_cons_of_neg ?_
          simp only [size_append, decide_eq_true_eq]
          omega
      rw [List.nil_append, List.nil_append, List.takeWhile_cons_of_pos (by simp), hn]
      rfl
  | @next l g b a h r hg hb _ ih =>
      have ht (x : Text) : g ++ (b ++ a) ++ x = g ++ (b ++ (a ++ x)) := by simp
      have hs : n + size (g ++ (b ++ (a ++ u))) = n + size (g ++ b) + size (a ++ u) := by
        rw [Nat.add_assoc, ← size_append, List.append_assoc]
      rw [ht, ht, List.takeWhile_cons_of_pos (by simp), List.length_cons,
        laterLineStarts_line hg hb, hs, ih hu]

/-- Every line start of the table is that of a line. -/
theorem exists_line (h : l < (n :: laterLineStarts n t).length) :
    ∃ a g r, t = a ++ (g ++ r) ∧ Line l a g r := by
  induction l generalizing n t with
  | zero =>
      obtain ⟨g, r, rfl, hg, hr⟩ := exists_plain t
      exact ⟨[], g, r, rfl, .first hg hr⟩
  | succ l ih =>
      obtain ⟨g, r, rfl, hg, hr⟩ := exists_plain t
      by_cases hn : r = []
      · subst hn
        rw [laterLineStarts_plain hg] at h
        exact absurd h (by simp [laterLineStarts])
      · obtain ⟨b, s, rfl, hb⟩ := exists_lineBreak hr hn
        rw [laterLineStarts_line hg hb, List.length_cons] at h
        obtain ⟨a, k, r, rfl, hl⟩ := ih (Nat.lt_of_succ_lt_succ h)
        exact ⟨g ++ (b ++ a), k, r, by simp, .next hg hb hl⟩

/-! ## Columns -/

theorem unitCount_append (a b : Text) : unitCount (a ++ b) = unitCount a + unitCount b := by
  induction a with
  | nil => simp [unitCount]
  | cons c a ih => simp [unitCount, ih, Nat.add_assoc]

theorem units_pos (c : Char) : 0 < units c := by
  unfold units
  split <;> decide

theorem unitCount_pos (h : t ≠ []) : 0 < unitCount t := by
  obtain ⟨c, s, rfl⟩ := List.exists_cons_of_ne_nil h
  exact Nat.lt_of_lt_of_le (units_pos c) (Nat.le_add_right ..)

/-- The part of a line in front of a column: up to the first place that is not before the column, or
all of the line if every place is. -/
structure UpToColumn (column : Nat) (g u : Text) : Prop where
  start : u <+: g
  nearest : column ≤ unitCount u ∧ (∀ w, w <+: g → column ≤ unitCount w → unitCount u ≤ unitCount w) ∨
    u = g ∧ unitCount g < column

/-- The length up to a column, on a line in front of a line break or the end of the text. -/
theorem exists_upToColumn (hg : Plain g) (hb : AtBreak b) (column : Nat) :
    ∃ u, UpToColumn column g u ∧ columnLength column (g ++ b) = size u := by
  induction g generalizing column with
  | nil =>
      refine ⟨[], ⟨List.nil_prefix, ?_⟩, ?_⟩
      · by_cases hc : column = 0
        · exact .inl ⟨hc ▸ Nat.zero_le _, fun w _ _ => Nat.zero_le _⟩
        · exact .inr ⟨rfl, Nat.pos_of_ne_zero hc⟩
      · cases b with
        | nil => rfl
        | cons c b => rw [List.nil_append, columnLength, if_pos (.inr (hb c rfl))]; rfl
  | cons c g ih =>
      obtain ⟨hc, hg⟩ := List.forall_mem_cons.mp hg
      by_cases h0 : column = 0
      · refine ⟨[], ⟨List.nil_prefix, .inl ⟨h0 ▸ Nat.zero_le _, fun w _ _ => Nat.zero_le _⟩⟩, ?_⟩
        rw [List.cons_append, columnLength, if_pos (.inl h0)]
        rfl
      · obtain ⟨u, hu, hl⟩ := ih hg (column - units c)
        refine ⟨c :: u, ⟨List.cons_prefix_cons.mpr ⟨rfl, hu.start⟩, ?_⟩, ?_⟩
        · rcases hu.nearest with ⟨hle, hmin⟩ | ⟨rfl, hlt⟩
          · refine .inl ⟨by rw [unitCount]; omega, fun w hw hcw => ?_⟩
            cases w with
            | nil => exact absurd (Nat.le_zero.mp hcw) h0
            | cons d w =>
                obtain ⟨rfl, hwg⟩ := List.cons_prefix_cons.mp hw
                rw [unitCount] at hcw ⊢
                exact Nat.add_le_add_left (hmin w hwg (by omega)) _
          · exact .inr ⟨rfl, by rw [unitCount]; omega⟩
        · rw [List.cons_append, columnLength, if_neg (by rintro (h | h); exacts [h0 h, hc h]), hl, size]

/-! ## Ranges from one place -/

/-- Where the text of a range stands. -/
theorem exists_of_slice? {x : Text} {p : Span} (h : t.slice? p = some x) :
    ∃ u v, t = u ++ (x ++ v) ∧ size u = p.start ∧ size u + size x = p.stop := by
  rw [slice?] at h
  split at h
  · obtain ⟨r, hr, hx⟩ := Option.bind_eq_some_iff.mp h
    obtain ⟨u, rfl, hu⟩ := exists_of_drop? hr
    obtain ⟨v, rfl, hv⟩ := exists_of_take? hx
    refine ⟨u, v, rfl, hu, ?_⟩
    rw [hu, hv, Span.length]
    omega
  · cases h

/-- Of two ranges from the same place the longer one goes on behind the shorter one. -/
theorem exists_of_slice?_start {x y : Text} {i m n : Nat} (hx : t.slice? ⟨i, m⟩ = some x)
    (hy : t.slice? ⟨i, n⟩ = some y) (h : m < n) : ∃ v, y = x ++ v ∧ v ≠ [] := by
  obtain ⟨u, v, rfl, hu, hv⟩ := exists_of_slice? hx
  obtain ⟨u', v', ht, hu', hv'⟩ := exists_of_slice? hy
  dsimp only at hu hv hu' hv'
  obtain ⟨rfl, hw⟩ := append_inj_of_size ht (hu.trans hu'.symm)
  obtain ⟨w, rfl, -⟩ := exists_append_of_le hw (by omega)
  refine ⟨w, rfl, ?_⟩
  rintro rfl
  simp at hv'
  omega

end Text

/-! ## There and back -/

namespace LineTable

open Text

/-- What the table of a text tells about lines and columns. -/
structure Describes (i : LineTable) (t : Text) : Prop where
  /-- Line and column of an offset lead back to it. -/
  back (n : Nat) : t.Addressable n →
    ∃ p, i.position? t n = some p ∧ i.offset? t p = some n
  /-- Later offsets have later positions. -/
  ordered (m n : Nat) : t.Addressable m → t.Addressable n → m < n →
    ∃ p q, i.position? t m = some p ∧ i.position? t n = some q ∧ p.Before q
  /-- Offsets behind the end stand for the end. -/
  clamped (n : Nat) : t.size ≤ n → i.position? t n = i.position? t t.size
  /-- On a line that exists a column leads to the first place of the line that is not before the
  column, or to the end of the line; and that place has this line and its own column. -/
  nearest {l : Nat} {a g r : Text} : t = a ++ (g ++ r) → Line l a g r → ∀ column, ∃ u,
    UpToColumn column g u ∧ i.offset? t ⟨l, column⟩ = some (Text.size (a ++ u)) ∧
      i.position? t (Text.size (a ++ u)) = some ⟨l, unitCount u⟩
  /-- There is nothing on other lines. -/
  missing (l : Nat) : (¬ ∃ a g r, t = a ++ (g ++ r) ∧ Line l a g r) →
    ∀ column, i.offset? t ⟨l, column⟩ = none

variable {t a g r u : Text} {l m n : Nat}

theorem start?_line (h : Line l a g r) :
    (ofText (a ++ (g ++ r))).start? l = some (Text.size a) := by
  rw [start?, ofText, lineStarts, h.getElem?_start, Nat.zero_add]

/-- The position of a place on a line. -/
theorem position?_line (h : Line l a g r) (hu : u <+: g) :
    (ofText (a ++ (g ++ r))).position? (a ++ (g ++ r)) (Text.size (a ++ u)) = some ⟨l, unitCount u⟩ := by
  have hl : (ofText (a ++ (g ++ r))).lineOf (Text.size (a ++ u)) = l := by
    have hw := h.length_takeWhile hu 0
    rw [Nat.zero_add] at hw
    rw [lineOf, ofText, lineStarts, hw, Nat.add_sub_cancel]
  obtain ⟨v, rfl⟩ := hu
  have hmin : min (Text.size (a ++ u)) (ofText (a ++ (u ++ v ++ r))).size = Text.size (a ++ u) := by
    refine Nat.min_eq_left ?_
    have ht : a ++ (u ++ v ++ r) = a ++ u ++ (v ++ r) := by simp
    rw [ofText, ht, size_append (a ++ u)]
    exact Nat.le_add_right ..
  have hs : slice? (a ++ (u ++ v ++ r)) ⟨Text.size a, Text.size (a ++ u)⟩ = some u := by
    rw [size_append, List.append_assoc u, slice?_append]
  rw [position?, hmin, hl, start?_line h, Option.getD_some, hs]
  rfl

/-- The offset of a column on a line. -/
theorem offset?_line (h : Line l a g r) (column : Nat) : ∃ u, UpToColumn column g u ∧
    (ofText (a ++ (g ++ r))).offset? (a ++ (g ++ r)) ⟨l, column⟩ = some (Text.size (a ++ u)) := by
  obtain ⟨b, s, rfl, hb, he⟩ := h.getElem?_next 0
  rw [Nat.zero_add, Nat.zero_add] at he
  have hstop : ((ofText (a ++ (g ++ (b ++ s)))).start? (l + 1)).getD
      (ofText (a ++ (g ++ (b ++ s)))).size = Text.size a + Text.size (g ++ b) := by
    rw [start?, ofText, lineStarts, he, size_append]
  obtain ⟨u, hu, hl⟩ := exists_upToColumn h.plain hb column
  refine ⟨u, hu, ?_⟩
  have hx : extract (a ++ (g ++ (b ++ s))) ⟨Text.size a, Text.size a + Text.size (g ++ b)⟩ = g ++ b := by
    rw [← List.append_assoc g, extract_append]
  rw [offset?, start?_line h, Option.map_some]
  dsimp only
  rw [hstop, hx, hl, size_append]

/-- A line that has an offset exists. -/
theorem exists_line_of_offset? {column : Nat} (h : (ofText t).offset? t ⟨l, column⟩ = some n) :
    ∃ a g r, t = a ++ (g ++ r) ∧ Line l a g r := by
  obtain ⟨k, hk, -⟩ := Option.map_eq_some_iff.mp h
  obtain ⟨hlt, -⟩ := List.getElem?_eq_some_iff.mp hk
  exact exists_line hlt

theorem lineOf_mono (i : LineTable) (h : m ≤ n) : i.lineOf m ≤ i.lineOf n := by
  refine Nat.sub_le_sub_right ?_ 1
  generalize i.starts = ks
  induction ks with
  | nil => exact Nat.le_refl _
  | cons k ks ih =>
      by_cases hm : k ≤ m
      · rw [List.takeWhile_cons_of_pos (by simpa using hm),
          List.takeWhile_cons_of_pos (by simpa using Nat.le_trans hm h)]
        exact Nat.succ_le_succ ih
      · rw [List.takeWhile_cons_of_neg (by simpa using hm)]
        exact Nat.zero_le _

/-- Later offsets have later positions. -/
theorem position?_before {p q : Position} (h : m < n) (hn : n ≤ t.size)
    (hp : (ofText t).position? t m = some p) (hq : (ofText t).position? t n = some q) : p.Before q := by
  have hsize : (ofText t).size = t.size := rfl
  rw [position?, hsize, Nat.min_eq_left (by omega)] at hp
  rw [position?, hsize, Nat.min_eq_left hn] at hq
  obtain ⟨x, hx, rfl⟩ := Option.map_eq_some_iff.mp hp
  obtain ⟨y, hy, rfl⟩ := Option.map_eq_some_iff.mp hq
  rcases Nat.lt_or_eq_of_le ((ofText t).lineOf_mono (Nat.le_of_lt h)) with hl | hl
  · exact .inl hl
  · refine .inr ⟨hl, ?_⟩
    rw [← hl] at hy
    obtain ⟨v, rfl, hv⟩ := exists_of_slice?_start hx hy h
    rw [unitCount_append]
    exact Nat.lt_add_of_pos_right (unitCount_pos hv)

/-- The table of a text tells about its lines and columns, whatever the text. -/
theorem describes_ofText (t : Text) : (ofText t).Describes t where
  back _ hn := hn.exists_position
  ordered m n hm hn hlt := by
    obtain ⟨p, hp, -⟩ := hm.exists_position
    obtain ⟨q, hq, -⟩ := hn.exists_position
    exact ⟨p, q, hp, hq, position?_before hlt (le_size_of_isBoundary hn.isBoundary) hp hq⟩
  clamped n hn := by
    have hsize : (ofText t).size = t.size := rfl
    rw [position?, position?, hsize, Nat.min_eq_right hn, Nat.min_self]
  nearest ht hl column := by
    subst ht
    obtain ⟨u, hu, ho⟩ := offset?_line hl column
    exact ⟨u, hu, ho, position?_line hl hu.start⟩
  missing l hl column := by
    rw [Option.eq_none_iff_forall_ne_some]
    exact fun n hn => hl (exists_line_of_offset? hn)

end LineTable

end AlRefactor
