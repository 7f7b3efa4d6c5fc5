import AlRefactor.Proofs.Token.Stream
import AlRefactor.Text.Name

/-!
# Texts put together

The lexer makes of two texts together what it makes of each, where no token can reach from the one
into the other: at the start or the end of a line, behind a semicolon, and behind a name that a colon
follows.
-/

namespace AlRefactor

namespace Lexeme

open TokenKind

/-! ## Beginnings that two texts have in common -/

theorem lex_cons (c : Char) (t : Text) :
    lex (c :: t) = ⟨(scan c t).1, c :: t.take (scan c t).2⟩ :: lex (t.drop (scan c t).2) := by
  rw [lex]

theorem runLength_of_lt {p : Char → Bool} {u r : Text} (h : runLength p (u ++ r) < u.length) :
    runLength p (u ++ r) = runLength p u := by
  unfold runLength at *
  rw [List.takeWhile_append] at h ⊢
  split
  · rename_i hu
    rw [if_pos hu, List.length_append] at h
    omega
  · rfl

theorem of_runLength {p : Char → Bool} {u v : Text} (h : u.length ≤ runLength p (u ++ v)) : ∀ e ∈ u, p e :=
  fun _ he => List.mem_takeWhile_imp ((List.prefix_of_prefix_length_le (List.prefix_append u v)
    (List.takeWhile_prefix p) h).subset he)

theorem runLength_of_eq {p : Char → Bool} {u r r' : Text}
    (h : runLength p (u ++ r) = u.length) (hr : ∀ d ∈ r'.head?, p d = false) :
    runLength p (u ++ r') = u.length := by
  rw [runLength_append (of_runLength (Nat.le_of_eq h.symm))]
  cases r' with
  | nil => rfl
  | cons d r' => simp [runLength, hr d rfl]

/-- The rest of a line ends at the same place in two texts, if they part behind it or a line break follows there in
the second one. -/
theorem lineLength_congr {u r r' : Text} (hl : lineLength (u ++ r) ≤ u.length)
    (he : lineLength (u ++ r) = u.length → ∀ d ∈ r'.head?, isLineBreak d) :
    lineLength (u ++ r') = lineLength (u ++ r) := by
  rcases Nat.lt_or_eq_of_le hl with hlt | heq
  · have hr := runLength_of_lt hlt
    refine Eq.trans ?_ hr.symm
    unfold lineLength at hlt ⊢
    unfold runLength at *
    rw [hr] at hlt
    rw [List.takeWhile_append, if_neg (Nat.ne_of_lt hlt)]
  · rw [heq]
    exact runLength_of_eq heq fun d hd => by simpa using he heq d hd

section

variable {c : Char} {t t' p : Text} (hp : p <+: c :: t) (hp' : p <+: c :: t') (hl : (scan c t).2 < p.length)

include hp hp' hl

theorem length_scan_congr (hk : (scan c t).1 = .error) (hk' : (scan c t').1 = .error) (hu : ¬ Unclosed (c :: t))
    (hu' : ¬ Unclosed (c :: t'))
    (he : c ∈ ['\'', '"'] → (scan c t).2 + 1 = p.length → ∀ d ∈ (t'.drop (scan c t).2).head?, isLineBreak d) :
    (scan c t').2 = (scan c t).2 := by
  have hs := scan_error hk hu
  rw [hs, scan_error hk' hu']
  split
  · rename_i hc
    rw [if_pos hc] at hs
    obtain ⟨u, rfl⟩ : ∃ u, p = c :: u := by
      obtain ⟨q, hq⟩ := hp
      cases p with
      | nil => simp at hl
      | cons d u => exact ⟨u, by rw [(List.cons.inj hq).1]⟩
    obtain ⟨r, rfl⟩ := (List.cons_prefix_cons.mp hp).2
    obtain ⟨r', rfl⟩ := (List.cons_prefix_cons.mp hp').2
    rw [hs, List.length_cons] at hl
    refine lineLength_congr (Nat.le_of_lt_succ hl) fun heq d hd => ?_
    exact he hc (by rw [hs, heq, List.length_cons]) d (by rwa [hs, heq, List.drop_left])
  · rfl

/-- A token that lies in a common beginning of two texts is the same in both if no rule matches more
than the beginning of the second one. -/
theorem scan_congr (hn : ∀ k y, Matches k y → y <+: c :: t' → y.length ≤ p.length)
    (hu : ¬ Unclosed (c :: t)) (hu' : ¬ Unclosed (c :: t'))
    (he : c ∈ ['\'', '"'] → (scan c t).2 + 1 = p.length → (scan c t).1 = .error →
      ∀ d ∈ (t'.drop (scan c t).2).head?, isLineBreak d) :
    scan c t' = scan c t := by
  by_cases hk : (scan c t).1 = .error
  · -- What a rule matches in the second text lies in the common beginning, so it would match in the first one.
    have hk' : (scan c t').1 = .error := by
      by_contra hk'
      have hlong := longest_scan hk'
      exact unmatched_of_error hk hu _ _ hlong.matched ((List.prefix_of_prefix_length_le hlong.beginning hp'
        (hn _ _ hlong.matched hlong.beginning)).trans hp)
    exact Prod.ext (hk'.trans hk.symm)
      (length_scan_congr hp hp' hl hk hk' hu hu' fun hc hlen => he hc hlen hk)
  · have hlong := longest_scan hk
    have hb : c :: t.take (scan c t).2 <+: p := by
      refine List.prefix_of_prefix_length_le hlong.beginning hp ?_
      rw [List.length_cons, List.length_take_of_le (scan_le c t)]
      exact hl
    have hk' : (scan c t').1 ≠ .error := fun hk' =>
      unmatched_of_error hk' hu' _ _ hlong.matched (hb.trans hp')
    have hlong' := longest_scan hk'
    have hb' : c :: t'.take (scan c t').2 <+: p :=
      List.prefix_of_prefix_length_le hlong'.beginning hp' (hn _ _ hlong'.matched hlong'.beginning)
    -- Both longest matches lie in the common beginning, so each is a match in the other text as well.
    have hlen := Nat.le_antisymm (hlong.longest _ _ hlong'.matched (hb'.trans hp))
      (hlong'.longest _ _ hlong.matched (hb.trans hp'))
    have heq := (List.prefix_of_prefix_length_le hb' hb (Nat.le_of_eq hlen)).eq_of_length hlen
    refine Prod.ext ?_ ?_
    · rcases hlong.preferred _ (heq ▸ hlong'.matched) with h | ⟨h, hw⟩
      · exact h
      · rcases hlong'.preferred _ (heq ▸ hlong.matched) with h' | ⟨h', -⟩
        · exact h'.symm
        · rw [h'] at hw
          cases hw
    · rwa [List.length_cons, List.length_cons, List.length_take_of_le (scan_le c t),
        List.length_take_of_le (scan_le c t'), Nat.add_right_cancel_iff] at hlen

end

/-! ## At the start or the end of a line -/

/-- A line break ends before the place where two texts meet or starts behind it, and none is cut in
two. -/
structure Parted (u v : Text) : Prop where
  apart : (∀ c ∈ u.getLast?, isLineBreak c) ∨ ∀ c ∈ v.head?, isLineBreak c
  whole : ¬ (u.getLast? = some '\r' ∧ v.head? = some '\n')

theorem not_mem_marks {u : Text} {k : TokenKind} (h : (u, k) ∈ marks) :
    ∀ c ∈ u, isLineBreak c = false := by
  have hm : marks.all fun e => e.1.all fun c => !isLineBreak c := by decide
  intro c hc
  simpa using List.all_eq_true.mp (List.all_eq_true.mp hm _ h) c hc

theorem not_mem_keyword {w : String} {k : TokenKind} {u : Text} (h : (w, k) ∈ keywords)
    (hw : u.map foldCase = w.toList) : ∀ c ∈ u, isLineBreak c = false := by
  have hk : keywords.all fun e => e.1.toList.all fun c => !isLineBreak c := by decide
  intro c hc
  have hf : isLineBreak (foldCase c) = false := by
    simpa using List.all_eq_true.mp (List.all_eq_true.mp hk _ h) _ (hw ▸ List.mem_map_of_mem hc)
  by_contra hb
  rcases isLineBreak_iff.mp (Bool.eq_true_of_not_eq_false hb) with rfl | rfl <;> cases hf

theorem unbroken_of_quotable {u : Text} (h : Quotable u) : ∀ c ∈ u, isLineBreak c = false := by
  induction h with
  | nil => exact fun _ h => absurd h List.not_mem_nil
  | char _ hb _ ih => exact List.forall_mem_cons.mpr ⟨hb, ih⟩
  | pair _ ih =>
      exact List.forall_mem_cons.mpr ⟨rfl, List.forall_mem_cons.mpr ⟨rfl, ih⟩⟩

/-- Only line breaks and block comments have line breaks in them. -/
theorem unbroken_or {k : TokenKind} {u : Text} (h : Matches k u) :
    (∀ c ∈ u, isLineBreak c = false) ∨ u ∈ [['\r', '\n'], ['\n'], ['\r']] ∨
      ∃ v, u = '/' :: '*' :: (v ++ ['*', '/']) ∧ ¬ ['*', '/'] <:+: v ++ ['*'] := by
  have hd {d : Char} (h : d.isDigit) : isLineBreak d = false := not_isLineBreak rfl rfl h
  have hw {d : Char} (h : d ∈ ['d', 't']) : isLineBreak d = false := by
    rcases List.mem_pair.mp h with rfl | rfl <;> rfl
  cases h with
  | mark h => exact .inl (not_mem_marks h)
  | keyword h hw => exact .inl (not_mem_keyword h hw)
  | whitespace _ hb => exact .inl fun c hc => not_isLineBreak rfl rfl (hb c hc)
  | newline h => exact .inr (.inl h)
  | lineComment hb =>
      exact .inl (List.forall_mem_cons.mpr ⟨rfl, List.forall_mem_cons.mpr ⟨rfl, hb⟩⟩)
  | blockComment hn => exact .inr (.inr ⟨_, rfl, hn⟩)
  | directive ha hb =>
      exact .inl (List.forall_mem_cons.mpr ⟨rfl, List.forall_mem_cons.mpr
        ⟨not_isLineBreak rfl rfl ha, hb⟩⟩)
  | int _ hu => exact .inl fun c hc => hd (hu c hc)
  | decimal _ hu _ hv =>
      exact .inl (List.forall_mem_append.mpr ⟨fun c hc => hd (hu c hc),
        List.forall_mem_cons.mpr ⟨rfl, fun c hc => hd (hv c hc)⟩⟩)
  | dateTime _ hu hv =>
      refine .inl (List.forall_mem_append.mpr ⟨fun c hc => hd (hu c hc), fun c hc => ?_⟩)
      by_contra hb
      have hm := List.mem_map_of_mem (f := Char.toLower) hc
      rcases isLineBreak_iff.mp (Bool.eq_true_of_not_eq_false hb) with rfl | rfl <;>
        simp only [List.mem_cons, List.not_mem_nil, or_false] at hv <;>
        rcases hv with hv | hv | hv <;> rw [hv] at hm <;> revert hm <;> decide
  | string hq =>
      exact .inl (List.forall_mem_cons.mpr ⟨rfl, List.forall_mem_append.mpr
        ⟨unbroken_of_quotable hq, List.forall_mem_singleton.mpr rfl⟩⟩)
  | quotedIdent hq =>
      exact .inl (List.forall_mem_cons.mpr ⟨rfl, List.forall_mem_append.mpr
        ⟨fun c hc => (hq c hc).2, List.forall_mem_singleton.mpr rfl⟩⟩)
  | ident hc hp =>
      exact .inl (List.forall_mem_cons.mpr ⟨not_isLineBreak rfl rfl hc,
        fun c hc => not_isLineBreak rfl rfl (hp c hc)⟩)

/-- Across the start or the end of a line only block comments reach. -/
theorem comment_of_reaching {k : TokenKind} {u v : Text} (h : Matches k (u ++ v)) (hp : Parted u v)
    (hu : u ≠ []) (hv : v ≠ []) :
    ∃ w, u ++ v = '/' :: '*' :: (w ++ ['*', '/']) ∧ ¬ ['*', '/'] <:+: w ++ ['*'] := by
  have hb : ∃ c ∈ u ++ v, isLineBreak c := by
    rcases hp.apart with hb | hb
    · exact ⟨u.getLast hu, List.mem_append_left _ (List.getLast_mem hu),
        hb _ (List.getLast?_eq_some_getLast hu)⟩
    · exact ⟨v.head hv, List.mem_append_right _ (List.head_mem hv), hb _ (List.head?_eq_some_head hv)⟩
  rcases unbroken_or h with hn | hn | hn
  · obtain ⟨c, hc, hb⟩ := hb
    rw [hn c hc] at hb
    cases hb
  · exfalso
    obtain ⟨c, u, rfl⟩ := List.exists_cons_of_ne_nil hu
    obtain ⟨d, v, rfl⟩ := List.exists_cons_of_ne_nil hv
    simp only [List.mem_cons, List.not_mem_nil, or_false] at hn
    rcases hn with hn | hn | hn
    · cases u with
      | nil =>
          obtain ⟨hc, hn⟩ := List.cons.inj hn
          exact hp.whole ⟨congrArg some hc, congrArg some (List.cons.inj hn).1⟩
      | cons e u => simp at hn
    · simp at hn
    · simp at hn
  · exact hn

theorem Parted.tail {u₁ u v : Text} (h : Parted (u₁ ++ u) v) : Parted u v := by
  rcases List.eq_nil_or_concat u with rfl | ⟨u, c, rfl⟩
  · exact ⟨.inl nofun, fun h => by cases h.1⟩
  · have hl : (u₁ ++ u.concat c).getLast? = (u.concat c).getLast? := by simp
    exact ⟨hl ▸ h.apart, hl ▸ h.whole⟩

/-- A comment that is not closed where the texts meet is not closed in the first one. -/
theorem exists_of_slash_star {u v r : Text} (h : u ++ v = '/' :: '*' :: r) (hp : Parted u v)
    (hu : u ≠ []) : ∃ w, u = '/' :: '*' :: w ∧ r = w ++ v := by
  obtain ⟨c, u, rfl⟩ := List.exists_cons_of_ne_nil hu
  obtain ⟨rfl, h'⟩ := List.cons.inj h
  cases u with
  | nil =>
      obtain rfl : v = '*' :: r := h'
      rcases hp.apart with hb | hb
      · cases hb '/' rfl
      · cases hb '*' rfl
  | cons d u =>
      obtain ⟨rfl, hr⟩ := List.cons.inj h'
      exact ⟨u, rfl, hr.symm⟩

/-- A beginning of a text that is as long as another beginning starts with this one. -/
theorem exists_of_append {a b u v : Text} (h : u ++ v = a ++ b) (hl : a.length ≤ u.length) :
    ∃ z, u = a ++ z ∧ b = z ++ v := by
  rcases List.append_eq_append_iff.mp h with ⟨z, rfl, rfl⟩ | ⟨z, rfl, rfl⟩
  · rw [List.length_append] at hl
    obtain rfl : z = [] := List.length_eq_zero_iff.mp (by omega)
    exact ⟨[], by simp, by simp⟩
  · exact ⟨z, rfl, rfl⟩

/-- A comment that ends in the beginning of a text is closed there. -/
theorem infix_of_scan {u v : Text} (h : (scan '/' ('*' :: (u ++ v))).2 ≤ ('*' :: u).length)
    (hc : ¬ Unclosed ('/' :: '*' :: (u ++ v))) : ['*', '/'] <:+: u := by
  rw [scan_slash_star, List.length_cons] at h
  cases hl : commentLength? (u ++ v) with
  | none => exact absurd ⟨u ++ v, rfl, commentLength?_eq_none.mp hl⟩ hc
  | some n =>
      rw [hl] at h
      dsimp only at h
      obtain ⟨z, w, hz, rfl, -⟩ := of_commentLength? hl
      obtain ⟨b, rfl, -⟩ := exists_of_append (a := z ++ ['*', '/']) (by simpa using hz) (by simp; omega)
      exact ⟨z, b, by simp⟩

/-- Where no comment is open, no rule matches across the start or the end of a line. -/
theorem length_le_of_parted {k : TokenKind} {u v y : Text} (hy : Matches k y) (hpre : y <+: u ++ v) (hu : u ≠ [])
    (hp : Parted u v) (hclosed : ∀ r, u = '/' :: '*' :: r → ['*', '/'] <:+: r) : y.length ≤ u.length := by
  by_contra hlt
  obtain ⟨r, rfl⟩ := List.prefix_of_prefix_length_le (List.prefix_append u v) hpre (Nat.le_of_not_le hlt)
  have hr : r <+: v := (List.prefix_append_right_inj u).mp hpre
  have hr0 : r ≠ [] := fun h => hlt (by simp [h])
  have hpr : Parted u r := by
    obtain ⟨d, r, rfl⟩ := List.exists_cons_of_ne_nil hr0
    obtain ⟨v, rfl⟩ := hr
    exact ⟨hp.apart, hp.whole⟩
  -- Only a comment reaches across, and its first end would stand in front of that place.
  obtain ⟨x, hx, hn⟩ := comment_of_reaching hy hpr hu hr0
  obtain ⟨z, hz, hxz⟩ := exists_of_slash_star hx hpr hu
  have hstar : x ++ ['*'] <+: x ++ ['*', '/'] := ⟨['/'], by simp⟩
  suffices h : z <+: x ++ ['*'] from hn ((hclosed z hz).trans h.isInfix)
  refine List.prefix_of_prefix_length_le ⟨r, hxz.symm⟩ hstar ?_
  have := congrArg List.length hxz
  have := List.length_pos_of_ne_nil hr0
  simp only [List.length_append, List.length_cons, List.length_nil] at *
  omega

/-- A literal that is not closed up to the end of a text has no line break there. -/
theorem unbroken_of_scan_error {c : Char} {u w : Text} (hk : (scan c (u ++ w)).1 = .error)
    (hc : ¬ Unclosed (c :: (u ++ w))) (hq : c ∈ ['\'', '"']) (hlen : (scan c (u ++ w)).2 = u.length) :
    ∀ d ∈ c :: u, isLineBreak d = false := by
  have hrun := scan_error hk hc
  rw [if_pos hq, hlen] at hrun
  refine List.forall_mem_cons.mpr ⟨by rcases List.mem_pair.mp hq with rfl | rfl <;> rfl, fun d hd => ?_⟩
  have hd := of_runLength (p := fun c => !isLineBreak c) (Nat.le_of_eq hrun) d hd
  simpa using hd

/-- A token that ends where a line starts or ends, or before, does not hang on what follows there. -/
theorem scan_append_parted {c : Char} {u w v : Text} (hl : (scan c (u ++ w)).2 ≤ u.length)
    (hw : w ≠ []) (hp : Parted (c :: u) v) : scan c (u ++ v) = scan c (u ++ w) := by
  have hc : ¬ Unclosed (c :: (u ++ w)) := fun h => by
    rw [scan_unclosed h, List.length_append] at hl
    exact hw (List.length_eq_zero_iff.mp (by omega))
  have hclosed (r : Text) (hr : c :: u = '/' :: '*' :: r) : ['*', '/'] <:+: r := by
    obtain ⟨rfl, rfl⟩ := List.cons.inj hr
    exact infix_of_scan hl hc
  have hc' : ¬ Unclosed (c :: (u ++ v)) := fun ⟨r, hr, hn⟩ => by
    obtain ⟨x, hx, rfl⟩ := exists_of_slash_star hr hp (List.cons_ne_nil c u)
    exact hn ((hclosed x hx).trans (List.prefix_append _ _).isInfix)
  refine scan_congr (p := c :: u) (List.prefix_append (c :: u) w) (List.prefix_append (c :: u) v)
    (Nat.lt_succ_of_le hl)
    (fun k y hy hpre => length_le_of_parted hy hpre (List.cons_ne_nil c u) hp hclosed) hc hc' fun hq hlen hk => ?_
  rw [List.length_cons, Nat.add_right_cancel_iff] at hlen
  rw [hlen, List.drop_left]
  refine hp.apart.resolve_left fun hb => ?_
  have hlast := hb _ (List.getLast?_eq_some_getLast (List.cons_ne_nil c u))
  rw [unbroken_of_scan_error hk hc hq hlen _ (List.getLast_mem _)] at hlast
  cases hlast

/-- The first of the lexemes of a beginning of a text, and those of the rest of the beginning. -/
theorem of_lex_cons {c : Char} {u v : Text} {L M : List Lexeme} (h : lex (c :: (u ++ v)) = L ++ M)
    (hL : L.flatMap (·.text) = c :: u) :
    ∃ ls, L = ⟨(scan c (u ++ v)).1, c :: u.take (scan c (u ++ v)).2⟩ :: ls ∧ (scan c (u ++ v)).2 ≤ u.length ∧
      ls.flatMap (·.text) = u.drop (scan c (u ++ v)).2 ∧ lex (u.drop (scan c (u ++ v)).2 ++ v) = ls ++ M := by
  cases L with
  | nil => cases hL
  | cons l L =>
      rw [lex_cons, List.cons_append] at h
      obtain ⟨rfl, h'⟩ := List.cons.inj h
      rw [List.flatMap_cons, List.cons_append] at hL
      obtain ⟨-, hL⟩ := List.cons.inj hL
      have hle : (scan c (u ++ v)).2 ≤ u.length := by
        have := congrArg List.length hL
        rw [List.length_append, List.length_take_of_le (scan_le _ _)] at this
        omega
      rw [List.take_append_of_le_length hle] at hL ⊢
      rw [List.drop_append_of_le_length hle] at h'
      exact ⟨L, rfl, hle, List.append_cancel_left (hL.trans (List.take_append_drop _ u).symm), h'⟩

/-- What the lexer makes of a text up to a place where a line starts or ends does not hang on what
follows there. -/
theorem lex_append_parted {u v w : Text} {L M : List Lexeme} (h : lex (u ++ w) = L ++ M)
    (hL : L.flatMap (·.text) = u) (hw : w ≠ []) (hp : Parted u v) : lex (u ++ v) = L ++ lex v := by
  induction L generalizing u with
  | nil => rw [← hL]; rfl
  | cons l L ih =>
      have hl : l.text ≠ [] := text_ne_nil (t := u ++ w) (by rw [h]; exact List.mem_cons_self)
      obtain ⟨c, u, rfl⟩ := List.exists_cons_of_ne_nil (l := u) fun hu => by
        rw [hu, List.flatMap_cons] at hL
        exact hl (List.append_eq_nil_iff.mp hL).1
      obtain ⟨ls, hls, hle, hrest, hlex⟩ := of_lex_cons h hL
      obtain ⟨rfl, rfl⟩ := List.cons.inj hls
      have hu : c :: u = (c :: u.take (scan c (u ++ w)).2) ++ u.drop (scan c (u ++ w)).2 := by simp
      rw [List.cons_append, lex_cons, scan_append_parted hle hw hp, List.take_append_of_le_length hle,
        List.drop_append_of_le_length hle, ih hlex hrest (hu ▸ hp).tail]
      rfl

/-! ## Behind a semicolon -/

def semicolon : Lexeme := ⟨.semicolon, [';']⟩

/-- A quote that follows what can stand between quotes is doubled where more of that follows. -/
theorem quotable_behind {u v w : Text} (hu : Quotable u) (h : Quotable w)
    (hw : w = u ++ '\'' :: v) : ∃ z, v = '\'' :: z ∧ Quotable z := by
  induction hu generalizing w with
  | nil =>
      cases h with
      | nil => cases hw
      | char hc => exact absurd (List.cons.inj hw).1 hc
      | pair h => exact ⟨_, (List.cons.inj hw).2.symm, h⟩
  | char hc _ _ ih =>
      cases h with
      | nil => cases hw
      | char _ _ h => exact ih h (List.cons.inj hw).2
      | pair => exact absurd (List.cons.inj hw).1.symm hc
  | pair _ ih =>
      cases h with
      | nil => cases hw
      | char hc => exact absurd (List.cons.inj hw).1 hc
      | pair h => exact ih h (List.cons.inj (List.cons.inj hw).2).2

theorem of_append_eq_concat {u v w : Text} {d : Char} (h : u ++ v = w ++ [d]) (hv : v ≠ []) :
    ∃ v', v = v' ++ [d] ∧ w = u ++ v' := by
  obtain ⟨v', e, rfl⟩ := List.eq_nil_or_concat v |>.resolve_left hv
  rw [List.concat_eq_append, ← List.append_assoc] at h
  obtain ⟨hw, he⟩ := List.append_inj' h rfl
  exact ⟨v', by rw [List.concat_eq_append, he], hw.symm⟩

/-- The characters that no token has behind others but layout, literals and quoted names. -/
def isSeparator (c : Char) : Bool :=
  [';', '(', ')', '/', '#'].contains c || isBlank c || isLineBreak c

/-- The separators and the colon. -/
def separators : List Char := [';', '(', ')', '/', '#', ' ', '\t', '\x0c', '\ufeff', '\r', '\n', ':']

theorem not_separator {p : Char → Bool} {d : Char} (hp : separators.all fun c => !p c) (hd : isSeparator d ∨ d = ':') :
    p d = false := by
  have hm : d ∈ separators := by
    simp only [isSeparator, isBlank, isLineBreak, List.contains_cons, List.contains_nil, Bool.or_eq_true,
      beq_iff_eq, Bool.or_false] at hd
    simp only [separators, List.mem_cons, List.not_mem_nil, or_false]
    tauto
  simpa using List.all_eq_true.mp hp d hm

/-- The tokens that can have a separator or a colon among other characters. -/
inductive Enclosed : Text → Prop where
  | line {u : Text} : (∀ c ∈ u, isLineBreak c = false) → Enclosed ('/' :: '/' :: u)
  | block {u : Text} : ¬ ['*', '/'] <:+: u ++ ['*'] → Enclosed ('/' :: '*' :: (u ++ ['*', '/']))
  | directive {c : Char} {u : Text} : c.isAlpha → (∀ c ∈ u, isLineBreak c = false) → Enclosed ('#' :: c :: u)
  | string {u : Text} : Quotable u → Enclosed ('\'' :: (u ++ ['\'']))
  | quoted {u : Text} : (∀ c ∈ u, c ≠ '"' ∧ isLineBreak c = false) → Enclosed ('"' :: (u ++ ['"']))

/-- A token with a separator or a colon in it that it does not start with. -/
theorem enclosed_or {k : TokenKind} {u r y : Text} {d : Char} (h : Matches k y) (hy : y = u ++ d :: r) (hu : u ≠ [])
    (hd : isSeparator d ∨ d = ':') :
    Enclosed y ∨ (∀ c ∈ y, isBlank c) ∨ u = ['\r'] ∧ d = '\n' ∨ u = [':'] ∧ d = ':' := by
  have hmem : d ∈ y := by simp [hy]
  have hn {p : Char → Bool} (h : ∀ c ∈ y, p c) (hp : separators.all fun c => !p c) : False := by
    have := h d hmem
    rw [not_separator hp hd] at this
    cases this
  cases h with
  | mark h =>
      obtain ⟨c, u, rfl⟩ := List.exists_cons_of_ne_nil hu
      have hm : marks.all fun e => e.1 == [':', ':'] || e.1.tail.all fun c => !isSeparator c && c != ':' := by decide
      have hm := List.all_eq_true.mp hm _ h
      rw [Bool.or_eq_true, beq_iff_eq, hy] at hm
      -- Of all marks only `::` has one of these characters behind its first one.
      rcases hm with hm | hm
      · obtain ⟨rfl, ht⟩ := List.cons.inj hm
        obtain ⟨rfl, hr⟩ | ⟨_, hr⟩ := List.append_eq_singleton_iff.mp ht
        · exact .inr (.inr (.inr ⟨rfl, (List.cons.inj hr).1⟩))
        · cases hr
      · have hm := List.all_eq_true.mp hm d (by simp)
        rcases hd with hd | hd <;> simp [hd] at hm
  | keyword h hw =>
      have hk : keywords.all fun e => e.1.toList.all fun c => !isSeparator c && c != ':' := by decide
      have hf : foldCase d = d := by
        have := not_separator (p := fun c => foldCase c != c) (by decide) hd
        simpa using this
      have hm := List.all_eq_true.mp (List.all_eq_true.mp hk _ h) d
        (by rw [← hw, ← hf]; exact List.mem_map_of_mem hmem)
      rcases hd with hd | hd <;> simp [hd] at hm
  | whitespace _ h => exact .inr (.inl h)
  | newline h =>
      obtain ⟨c, u, rfl⟩ := List.exists_cons_of_ne_nil hu
      rw [hy] at h
      simp only [List.cons_append, List.mem_cons, List.not_mem_nil, or_false] at h
      rcases h with h | h | h
      · obtain ⟨rfl, hr⟩ := List.cons.inj h
        clear h
        cases u with
        | nil => exact .inr (.inr (.inl ⟨rfl, (List.cons.inj hr).1⟩))
        | cons e u => simp at hr
      · simp at h
      · simp at h
  | int _ h => exact (hn h (by decide)).elim
  | decimal _ h _ h' =>
      exact (hn (p := fun c => c.isDigit || c == '.') (List.forall_mem_append.mpr
        ⟨fun c hc => by rw [h c hc]; rfl, List.forall_mem_cons.mpr
          ⟨rfl, fun c hc => by rw [h' c hc]; rfl⟩⟩) (by decide)).elim
  | dateTime _ h h' =>
      refine (hn (p := fun c => c.isDigit || c.toLower == 'd' || c.toLower == 't')
        (List.forall_mem_append.mpr ⟨fun c hc => by rw [h c hc]; rfl, fun c hc => ?_⟩) (by decide)).elim
      have hl := List.mem_map_of_mem (f := Char.toLower) hc
      have hw : c.toLower = 'd' ∨ c.toLower = 't' := by
        simp only [List.mem_cons, List.not_mem_nil, or_false] at h'
        rcases h' with h' | h' | h' <;> rw [h'] at hl <;> simp at hl <;> tauto
      rcases hw with hw | hw <;> simp [hw]
  | ident h h' =>
      refine (hn (p := isNamePart) (List.forall_mem_cons.mpr ⟨?_, h'⟩) (by decide)).elim
      simp only [isNameStart, isNamePart, Char.isAlphanum, Bool.or_eq_true] at h ⊢
      exact h.imp_left .inl
  | lineComment h => exact .inl (.line h)
  | blockComment h => exact .inl (.block h)
  | directive h h' => exact .inl (.directive h h')
  | string h => exact .inl (.string h)
  | quotedIdent h => exact .inl (.quoted h)

theorem lex_semicolon (v : Text) : lex (';' :: v) = semicolon :: lex v := by
  rw [lex_cons]
  rfl

/-! ## Behind a name, blanks and line breaks -/

/-- A name starts with a letter or has its quotes around it. -/
theorem of_matches_cons {k : TokenKind} {c : Char} {u : Text} (h : Matches k (c :: u)) (hk : k.isName) :
    isNameStart c ∨ c = '"' ∧ ∃ w, u = w ++ ['"'] := by
  obtain ⟨-, _, _, hu, hc, -⟩ | ⟨-, w, hu, -⟩ := of_matches_name h hk
  · exact .inl ((List.cons.inj hu).1 ▸ hc)
  · exact .inr ⟨(List.cons.inj hu).1, w, (List.cons.inj hu).2⟩

/-- No rule reaches from a name across a colon. -/
theorem not_matches_colon {k j : TokenKind} {c : Char} {u v : Text} (h : Matches k (c :: u))
    (hk : k.isName) : ¬ Matches j (c :: (u ++ ':' :: v)) := by
  intro hj
  have hc := of_matches_cons h hk
  have hn {d : Char} (hd : isNameStart d = false) (hq : d ≠ '"') : c ≠ d := by
    rintro rfl
    rcases hc with hc | ⟨hc, -⟩
    · rw [hd] at hc
      cases hc
    · exact hq hc
  rcases enclosed_or hj (u := c :: u) rfl (List.cons_ne_nil c u) (.inr rfl) with he | hb | ⟨hr, -⟩ | ⟨hr, -⟩
  · generalize hy : c :: (u ++ ':' :: v) = y at he
    cases he with
    | line | block => exact hn (d := '/') rfl (by decide) (List.cons.inj hy).1
    | directive => exact hn (d := '#') rfl (by decide) (List.cons.inj hy).1
    | string => exact hn (d := '\'') rfl (by decide) (List.cons.inj hy).1
    | quoted hq =>
        rcases hc with hc | ⟨-, w, rfl⟩
        · rw [(List.cons.inj hy).1] at hc
          cases hc
        · obtain ⟨v', -, rfl⟩ := of_append_eq_concat (List.cons.inj hy).2 (List.cons_ne_nil _ _)
          exact (hq '"' (by simp)).1 rfl
  · cases hb ':' (by simp)
  · exact hn (d := '\r') rfl (by decide) (List.cons.inj hr).1
  · exact hn (d := ':') rfl (by decide) (List.cons.inj hr).1

/-- A name that is one token is one in front of a colon. -/
theorem lex_append_colon {u : Text} (h : Text.isIdentifier u) :
    ∃ k : TokenKind, k.isName ∧ ∀ v, lex (u ++ ':' :: v) = ⟨k, u⟩ :: lex (':' :: v) := by
  unfold Text.isIdentifier at h
  split at h
  · rename_i l hl
    refine ⟨l.kind, h, fun v => ?_⟩
    cases u with
    | nil => simp [lex] at hl
    | cons c u =>
        rw [lex_cons] at hl
        obtain ⟨rfl, hl'⟩ := List.cons.inj hl
        have hlen : (scan c u).2 = u.length := by
          have := congrArg List.length (flatMap_text_lex (u.drop (scan c u).2))
          rw [hl', List.length_drop] at this
          exact Nat.le_antisymm (scan_le c u) (Nat.le_of_sub_eq_zero this.symm)
        have he : (scan c u).1 ≠ .error := fun he => by rw [he] at h; cases h
        have hm := matches_scan he
        rw [hlen, List.take_length] at hm
        have hc : ∀ t, ¬ Unclosed (c :: t) := by
          rintro t ⟨r, hr, -⟩
          rcases of_matches_cons hm h with hc | ⟨hc, -⟩ <;> rw [(List.cons.inj hr).1] at hc <;> cases hc
        have hs : scan c (u ++ ':' :: v) = scan c u := by
          refine scan_congr (List.prefix_refl _) (List.prefix_append (c :: u) _) ?_ (fun k y hy hp => ?_)
            (hc _) (hc _) fun _ _ h => absurd h he
          · rw [hlen, List.length_cons]
            exact Nat.lt_succ_self _
          · by_contra hlt
            obtain ⟨r, rfl⟩ := List.prefix_of_prefix_length_le (List.prefix_append (c :: u) _) hp
              (Nat.le_of_not_le hlt)
            have hr := (List.prefix_append_right_inj (c :: u)).mp hp
            cases r with
            | nil => exact hlt (by simp)
            | cons d r =>
                obtain ⟨rfl, -⟩ := List.cons_prefix_cons.mp hr
                exact not_matches_colon hm h hy
        rw [List.cons_append, lex_cons, hs, hlen, List.drop_left, List.take_left, List.take_length]
  · cases h

theorem lex_colon_blank (v : Text) : lex (':' :: ' ' :: v) = ⟨.colon, [':']⟩ :: lex (' ' :: v) := by
  rw [lex_cons]
  rfl

theorem lex_newline {u : Text} (h : u = ['\n'] ∨ u = ['\r', '\n']) (v : Text) :
    lex (u ++ v) = ⟨.newline, u⟩ :: lex v := by
  rcases h with rfl | rfl <;> rw [List.cons_append, lex_cons] <;> rfl

theorem lex_blanks {u v : Text} (hu : ∀ c ∈ u, isBlank c) (h0 : u ≠ [])
    (hv : ∀ c ∈ v.head?, isBlank c = false) : lex (u ++ v) = ⟨.whitespace, u⟩ :: lex v := by
  obtain ⟨c, u, rfl⟩ := List.exists_cons_of_ne_nil h0
  obtain ⟨hc, hu⟩ := List.forall_mem_cons.mp hu
  have hs : scan c (u ++ v) = (.whitespace, u.length) := by
    have hb : scan c (u ++ v) = (.whitespace, runLength isBlank (u ++ v)) := by
      unfold scan; rw [if_pos hc]
    rw [hb, runLength_append hu]
    cases v with
    | nil => rfl
    | cons d v => simp [runLength, hv d rfl]
  rw [List.cons_append, lex_cons, hs, List.drop_left, List.take_left]

end Lexeme

end AlRefactor
