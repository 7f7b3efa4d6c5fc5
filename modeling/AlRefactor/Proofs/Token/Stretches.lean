import AlRefactor.Proofs.Token.Seams

/-!
# Stretches of tokens

A stretch of a text starts with one significant token and ends with another one. Where it stands among
the significant tokens of the text, and how many of these it has, says what it is. So it is the same
wherever more tokens are put in front of it or behind it.
-/

namespace AlRefactor

namespace Lexeme

def solid (ls : List Lexeme) : List Lexeme := ls.filter (·.isSignificant)

theorem solid_append (as bs : List Lexeme) : solid (as ++ bs) = solid as ++ solid bs :=
  List.filter_append ..

theorem solid_cons {l : Lexeme} (hl : l.isSignificant) (ls : List Lexeme) :
    solid (l :: ls) = l :: solid ls :=
  List.filter_cons_of_pos hl

/-- The lexemes start with a significant one. -/
def Leads (ls : List Lexeme) : Prop := ∃ l ms, ls = l :: ms ∧ l.isSignificant

/-- The lexemes end with a significant one. -/
def Closes (ls : List Lexeme) : Prop := ∃ ms l, ls = ms ++ [l] ∧ l.isSignificant

/-- Some of the lexemes, from one significant lexeme to another, behind a number of these and with a
number of these. -/
structure Stretch (ls as cs bs : List Lexeme) (k m : Nat) : Prop where
  eq : ls = as ++ (cs ++ bs)
  before : (solid as).length = k
  within : (solid cs).length = m
  leads : Leads cs
  closes : Closes cs

variable {as bs cs as' bs' cs' ls L M S : List Lexeme} {k m n : Nat} {p q : Token}

/-! ## Where stretches are cut -/

/-- A cut in front of a significant lexeme is not behind another cut with as many before it. -/
theorem le_of_leads {xs : List Lexeme} (h : as ++ bs = as' ++ xs) (hb : Leads bs)
    (hk : (solid as').length ≤ (solid as).length) : ∃ ys, as = as' ++ ys ∧ xs = ys ++ bs := by
  rcases List.append_eq_append_iff.mp h with ⟨zs, rfl, hz⟩ | ⟨zs, rfl, rfl⟩
  · obtain ⟨l, ms, rfl, hl⟩ := hb
    cases zs with
    | nil => exact ⟨[], by simp, by simpa using hz.symm⟩
    | cons z zs =>
        obtain ⟨rfl, -⟩ := List.cons.inj hz
        rw [solid_append, solid_cons hl, List.length_append, List.length_cons] at hk
        omega
  · exact ⟨zs, rfl, rfl⟩

/-- A cut behind a significant lexeme is not before another cut with as many before it. -/
theorem le_of_closes {xs : List Lexeme} (h : cs ++ bs = as' ++ xs) (hc : Closes cs)
    (hk : (solid cs).length ≤ (solid as').length) : ∃ ys, as' = cs ++ ys ∧ bs = ys ++ xs := by
  rcases List.append_eq_append_iff.mp h with ⟨zs, rfl, rfl⟩ | ⟨zs, rfl, rfl⟩
  · exact ⟨zs, rfl, rfl⟩
  · obtain ⟨ms, l, hms, hl⟩ := hc
    rcases List.eq_nil_or_concat zs with rfl | ⟨zs, z, rfl⟩
    · exact ⟨[], by simp, by simp⟩
    · rw [List.concat_eq_append, ← List.append_assoc] at hms
      obtain ⟨-, rfl⟩ := List.append_inj' hms rfl |>.imp id fun h => List.singleton_inj.mp h
      rw [solid_append, List.length_append, List.concat_eq_append, solid_append, List.length_append,
        solid_cons hl, List.length_cons] at hk
      omega

namespace Stretch

theorem unique (h : Stretch ls as cs bs k m) (h' : Stretch ls as' cs' bs' k m) :
    as = as' ∧ cs = cs' ∧ bs = bs' := by
  have hlead {cs : List Lexeme} (hc : Leads cs) (bs : List Lexeme) : Leads (cs ++ bs) := by
    obtain ⟨l, ms, rfl, hl⟩ := hc
    exact ⟨l, ms ++ bs, rfl, hl⟩
  obtain ⟨ys, rfl, hy⟩ := le_of_leads (h.eq.symm.trans h'.eq) (hlead h.leads bs)
    (Nat.le_of_eq (h'.before.trans h.before.symm))
  obtain ⟨zs, hz, hy'⟩ := le_of_leads (h'.eq.symm.trans h.eq) (hlead h'.leads bs')
    (Nat.le_of_eq (h.before.trans h'.before.symm))
  obtain rfl : ys = [] := by
    rw [List.append_assoc] at hz
    exact (List.append_eq_nil_iff.mp (List.self_eq_append_right.mp hz)).1
  rw [List.nil_append] at hy
  obtain ⟨ys, rfl, hb⟩ := le_of_closes hy h'.closes (Nat.le_of_eq (h'.within.trans h.within.symm))
  obtain ⟨zs, hz, -⟩ := le_of_closes hy.symm h.closes (Nat.le_of_eq (h.within.trans h'.within.symm))
  obtain rfl : ys = [] := by
    rw [List.append_assoc] at hz
    exact (List.append_eq_nil_iff.mp (List.self_eq_append_right.mp hz)).1
  exact ⟨by simp, by simp, by simpa using hb.symm⟩

/-- A stretch behind as many lexemes as a text starts with stands in the rest of it. -/
theorem exists_behind (h : Stretch (L ++ M) as cs bs k m) (hk : (solid L).length ≤ k) :
    ∃ as', as = L ++ as' ∧ Stretch M as' cs bs (k - (solid L).length) m := by
  obtain ⟨l, ms, hl, hs⟩ := h.leads
  obtain ⟨as', rfl, rfl⟩ := le_of_leads h.eq.symm ⟨l, ms ++ bs, by rw [hl]; rfl, hs⟩ (by rw [h.before]; exact hk)
  refine ⟨as', rfl, rfl, ?_, h.within, h.leads, h.closes⟩
  have := h.before
  rw [solid_append, List.length_append] at this
  omega

/-- A stretch that ends with the lexemes that a text starts with, or before, stands in these. -/
theorem exists_before (h : Stretch (L ++ M) as cs bs k m) (hk : k + m ≤ (solid L).length) :
    ∃ bs', bs = bs' ++ M ∧ Stretch L as cs bs' k m := by
  obtain ⟨ms, l, hl, hs⟩ := h.closes
  have he := h.eq
  rw [← List.append_assoc] at he
  obtain ⟨bs', rfl, rfl⟩ := le_of_closes he.symm ⟨as ++ ms, l, by rw [hl, List.append_assoc], hs⟩
    (by rw [solid_append, List.length_append, h.before, h.within]; exact hk)
  exact ⟨bs', rfl, List.append_assoc .., h.before, h.within, h.leads, h.closes⟩

theorem behind (h : Stretch M as cs bs k m) (L : List Lexeme) :
    Stretch (L ++ M) (L ++ as) cs bs ((solid L).length + k) m :=
  ⟨by rw [h.eq, List.append_assoc], by rw [solid_append, List.length_append, h.before], h.within, h.leads, h.closes⟩

theorem ahead (h : Stretch L as cs bs k m) (M : List Lexeme) : Stretch (L ++ M) as cs (bs ++ M) k m :=
  ⟨by rw [h.eq]; simp only [List.append_assoc], h.before, h.within, h.leads, h.closes⟩

end Stretch

/-! ## Stretches between two tokens -/

theorem place_append (n : Nat) (as bs : List Lexeme) :
    place n (as ++ bs) = place n as ++ place (n + Text.size (as.flatMap (·.text))) bs := by
  induction as generalizing n with
  | nil => rfl
  | cons a as ih => simp only [List.cons_append, place, ih, List.flatMap_cons, Text.size_append, Nat.add_assoc]

theorem length_solid_place (n : Nat) (ls : List Lexeme) :
    ((place n ls).filter (·.isSignificant)).length = (solid ls).length := by
  have h : solid ((place n ls).map (·.toLexeme)) = ((place n ls).filter (·.isSignificant)).map (·.toLexeme) :=
    List.filter_map
  rw [← List.length_map (f := fun t : Token => t.toLexeme), ← h, map_place]

theorem exists_of_getElem? (h : ((place n ls).filter (·.isSignificant))[k]? = some p) :
    ∃ as bs, ls = as ++ p.toLexeme :: bs ∧ (solid as).length = k ∧
      n + Text.size (as.flatMap (·.text)) = p.start ∧ p.toLexeme.isSignificant := by
  induction ls generalizing n k with
  | nil => cases k <;> cases h
  | cons l ls ih =>
      rw [place] at h
      by_cases hl : l.isSignificant
      · rw [List.filter_cons_of_pos (p := fun t : Token => t.isSignificant) hl] at h
        cases k with
        | zero =>
            obtain rfl : (⟨l, n⟩ : Token) = p := Option.some.inj h
            exact ⟨[], ls, rfl, rfl, rfl, hl⟩
        | succ k =>
            obtain ⟨as, bs, rfl, hk, hs, hp⟩ := ih h
            refine ⟨l :: as, bs, rfl, by rw [solid_cons hl, List.length_cons, hk], ?_, hp⟩
            rw [List.flatMap_cons, Text.size_append, ← hs]
            omega
      · rw [List.filter_cons_of_neg (p := fun t : Token => t.isSignificant) hl] at h
        obtain ⟨as, bs, rfl, hk, hs, hp⟩ := ih h
        refine ⟨l :: as, bs, rfl, by rw [solid, List.filter_cons_of_neg hl]; exact hk, ?_, hp⟩
        rw [List.flatMap_cons, Text.size_append, ← hs]
        omega

end Lexeme

namespace Text

open Lexeme

variable {t : Text} {p q : Token} {k m : Nat}

/-- From one significant token to another. -/
theorem exists_stretch (hm : 0 < m) (hp : t.significant[k]? = some p)
    (hq : t.significant[k + m - 1]? = some q) :
    ∃ as cs bs, Stretch (lex t) as cs bs k m ∧ p.start = size (as.flatMap (·.text)) ∧
      q.stop = size (as.flatMap (·.text)) + size (cs.flatMap (·.text)) := by
  obtain ⟨as, bs, ht, rfl, hs, hl⟩ := exists_of_getElem? hp
  rw [Nat.zero_add] at hs
  have hd : ((place (size (as.flatMap (·.text))) (p.toLexeme :: bs)).filter (·.isSignificant))[m - 1]? =
      some q := by
    rw [significant, tokens, ht, place_append, List.filter_append, List.getElem?_append_right
      (by rw [length_solid_place]; omega), length_solid_place, Nat.zero_add] at hq
    rw [← hq]
    congr 1
    omega
  obtain ⟨cs, ds, hc, hk, hs', hl'⟩ := exists_of_getElem? hd
  refine ⟨as, cs ++ [q.toLexeme], ds, ⟨by rw [ht, hc]; simp, rfl, ?_, ?_, cs, _, rfl, hl'⟩, hs.symm, ?_⟩
  · rw [solid_append, List.length_append, hk, solid_cons hl', List.length_cons]
    simp only [solid, List.filter_nil, List.length_nil]
    omega
  · cases cs with
    | nil => exact ⟨_, [], rfl, hl'⟩
    | cons c cs =>
        obtain ⟨rfl, -⟩ := List.cons.inj hc
        exact ⟨_, _, rfl, hl⟩
  · rw [List.flatMap_append, size_append, Token.stop, ← hs']
    simp [Nat.add_assoc]

end Text

/-! ## Texts with more tokens in them -/

namespace Lexeme

/-- One text is another one with more lexemes at a place between those of this one. -/
structure Spliced (t t' : Text) (L S M : List Lexeme) : Prop where
  eq : lex t = L ++ M
  eq' : lex t' = L ++ (S ++ M)

/-- Some significant lexemes from one number on stand before those that are put in between, or they
stand behind them and get a number that is greater by as many. -/
def Moves (L S : List Lexeme) (k k' m : Nat) : Prop :=
  k' = k ∧ k + m ≤ (solid L).length ∨ k' = (solid S).length + k ∧ (solid L).length ≤ k

theorem Moves.part {L S : List Lexeme} {k k' m i j : Nat} (h : Moves L S k k' m) (hi : i + j ≤ m) :
    Moves L S (k + i) (k' + i) j := by
  rcases h with ⟨rfl, h⟩ | ⟨rfl, h⟩
  · exact .inl ⟨rfl, by omega⟩
  · exact .inr ⟨by omega, by omega⟩

namespace Spliced

variable {t t' : Text} {L S M as bs cs as' bs' cs' : List Lexeme} {k k' m : Nat}

/-- What stands before the new lexemes or behind them is the same in both texts. -/
theorem stretch_eq (h : Spliced t t' L S M) (hm : Moves L S k k' m) (hs : Stretch (lex t) as cs bs k m)
    (hs' : Stretch (lex t') as' cs' bs' k' m) : cs' = cs := by
  rw [h.eq] at hs
  rw [h.eq'] at hs'
  rcases hm with ⟨rfl, hk⟩ | ⟨rfl, hk⟩
  · obtain ⟨_, -, hL⟩ := hs.exists_before hk
    exact (hs'.unique (hL.ahead _)).2.1
  · obtain ⟨_, -, hM⟩ := hs.exists_behind hk
    have hM' := (hM.behind S).behind L
    rw [show (solid L).length + ((solid S).length + (k - (solid L).length)) =
      (solid S).length + k by omega] at hM'
    exact (hs'.unique hM').2.1

end Spliced

end Lexeme

end AlRefactor
