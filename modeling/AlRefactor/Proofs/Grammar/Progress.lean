import AlRefactor.Proofs.Grammar.Emission

/-!
# Progress

Nothing that reads goes back. A repetition whose rounds all read something goes on until its test
fails, so the lexemes of a file are read to the last one.
-/

namespace AlRefactor

namespace Production

theorem length_rest_le (p : Production) (c : Cursor) :
    (p.read c).rest.ahead.length ≤ c.ahead.length := by
  have h := congrArg List.length (p.read_leaves c)
  rw [List.length_append] at h
  omega

/-- Reads at least one lexeme where there is one. -/
def Advances (p : Production) : Prop :=
  ∀ c, c.ahead ≠ [] → (p.read c).rest.ahead.length < c.ahead.length

theorem advances_take : take.Advances
  | ⟨_, []⟩, h => absurd rfl h
  | ⟨_, _ :: _⟩, _ => Nat.lt_succ_self _

theorem Advances.append_left {p : Production} (h : p.Advances) (q : Production) :
    (p ++ q).Advances := by
  intro c hc
  have hq := length_rest_le q (p.read c).rest
  have hp := h c hc
  rw [read_append]
  exact Nat.lt_of_le_of_lt hq hp

theorem Advances.append_right (p : Production) {q : Production} (h : q.Advances) :
    (p ++ q).Advances := by
  intro c hc
  have hp := length_rest_le p c
  rw [read_append]
  by_cases hn : (p.read c).rest.ahead = []
  · have hq := length_rest_le q (p.read c).rest
    rw [hn, List.length_nil] at hq
    have := List.length_pos_iff.mpr hc
    exact Nat.lt_of_le_of_lt hq this
  · exact Nat.lt_of_lt_of_le (h _ hn) hp

theorem Advances.node {p : Production} (h : p.Advances) (k : Kind) : (node k p).Advances := by
  intro c hc
  rw [read_node]
  exact h c hc

/-! ## Repetitions -/

theorem length_rest_rounds_le (test : Cursor → Bool) (p : Production) (n : Nat) (c : Cursor) :
    (Assembly.trees.rounds test p.read n c).rest.ahead.length ≤ c.ahead.length := by
  induction n generalizing c with
  | zero => exact Nat.le_refl _
  | succ n ih =>
      simp only [Assembly.rounds]
      split
      · exact Nat.le_trans (ih _) (length_rest_le p c)
      · exact Nat.le_refl _

theorem rounds_stops {test : Cursor → Bool} {p : Production}
    (h : ∀ c, test c = true → (p.read c).rest.ahead.length < c.ahead.length) (n : Nat)
    (c : Cursor) (hn : c.ahead.length ≤ n) :
    test (Assembly.trees.rounds test p.read n c).rest = false := by
  induction n generalizing c with
  | zero =>
      refine Bool.eq_false_iff.mpr fun ht => ?_
      have := h c (by simpa [Assembly.rounds, Assembly.idle] using ht)
      omega
  | succ n ih =>
      simp only [Assembly.rounds]
      split
      · rename_i ht
        have := h c ht
        exact ih _ (by omega)
      · rename_i ht
        simpa [Assembly.idle] using ht

/-- Behind a repetition whose rounds all read something the test fails. -/
theorem whileAt_stops (test : Cursor → Bool) (p : Production)
    (h : ∀ c, test c = true → (p.read c).rest.ahead.length < c.ahead.length) (c : Cursor) :
    test ((whileAt test p).read c).rest = false :=
  rounds_stops h _ c (Nat.le_refl _)

/-- What every round of a repetition without a problem puts in front of what the rounds behind it
make, all rounds together have made. -/
theorem whileAt_induction {test : Cursor → Bool} {p : Production}
    {I : Cursor → List Tree → Cursor → Prop} (stop : ∀ c, I c [] c)
    (step : ∀ c ts d, test c = true → (p.read c).problems = [] → I (p.read c).rest ts d →
      I c ((p.read c).made ++ ts) d)
    (c : Cursor) (h : ((whileAt test p).read c).problems = []) :
    I c ((whileAt test p).read c).made ((whileAt test p).read c).rest := by
  rw [read_whileAt] at h ⊢
  generalize c.ahead.length = n at h ⊢
  induction n generalizing c with
  | zero => exact stop c
  | succ n ih =>
      simp only [Assembly.rounds] at h ⊢
      by_cases ht : test c
      · rw [if_pos ht] at h ⊢
        obtain ⟨hp, hr⟩ := List.append_eq_nil_iff.mp h
        exact step c _ _ ht hp (ih _ hr)
      · rw [if_neg ht]
        exact stop c

/-! ## Nodes that grow -/

section Grown

variable {kind : Cursor → Option NodeKind} {q : Production}

theorem problems_of_grown {n : Nat} {a : Outcome (List Tree)}
    (h : (Assembly.trees.grown kind q.read n a).problems = []) : a.problems = [] := by
  induction n generalizing a with
  | zero => exact h
  | succ n ih =>
      simp only [Assembly.grown] at h
      split at h
      · exact h
      · exact (List.append_eq_nil_iff.mp (ih h)).1

/-- What every step of a node that grows without a problem keeps, the whole node has. -/
theorem grown_induction {I : Outcome (List Tree) → Prop}
    (step : ∀ a k, I a → kind a.rest = some k → (q.read a.rest).problems = [] →
      I ⟨[.node k (a.made ++ (q.read a.rest).made)], true,
        a.problems ++ (q.read a.rest).problems, (q.read a.rest).rest⟩)
    (n : Nat) (a : Outcome (List Tree))
    (hp : (Assembly.trees.grown kind q.read n a).problems = []) (h : a.problems = [] → I a) :
    I (Assembly.trees.grown kind q.read n a) := by
  induction n generalizing a with
  | zero => exact h hp
  | succ n ih =>
      simp only [Assembly.grown] at hp ⊢
      split at hp
      · exact h hp
      · rename_i k hk
        refine ih _ hp fun hp => ?_
        obtain ⟨ha, hq⟩ := List.append_eq_nil_iff.mp hp
        exact step a k (h ha) hk hq

/-- What holds of the first node, and what every step around it keeps, all that is read has. -/
theorem grow_induction {I : Outcome (List Tree) → Prop} {p : Production} {c : Cursor}
    (step : ∀ a k, I a → kind a.rest = some k → (q.read a.rest).problems = [] →
      I ⟨[.node k (a.made ++ (q.read a.rest).made)], true,
        a.problems ++ (q.read a.rest).problems, (q.read a.rest).rest⟩)
    (h : ((grow p kind q).read c).problems = []) (hp : (p.read c).problems = [] → I (p.read c)) :
    I ((grow p kind q).read c) := by
  rw [read_grow] at h ⊢
  split at h
  · rename_i hs
    rw [if_pos hs]
    exact grown_induction step _ _ h hp
  · rename_i hs
    rw [if_neg hs]
    exact hp h

/-- A node whose steps all read something grows as long as it can. -/
theorem grown_stops
    (h : ∀ c k, kind c = some k → (q.read c).rest.ahead.length < c.ahead.length)
    (n : Nat) (a : Outcome (List Tree)) (hn : a.rest.ahead.length ≤ n) :
    kind (Assembly.trees.grown kind q.read n a).rest = none := by
  induction n generalizing a with
  | zero =>
      refine Option.eq_none_iff_forall_ne_some.mpr fun k hk => ?_
      have := h _ _ hk
      simp only [Assembly.grown] at this
      omega
  | succ n ih =>
      simp only [Assembly.grown]
      split
      · assumption
      · rename_i k hk
        have := h _ _ hk
        exact ih _ (by dsimp only; omega)

end Grown

end Production

namespace Grammar

open Production

/-! ## Attributes and modifiers are read to the last one -/

theorem rest_takes (n : Nat) (c : Cursor) : ((takes n).read c).rest.ahead = c.ahead.drop n := by
  induction n generalizing c with
  | zero => rfl
  | succ n ih =>
      obtain ⟨m, ls⟩ := c
      rw [takes, read_append, ih]
      cases ls <;> simp

/-- A balanced stretch goes through its opening bracket at least. -/
theorem balanced_advances (c : Cursor) (h : c.kind = .lBracket ∨ c.kind = .lParen) :
    (balanced.read c).rest.ahead.length < c.ahead.length := by
  obtain ⟨n, ls⟩ := c
  cases ls with
  | nil => rcases h with h | h <;> cases h
  | cons l ls =>
      have h : l.kind = .lBracket ∨ l.kind = .lParen := h
      have hn : 0 < (balancedLength 0 (l :: ls)).1 := by
        rcases h with h | h <;> simp [balancedLength, h]
      have hr := length_rest_le (if (balancedLength 0 (l :: ls)).2
        then report .unbalancedBrackets else skip)
        ((takes (balancedLength 0 (l :: ls)).1).read ⟨n, l :: ls⟩).rest
      rw [rest_takes, List.length_drop] at hr
      refine Nat.lt_of_le_of_lt hr ?_
      exact Nat.sub_lt (Nat.succ_pos _) hn

/-- Behind attributes there is none. -/
theorem attributes_stop (c : Cursor) : (attributes.read c).rest.kind ≠ .lBracket := by
  have h := whileAt_stops (·.isAt .lBracket) (Production.node NodeKind.memberAttribute balanced)
    (fun c hc => by
      rw [read_node]
      exact balanced_advances c (.inl (by simpa [Cursor.isAt] using hc))) c
  simpa [Cursor.isAt, attributes] using h

/-- Behind modifiers there is none. -/
theorem modifiers_stop (c : Cursor) :
    ((whileAt (·.kind.isAccessModifier) take).read c).rest.kind.isAccessModifier = false :=
  whileAt_stops (·.kind.isAccessModifier) take (fun c hc => advances_take c fun h => by
    simp [Cursor.kind, Cursor.peek, h, TokenKind.isAccessModifier] at hc) c

/-! ## Files are read to the end -/

theorem advances_directive (k : NodeKind) : (directive k).Advances :=
  ((advances_take.append_left _).append_left _).node k

theorem advances_header : header.Advances :=
  advances_take.append_left _ |>.append_left _ |>.append_left _ |>.append_left _ |>.append_left _

theorem advances_object (k : NodeKind) : (object k).Advances :=
  (advances_header.append_left _).node k

theorem advances_declaration : declaration.Advances := by
  intro c hc
  rw [declaration, read_look]
  split
  · exact advances_directive _ c hc
  · split
    · exact advances_directive _ c hc
    · split
      · exact advances_object _ c hc
      · exact advances_take.append_right _ c hc

/-- Behind the declarations of a file there is no lexeme left. -/
theorem rest_declarations (c : Cursor) : (declarations.read c).rest.ahead = [] := by
  have h := whileAt_stops (fun c => !c.atEnd) declaration (fun c hc =>
    advances_declaration c (by simpa [Cursor.atEnd] using hc)) c
  simpa [declarations, Cursor.atEnd] using h

end Grammar

end AlRefactor
