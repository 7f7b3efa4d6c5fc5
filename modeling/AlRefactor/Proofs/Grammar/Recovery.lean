import AlRefactor.Proofs.Grammar.Halting

/-!
# Members behind unfinished bodies

No statement and no expression goes into the member behind it, however much of it is missing: a lexeme
is taken only where it is known to be none that a member starts with. A selector takes any keyword for
a name, so what stands before the member must not end with one.
-/

namespace AlRefactor

/-- What a member starts with, and the brace behind the last member. -/
def memberStarts : List TokenKind :=
  [.kwProcedure, .kwTrigger, .kwLocal, .kwInternal, .kwProtected, .kwVar, .rBrace]

namespace Cursor

theorem atMember_eq (c : Cursor) : c.atMember = memberStarts.contains c.kind := by
  unfold atMember
  cases c.kind <;> rfl

/-- Where a member starts, reading can set in again. -/
theorem atSync_of_atMember {c : Cursor} (h : c.atMember = true) : c.atSync = true := by
  rw [atMember_eq] at h
  unfold atSync
  revert h
  cases c.kind <;> decide

end Cursor

/-- The lexemes of a body that need not be finished, and a member behind it. -/
structure Torso where
  lexemes : List Lexeme
  behind : List Lexeme
  /-- The last lexeme does not ask for a name behind it. -/
  unselected : ∀ l ∈ lexemes.getLast?, l.kind ≠ .dot ∧ l.kind ≠ .colonColon
  atMember : ∀ n, (⟨n, behind⟩ : Cursor).atMember = true

/-- The cursor stands in the body or behind it. -/
def Torso.Holds (b : Torso) (c : Cursor) : Prop := ∃ ls, ls <:+ b.lexemes ∧ c.ahead = ls ++ b.behind

/-- Behind the body is nothing but the start of the member. -/
theorem Torso.isAt_behind (b : Torso) (n : Nat) {k : TokenKind} (hk : k ∉ memberStarts) :
    (⟨n, b.behind⟩ : Cursor).isAt k = false := by
  have hm := b.atMember n
  rw [Cursor.atMember_eq] at hm
  refine Bool.eq_false_iff.mpr fun h => hk ?_
  have h : (⟨n, b.behind⟩ : Cursor).kind = k := by simpa [Cursor.isAt] using h
  exact h ▸ List.contains_iff_mem.mp hm

namespace Production

variable {b : Torso} {p q : Production} {c : Cursor} {test : Cursor → Bool}

/-- At a cursor the production does not go into the member. -/
def StaysAt (b : Torso) (p : Production) (c : Cursor) : Prop := b.Holds (p.read c).rest

/-- Nowhere in the body the production goes into the member. -/
def StaysIn (b : Torso) (p : Production) : Prop := ∀ c, b.Holds c → p.StaysAt b c

theorem read_choose_of (h : test c = true) : (choose test p q).read c = p.read c := by
  rw [read_choose, if_pos h]

/-! ## Lexemes that start no member -/

theorem not_atMember {f : TokenKind → Bool} (h : f c.kind = true)
    (hf : ∀ k ∈ memberStarts, f k = false) : c.atMember = false := by
  rw [Cursor.atMember_eq]
  refine Bool.eq_false_iff.mpr fun hm => ?_
  rw [hf _ (List.contains_iff_mem.mp hm)] at h
  cases h

theorem StaysAt.take (hc : b.Holds c) (hm : c.atMember = false) : take.StaysAt b c := by
  obtain ⟨ls, hs, hl⟩ := hc
  obtain ⟨n, as⟩ := c
  cases ls with
  | nil =>
      obtain rfl : as = b.behind := hl
      rw [b.atMember] at hm
      cases hm
  | cons l ls =>
      obtain rfl : as = l :: (ls ++ b.behind) := hl
      exact ⟨ls, (List.suffix_cons l ls).trans hs, rfl⟩

/-! ## Ways to put productions together -/

theorem staysIn_skip : skip.StaysIn b := fun _ h => h

theorem staysIn_report (problem : Problem) : (report problem).StaysIn b := fun _ h => h

theorem StaysAt.append (hp : p.StaysAt b c) (hq : q.StaysIn b) : (p ++ q).StaysAt b c := hq _ hp

theorem StaysIn.append (hp : p.StaysIn b) (hq : q.StaysIn b) : (p ++ q).StaysIn b :=
  fun c hc => (hp c hc).append hq

theorem StaysAt.choose (hp : test c = true → p.StaysAt b c)
    (hq : test c = false → q.StaysAt b c) : (choose test p q).StaysAt b c := by
  rw [StaysAt, read_choose]
  split
  · rename_i ht; exact hp ht
  · rename_i ht; exact hq (by simpa using ht)

theorem StaysAt.node (h : p.StaysAt b c) (k : Kind) : (node k p).StaysAt b c := h

theorem StaysIn.node (h : p.StaysIn b) (k : Kind) : (node k p).StaysIn b := h

theorem StaysIn.mark {kind : Cursor → Kind} (hp : p.StaysIn b) (hq : q.StaysIn b) :
    (mark p kind q).StaysIn b :=
  hp.append hq

theorem staysIn_whileAt (h : ∀ c, b.Holds c → test c = true → p.StaysAt b c) :
    (whileAt test p).StaysIn b := by
  intro c hc
  rw [StaysAt, read_whileAt]
  generalize c.ahead.length = n
  induction n generalizing c with
  | zero => exact hc
  | succ n ih =>
      simp only [Assembly.rounds]
      split
      · rename_i ht; exact ih _ (h c hc ht)
      · exact hc

theorem StaysAt.grow {kind : Cursor → Option NodeKind} (hp : p.StaysAt b c)
    (hq : ∀ d k, b.Holds d → kind d = some k → q.StaysAt b d) : (grow p kind q).StaysAt b c := by
  rw [StaysAt, read_grow]
  split
  · generalize (p.read c).rest.ahead.length = n
    unfold StaysAt at hp
    generalize p.read c = a at hp
    induction n generalizing a with
    | zero => exact hp
    | succ n ih =>
        rw [Assembly.grown]
        split
        · exact hp
        · rename_i k hk; exact ih _ (hq _ k hp hk)
  · exact hp

/-! ## Rounds one by one -/

section Round

variable (h : ∀ c, test c = true → (p.read c).rest.ahead.length < c.ahead.length)
include h

/-- Where every round reads a lexeme, a bound that is not below the number of lexemes is none. -/
theorem rounds_congr {m n : Nat} (hm : c.ahead.length ≤ m) (hn : c.ahead.length ≤ n) :
    Assembly.trees.rounds test p.read m c = Assembly.trees.rounds test p.read n c := by
  induction m generalizing n c with
  | zero =>
      have ht : test c = false := Bool.eq_false_iff.mpr fun ht => by have := h c ht; omega
      cases n <;> simp [Assembly.rounds, ht]
  | succ m ih =>
      cases ht : test c with
      | false => cases n <;> simp [Assembly.rounds, ht]
      | true =>
          have := h c ht
          cases n with
          | zero => omega
          | succ n =>
              simp only [Assembly.rounds, ht, ↓reduceIte, Assembly.sequence]
              rw [ih (n := n) (by omega) (by omega)]

/-- A repetition is a round and the repetition behind it. -/
theorem read_whileAt_round (ht : test c = true) :
    (whileAt test p).read c = (p ++ whileAt test p).read c := by
  have := h c ht
  obtain ⟨m, hm⟩ := Nat.exists_eq_succ_of_ne_zero (Nat.ne_of_gt (Nat.zero_lt_of_lt this))
  rw [read_append, read_whileAt, read_whileAt, hm]
  simp only [Assembly.rounds, ht, ↓reduceIte, Assembly.sequence]
  rw [rounds_congr h (m := m) (by omega) (Nat.le_refl _)]
  rfl

end Round

/-! ## Single lexemes -/

/-- A kind that a lexeme is asked for and that no member starts with. -/
theorem StaysAt.take_of_isAt {k : TokenKind} (hc : b.Holds c) (h : c.isAt k = true)
    (hk : k ∉ memberStarts) : Production.take.StaysAt b c :=
  .take hc (not_atMember (f := (· == k)) h fun j hj => by
    simpa using fun (he : j = k) => hk (he ▸ hj))

section Lexeme

variable {k : TokenKind} (hk : k ∉ memberStarts)
include hk

theorem staysIn_takeThen (hp : p.StaysIn b) : (takeThen k p).StaysIn b := fun c hc =>
  .choose (fun h => (StaysAt.take_of_isAt hc h hk).append hp) fun _ => staysIn_skip c hc

theorem staysIn_takeIf : (takeIf k).StaysIn b := fun c hc =>
  .choose (fun h => .take_of_isAt hc h hk) fun _ => staysIn_skip c hc

theorem staysIn_require : (require k).StaysIn b := fun c hc =>
  .choose (fun h => .take_of_isAt hc h hk) fun _ => staysIn_report _ c hc

theorem staysIn_requireThen (hp : p.StaysIn b) : (requireThen k p).StaysIn b := fun c hc =>
  .choose (fun h => (StaysAt.take_of_isAt hc h hk).append hp) fun _ => staysIn_report _ c hc

end Lexeme

end Production

namespace Grammar

open Production

variable {b : Torso} {c : Cursor}

/-! ## Expressions -/

/-- What is behind a selector in a body is another lexeme of the body. -/
theorem staysAt_selector (missing : Problem) (hc : b.Holds c)
    (hk : c.kind = .dot ∨ c.kind = .colonColon) : (selector missing).StaysAt b c := by
  obtain ⟨ls, hs, hl⟩ := hc
  obtain ⟨n, as⟩ := c
  obtain ⟨l, ls, rfl⟩ : ∃ l ms, ls = l :: ms := by
    cases ls with
    | nil =>
        obtain rfl : as = b.behind := hl
        have hm := b.atMember n
        rcases hk with hk | hk <;> simp [Cursor.atMember, hk] at hm
    | cons l ls => exact ⟨l, ls, rfl⟩
  obtain rfl : as = l :: (ls ++ b.behind) := hl
  cases ls with
  | nil =>
      obtain ⟨_, hb⟩ := hs
      have hn := b.unselected l (by rw [← hb]; simp)
      exact absurd hk (not_or.mpr hn)
  | cons m ls =>
      have hm : (m :: ls) <:+ b.lexemes := (List.suffix_cons l _).trans hs
      rw [selector, StaysAt, read_append, List.cons_append, read_take_cons, read_choose]
      split
      · exact ⟨ls, (List.suffix_cons m ls).trans hm, rfl⟩
      · exact ⟨m :: ls, hm, rfl⟩

section Expression

variable {inner : Inner} (h : ∀ allowIn power, (inner allowIn power).StaysIn b)
include h

theorem staysIn_expressions : (expressions inner).StaysIn b :=
  (h _ _).append <| staysIn_whileAt fun _ hc ht => (StaysAt.take_of_isAt hc ht (by decide)).append (h _ _)

theorem staysAt_bracketed (hc : b.Holds c) (hm : c.atMember = false) {close : TokenKind}
    (hk : close = .rParen ∨ close = .rBracket) : (bracketed inner close).StaysAt b c := by
  refine ((StaysAt.take hc hm).append fun d hd => ?_).append (staysIn_require ?_)
  · exact .choose (fun _ => staysIn_skip d hd) fun _ => staysIn_expressions h d hd
  · rcases hk with rfl | rfl <;> decide

theorem staysIn_primary : (primary inner).StaysIn b := by
  intro c hc
  rw [primary, StaysAt, read_look, ← StaysAt]
  split
  · rename_i hl
    exact (StaysAt.take hc (not_atMember hl (by decide))).node _
  split
  · rename_i hn
    exact (StaysAt.take hc (not_atMember hn (by decide))).node _
  split
  · rename_i hk
    exact (((StaysAt.take hc (by simp [Cursor.atMember, hk])).append (h _ _)).append
      (staysIn_require (by decide))).node _
  · rename_i hk
    exact (staysAt_bracketed h hc (by simp [Cursor.atMember, hk]) (.inr rfl)).node _
  · refine (staysIn_report _ c hc).append fun d hd =>
      .choose (fun _ => staysIn_skip d hd) fun ht => .take hd ?_
    refine Bool.eq_false_iff.mpr fun hm => ?_
    simp [atExpressionStop, Cursor.atSync_of_atMember hm] at ht

theorem staysAt_suffix {k : NodeKind} (hc : b.Holds c) (hk : follower c = some k) :
    (suffix inner).StaysAt b c := by
  rw [suffix, StaysAt, read_look, ← StaysAt]
  unfold follower at hk
  split at hk
  · rename_i hd; rw [hd]; exact staysAt_selector _ hc (.inl hd)
  · rename_i hd; rw [hd]; exact staysAt_selector _ hc (.inr hd)
  · rename_i hd; rw [hd]
    exact (staysAt_bracketed h hc (by simp [Cursor.atMember, hd]) (.inl rfl)).node _
  · rename_i hd; rw [hd]
    exact (staysAt_bracketed h hc (by simp [Cursor.atMember, hd]) (.inr rfl)).node _
  · cases hk

theorem staysIn_operand (allowIn : Bool) : (operand inner allowIn).StaysIn b := by
  intro c hc
  rw [operand, StaysAt, read_look, ← StaysAt]
  split
  · rename_i r hr
    have hm : c.atMember = false := not_atMember (f := fun k => k.unaryPower?.isSome)
      (by rw [hr]; rfl) (by decide)
    exact ((StaysAt.take hc hm).append (h _ _)).node _
  · exact (staysIn_primary h c hc).grow fun d k hd hk => staysAt_suffix h hd hk

theorem staysIn_expressionStep (allowIn : Bool) (power : Nat) :
    (expressionStep inner allowIn power).StaysIn b := by
  intro c hc
  refine (staysIn_operand h allowIn c hc).grow fun d k hd hk => ?_
  have hm : d.atMember = false := by
    refine not_atMember (f := fun k => k.powers?.isSome) ?_ (by decide)
    unfold operator at hk
    split at hk
    · cases hk
    · split at hk
      · cases hk
      · rename_i hp; rw [hp]; rfl
  exact (StaysAt.take hd hm).append (h _ _)

end Expression

theorem staysIn_expressionUpTo (n : Nat) (allowIn : Bool) (power : Nat) :
    (expressionUpTo n allowIn power).StaysIn b := by
  induction n generalizing allowIn power with
  | zero => exact staysIn_skip
  | succ n ih => exact staysIn_expressionStep ih allowIn power

theorem staysIn_expression : expression.StaysIn b := fun c hc => staysIn_expressionUpTo _ _ _ c hc

theorem staysIn_expressionWithoutIn : expressionWithoutIn.StaysIn b :=
  fun c hc => staysIn_expressionUpTo _ _ _ c hc

/-! ## Statements -/

theorem staysIn_recover : recover.StaysIn b := by
  refine (staysIn_whileAt fun c hc ht => .take hc (Bool.eq_false_iff.mpr fun hm => ?_)).append
    (staysIn_takeIf (by decide))
  simp [Cursor.atSync_of_atMember hm] at ht

theorem staysIn_separator : separator.StaysIn b := fun c hc =>
  .choose (fun h => .take_of_isAt hc h (by decide)) fun _ =>
    .choose (fun _ => staysIn_skip c hc) fun _ =>
      (staysIn_report _ c hc).append fun d hd =>
        .choose (fun _ => staysIn_skip d hd) fun _ => staysIn_recover d hd

theorem staysIn_direction :
    (choose (·.atAny [.kwTo, .kwDownTo]) (take ++ expression) (report .missingToOrDownTo)).StaysIn b :=
  fun c hc => .choose
    (fun h => (StaysAt.take hc (not_atMember (f := [TokenKind.kwTo, .kwDownTo].contains) h
      (by decide))).append staysIn_expression) fun _ => staysIn_report _ c hc

theorem staysIn_assignmentOrCall : assignmentOrCall.StaysIn b := by
  refine staysIn_expression.mark (StaysIn.append (fun c hc => ?_) staysIn_separator)
  exact .choose (fun h => (StaysAt.take hc (not_atMember h (by decide))).append staysIn_expression)
    fun _ => staysIn_skip c hc

theorem staysAt_exitStatement (hc : b.Holds c) (hm : c.atMember = false) :
    exitStatement.StaysAt b c := by
  refine (((StaysAt.take hc hm).append (staysIn_takeThen (by decide) ?_)).append
    staysIn_separator).node _
  exact StaysIn.append (fun d hd => .choose (fun _ => staysIn_skip d hd) fun _ =>
    staysIn_expression d hd) (staysIn_require (by decide))

section Statement

variable {inner : Production} (h : ∀ c, b.Holds c → c.atMember = false → inner.StaysAt b c)
include h

theorem staysIn_statements (close : TokenKind) : (statements inner close).StaysIn b :=
  staysIn_whileAt fun c hc ht => h c hc (by simp_all)

theorem staysIn_controlled : (controlled inner).StaysIn b := fun c hc =>
  .choose (fun _ => staysIn_skip c hc) fun ht => h c hc (by simp_all)

theorem staysIn_elseClause : (choose (·.isAt .kwElse)
    (node NodeKind.elseClause (take ++ controlled inner)) skip).StaysIn b := fun c hc =>
  .choose (fun ht => ((StaysAt.take_of_isAt hc ht (by decide)).append (staysIn_controlled h)).node _)
    fun _ => staysIn_skip c hc

theorem staysIn_caseElse : (choose (·.isAt .kwElse)
    (node NodeKind.caseElse (take ++ statements inner .kwEnd)) skip).StaysIn b := fun c hc =>
  .choose (fun ht =>
    ((StaysAt.take_of_isAt hc ht (by decide)).append (staysIn_statements h _)).node _)
    fun _ => staysIn_skip c hc

theorem staysIn_caseLine : (caseLine inner).StaysIn b :=
  (((staysIn_expression.append (staysIn_whileAt fun _ hc ht =>
    (StaysAt.take_of_isAt hc ht (by decide)).append staysIn_expression)).append
    (staysIn_require (by decide))).append (staysIn_controlled h)).node _

variable (hc : b.Holds c) (hm : c.atMember = false)
include hc hm

theorem staysAt_blockBody : (blockBody inner).StaysAt b c :=
  ((StaysAt.take hc hm).append (staysIn_statements h _)).append (staysIn_require (by decide))

theorem staysAt_ifStatement : (ifStatement inner).StaysAt b c :=
  (((((StaysAt.take hc hm).append staysIn_expression).append (staysIn_require (by decide))).append
    (staysIn_controlled h)).append (staysIn_elseClause h)).node _

theorem staysAt_caseStatement : (caseStatement inner).StaysAt b c := by
  refine (((StaysAt.append ?_ ?_).append (staysIn_caseElse h)).append
    (staysIn_require (by decide))).append staysIn_separator |>.node _
  · exact ((StaysAt.take hc hm).append staysIn_expression).append (staysIn_require (by decide))
  · exact staysIn_whileAt fun d hd _ => staysIn_caseLine h d hd

theorem staysAt_guarded (kind : NodeKind) : (guarded kind inner).StaysAt b c :=
  ((((StaysAt.take hc hm).append staysIn_expression).append (staysIn_require (by decide))).append
    (staysIn_controlled h)).node _

theorem staysAt_repeatStatement : (repeatStatement inner).StaysAt b c :=
  ((((StaysAt.take hc hm).append (staysIn_statements h _)).append
    (staysIn_requireThen (by decide) staysIn_expression)).append staysIn_separator).node _

theorem staysAt_forStatement : (forStatement inner).StaysAt b c := by
  have ha := ((StaysAt.take hc hm).append staysIn_expression).append
    (staysIn_requireThen (k := .assign) (by decide) staysIn_expression)
  exact (((ha.append staysIn_direction).append (staysIn_require (by decide))).append
    (staysIn_controlled h)).node _

theorem staysAt_forEachStatement : (forEachStatement inner).StaysAt b c := by
  have hi := ((StaysAt.take hc hm).append staysIn_expressionWithoutIn).append
    (staysIn_requireThen (k := .kwIn) (by decide) staysIn_expression)
  exact ((hi.append (staysIn_require (by decide))).append (staysIn_controlled h)).node _

theorem staysAt_statementStep : (statementStep inner).StaysAt b c := by
  rw [statementStep, StaysAt, read_look, ← StaysAt]
  split
  · exact ((staysAt_blockBody h hc hm).append staysIn_separator).node _
  · exact staysAt_ifStatement h hc hm
  · exact staysAt_caseStatement h hc hm
  · exact staysAt_guarded h hc hm _
  · exact staysAt_guarded h hc hm _
  · exact staysAt_repeatStatement h hc hm
  · exact staysAt_forStatement h hc hm
  · exact staysAt_forEachStatement h hc hm
  · exact staysAt_exitStatement hc hm
  · exact (StaysAt.take hc hm).node _
  · split
    · exact staysIn_assignmentOrCall c hc
    · exact StaysAt.take hc hm

end Statement

theorem staysAt_statementUpTo (n : Nat) (hc : b.Holds c) (hm : c.atMember = false) :
    (statementUpTo n).StaysAt b c := by
  induction n generalizing c with
  | zero => exact hc
  | succ n ih => exact staysAt_statementStep (fun d hd hn => ih hd hn) hc hm

theorem staysIn_body : (statements statement .kwEnd).StaysIn b := by
  refine staysIn_statements (fun c hc hm => ?_) _
  exact staysAt_statementUpTo _ hc hm

/-- A body without `end` and without lexemes that start a member goes on up to the member behind it. -/
theorem rest_blockBody (hb : ∀ l ∈ b.lexemes, l.kind ∉ TokenKind.kwEnd :: memberStarts) (n : Nat)
    (l : Lexeme) :
    ∃ m, ((blockBody statement).read ⟨n, l :: (b.lexemes ++ b.behind)⟩).rest = ⟨m, b.behind⟩ := by
  have hd := staysIn_body (b := b) ⟨n + 1, b.lexemes ++ b.behind⟩ ⟨_, List.suffix_refl _, rfl⟩
  have ht := whileAt_stops (fun c => !(c.atEnd || c.isAt .kwEnd || c.atMember)) statement
    (fun d hd => (leads_statement fun ha => by simp [Cursor.atEnd, ha] at hd).opens.lt)
    ⟨n + 1, b.lexemes ++ b.behind⟩
  rw [StaysAt, statements] at hd
  rw [blockBody, statements, read_append, read_append, read_take_cons]
  dsimp only
  generalize ((whileAt _ statement).read _).rest = d at hd ht
  obtain ⟨us, hs, hu⟩ := hd
  obtain ⟨m, as⟩ := d
  obtain rfl : as = us ++ b.behind := hu
  -- The statements ended at a lexeme of the body only if it were `end` or a member started there.
  obtain rfl : us = [] := by
    refine List.eq_nil_iff_forall_not_mem.mpr fun _ hm => ?_
    obtain ⟨l, us, rfl⟩ := List.exists_cons_of_ne_nil (List.ne_nil_of_mem hm)
    have hl := hb l (hs.subset List.mem_cons_self)
    rw [List.mem_cons, not_or] at hl
    have hk : (⟨m, l :: (us ++ b.behind)⟩ : Cursor).kind = l.kind := rfl
    simp [Cursor.atMember_eq, Cursor.atEnd, Cursor.isAt, hk, hl] at ht
  refine ⟨m, ?_⟩
  rw [List.nil_append, require, expect, read_choose, b.isAt_behind m (by decide)]
  rfl

/-! ## Procedures -/

/-- The start of a procedure without parameters, and what is read behind it. -/
theorem read_procedure (n : Nat) (t₁ t₂ t₃ t₄ t₅ : Text) (ls : List Lexeme) :
    let c : Cursor := ⟨n + 4, ⟨.kwBegin, t₅⟩ :: ls⟩
    let a := method.read ⟨n, ⟨.kwProcedure, t₁⟩ :: ⟨.ident, t₂⟩ :: ⟨.lParen, t₃⟩ :: ⟨.rParen, t₄⟩ ::
      ⟨.kwBegin, t₅⟩ :: ls⟩
    a.made = [.node NodeKind.methodDeclaration (.leaf ⟨.kwProcedure, t₁⟩ ::
      .node NodeKind.identifierName [.leaf ⟨.ident, t₂⟩] ::
      .node NodeKind.parameterList [.leaf ⟨.lParen, t₃⟩, .leaf ⟨.rParen, t₄⟩] ::
      ((block ++ takeIf .semicolon).read c).made)] ∧
      a.rest = ((block ++ takeIf .semicolon).read c).rest := by
  intro c a
  have hs (ls : List Lexeme) : methodStart.read ⟨n, ⟨.kwProcedure, t₁⟩ :: ls⟩ =
      ⟨[], false, [], ⟨n, ⟨.kwProcedure, t₁⟩ :: ls⟩⟩ := rfl
  have hn (ls : List Lexeme) : (nameOr .missingProcedureName).read ⟨n + 1, ⟨.ident, t₂⟩ :: ls⟩ =
      ⟨[.node NodeKind.identifierName [.leaf ⟨.ident, t₂⟩]], true, [], ⟨n + 2, ls⟩⟩ := rfl
  have hp : (choose (·.isAt .lParen) parameterList (report (.missing .lParen))).read
      ⟨n + 2, ⟨.lParen, t₃⟩ :: ⟨.rParen, t₄⟩ :: ⟨.kwBegin, t₅⟩ :: ls⟩ =
      ⟨[.node NodeKind.parameterList [.leaf ⟨.lParen, t₃⟩, .leaf ⟨.rParen, t₄⟩]], true, [], c⟩ := rfl
  have hr : (choose atReturnValue returnValue skip).read c = ⟨[], false, [], c⟩ := rfl
  have hi : (takeIf .semicolon).read c = ⟨[], false, [], c⟩ := rfl
  have hv : (choose (·.isAt .kwVar) (varSection .varSection) skip).read c = ⟨[], false, [], c⟩ := rfl
  have hb : (choose (·.isAt .kwBegin) (block ++ takeIf .semicolon) skip).read c =
      (block ++ takeIf .semicolon).read c := read_choose_of rfl
  have ht (ls : List Lexeme) : methodTail.read ⟨n, ⟨.kwProcedure, t₁⟩ :: ls⟩ =
      (take ++ methodRest).read ⟨n, ⟨.kwProcedure, t₁⟩ :: ls⟩ := read_choose_of rfl
  simp only [a, method, read_mark, hs, ht, methodRest, read_append, read_take_cons, hn, hp, hr, hi, hv,
    hb, and_true]
  rfl

/-- A procedure without `end` gives way to the member behind it. -/
theorem read_unfinished (hb : ∀ l ∈ b.lexemes, l.kind ∉ TokenKind.kwEnd :: memberStarts)
    (n : Nat) (t₁ t₂ t₃ t₄ t₅ : Text) :
    let a := method.read ⟨n, ⟨.kwProcedure, t₁⟩ :: ⟨.ident, t₂⟩ :: ⟨.lParen, t₃⟩ :: ⟨.rParen, t₄⟩ ::
      ⟨.kwBegin, t₅⟩ :: (b.lexemes ++ b.behind)⟩
    (∃ ts m, a.made = [.node NodeKind.methodDeclaration (.leaf ⟨.kwProcedure, t₁⟩ ::
      .node NodeKind.identifierName [.leaf ⟨.ident, t₂⟩] :: ts)] ∧ a.rest = ⟨m, b.behind⟩) := by
  intro a
  obtain ⟨hm, hr⟩ := read_procedure n t₁ t₂ t₃ t₄ t₅ (b.lexemes ++ b.behind)
  obtain ⟨m, hd⟩ := rest_blockBody hb (n + 4) ⟨.kwBegin, t₅⟩
  refine ⟨_, m, hm, hr.trans ?_⟩
  rw [read_append, block, read_node, hd, takeIf, read_choose, b.isAt_behind m (by decide)]
  rfl

/-! ## Objects -/

/-- `codeunit 1 X \x7b procedure A() begin` -/
def opened : List Lexeme :=
  [⟨.ident, "codeunit".toList⟩, ⟨.intLiteral, ['1']⟩, ⟨.ident, ['X']⟩, ⟨.lBrace, ['\x7b']⟩,
    ⟨.kwProcedure, "procedure".toList⟩, ⟨.ident, ['A']⟩, ⟨.lParen, ['(']⟩, ⟨.rParen, [')']⟩,
    ⟨.kwBegin, "begin".toList⟩]

/-- `procedure B() begin end; \x7d` -/
def resumed : List Lexeme :=
  [⟨.kwProcedure, "procedure".toList⟩, ⟨.ident, ['B']⟩, ⟨.lParen, ['(']⟩, ⟨.rParen, [')']⟩,
    ⟨.kwBegin, "begin".toList⟩, ⟨.kwEnd, "end".toList⟩, ⟨.semicolon, [';']⟩, ⟨.rBrace, ['\x7d']⟩]

theorem read_member (n : Nat) (t : Text) (ls : List Lexeme) :
    member.read ⟨n, ⟨.kwProcedure, t⟩ :: ls⟩ = method.read ⟨n, ⟨.kwProcedure, t⟩ :: ls⟩ := rfl

theorem read_header (n : Nat) (t₂ t₃ t₄ : Text) (ls : List Lexeme) :
    header.read ⟨n, ⟨.ident, "codeunit".toList⟩ :: ⟨.intLiteral, t₂⟩ :: ⟨.ident, t₃⟩ ::
      ⟨.lBrace, t₄⟩ :: ls⟩ =
      ⟨[.leaf ⟨.ident, "codeunit".toList⟩, .node NodeKind.objectId [.leaf ⟨.intLiteral, t₂⟩],
        .node NodeKind.identifierName [.leaf ⟨.ident, t₃⟩]], false, [], ⟨n + 3, ⟨.lBrace, t₄⟩ :: ls⟩⟩ := by
  simp [header, nameOr, name, headerRest, Cursor.isAt, Cursor.kind, Cursor.peek, TokenKind.isName]

theorem read_declaration (n : Nat) (ls : List Lexeme) :
    declaration.read ⟨n, ⟨.ident, "codeunit".toList⟩ :: ls⟩ =
      (object .codeunitObject).read ⟨n, ⟨.ident, "codeunit".toList⟩ :: ls⟩ := by
  have hw (w : Text) : (⟨n, ⟨.ident, "codeunit".toList⟩ :: ls⟩ : Cursor).atWord w =
      Text.sameLetters "codeunit".toList w := rfl
  have hn : Text.sameLetters "codeunit".toList "namespace".toList = false := by decide
  have hu : Text.sameLetters "codeunit".toList "using".toList = false := by decide
  have ho : NodeKind.ofObjectWord? "codeunit".toList = some .codeunitObject := by decide
  have hi : (⟨n, ⟨.ident, "codeunit".toList⟩ :: ls⟩ : Cursor).isAt .ident = true := rfl
  have ht : (⟨n, ⟨.ident, "codeunit".toList⟩ :: ls⟩ : Cursor).text = "codeunit".toList := rfl
  rw [declaration, read_look, hw, hn, hw, hu, hi, ht, if_neg Bool.false_ne_true,
    if_neg Bool.false_ne_true, if_pos rfl, ho]

/-- The procedure behind is read to its end. -/
theorem read_resumed (n : Nat) : ∃ us m, (method.read ⟨n, resumed⟩).made =
    [.node NodeKind.methodDeclaration (.leaf ⟨.kwProcedure, "procedure".toList⟩ ::
      .node NodeKind.identifierName [.leaf ⟨.ident, ['B']⟩] :: us)] ∧
    (method.read ⟨n, resumed⟩).rest = ⟨m, [⟨.rBrace, ['\x7d']⟩]⟩ := by
  obtain ⟨hm, hr⟩ := read_procedure n "procedure".toList ['B'] ['('] [')'] "begin".toList
    [⟨.kwEnd, "end".toList⟩, ⟨.semicolon, [';']⟩, ⟨.rBrace, ['\x7d']⟩]
  refine ⟨_, n + 7, hm, hr.trans ?_⟩
  rw [read_append, block, read_node, blockBody, read_append, read_append, read_take_cons, statements,
    read_whileAt_of_not _ _ rfl]
  rfl

/-- Whether another member is read. -/
def goesOn (c : Cursor) : Bool := !(c.isAt .rBrace || c.atEnd)

theorem read_members_round (n : Nat) (t : Text) (ls : List Lexeme) :
    (whileAt goesOn member).read ⟨n, ⟨.kwProcedure, t⟩ :: ls⟩ =
      (method ++ whileAt goesOn member).read ⟨n, ⟨.kwProcedure, t⟩ :: ls⟩ := by
  have h (c : Cursor) (hc : goesOn c = true) : (member.read c).rest.ahead.length < c.ahead.length :=
    (leads_member fun ha => by simp [goesOn, Cursor.atEnd, ha] at hc).opens.lt
  rw [read_whileAt_round h rfl, read_append, read_append, read_member]

/-- The members of an object: an unfinished procedure and one that is whole. -/
theorem read_memberList_unfinished (hb : ∀ l ∈ b.lexemes, l.kind ∉ TokenKind.kwEnd :: memberStarts)
    (hr : b.behind = resumed) (n : Nat) :
    let a := (memberList member).read ⟨n, opened.drop 3 ++ (b.lexemes ++ b.behind)⟩
    ∃ ts us m, a.made = [.leaf ⟨.lBrace, ['\x7b']⟩,
        .node NodeKind.methodDeclaration (.leaf ⟨.kwProcedure, "procedure".toList⟩ ::
          .node NodeKind.identifierName [.leaf ⟨.ident, ['A']⟩] :: ts),
        .node NodeKind.methodDeclaration (.leaf ⟨.kwProcedure, "procedure".toList⟩ ::
          .node NodeKind.identifierName [.leaf ⟨.ident, ['B']⟩] :: us),
        .leaf ⟨.rBrace, ['\x7d']⟩] ∧ a.rest = ⟨m, []⟩ := by
  intro a
  let d : Cursor := ⟨n + 1, opened.drop 4 ++ (b.lexemes ++ b.behind)⟩
  obtain ⟨ts, m, hm, hd⟩ : ∃ ts m, (method.read d).made = _ ∧ (method.read d).rest = ⟨m, b.behind⟩ :=
    read_unfinished hb (n + 1) "procedure".toList ['A'] ['('] [')'] "begin".toList
  rw [hr] at hd
  obtain ⟨us, k, hk, he⟩ := read_resumed m
  have ha : a = (take ++ (whileAt goesOn member ++ require .rBrace)).read
      ⟨n, ⟨.lBrace, ['\x7b']⟩ :: d.ahead⟩ := read_choose_of rfl
  have hA : (whileAt goesOn member).read d = (method ++ whileAt goesOn member).read d :=
    read_members_round (n + 1) _ _
  have hB : (whileAt goesOn member).read ⟨m, resumed⟩ =
      (method ++ whileAt goesOn member).read ⟨m, resumed⟩ := read_members_round m _ _
  have hC : (whileAt goesOn member).read ⟨k, [⟨.rBrace, ['\x7d']⟩]⟩ =
      ⟨[], false, [], ⟨k, [⟨.rBrace, ['\x7d']⟩]⟩⟩ := read_whileAt_of_not _ _ rfl
  rw [ha, read_append, read_take_cons, show (⟨n + 1, d.ahead⟩ : Cursor) = d from rfl, read_append, hA,
    read_append, hm, hd, hB, read_append, hk, he, hC]
  exact ⟨ts, us, k + 1, rfl, rfl⟩

/-- An object with an unfinished procedure and a whole one is read with both. -/
theorem read_object_unfinished (hb : ∀ l ∈ b.lexemes, l.kind ∉ TokenKind.kwEnd :: memberStarts)
    (hr : b.behind = resumed) : ∃ ts us,
    (declarations.read ⟨0, opened ++ (b.lexemes ++ b.behind)⟩).made =
      [.node NodeKind.codeunitObject [.leaf ⟨.ident, "codeunit".toList⟩,
        .node NodeKind.objectId [.leaf ⟨.intLiteral, ['1']⟩],
        .node NodeKind.identifierName [.leaf ⟨.ident, ['X']⟩],
        .leaf ⟨.lBrace, ['\x7b']⟩,
        .node NodeKind.methodDeclaration (.leaf ⟨.kwProcedure, "procedure".toList⟩ ::
          .node NodeKind.identifierName [.leaf ⟨.ident, ['A']⟩] :: ts),
        .node NodeKind.methodDeclaration (.leaf ⟨.kwProcedure, "procedure".toList⟩ ::
          .node NodeKind.identifierName [.leaf ⟨.ident, ['B']⟩] :: us),
        .leaf ⟨.rBrace, ['\x7d']⟩]] := by
  let e : Cursor := ⟨0, opened ++ (b.lexemes ++ b.behind)⟩
  obtain ⟨ts, us, m, hm, hd⟩ := read_memberList_unfinished hb hr 3
  have hh : header.read e = _ := read_header 0 ['1'] ['X'] ['\x7b'] (opened.drop 4 ++ (b.lexemes ++ b.behind))
  have ho : declaration.read e = (object .codeunitObject).read e := read_declaration 0 _
  have hw : declarations.read e = (declaration ++ declarations).read e :=
    read_whileAt_round (fun c hc => (leads_declaration fun ha => by
      simp [Cursor.atEnd, ha] at hc).opens.lt) rfl
  have hn : declarations.read ⟨m, []⟩ = ⟨[], false, [], ⟨m, []⟩⟩ := read_whileAt_of_not _ _ rfl
  refine ⟨ts, us, ?_⟩
  rw [show (⟨0, opened ++ (b.lexemes ++ b.behind)⟩ : Cursor) = e from rfl, hw, read_append, ho, object,
    read_node, read_append, hh]
  dsimp only
  rw [show (⟨0 + 3, ⟨.lBrace, ['\x7b']⟩ :: (opened.drop 4 ++ (b.lexemes ++ b.behind))⟩ : Cursor) =
    ⟨3, opened.drop 3 ++ (b.lexemes ++ b.behind)⟩ from rfl, hm, hd, hn]
  rfl

end Grammar

end AlRefactor
