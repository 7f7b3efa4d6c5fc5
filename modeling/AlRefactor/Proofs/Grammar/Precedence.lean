import AlRefactor.Proofs.Grammar.CompleteExpressions
import AlRefactor.Proofs.Grammar.Hereditary
import AlRefactor.Proofs.Grammar.Soundness

/-!
# Operands bind at least as tightly as their operators

What is read without a problem obeys the table of binding powers. An operand is read with the least
power that the operator in front of it leaves to it, and reading it stops before an operator of this
power or more. So the operator that stops it takes what was read before as its left operand only if
that binds tightly enough.
-/

namespace AlRefactor

namespace Tree

/-! ## Operators of trees -/

/-- The operator at the top that stands between two operands. -/
def operator? : Tree → Option TokenKind
  | .node (.node .binaryExpression) [_, .leaf o, _]
  | .node (.node .rangeExpression) [_, .leaf o, _] => some o.kind
  | _ => none

theorem power?_eq (t : Tree) : t.power? = t.operator?.bind fun k => k.powers?.map (·.1) := by
  fun_cases operator? t with
  | case1 => rfl
  | case2 => rfl
  | case3 t h h' => rw [Option.bind_none, power?.eq_3 _ h h']

theorem of_operator? {k : Kind} {ts : List Tree} {j : TokenKind}
    (h : (Tree.node k ts).operator? = some j) :
    (k = NodeKind.binaryExpression ∨ k = NodeKind.rangeExpression) ∧
      ∃ x o y, ts = [x, .leaf o, y] ∧ o.kind = j := by
  unfold operator? at h
  split at h
  · rename_i x o y he
    cases he
    cases h
    exact ⟨.inl rfl, x, o, y, rfl, rfl⟩
  · rename_i x o y he
    cases he
    cases h
    exact ⟨.inr rfl, x, o, y, rfl, rfl⟩
  · cases h

theorem Binds.of_operator? {p : Nat} {t : Tree} (h : t.operator? = none) : t.Binds p := by
  intro q hq
  rw [power?_eq, h] at hq
  cases hq

/-- The nodes with brackets. -/
def brackets : List NodeKind := [.parenthesizedExpression, .setExpression, .argumentList]

mutual
/-- No operator outside of brackets is `in`. -/
def NoIn : Tree → Prop
  | .leaf _ => True
  | .node k ts =>
    k ∈ brackets.map .node ∨ (Tree.node k ts).operator? ≠ some .kwIn ∧ NoInAll ts

def NoInAll : List Tree → Prop
  | [] => True
  | t :: ts => NoIn t ∧ NoInAll ts
end

theorem noInAll_append {ts us : List Tree} : NoInAll (ts ++ us) ↔ NoInAll ts ∧ NoInAll us := by
  induction ts with
  | nil => simp [NoInAll]
  | cons t ts ih => simp [NoInAll, ih, and_assoc]

/-- What the table of binding powers asks of a node. -/
structure Bound (k : Kind) (ts : List Tree) : Prop where
  operands : k = NodeKind.binaryExpression ∨ k = NodeKind.rangeExpression →
    ∀ x o y l r, ts = [x, .leaf o, y] → o.kind.powers? = some (l, r) → x.Binds l ∧ y.Binds (l + 1)
  /-- Otherwise the keyword of the loop would belong to its variable. -/
  loop : k = NodeKind.forEachStatement → ∀ f x us, ts = f :: x :: us → x.NoIn

theorem bound_of_ne {k : Kind} {ts : List Tree}
    (hk : k ∉ [NodeKind.binaryExpression, .rangeExpression, .forEachStatement].map Kind.node) :
    Bound k ts where
  operands h := by rcases h with rfl | rfl <;> exact absurd (by decide) hk
  loop h := by subst h; exact absurd (by decide) hk

end Tree

namespace Grammar

open Production AlRefactor.Tree

/-! ## All nodes -/

/-- If a production notes no problem, its nodes obey the table. -/
def KeepsBound (p : Production) : Prop :=
  ∀ c, (p.read c).problems = [] → EverywhereAll Bound (p.read c).made

theorem keepsBound_append {p q : Production} (hp : KeepsBound p) (hq : KeepsBound q) :
    KeepsBound (p ++ q) := by
  intro c h
  obtain ⟨h, h'⟩ := List.append_eq_nil_iff.mp h
  exact everywhereAll_append.mpr ⟨hp _ h, hq _ h'⟩

theorem keepsBound_mark {p q : Production} {kind : Cursor → Kind}
    (hk : ∀ d, kind d ∉ [NodeKind.binaryExpression, .rangeExpression, .forEachStatement].map .node)
    (hp : KeepsBound p) (hq : KeepsBound q) : KeepsBound (mark p kind q) :=
  fun c h => ⟨⟨bound_of_ne (hk _), keepsBound_append hp hq c h⟩, trivial⟩

theorem keepsBound_take : KeepsBound take := by
  rintro ⟨n, _ | ⟨l, ls⟩⟩ _
  · exact trivial
  · exact ⟨trivial, trivial⟩

theorem hereditary_keepsBound : Hereditary KeepsBound where
  skip _ _ := trivial
  take := keepsBound_take
  report _ _ h := absurd h (List.cons_ne_nil _ _)
  append := keepsBound_append
  look h c := h c c
  whileAt hp := whileAt_induction (I := fun _ ts _ => EverywhereAll Bound ts) (fun _ => trivial)
    fun c _ _ _ h hs => everywhereAll_append.mpr ⟨hp c h, hs⟩
  mark hk := keepsBound_mark fun d hd => hk d <|
    (by decide : ∀ k ∈ [NodeKind.binaryExpression, .rangeExpression, .forEachStatement].map
      Kind.node, k ∈ ownKinds) _ hd

/-! ## Expressions -/

/-- What is read as an expression: its operators between operands have a power at least, no operator
of this power follows, and where `in` is no operator there is none. -/
structure Obeys (allowIn : Bool) (power : Nat) (a : Outcome (List Tree)) : Prop where
  bound : EverywhereAll Bound a.made
  binds : ∀ t ∈ a.made, t.Binds power
  stops : a.made ≠ [] → operator allowIn power a.rest = none
  noIn : allowIn = false → NoInAll a.made

/-- Inner expressions that are read without a problem obey the table. -/
def InnerObeys (inner : Inner) : Prop :=
  ∀ allowIn power c, ((inner allowIn power).read c).problems = [] →
    Obeys allowIn power ((inner allowIn power).read c)

theorem noInAll_take (c : Cursor) : NoInAll (take.read c).made := by
  obtain ⟨n, _ | ⟨l, ls⟩⟩ := c
  · exact trivial
  · exact ⟨trivial, trivial⟩

theorem noIn_node {k : Kind} {ts : List Tree}
    (hk : k ∉ [NodeKind.binaryExpression, .rangeExpression].map Kind.node) (h : NoInAll ts) :
    (Tree.node k ts).NoIn := by
  refine .inr ⟨fun ho => ?_, h⟩
  rcases (of_operator? ho).1 with rfl | rfl <;> exact absurd (by decide) hk

/-- An operand: a node without an operator between two operands at the top. -/
structure Operand (allowIn : Bool) (a : Outcome (List Tree)) (t : Tree) : Prop where
  made : a.made = [t]
  bound : Everywhere Bound t
  operator : t.operator? = none
  noIn : allowIn = false → t.NoIn

/-- Without a problem a single operand is made. -/
def MakesOperand (allowIn : Bool) (p : Production) (c : Cursor) : Prop :=
  (p.read c).problems = [] → (p.read c).single ∧ ∃ t, Operand allowIn (p.read c) t

theorem operand_node {allowIn : Bool} {p : Production} {k : Kind} {c : Cursor}
    (hk : k ∉ [NodeKind.binaryExpression, .rangeExpression, .forEachStatement].map Kind.node)
    (hp : KeepsBound p) (hn : (p.read c).problems = [] → allowIn = false →
      (Tree.node k (p.read c).made).NoIn) : MakesOperand allowIn (node k p) c := by
  intro h
  rw [read_node] at h ⊢
  refine ⟨rfl, _, rfl, ⟨bound_of_ne hk, hp c h⟩, ?_, hn h⟩
  refine Option.eq_none_iff_forall_ne_some.mpr fun j ho => ?_
  rcases (of_operator? ho).1 with rfl | rfl <;> exact absurd (by decide) hk

section Expression

variable {inner : Inner} (hi : InnerObeys inner) {allowIn : Bool} {c : Cursor}
include hi

theorem keepsBound_inner (allowIn : Bool) (power : Nat) : KeepsBound (inner allowIn power) :=
  fun c h => (hi _ _ c h).bound

theorem makesOperand_primary : MakesOperand allowIn (primary inner) c := by
  have hk := hereditary_keepsBound
  have hin := keepsBound_inner hi
  rw [primary, MakesOperand, read_look, ← MakesOperand]
  split
  · exact operand_node (by decide) hk.take fun _ _ => noIn_node (by decide) (noInAll_take c)
  split
  · exact operand_node (by decide) hk.take fun _ _ => noIn_node (by decide) (noInAll_take c)
  split
  · exact operand_node (by decide) (hk.append (hk.append hk.take (hin _ _)) (hk.require _))
      fun _ _ => .inl (by decide)
  · exact operand_node (by decide) (hk.bracketed hin _) fun _ _ => .inl (by decide)
  · exact fun h => absurd h (List.cons_ne_nil _ _)

omit hi in
theorem follower_ne {d : Cursor} {k : NodeKind} (h : follower d = some k) :
    .node k ∉ [NodeKind.binaryExpression, .rangeExpression, .forEachStatement].map Kind.node ∧
      .node k ∉ [NodeKind.binaryExpression, .rangeExpression].map Kind.node := by
  unfold follower at h
  split at h
  all_goals cases h
  all_goals decide

omit hi in
theorem noInAll_suffix (inner : Inner) (d : Cursor) : NoInAll ((suffix inner).read d).made := by
  have hs : ∀ missing, NoInAll ((selector missing).read d).made := fun missing => by
    rw [selector, read_append, read_choose]
    refine noInAll_append.mpr ⟨noInAll_take d, ?_⟩
    split
    · rw [name, read_node]
      exact ⟨noIn_node (by decide) (noInAll_take _), trivial⟩
    · exact trivial
  have ha : ∀ close, NoInAll ((argumentList inner close).read d).made := fun close => by
    rw [argumentList, read_node]
    exact ⟨.inl (by decide), trivial⟩
  rw [suffix, read_look]
  split
  · exact hs _
  · exact hs _
  · exact ha _
  · exact ha _

theorem makesOperand_operand : MakesOperand allowIn (operand inner allowIn) c := by
  rw [operand, MakesOperand, read_look, ← MakesOperand]
  split
  · refine operand_node (by decide) (keepsBound_append keepsBound_take (keepsBound_inner hi _ _)) ?_
    intro h ha
    obtain ⟨-, h⟩ := List.append_eq_nil_iff.mp h
    exact noIn_node (by decide) (noInAll_append.mpr ⟨noInAll_take c, (hi _ _ _ h).noIn ha⟩)
  · intro h
    refine grow_induction (I := fun a => a.single ∧ ∃ t, Operand allowIn a t) ?_ h
      (makesOperand_primary hi)
    rintro a k ⟨-, t, ht⟩ hk hq
    obtain ⟨hb, ho⟩ := follower_ne hk
    refine ⟨rfl, _, rfl, ⟨bound_of_ne hb, ?_⟩, ?_, fun ha => noIn_node ho ?_⟩
    · rw [ht.made]
      exact ⟨ht.bound, hereditary_keepsBound.suffix (keepsBound_inner hi) _ hq⟩
    · refine Option.eq_none_iff_forall_ne_some.mpr fun j hj => ?_
      rcases (of_operator? hj).1 with hk | hk <;> rw [hk] at ho <;> exact absurd (by decide) ho
    · rw [ht.made]
      exact ⟨ht.noIn ha, noInAll_suffix inner _⟩

/-! ### Operators between operands -/

omit hi in
/-- An operator that may follow is read, has the power asked for, and any production that stops before
it asks for more. -/
theorem of_operator {power : Nat} {k : NodeKind} (h : operator allowIn power c = some k) :
    ∃ o ls n l, c = ⟨n, o :: ls⟩ ∧ o.kind.powers? = some (l, l + 1) ∧ power ≤ l ∧
      (allowIn = false → o.kind ≠ .kwIn) ∧ ∀ q, operator allowIn q c = none → l < q := by
  unfold operator at h
  split at h
  · cases h
  rename_i hin
  split at h
  · cases h
  rename_i l r hp
  split at h
  · cases h
  rename_i hl
  obtain ⟨rfl, -, -⟩ := right_power hp
  obtain ⟨n, _ | ⟨o, ls⟩⟩ := c
  · cases hp
  refine ⟨o, ls, n, l, rfl, hp, Nat.le_of_not_lt hl, fun ha hk => hin ?_, fun q hq => ?_⟩
  · have hk : (⟨n, o :: ls⟩ : Cursor).kind = .kwIn := hk
    simp [Cursor.isAt, hk, ha]
  · rw [operator, if_neg hin, hp] at hq
    refine Nat.lt_of_not_le fun hle => ?_
    simp [Nat.not_lt.mpr hle] at hq

/-- What an operator finds before it: an operator at the top of that was stopped by this one. -/
structure Left (allowIn : Bool) (power : Nat) (a : Outcome (List Tree)) (t : Tree) : Prop where
  made : a.made = [t]
  bound : Everywhere Bound t
  binds : t.Binds power
  stops : ∀ l ∈ t.power?, operator allowIn (l + 1) a.rest = none
  noIn : allowIn = false → t.NoIn

theorem Left.step {power : Nat} {a : Outcome (List Tree)} {t : Tree} {k : NodeKind}
    (ht : Left allowIn power a t) (hk : operator allowIn power a.rest = some k)
    (hq : ((rightOperand inner allowIn).read a.rest).problems = []) :
    ∃ u, Left allowIn power
      ⟨[.node k (a.made ++ ((rightOperand inner allowIn).read a.rest).made)], true,
        a.problems ++ ((rightOperand inner allowIn).read a.rest).problems,
        ((rightOperand inner allowIn).read a.rest).rest⟩ u := by
  obtain ⟨o, ls, n, l, hc, hp, hle, hno, hlt⟩ := of_operator hk
  obtain ⟨y, hy, hr⟩ : ∃ y, (y.problems = [] → Obeys allowIn (l + 1) y) ∧
      (rightOperand inner allowIn).read a.rest = ⟨.leaf o :: y.made, false, y.problems, y.rest⟩ := by
    have ho : (⟨n, o :: ls⟩ : Cursor).kind.powers? = some (l, l + 1) := hp
    refine ⟨_, hi allowIn (l + 1) ⟨n + 1, ls⟩, ?_⟩
    rw [rightOperand, read_look, hc, ho]
    rfl
  rw [hr] at hq ⊢
  have hy := hy hq
  rw [ht.made]
  dsimp only [List.singleton_append]
  -- Whatever has the shape of an operation is one of this operator.
  have hop : ∀ j, (Tree.node k (t :: .leaf o :: y.made)).operator? = some j →
      j = o.kind ∧ y.made ≠ [] := fun j hj => by
    obtain ⟨_, x, p, u, hts, rfl⟩ := of_operator? hj
    obtain ⟨rfl, rfl, hy⟩ : t = x ∧ o = p ∧ y.made = [u] := by simpa using hts
    exact ⟨rfl, hy ▸ List.cons_ne_nil _ _⟩
  have hpow : ∀ q ∈ (Tree.node k (t :: .leaf o :: y.made)).power?, q = l ∧ y.made ≠ [] :=
    fun q hq => by
      rw [power?_eq] at hq
      obtain ⟨j, hj, hjq⟩ := Option.bind_eq_some_iff.mp hq
      obtain ⟨rfl, hu⟩ := hop j hj
      rw [hp] at hjq
      cases hjq
      exact ⟨rfl, hu⟩
  refine ⟨_, rfl, ⟨⟨fun _ x p u q r hts hpq => ?_, fun hf => ?_⟩, ht.bound, trivial, hy.bound⟩,
    fun q hq => (hpow q hq).1 ▸ hle, fun q hq => ?_, fun ha => .inr ⟨fun hin => ?_, ht.noIn ha,
      trivial, hy.noIn ha⟩⟩
  · obtain ⟨rfl, rfl, hu⟩ : t = x ∧ o = p ∧ y.made = [u] := by simpa using hts
    rw [hp] at hpq
    cases hpq
    exact ⟨fun m hm => Nat.le_of_lt_succ (hlt _ (ht.stops m hm)),
      hy.binds u (hu ▸ List.mem_singleton_self _)⟩
  · rcases operator_eq_some hk with ⟨-, ⟨rfl, _⟩ | ⟨rfl, _⟩⟩ <;> cases hf
  · obtain ⟨rfl, hu⟩ := hpow q hq
    exact hy.stops hu
  · exact hno ha (hop _ hin).1.symm

/-- The operand, and then one operator after the other until one binds less tightly. -/
theorem obeys_expressionStep (power : Nat)
    (h : ((expressionStep inner allowIn power).read c).problems = []) :
    Obeys allowIn power ((expressionStep inner allowIn power).read c) ∧
      ∃ t, ((expressionStep inner allowIn power).read c).made = [t] := by
  rw [expressionStep, read_grow] at h ⊢
  have hp : ((operand inner allowIn).read c).problems = [] := by
    split at h
    · exact problems_of_grown h
    · exact h
  obtain ⟨hs, t, ht⟩ := makesOperand_operand hi hp
  rw [if_pos hs] at h ⊢
  have hl : Left allowIn power ((operand inner allowIn).read c) t := by
    refine ⟨ht.made, ht.bound, .of_operator? ht.operator, fun l hl => ?_, ht.noIn⟩
    rw [power?_eq, ht.operator] at hl
    cases hl
  obtain ⟨u, hu⟩ := grown_induction (I := fun a => ∃ u, Left allowIn power a u)
    (fun a k ⟨u, hu⟩ hk hq => hu.step hi hk hq) _ _ h fun _ => ⟨t, hl⟩
  refine ⟨⟨?_, fun t ht => ?_, fun _ => ?_, fun ha => ?_⟩, u, hu.made⟩
  · rw [hu.made]
    exact ⟨hu.bound, trivial⟩
  · rw [hu.made] at ht
    exact List.mem_singleton.mp ht ▸ hu.binds
  · refine grown_stops (fun d k hk => ?_) _ _ (Nat.le_refl _)
    obtain ⟨o, ls, n, l, rfl, -⟩ := of_operator hk
    rw [rightOperand, read_look]
    exact advances_take.append_left _ _ (List.cons_ne_nil _ _)
  · rw [hu.made]
    exact ⟨hu.noIn ha, trivial⟩

end Expression

theorem innerObeys_expressionUpTo (n : Nat) : InnerObeys (expressionUpTo n) := by
  induction n with
  | zero => exact fun _ _ _ _ => ⟨trivial, fun _ h => absurd h List.not_mem_nil,
      fun h => absurd rfl h, fun _ => trivial⟩
  | succ n ih => exact fun _ _ _ h => (obeys_expressionStep ih _ h).1

theorem keepsBound_expression : KeepsBound expression :=
  fun c h => (innerObeys_expressionUpTo _ _ _ c h).bound

theorem keepsBound_expressionWithoutIn : KeepsBound expressionWithoutIn :=
  fun c h => (innerObeys_expressionUpTo _ _ _ c h).bound

theorem noIn_expressionWithoutIn {c : Cursor} (h : (expressionWithoutIn.read c).problems = []) :
    ∃ t, (expressionWithoutIn.read c).made = [t] ∧ t.NoIn := by
  obtain ⟨hb, t, ht⟩ := obeys_expressionStep (innerObeys_expressionUpTo _) _ h
  have hn := hb.noIn rfl
  rw [ht] at hn
  exact ⟨t, ht, hn.1⟩

/-! ## Loops and files -/

theorem problems_expressionWithoutIn (n : Nat) : (expressionWithoutIn.read ⟨n, []⟩).problems ≠ [] :=
  List.cons_ne_nil _ _

theorem keepsBound_forEachStatement {p : Production} (hp : KeepsBound p) :
    KeepsBound (forEachStatement p) := by
  have hb := hereditary_keepsBound.loopParts keepsBound_expression keepsBound_expressionWithoutIn hp
  intro c h
  rw [forEachStatement, read_node] at h ⊢
  refine ⟨⟨⟨fun hf => ?_, fun _ f x us hts => ?_⟩, hb c h⟩, trivial⟩
  · rcases hf with hf | hf <;> cases hf
  · simp only [read_append, List.append_eq_nil_iff, List.append_assoc] at h hts
    have hp := h.2.1
    obtain ⟨n, _ | ⟨l, ls⟩⟩ := c
    · exact absurd hp (problems_expressionWithoutIn n)
    · obtain ⟨t, ht, hn⟩ := noIn_expressionWithoutIn hp
      rw [ht, read_take_cons] at hts
      cases hts
      exact hn

theorem keepsBound_declarations : KeepsBound declarations := by
  have hk := hereditary_keepsBound
  have hi {p : Production} (hp : KeepsBound p) : KeepsBound (ifStatement p) :=
    keepsBound_mark (fun _ => by decide) (hk.conditional keepsBound_expression hp) hk.skip
  refine hk.declarations_of_node keepsBound_expression (fun _ => hi)
    (fun _ => keepsBound_forEachStatement) fun {p k} hd hp => keepsBound_mark (fun _ => ?_) hp hk.skip
  revert hd
  exact (by decide : ∀ k ∈ ownDeclarations,
    k ∉ [NodeKind.binaryExpression, .rangeExpression, .forEachStatement].map Kind.node) k

end Grammar

end AlRefactor
