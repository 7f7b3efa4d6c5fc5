import AlRefactor.Proofs.Grammar.Precedence
import AlRefactor.Proofs.Syntax.Offsets
import AlRefactor.Proofs.Syntax.RoundTrip

/-!
# Expressions of a text obey the table of binding powers

Every node of a text shows a tree that the grammar made. Where nothing is wrong with the text, what
holds of the operands of all these trees holds of the nodes.
-/

namespace AlRefactor

open AlRefactor.Tree

/-! ## Operators of nodes -/

namespace Node

/-- The operator of a binary expression or of a range. -/
def operator? (n : Node) : Option TokenKind :=
  if n.isOneOf [.binaryExpression, .rangeExpression] then
    match n.children.map Node.kind with
    | [_, .token k, _] => some k
    | _ => none
  else none

/-- The left power of the operator of a binary expression or of a range. -/
def power? (n : Node) : Option Nat := n.operator?.bind fun k => k.powers?.map (·.1)

/-- A node itself, and what is below it with no brackets between. -/
inductive Unbracketed (n : Node) : Node → Prop where
  | self : Unbracketed n n
  | child {m d} : Unbracketed n m → ¬ m.isOneOf brackets → d ∈ m.children → Unbracketed n d

/-- What the table of binding powers asks of a node, as far as brackets do not overrule it. -/
structure ObeysPrecedence (n : Node) : Prop where
  /-- The left operand binds as tightly as the operator or more, the right one more tightly. -/
  operands : n.isOneOf [.binaryExpression, .rangeExpression] →
    ∃ x o y l, n.children = [x, o, y] ∧ n.power? = some l ∧
      (∀ p ∈ x.power?, l ≤ p) ∧ ∀ p ∈ y.power?, l < p
  operand : n.kind = NodeKind.unaryExpression →
    ∃ o x, n.children = [o, x] ∧ ¬ x.isOneOf [.binaryExpression, .rangeExpression]
  receiver : n.isOneOf [.memberAccessExpression, .optionAccessExpression, .invocationExpression,
      .elementAccessExpression] →
    ∃ x, n.children.head? = some x ∧
      ¬ x.isOneOf [.unaryExpression, .binaryExpression, .rangeExpression]
  /-- The keyword of the loop is no operator of its variable. -/
  loop : n.kind = NodeKind.forEachStatement →
    ∃ x, n.children[1]? = some x ∧ ∀ m, x.Unbracketed m → m.operator? ≠ some .kwIn

end Node

/-! ## Trees that nodes show -/

namespace Tree

theorem ShownByAll.exists_of_mem {ts : List Tree} {ns : List Node} (h : ShownByAll ts ns) {n : Node}
    (hn : n ∈ ns) : ∃ t ∈ ts, t.ShownBy n := by
  induction ts generalizing ns with
  | nil => exact absurd (h ▸ hn) List.not_mem_nil
  | cons t ts ih =>
      cases ns with
      | nil => exact h.elim
      | cons m ns =>
          rcases List.mem_cons.mp hn with rfl | hn
          · exact ⟨t, List.mem_cons_self, h.1⟩
          · obtain ⟨u, hu, hs⟩ := ih h.2 hn
            exact ⟨u, List.mem_cons_of_mem _ hu, hs⟩

theorem EverywhereAll.of_mem {P : Kind → List Tree → Prop} {ts : List Tree} (h : EverywhereAll P ts)
    {t : Tree} (ht : t ∈ ts) : Everywhere P t := by
  induction ts with
  | nil => exact absurd ht List.not_mem_nil
  | cons u ts ih =>
      rcases List.mem_cons.mp ht with rfl | ht
      · exact h.1
      · exact ih h.2 ht

theorem NoInAll.of_mem {ts : List Tree} (h : NoInAll ts) {t : Tree} (ht : t ∈ ts) : t.NoIn := by
  induction ts with
  | nil => exact absurd ht List.not_mem_nil
  | cons u ts ih =>
      rcases List.mem_cons.mp ht with rfl | ht
      · exact h.1
      · exact ih h.2 ht

theorem ShownBy.kind {t : Tree} {n : Node} (h : t.ShownBy n) : n.kind = t.kind := by
  cases t with
  | leaf l => exact h.1
  | node k ts => exact h.1

/-- A child of a node that shows a tree shows a tree below that. -/
theorem ShownBy.child {t : Tree} {n m : Node} (h : t.ShownBy n) (hm : m ∈ n.children) :
    ∃ k ts, t = .node k ts ∧ ∃ u ∈ ts, u.ShownBy m := by
  cases t with
  | leaf l => rw [h.2.2] at hm; exact absurd hm List.not_mem_nil
  | node k ts => exact ⟨k, ts, rfl, h.2.exists_of_mem hm⟩

end Tree

namespace SyntaxTree

variable {text : Text} {n : Node}

/-- Every node shows a tree that has what all trees of the text have. -/
theorem exists_shown {P : Kind → List Tree → Prop}
    (hP : Everywhere P (.node NodeKind.compilationUnit (forest text)))
    (hn : n ∈ (parse text).nodes) : ∃ t, t.ShownBy n ∧ Everywhere P t := by
  have hr : (parse text).root ∈ (parse text).nodes := mem_nodes.mpr rfl
  refine below_induction (Q := fun n => ∃ t, t.ShownBy n ∧ Everywhere P t) ?_ hr hn
    (below_root hn) ⟨_, root_shows text, hP⟩
  rintro a - ⟨t, ht, hp⟩ c hc
  obtain ⟨k, ts, rfl, u, hu, hs⟩ := ht.child hc
  exact ⟨u, hs, hp.2.of_mem hu⟩

end SyntaxTree

namespace Tree

/-- The operands and the operator of an operation. -/
theorem operation_shape {k : Kind} {ts : List Tree} (h : Everywhere Rule (.node k ts))
    (hk : k = NodeKind.binaryExpression ∨ k = NodeKind.rangeExpression) :
    ∃ x o y l, ts = [x, .leaf o, y] ∧ o.kind.powers? = some (l, l + 1) := by
  obtain ⟨r, hr, u, hu, _, ⟨v, hv, w, hw, rfl⟩, huvw⟩ : ∃ r : Pattern,
      (∀ v ∈ r.matches', ∃ k : TokenKind, v = [.token k] ∧ k.powers?.isSome) ∧
        ts.map Tree.symbol ∈ (Pattern.expression * (r * .expression)).matches' := by
    rcases hk with rfl | rfl
    · refine ⟨_, fun v hv => ?_, h.1⟩
      obtain ⟨k, hk, rfl⟩ := Pattern.mem_tokens.mp hv
      exact ⟨k, rfl, (by decide : ∀ k ∈ Pattern.infixOperators, k.powers?.isSome) k hk⟩
    · exact ⟨_, fun v hv => ⟨_, Pattern.mem_token.mp hv, rfl⟩, h.1⟩
  obtain ⟨a, -, rfl⟩ := Pattern.mem_nodes.mp hu
  obtain ⟨b, rfl, hb⟩ := hr v hv
  obtain ⟨c, -, rfl⟩ := Pattern.mem_nodes.mp hw
  obtain ⟨x, ts, rfl, -, hts⟩ := List.map_eq_cons_iff.mp huvw.symm
  obtain ⟨o, ts, rfl, ho, hts⟩ := List.map_eq_cons_iff.mp hts
  obtain ⟨y, ts, rfl, -, hts⟩ := List.map_eq_cons_iff.mp hts
  obtain rfl := List.map_eq_nil_iff.mp hts
  obtain ⟨o, rfl, rfl⟩ := exists_leaf h.2.2.1 (o.kind_symbol.symm.trans (congrArg Symbol.kind ho))
  obtain ⟨⟨l, r⟩, hp⟩ := Option.isSome_iff_exists.mp hb
  obtain ⟨rfl, -⟩ := Grammar.right_power hp
  exact ⟨x, o, y, l, rfl, hp⟩

end Tree

namespace Node

open SyntaxTree

variable {text : Text} {n m : Node} {t : Tree}

theorem isOneOf_iff {ks : List NodeKind} : n.isOneOf ks ↔ ∃ k ∈ ks, n.kind = .node k := by
  simp [isOneOf, isAny, eq_comm]

/-- An operation shown by a node is one of three children. -/
theorem children_operation (hs : t.ShownBy n) (hr : Everywhere Rule t)
    (hk : n.isOneOf [.binaryExpression, .rangeExpression]) :
    ∃ k x o y l x' o' y', t = .node k [x, .leaf o, y] ∧ n.children = [x', o', y'] ∧
      x.ShownBy x' ∧ o'.kind = o.kind ∧ y.ShownBy y' ∧ o.kind.powers? = some (l, l + 1) := by
  have hk : n.kind = NodeKind.binaryExpression ∨ n.kind = NodeKind.rangeExpression := by
    simpa using isOneOf_iff.mp hk
  cases t with
  | leaf l => rcases hk with hk | hk <;> cases hs.1.symm.trans hk
  | node k ts =>
      rw [hs.1] at hk
      obtain ⟨x, o, y, l, rfl, hp⟩ := operation_shape hr hk
      obtain ⟨x', ns, hc, hx, hns⟩ := hs.2.exists_cons
      obtain ⟨o', ns, rfl, ho, hns⟩ := hns.exists_cons
      obtain ⟨y', ns, rfl, hy, hns⟩ := hns.exists_cons
      obtain rfl : ns = [] := hns
      exact ⟨k, x, o, y, l, x', o', y', rfl, hc, hx, ho.1, hy, hp⟩

theorem operator?_eq (hs : t.ShownBy n) (hr : Everywhere Rule t) : n.operator? = t.operator? := by
  by_cases hk : n.isOneOf [.binaryExpression, .rangeExpression]
  · obtain ⟨k, x, o, y, l, x', o', y', rfl, hc, hx, ho, hy, -⟩ := children_operation hs hr hk
    rw [operator?, if_pos hk, hc, List.map_cons, List.map_cons, ho]
    obtain ⟨j, hj, hk⟩ := isOneOf_iff.mp hk
    obtain rfl := hs.1.symm.trans hk
    simp only [List.mem_cons, List.not_mem_nil, or_false] at hj
    rcases hj with rfl | rfl <;> rfl
  · rw [operator?, if_neg hk]
    refine (Option.eq_none_iff_forall_ne_some.mpr fun j hj => hk ?_).symm
    cases t with
    | leaf l => cases hj
    | node k ts =>
        have hj := (of_operator? hj).1
        rw [← hs.1] at hj
        exact isOneOf_iff.mpr (by simpa using hj)

theorem power?_eq (hs : t.ShownBy n) (hr : Everywhere Rule t) : n.power? = t.power? := by
  rw [power?, operator?_eq hs hr, Tree.power?_eq]

/-- Outside of brackets there is only what the tree has outside of them. -/
theorem Unbracketed.shown (h : n.Unbracketed m) (hs : t.ShownBy n) (hr : Everywhere Rule t)
    (hn : t.NoIn) : ∃ u, u.ShownBy m ∧ Everywhere Rule u ∧ u.NoIn := by
  induction h with
  | self => exact ⟨t, hs, hr, hn⟩
  | @child m d _ hb hd ih =>
      obtain ⟨u, hu, hur, hun⟩ := ih
      obtain ⟨k, ts, rfl, v, hv, hvd⟩ := hu.child hd
      refine ⟨v, hvd, hur.2.of_mem hv, (hun.resolve_left fun hk => hb ?_).2.of_mem hv⟩
      obtain ⟨j, hj, rfl⟩ := List.mem_map.mp hk
      exact isOneOf_iff.mpr ⟨j, hj, hu.1⟩

theorem operator?_of_unbracketed (h : n.Unbracketed m) (hs : t.ShownBy n) (hr : Everywhere Rule t)
    (hn : t.NoIn) : m.operator? ≠ some .kwIn := by
  obtain ⟨u, hu, hur, hun⟩ := h.shown hs hr hn
  rw [operator?_eq hu hur]
  cases u with
  | leaf l => exact nofun
  | node k ts =>
      rcases hun with hk | hk
      · intro ho
        rcases (of_operator? ho).1 with rfl | rfl <;> exact absurd hk (by decide)
      · exact hk.1

/-! ## Operands, receivers and loops -/

theorem operands_bind (hs : t.ShownBy n) (hr : Everywhere Rule t) (hb : Everywhere Bound t)
    (hk : n.isOneOf [.binaryExpression, .rangeExpression]) :
    ∃ x o y l, n.children = [x, o, y] ∧ n.power? = some l ∧
      (∀ p ∈ x.power?, l ≤ p) ∧ ∀ p ∈ y.power?, l < p := by
  obtain ⟨k, x, o, y, l, x', o', y', rfl, hc, hx, ho, hy, hp⟩ := children_operation hs hr hk
  obtain ⟨j, hj, hk⟩ := isOneOf_iff.mp hk
  obtain rfl := hs.1.symm.trans hk
  simp only [List.mem_cons, List.not_mem_nil, or_false] at hj
  have hj' : Kind.node j = NodeKind.binaryExpression ∨ Kind.node j = NodeKind.rangeExpression := by
    simpa using hj
  obtain ⟨hxl, hyl⟩ := hb.1.operands hj' _ _ _ _ _ rfl hp
  refine ⟨x', o', y', l, hc, ?_, fun p hm => hxl p ?_, fun p hm => hyl p ?_⟩
  · rw [power?_eq hs hr]
    rcases hj with rfl | rfl <;> simp [Tree.power?, hp]
  · rwa [← power?_eq hx hr.2.1]
  · rwa [← power?_eq hy hr.2.2.2.1]

theorem loop_noIn (hs : t.ShownBy n) (hr : Everywhere Rule t) (hb : Everywhere Bound t)
    (hk : n.kind = NodeKind.forEachStatement) :
    ∃ x, n.children[1]? = some x ∧ ∀ m, x.Unbracketed m → m.operator? ≠ some .kwIn := by
  cases t with
  | leaf l => cases hs.1.symm.trans hk
  | node k ts =>
      obtain rfl := hs.1.symm.trans hk
      obtain ⟨_, ⟨_, ⟨_, ⟨u, hu, v, hv, rfl⟩, _, _, rfl⟩, _, _, rfl⟩, _, _, hm⟩ := hr.1
      obtain rfl := Pattern.mem_token.mp hu
      obtain ⟨_, -, rfl⟩ := Pattern.mem_nodes.mp hv
      obtain ⟨f, ts, rfl, -, hts⟩ := List.map_eq_cons_iff.mp hm.symm
      obtain ⟨x, ts, rfl, -, -⟩ := List.map_eq_cons_iff.mp hts
      obtain ⟨f', ns, hc, -, hns⟩ := hs.2.exists_cons
      obtain ⟨x', ns, rfl, hx, -⟩ := hns.exists_cons
      exact ⟨x', by rw [hc]; rfl, fun m hm =>
        operator?_of_unbracketed hm hx hr.2.2.1 (hb.1.loop rfl f x ts rfl)⟩

theorem not_isOneOf {k : NodeKind} {ks : List NodeKind} (hx : n.symbol = .node k) (hk : k ∉ ks) :
    ¬ n.isOneOf ks := by
  intro h
  obtain ⟨j, hj, hkj⟩ := isOneOf_iff.mp h
  have hn := kind_symbol n
  rw [hx] at hn
  exact hk (Kind.node.inj (hn.trans hkj) ▸ hj)

theorem exists_operand (h : (parse text).ok) (hn : n ∈ (parse text).nodes)
    (hk : n.kind = NodeKind.unaryExpression) :
    ∃ o x, n.children = [o, x] ∧ ¬ x.isOneOf [.binaryExpression, .rangeExpression] := by
  obtain ⟨u, hu, v, hv, huv⟩ := matches_of_kind h hn hk
  obtain ⟨j, -, rfl⟩ := Pattern.mem_tokens.mp hu
  obtain ⟨k, hk, rfl⟩ := Pattern.mem_nodes.mp hv
  obtain ⟨o, ns, hc, -, hns⟩ := List.map_eq_cons_iff.mp huv.symm
  obtain ⟨x, ns, rfl, hx, hns⟩ := List.map_eq_cons_iff.mp hns
  obtain rfl := List.map_eq_nil_iff.mp hns
  exact ⟨o, x, hc, not_isOneOf hx ((by decide : ∀ k ∈ NodeKind.unaryExpression :: Pattern.receivers,
    k ∉ [NodeKind.binaryExpression, .rangeExpression]) k hk)⟩

theorem exists_receiver (h : (parse text).ok) (hn : n ∈ (parse text).nodes)
    (hk : n.isOneOf [.memberAccessExpression, .optionAccessExpression, .invocationExpression,
      .elementAccessExpression]) :
    ∃ x, n.children.head? = some x ∧
      ¬ x.isOneOf [.unaryExpression, .binaryExpression, .rangeExpression] := by
  obtain ⟨r, u, hu, v, -, huv⟩ : ∃ r, n.children.map (·.symbol) ∈ (Pattern.receiver * r).matches' := by
    obtain ⟨k, hk, hnk⟩ := isOneOf_iff.mp hk
    have hm := matches_of_kind h hn hnk
    simp only [List.mem_cons, List.not_mem_nil, or_false] at hk
    rcases hk with rfl | rfl | rfl | rfl <;> exact ⟨_, hm⟩
  obtain ⟨k, hk, rfl⟩ := Pattern.mem_nodes.mp hu
  obtain ⟨x, ns, hc, hx, -⟩ := List.map_eq_cons_iff.mp huv.symm
  refine ⟨x, by rw [hc]; rfl, not_isOneOf hx ?_⟩
  exact (by decide : ∀ k ∈ Pattern.receivers,
    k ∉ [NodeKind.unaryExpression, .binaryExpression, .rangeExpression]) k hk

/-- Where nothing is wrong with a text, its expressions obey the table of binding powers. -/
theorem obeysPrecedence (h : (parse text).ok) : ∀ n ∈ (parse text).nodes, n.ObeysPrecedence := by
  intro n hn
  have hf : Everywhere (fun k ts => Rule k ts ∧ Bound k ts)
      (.node NodeKind.compilationUnit (forest text)) :=
    (everywhere_and _).mpr ⟨rule_forest h, bound_of_ne (by decide),
      Grammar.keepsBound_declarations _ ((ok_iff text).mp h)⟩
  obtain ⟨t, hs, ht⟩ := exists_shown hf hn
  obtain ⟨hr, hb⟩ := (everywhere_and t).mp ht
  exact ⟨operands_bind hs hr hb, exists_operand h hn, exists_receiver h hn, loop_noIn hs hr hb⟩

/-- A body with operators of three powers, a sign, and a loop whose variable has `in` in brackets. -/
theorem obeysPrecedence_loop :
    let text : Text :=
      "codeunit 1 A \x7b procedure P() begin x := -a.b * 2 + c(3); foreach v[w in s] in t do; end; \x7d"
    (parse text).ok ∧ ∀ n ∈ (parse text).nodes, n.ObeysPrecedence := by
  intro text
  have h : (parse text).ok := by decide +kernel
  exact ⟨h, obeysPrecedence h⟩

end Node

end AlRefactor
