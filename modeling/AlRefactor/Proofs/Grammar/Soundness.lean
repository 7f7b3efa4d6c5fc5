import AlRefactor.Proofs.Grammar.Yields

/-!
# What is read without a problem follows the rules

Every production of the grammar either notes a problem or makes nodes whose children are what the
rules say. Fuel never runs out: what is nested starts behind a lexeme of what it is nested in.
-/

namespace AlRefactor.Grammar

open Production

variable {c : Cursor} {n : Nat}

theorem kind_of_isAt {k : TokenKind} (h : c.isAt k = true) : c.kind = k := by
  simpa [Cursor.isAt] using h

/-! ## Expressions -/

/-- What is known of inner expressions with less than a number of lexemes ahead. -/
structure InnerYields (inner : Inner) (n : Nat) : Prop where
  any : ∀ allowIn power, (inner allowIn power).YieldsBelow n .expression
  /-- Behind an operator in front no other operator binds. -/
  tight : ∀ allowIn, (inner allowIn 9).YieldsBelow n .operand

theorem InnerYields.le {inner : Inner} {m : Nat} (h : InnerYields inner n) (hm : m ≤ n) :
    InnerYields inner m where
  any _ _ := (h.any _ _).le hm
  tight _ := (h.tight _).le hm

section Expression

variable {inner : Inner} (h : InnerYields inner n)
include h

theorem yields_expressions : (expressions inner).YieldsBelow n .expressions :=
  .append (h.any _ _) <| .whileAt fun _ hc ht =>
    .append_below (.take (kind_of_isAt ht) nofun) (h.any _ _) hc

end Expression

section Expression

variable {inner : Inner} (h : InnerYields inner c.ahead.length)
include h

theorem yields_bracketed {opening closing : TokenKind} (hc : c.kind = opening)
    (ho : opening ≠ .eof) (hcl : closing ≠ .eof) :
    (bracketed inner closing).Yields c (.arguments opening closing) := by
  refine (Begins.required (.append (.take hc ho) fun d hd => ?_) hcl).yields
  exact .optionalUnless fun _ => yields_expressions h d hd

theorem yields_primary : (primary inner).Yields c .receiver := by
  refine .look ?_
  split
  · rename_i hl
    have hm : c.kind ∈ TokenKind.all.filter (·.isLiteral) :=
      List.mem_filter.mpr ⟨TokenKind.mem_all _, hl⟩
    exact .among (.node (.taking hm (by decide)) fun _ => rfl) (by decide)
  · split
    · rename_i hn
      exact .among (yields_name (by simp [hn])) (by decide)
    · split
      · rename_i hk
        have hp := (Begins.append (.take hk nofun) (h.any true 0)).required (k := .rParen) nofun
        exact .among (.node (k := .parenthesizedExpression) hp.yields fun _ => rfl) (by decide)
      · rename_i hk
        exact .among (.node (k := .setExpression) (yields_bracketed h hk nofun nofun) fun _ => rfl)
          (by decide)
      · exact fun hn => absurd hn (by simp)

end Expression

theorem arguments_forms : (Pattern.arguments .lParen .rParen).Forms .argumentList
    (.node .argumentList) := by
  intro w hw
  refine ⟨.inl hw, ?_⟩
  obtain ⟨_, ⟨_, rfl, v, _, rfl⟩, _, rfl, rfl⟩ := hw
  rfl

theorem indices_forms : (Pattern.arguments .lBracket .rBracket).Forms .argumentList (.char .indices) := by
  intro w hw
  refine ⟨.inr hw, ?_⟩
  obtain ⟨_, ⟨_, rfl, v, _, rfl⟩, _, rfl, rfl⟩ := hw
  rfl

theorem unaryPower?_eq_some {k : TokenKind} {r : Nat} (h : k.unaryPower? = some r) :
    k ∈ [.kwNot, .plus, .minus] ∧ r = 9 := by
  cases k <;> cases h <;> decide

theorem operator_eq_some {allowIn : Bool} {power : Nat} {k : NodeKind}
    (h : operator allowIn power c = some k) : power ≤ 7 ∧
      (k = .rangeExpression ∧ c.kind = .dotDot ∨
        k = .binaryExpression ∧ c.kind ∈ Pattern.infixOperators) := by
  unfold operator at h
  split at h
  · cases h
  · split at h
    · cases h
    · rename_i l r hp
      split at h
      · cases h
      · have hl : l ≤ 7 ∧ (c.kind ≠ .dotDot → c.kind ∈ Pattern.infixOperators) := by
          generalize c.kind = k at hp
          cases k <;> cases hp <;> decide
        cases h
        refine ⟨by omega, ?_⟩
        split
        · rename_i hd; exact .inl ⟨rfl, kind_of_isAt hd⟩
        · rename_i hd; exact .inr ⟨rfl, hl.2 fun he => hd (by simp [Cursor.isAt, he])⟩

theorem yields_selector {k : TokenKind} (hc : c.kind = k) (hn : k ≠ .eof) (missing : Problem) :
    (selector missing).Yields c (.token k * .node .identifierName) :=
  .append (.take hc hn) (.choose yields_name fun _ => .report)

section Expression

variable {inner : Inner} (h : InnerYields inner c.ahead.length)
include h

theorem yields_suffix {k : NodeKind} (hk : follower c = some k) : k ∈ Pattern.receivers ∧
    ∃ s, (suffix inner).Yields c s ∧ (Pattern.receiver * s).Forms k (.node k) := by
  unfold follower at hk
  simp only [suffix]
  split at hk
  all_goals cases hk
  · rename_i hc
    refine ⟨by decide, _, .look ?_, fun w hw => ⟨hw, rfl⟩⟩
    rw [hc]
    exact yields_selector hc (by decide) _
  · rename_i hc
    refine ⟨by decide, _, .look ?_, fun w hw => ⟨hw, rfl⟩⟩
    rw [hc]
    exact yields_selector hc (by decide) _
  · rename_i hc
    refine ⟨by decide, _, .look ?_, fun w hw => ⟨hw, rfl⟩⟩
    rw [hc]
    exact .node_of (yields_bracketed h hc (by decide) (by decide)) arguments_forms
  · rename_i hc
    refine ⟨by decide, _, .look ?_, fun w hw => ⟨hw, rfl⟩⟩
    rw [hc]
    exact .node_of (yields_bracketed h hc (by decide) (by decide)) indices_forms

theorem yields_operand (allowIn : Bool) : (operand inner allowIn).Yields c .operand := by
  refine .look ?_
  split
  · rename_i r hr
    obtain ⟨hm, rfl⟩ := unaryPower?_eq_some hr
    have ht : take.Begins c (.tokens [.kwNot, .plus, .minus]) := .taking hm (by decide)
    exact .among (.node (k := .unaryExpression) (ht.append (h.tight _)).yields fun _ => rfl)
      (by decide)
  · refine (Yields.grow (yields_primary h) fun d k hd hk => ?_).weaken (List.subset_cons_self _ _)
    exact yields_suffix (h.le hd) hk

theorem yields_expressionStep (allowIn : Bool) (power : Nat) :
    (expressionStep inner allowIn power).Yields c .expression := by
  refine .grow ((yields_operand h allowIn).weaken (by decide)) fun d k hd hk => ?_
  obtain ⟨-, ⟨rfl, hc⟩ | ⟨rfl, hc⟩⟩ := operator_eq_some hk
  · exact ⟨by decide, _, .look ((Begins.take hc nofun).append ((h.le hd).any _ _)).yields,
      fun w hw => ⟨hw, rfl⟩⟩
  · have ht : take.Begins d (.tokens Pattern.infixOperators) := .taking hc (by decide)
    exact ⟨by decide, _, .look (ht.append ((h.le hd).any _ _)).yields, fun w hw => ⟨hw, rfl⟩⟩

theorem yields_tightStep (allowIn : Bool) :
    (expressionStep inner allowIn 9).Yields c .operand :=
  .grow (yields_operand h allowIn) fun d k _ hk => absurd (operator_eq_some hk).1 (by decide)

end Expression

theorem innerYields_expressionUpTo (n : Nat) : InnerYields (expressionUpTo n) n := by
  induction n with
  | zero =>
      exact ⟨fun _ _ _ hc => absurd hc (Nat.not_lt_zero _),
        fun _ _ hc => absurd hc (Nat.not_lt_zero _)⟩
  | succ n ih =>
      exact ⟨fun _ _ _ hc => .look (yields_expressionStep (ih.le (Nat.le_of_lt_succ hc)) _ _),
        fun _ _ hc => .look (yields_tightStep (ih.le (Nat.le_of_lt_succ hc)) _)⟩

theorem yields_expression (c : Cursor) : expression.Yields c .expression :=
  .look ((innerYields_expressionUpTo _).any _ _ _ (Nat.lt_succ_self _))

theorem yields_expressionWithoutIn (c : Cursor) : expressionWithoutIn.Yields c .expression :=
  .look ((innerYields_expressionUpTo _).any _ _ _ (Nat.lt_succ_self _))

/-! ## Statements -/

theorem yields_separator (c : Cursor) : separator.Yields c .separator :=
  .choose (fun h => Yields.mono (.take (kind_of_isAt h) nofun) fun _ => .inl) fun _ =>
    .choose (fun _ => Yields.skip.mono fun _ => .inr) fun _ hn => absurd hn (by simp)

theorem yields_direction (c : Cursor) :
    (choose (·.atAny [.kwTo, .kwDownTo]) (take ++ expression) (report .missingToOrDownTo)).Yields c
      (Pattern.tokens [.kwTo, .kwDownTo] * Pattern.expression) :=
  .choose (fun h => .append (.taking (by simpa [Cursor.atAny] using h) (by decide))
    (yields_expression _)) fun _ => .report

section Statement

variable {inner : Production} (h : inner.YieldsBelow n .statement)
include h

theorem yields_controlled : (controlled inner).YieldsBelow n .controlled := fun c hc =>
  .optionalUnless fun _ => h c hc

theorem yields_statements (close : TokenKind) :
    (statements inner close).YieldsBelow n Pattern.statement.star :=
  .whileAt fun c hc _ => h c hc

theorem yields_elseClause : (choose (·.isAt .kwElse)
    (node NodeKind.elseClause (take ++ controlled inner)) skip).YieldsBelow n
      (.optional (.node .elseClause)) := fun _ hc =>
  .optionalIf fun hk => .node
    (.append_below (.take (kind_of_isAt hk) nofun) (yields_controlled h) hc) fun _ => rfl

theorem yields_caseLine : (caseLine inner).YieldsBelow n (.node .caseLine) := by
  intro c hc
  have hm : (whileAt (·.isAt .comma) (take ++ expression)).YieldsBelow n
      (.star (Pattern.token .comma * Pattern.expression)) :=
    .whileAt fun _ _ hk => .append (.take (kind_of_isAt hk) nofun) (yields_expression _)
  have hp : (expression ++ whileAt (·.isAt .comma) (take ++ expression)).YieldsBelow n
      .expressions := .append (fun _ _ => yields_expression _) hm
  have hr : (require .colon).YieldsBelow n (.token .colon) := fun _ _ => yields_require nofun
  exact .node ((hp.append hr).append (yields_controlled h) c hc) fun _ => rfl

theorem yields_caseLines :
    (whileAt (fun c => !(c.atEnd || c.atAny [.kwEnd, .kwElse, .kwUntil] || c.atMember))
      (caseLine inner)).YieldsBelow n (Pattern.node .caseLine).star :=
  .whileAt fun c hc _ => yields_caseLine h c hc

theorem yields_caseElse : (choose (·.isAt .kwElse)
    (node NodeKind.caseElse (take ++ statements inner .kwEnd)) skip).YieldsBelow n
      (.optional (.node .caseElse)) := fun _ hc =>
  .optionalIf fun hk => .node
    (.append_below (.take (kind_of_isAt hk) nofun) (yields_statements h _) hc) fun _ => rfl

end Statement

section Statement

variable {inner : Production} (h : inner.YieldsBelow c.ahead.length .statement)
include h

theorem begins_blockBody (hc : c.kind = .kwBegin) : (blockBody inner).Begins c
    (Pattern.token .kwBegin * Pattern.statement.star * Pattern.token .kwEnd) :=
  .required (.append (.take hc nofun) (yields_statements h _)) nofun

theorem yields_ifStatement (hc : c.kind = .kwIf) :
    (ifStatement inner).Yields c (.node .ifStatement) := by
  have hp := (Begins.take hc nofun).followed yields_expression
  have hs := (hp.required (k := .kwThen) nofun).append (yields_controlled h)
  exact .node (hs.append (yields_elseClause h)).yields fun _ => rfl

theorem yields_caseStatement (hc : c.kind = .kwCase) :
    (caseStatement inner).Yields c (.node .caseStatement) := by
  have hp := (Begins.take hc nofun).followed yields_expression
  have hl := (hp.required (k := .kwOf) nofun).append (yields_caseLines h)
  have he := (hl.append (yields_caseElse h)).required (k := .kwEnd) nofun
  exact .node (he.followed yields_separator).yields fun _ => rfl

theorem yields_guarded {k : TokenKind} {kind : NodeKind} (hc : c.kind = k) (hn : k ≠ .eof)
    (hk : kind.production = .guarded k) (hs : ∀ ks, Symbol.ofNode kind ks = .node kind) :
    (guarded kind inner).Yields c (.node kind) := by
  have hp := (Begins.take hc hn).followed yields_expression
  have hd := (hp.required (k := .kwDo) nofun).append (yields_controlled h)
  exact .node (hk ▸ hd.yields) hs

theorem yields_repeatStatement (hc : c.kind = .kwRepeat) :
    (repeatStatement inner).Yields c (.node .repeatStatement) := by
  have hp := (Begins.take hc nofun).append (yields_statements h .kwUntil)
  have hu := hp.followed fun _ => yields_requireThen (k := .kwUntil) nofun yields_expression
  exact .node (hu.followed yields_separator).yields fun _ => rfl

theorem yields_forStatement (hc : c.kind = .kwFor) :
    (forStatement inner).Yields c (.node .forStatement) := by
  have hp := (Begins.take hc nofun).followed yields_expression
  have ha := hp.followed fun _ => yields_requireThen (k := .assign) nofun yields_expression
  have ht := (ha.followed yields_direction).required (k := .kwDo) nofun
  exact .node (ht.append (yields_controlled h)).yields fun _ => rfl

theorem yields_forEachStatement (hc : c.kind = .kwForEach) :
    (forEachStatement inner).Yields c (.node .forEachStatement) := by
  have hp := (Begins.take hc nofun).followed yields_expressionWithoutIn
  have hi := hp.followed fun _ => yields_requireThen (k := .kwIn) nofun yields_expression
  have hd := (hi.required (k := .kwDo) nofun).append (yields_controlled h)
  exact .node hd.yields fun _ => rfl

end Statement

theorem yields_exitStatement (hc : c.kind = .kwExit) :
    exitStatement.Yields c (.node .exitStatement) := by
  have hv (d : Cursor) : (choose (·.isAt .rParen) skip expression ++ require .rParen).Yields d
      (.optional .expression * .token .rParen) :=
    .append (.optionalUnless fun _ => yields_expression _) (yields_require nofun)
  have hp := (Begins.take hc nofun).followed fun _ => yields_takeThen (k := .lParen) nofun hv
  exact .node (hp.followed yields_separator).yields fun _ => rfl

theorem yields_assigned {s : Pattern} (hc : take.Yields c s) (ha : c.kind.isAssignment) :
    (choose (·.kind.isAssignment) (take ++ expression) skip ++ separator).Yields c
      (s * .expression * .separator) :=
  .append (.choose (fun _ => .append hc (yields_expression _)) fun h => by simp [ha] at h)
    (yields_separator _)

theorem yields_assignmentOrCall (c : Cursor) : assignmentOrCall.Yields c .statement := by
  have he := yields_expression c
  by_cases ha : (expression.read c).rest.isAt .assign
  · have hk := kind_of_isAt ha
    have hq := yields_assigned (.take hk nofun) (by simp [hk, TokenKind.isAssignment])
    exact .inList (.mark_node .assignmentStatement he hq (by simp [ha]) rfl fun _ => rfl) (by decide)
  · by_cases hc : (expression.read c).rest.kind.isAssignment
    · have hm : (expression.read c).rest.kind ∈
          [.plusAssign, .minusAssign, .starAssign, .slashAssign] := by
        revert ha hc
        simp only [Cursor.isAt]
        cases (expression.read c).rest.kind <;> decide
      have hq := yields_assigned (.taking hm (by decide)) hc
      exact .inList (.mark_node .compoundAssignmentStatement he hq (by simp [ha, hc]) rfl fun _ => rfl)
        (by decide)
    · have hq : (choose (·.kind.isAssignment) (take ++ expression) skip).Yields
          (expression.read c).rest 1 := .choose (fun h => absurd h hc) fun _ => .skip
      have hs := (hq.append (yields_separator _)).mono fun w hw => Pattern.mem_one_mul.mp hw
      exact .inList (.mark_node .expressionStatement he hs (by simp [ha, hc]) rfl fun _ => rfl)
        (by decide)

theorem yields_block {inner : Production} (h : inner.YieldsBelow c.ahead.length .statement)
    (hc : c.kind = .kwBegin) : (node NodeKind.block (blockBody inner ++ separator)).Yields c .statement := by
  refine .node_of ((begins_blockBody h hc).followed yields_separator).yields fun w hw => ⟨hw, ?_⟩
  refine Pattern.mem_oneOf.mpr ⟨_, ?_, rfl⟩
  unfold Symbol.ofNode
  dsimp only
  split <;> decide

theorem yields_statementStep {inner : Production}
    (h : inner.YieldsBelow c.ahead.length .statement) :
    (statementStep inner).Yields c .statement := by
  refine .look ?_
  split
  · rename_i hc; exact yields_block h hc
  · rename_i hc; exact .inList (yields_ifStatement h hc) (by decide)
  · rename_i hc; exact .inList (yields_caseStatement h hc) (by decide)
  · rename_i hc; exact .inList (yields_guarded h hc nofun rfl fun _ => rfl) (by decide)
  · rename_i hc; exact .inList (yields_guarded h hc nofun rfl fun _ => rfl) (by decide)
  · rename_i hc; exact .inList (yields_repeatStatement h hc) (by decide)
  · rename_i hc; exact .inList (yields_forStatement h hc) (by decide)
  · rename_i hc; exact .inList (yields_forEachStatement h hc) (by decide)
  · rename_i hc; exact .inList (yields_exitStatement hc) (by decide)
  · rename_i hc
    exact .inList (.node (k := .emptyStatement) (.take hc nofun) fun _ => rfl) (by decide)
  · split
    · exact yields_assignmentOrCall c
    · exact fun hn => absurd hn (by simp)

theorem yields_statementUpTo (n : Nat) : (statementUpTo n).YieldsBelow n .statement := by
  induction n with
  | zero => exact fun c hc => absurd hc (Nat.not_lt_zero _)
  | succ n ih => exact fun c hc => .look (yields_statementStep (ih.le (Nat.le_of_lt_succ hc)))

theorem yields_statement (c : Cursor) : statement.Yields c .statement :=
  .look (yields_statementUpTo _ c (Nat.lt_succ_self _))

/-- The body of a procedure or trigger has no semicolon of its own. -/
theorem yields_body (hc : c.kind = .kwBegin) : block.Yields c (.node .block) := by
  refine .node_of (begins_blockBody (fun d _ => yields_statement d) hc).yields fun w hw => ?_
  refine ⟨⟨w, hw, [], .inr rfl, List.append_nil w⟩, ?_⟩
  obtain ⟨u, _, _, rfl, rfl⟩ := hw
  simp [Symbol.ofNode, Symbol.kind, Pattern.mem_node]

end AlRefactor.Grammar
