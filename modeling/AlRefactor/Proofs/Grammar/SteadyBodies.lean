import AlRefactor.Proofs.Grammar.Steady

/-!
# Expressions and statements do not hang on what follows

An expression or a statement that is read without a problem is read the same in front of anything that
starts with the same lexeme. The bounds on the nesting do not matter: a statement in another one starts
behind a lexeme of that one.
-/

namespace AlRefactor.Grammar

open Production AlRefactor.Tree

variable {c : Cursor} {n : Nat}

theorem settled_kind : Settled (Alike id) Cursor.kind := settled_of fun _ ls => by cases ls <;> rfl

theorem settled_follower : Settled (Alike id) follower := settled_of fun _ ls => by cases ls <;> rfl

theorem settled_operator (allowIn : Bool) (power : Nat) :
    Settled (Alike id) (operator allowIn power) :=
  settled_of fun _ ls => by cases ls <;> rfl

/-! ## Expressions -/

/-- Inner expressions are steady where they read fewer than a number of lexemes. -/
def InnerSteady (n : Nat) (inner inner' : Inner) : Prop :=
  ∀ allowIn power c, SteadyAt (Alike id) n (inner allowIn power) (inner' allowIn power) c

section Expression

variable {inner inner' : Inner}

theorem single_primary (h : ((primary inner).read c).problems = []) :
    ((primary inner).read c).single = true := by
  rw [primary, read_look] at h ⊢
  split
  · rfl
  · rename_i hl
    rw [if_neg hl] at h
    split
    · rfl
    · rename_i hn
      rw [if_neg hn] at h
      split
      · rfl
      · rfl
      · simp only at h
        cases h

variable (h : InnerSteady n inner inner')
include h

theorem steady_expressions : SteadyAt (Alike id) n (expressions inner) (expressions inner') c := by
  refine .append (h _ _ _) (.whileAt (settled_isAt _) (fun d hd => ahead_of_isAt hd nofun) ?_)
  intro d hd
  have hl := (LedAt.take (n := n) (ahead_of_isAt hd nofun)).append (h true 0)
  exact ⟨hl.steady.of_le (Nat.le_succ n), hl.reads⟩

theorem led_bracketed (hc : c.ahead ≠ []) {close : TokenKind} (hk : close ≠ .eof) :
    LedAt (Alike id) n (bracketed inner close) (bracketed inner' close) c :=
  ((LedAt.take hc).append fun _ => .choose (settled_isAt _) (fun _ => .skip) fun _ =>
    steady_expressions h).required hk

theorem led_primary : LedAt (Alike id) n (primary inner) (primary inner') c := by
  refine .look fun d hd => ?_
  rw [← settled_kind c d hd]
  split
  · rename_i hl
    exact (LedAt.take (ahead_ne_nil fun hk => by simp [hk, TokenKind.isLiteral] at hl)).node _
  split
  · rename_i hn
    exact (LedAt.take (ahead_of_isName hn)).node _
  split
  · rename_i hk
    exact (((LedAt.take (ahead_ne_nil (by simp [hk]))).append (h _ _)).append fun _ =>
      steady_require (by decide)).node _
  · rename_i hk
    exact (led_bracketed h (ahead_ne_nil (by simp [hk])) (by decide)).node _
  · exact .report_append _

theorem led_suffix {k : NodeKind} (hk : follower c = some k) :
    LedAt (Alike id) n (suffix inner) (suffix inner') c := by
  have hc : c.ahead ≠ [] := ahead_ne_nil fun he => by simp [follower, he] at hk
  have hs (missing : Problem) : LedAt (Alike id) n (selector missing) (selector missing) c :=
    (LedAt.take hc).append fun d => .choose (settled_of fun _ ls => by cases ls <;> rfl)
      (fun hd => (firm_name (ahead_ne_nil fun he => by
        simp [he, TokenKind.isName, TokenKind.isKeyword] at hd)).steady) fun _ => .report _
  refine .look fun d hd => ?_
  rw [← settled_kind c d hd]
  split
  · exact hs _
  · exact hs _
  · exact (led_bracketed h hc (by decide)).node _
  · exact (led_bracketed h hc (by decide)).node _

theorem led_operand (allowIn : Bool) :
    LedAt (Alike id) n (operand inner allowIn) (operand inner' allowIn) c := by
  refine .look fun d hd => ?_
  rw [← settled_kind c d hd]
  split
  · rename_i r hr
    have hc : c.ahead ≠ [] := ahead_ne_nil fun he => by simp [he, TokenKind.unaryPower?] at hr
    exact ((LedAt.take hc).append (h _ _)).node _
  · exact .grow settled_follower (fun d k hk => ahead_ne_nil fun he => by simp [follower, he] at hk)
      (led_primary h) (fun _ => single_primary) (fun _ => single_primary)
      fun d k hk => led_suffix h hk

omit h in
theorem single_operand {allowIn : Bool} (hn : ((operand inner allowIn).read c).problems = []) :
    ((operand inner allowIn).read c).single = true := by
  rw [operand, read_look] at hn ⊢
  split
  · rfl
  · rename_i hu
    simp only [hu, read_grow] at hn ⊢
    split
    · rename_i hs
      exact single_grown hs
    · rename_i hs
      rw [if_neg hs] at hn
      exact single_primary hn

theorem led_expressionStep (allowIn : Bool) (power : Nat) :
    LedAt (Alike id) n (expressionStep inner allowIn power) (expressionStep inner' allowIn power) c := by
  have hc {d : Cursor} {k : NodeKind} (hk : operator allowIn power d = some k) : d.ahead ≠ [] :=
    ahead_ne_nil fun he => by simp [operator, he, TokenKind.powers?] at hk
  refine .grow (settled_operator _ _) (fun d k hk => hc hk) (led_operand h _)
    (fun _ => single_operand) (fun _ => single_operand) fun d k hk => .look fun e he => ?_
  rw [← settled_kind d e he]
  exact (LedAt.take (hc hk)).append (h _ _)

end Expression

/-- The bounds on the depth do not matter where they are not less than the number of lexemes. -/
theorem steady_expressionUpTo {m m' : Nat} (hm : n ≤ m) (hm' : n ≤ m') :
    InnerSteady n (expressionUpTo m) (expressionUpTo m') := by
  induction n generalizing m m' with
  | zero => exact fun _ _ _ _ hl => absurd hl (Nat.not_lt_zero _)
  | succ n ih =>
      intro allowIn power c
      obtain ⟨m, rfl⟩ := Nat.exists_eq_add_of_le' hm
      obtain ⟨m', rfl⟩ := Nat.exists_eq_add_of_le' hm'
      exact .look fun _ _ => (led_expressionStep (ih (Nat.le_add_left ..) (Nat.le_add_left ..)) _ _).steady

theorem opens_expressionUpTo {m : Nat} {allowIn : Bool} {power : Nat}
    (hn : ((expressionUpTo (m + 1) allowIn power).read c).problems = []) :
    (expressionUpTo (m + 1) allowIn power).Opens c :=
  .look ((led_expressionStep (steady_expressionUpTo (Nat.zero_le m) (Nat.zero_le m)) _ _).opens hn)

theorem led_expression : LedAt (Alike id) n expression expression c :=
  ⟨.look_length fun _ _ _ hm hm' => steady_expressionUpTo hm hm' _ _ _,
    fun hn => .look (opens_expressionUpTo hn)⟩

theorem led_expressionWithoutIn :
    LedAt (Alike id) n expressionWithoutIn expressionWithoutIn c :=
  ⟨.look_length fun _ _ _ hm hm' => steady_expressionUpTo hm hm' _ _ _,
    fun hn => .look (opens_expressionUpTo hn)⟩

theorem steady_expression (c : Cursor) : SteadyAt (Alike id) n expression expression c :=
  led_expression.steady.of_le (Nat.le_succ n)

/-! ## Statements -/

/-- Inner statements are steady where they read fewer than a number of lexemes. -/
def InnerLed (n : Nat) (p p' : Production) : Prop :=
  ∀ c, c.ahead ≠ [] → SteadyAt (Alike id) n p p' c ∧
    (0 < n → (p.read c).problems = [] → leavesOf (p.read c).made ≠ [])

theorem steady_separator : SteadyAt (Alike id) n separator separator c :=
  .choose (settled_isAt _) (fun h => .take (ahead_of_isAt h nofun)) fun _ =>
    .choose (settled_of fun _ ls => by cases ls <;> rfl) (fun _ => .skip) fun _ => .report_append _

section Statement

variable {inner inner' : Production} (h : InnerLed n inner inner')
include h

/-- What is reached at no bound is steady. -/
theorem steady_statements (close : TokenKind) :
    SteadyAt (Alike id) n (statements inner close) (statements inner' close) c := by
  refine .of_pos fun hn => .whileAt (settled_of fun _ ls => by cases ls <;> rfl) ?_ ?_
  all_goals
    intro d hd
    have ha : d.ahead ≠ [] := fun ha => by simp [Cursor.atEnd, ha] at hd
  · exact ha
  · exact ⟨(h d ha).1, (h d ha).2 hn⟩

theorem steady_controlled : SteadyAt (Alike id) n (controlled inner) (controlled inner') c :=
  .choose (settled_of fun _ ls => by cases ls <;> rfl) (fun _ => .skip) fun hd =>
    (h c fun ha => by simp [Cursor.atEnd, ha] at hd).1

theorem led_caseLine : LedAt (Alike id) n (caseLine inner) (caseLine inner') c := by
  have hv (d : Cursor) : SteadyAt (Alike id) n (whileAt (·.isAt .comma) (take ++ expression))
      (whileAt (·.isAt .comma) (take ++ expression)) d := by
    refine .whileAt (settled_isAt _) (fun e he => ahead_of_isAt he nofun) fun e he => ?_
    have hl := (LedAt.take (n := n) (ahead_of_isAt he nofun)).append steady_expression
    exact ⟨hl.steady.of_le (Nat.le_succ n), hl.reads⟩
  exact (((led_expression.append hv).required (by decide)).append
    fun _ => steady_controlled h).node _

theorem steady_elseClause : SteadyAt (Alike id) n
    (choose (·.isAt .kwElse) (node NodeKind.elseClause (take ++ controlled inner)) skip)
    (choose (·.isAt .kwElse) (node NodeKind.elseClause (take ++ controlled inner')) skip) c :=
  .choose (settled_isAt _) (fun hk => ((LedAt.take (ahead_of_isAt hk nofun)).append
    fun _ => steady_controlled h).node _ |>.steady.of_le (Nat.le_succ n)) fun _ => .skip

theorem steady_caseElse : SteadyAt (Alike id) n
    (choose (·.isAt .kwElse) (node NodeKind.caseElse (take ++ statements inner .kwEnd)) skip)
    (choose (·.isAt .kwElse) (node NodeKind.caseElse (take ++ statements inner' .kwEnd)) skip) c :=
  .choose (settled_isAt _) (fun hk => ((LedAt.take (ahead_of_isAt hk nofun)).append
    fun _ => steady_statements h _).node _ |>.steady.of_le (Nat.le_succ n)) fun _ => .skip

theorem steady_caseLines : SteadyAt (Alike id) n
    (whileAt (fun c => !(c.atEnd || c.atAny [.kwEnd, .kwElse, .kwUntil] || c.atMember))
      (caseLine inner))
    (whileAt (fun c => !(c.atEnd || c.atAny [.kwEnd, .kwElse, .kwUntil] || c.atMember))
      (caseLine inner')) c := by
  refine .whileAt (settled_of fun _ ls => by cases ls <;> rfl) (fun d hd ha => ?_) fun d _ =>
    ⟨(led_caseLine h).steady.of_le (Nat.le_succ n), (led_caseLine h).reads⟩
  simp [Cursor.atEnd, ha] at hd

/-! ### The forms of statements -/

variable (hc : c.ahead ≠ [])
include hc

theorem led_blockBody : LedAt (Alike id) n (blockBody inner) (blockBody inner') c :=
  ((LedAt.take hc).append fun _ => steady_statements h _).required (by decide)

theorem led_ifStatement : LedAt (Alike id) n (ifStatement inner) (ifStatement inner') c :=
  (((((LedAt.take hc).append steady_expression).required (by decide)).append
    fun _ => steady_controlled h).append fun _ => steady_elseClause h).node _

theorem led_caseStatement : LedAt (Alike id) n (caseStatement inner) (caseStatement inner') c :=
  (((((((LedAt.take hc).append steady_expression).required (by decide)).append
    fun _ => steady_caseLines h).append fun _ => steady_caseElse h).required (by decide)).append
    fun _ => steady_separator).node _

theorem led_guarded (kind : NodeKind) :
    LedAt (Alike id) n (guarded kind inner) (guarded kind inner') c :=
  ((((LedAt.take hc).append steady_expression).required (by decide)).append
    fun _ => steady_controlled h).node _

theorem led_repeatStatement :
    LedAt (Alike id) n (repeatStatement inner) (repeatStatement inner') c :=
  ((((LedAt.take hc).append fun _ => steady_statements h _).append fun _ =>
    .requireThen (by decide) (settled_isAt _) steady_expression).append fun _ => steady_separator).node _

theorem led_forStatement : LedAt (Alike id) n (forStatement inner) (forStatement inner') c := by
  have ht (d : Cursor) : SteadyAt (Alike id) n
      (choose (·.atAny [.kwTo, .kwDownTo]) (take ++ expression) (report .missingToOrDownTo))
      (choose (·.atAny [.kwTo, .kwDownTo]) (take ++ expression) (report .missingToOrDownTo)) d :=
    .choose (settled_atAny _) (fun hd => ((LedAt.take (ahead_ne_nil fun hk => by
      simp [Cursor.atAny, hk] at hd)).append steady_expression).steady.of_le (Nat.le_succ n))
      fun _ => .report _
  exact ((((((LedAt.take hc).append steady_expression).append fun _ =>
    .requireThen (by decide) (settled_isAt _) steady_expression).append ht).required (by decide)).append
    fun _ => steady_controlled h).node _

theorem led_forEachStatement :
    LedAt (Alike id) n (forEachStatement inner) (forEachStatement inner') c :=
  (((((LedAt.take hc).append fun _ => led_expressionWithoutIn.steady.of_le (Nat.le_succ n)).append
    fun _ => .requireThen (by decide) (settled_isAt _) steady_expression).required (by decide)).append
    fun _ => steady_controlled h).node _

omit h in
theorem led_exitStatement : LedAt (Alike id) n exitStatement exitStatement c :=
  (((LedAt.take hc).append fun _ => .takeThen (by decide) (settled_isAt _) fun _ =>
    .append (.choose (settled_isAt _) (fun _ => .skip) fun _ => steady_expression _)
      (steady_require (by decide))).append fun _ => steady_separator).node _

omit h hc in
theorem led_assignmentOrCall : LedAt (Alike id) n assignmentOrCall assignmentOrCall c := by
  refine .mark (settled_of fun _ ls => by cases ls <;> rfl) led_expression ?_
  refine .append (.choose (settled_of fun _ ls => by cases ls <;> rfl) (fun ha => ?_) fun _ => .skip)
    steady_separator
  exact ((LedAt.take (ahead_ne_nil fun hk => by simp [hk, TokenKind.isAssignment] at ha)).append
    steady_expression).steady

theorem led_statementStep : LedAt (Alike id) n (statementStep inner) (statementStep inner') c := by
  refine .look fun d hd => ?_
  rw [← settled_kind c d hd]
  split
  · exact ((led_blockBody h hc).append fun _ => steady_separator).node _
  · exact led_ifStatement h hc
  · exact led_caseStatement h hc
  · exact led_guarded h hc _
  · exact led_guarded h hc _
  · exact led_repeatStatement h hc
  · exact led_forStatement h hc
  · exact led_forEachStatement h hc
  · exact led_exitStatement hc
  · exact (LedAt.take hc).node _
  · split
    · exact led_assignmentOrCall
    · exact .report_append _

end Statement

theorem innerLed_statementUpTo {m m' : Nat} (hm : n ≤ m) (hm' : n ≤ m') :
    InnerLed n (statementUpTo m) (statementUpTo m') := by
  induction n generalizing m m' with
  | zero =>
      exact fun _ _ => ⟨fun _ hl => absurd hl (Nat.not_lt_zero _),
        fun hn => absurd hn (Nat.lt_irrefl 0)⟩
  | succ n ih =>
      intro c hc
      obtain ⟨m, rfl⟩ := Nat.exists_eq_add_of_le' hm
      obtain ⟨m', rfl⟩ := Nat.exists_eq_add_of_le' hm'
      have hs := led_statementStep (ih (Nat.le_add_left n m) (Nat.le_add_left n m')) hc
      exact ⟨.look fun _ _ => hs.steady, fun _ => hs.reads⟩

theorem innerLed_statement : InnerLed n statement statement := fun c hc =>
  ⟨.look_length fun _ _ _ hm hm' => (innerLed_statementUpTo hm hm' c hc).1,
    fun _ => (innerLed_statementUpTo (Nat.succ_pos c.ahead.length) (Nat.le_refl 1) c hc).2 Nat.one_pos⟩

theorem led_block (hc : c.ahead ≠ []) : LedAt (Alike id) n block block c :=
  (led_blockBody innerLed_statement hc).node _

end AlRefactor.Grammar
