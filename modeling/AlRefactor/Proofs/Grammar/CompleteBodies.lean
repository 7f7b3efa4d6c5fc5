import AlRefactor.Proofs.Grammar.CompleteExpressions

/-!
# Every written-out body is read back

The productions make each tree of a statement of its own lexemes, at any depth that the number of
these lexemes leaves room for, and so they make the file around a body.
-/

namespace AlRefactor

open AlRefactor.Tree

namespace TokenKind

/-- A statement can start with the token. -/
def starts (k : TokenKind) : Bool := k.canStartExpression || k.canStartStatement

end TokenKind

namespace Tree

theorem Statement.head {t : Tree} (h : Statement t) :
    ∃ l ls, t.leaves = l :: ls ∧ l.kind.starts := by
  cases h with
  | call h | assignment h =>
      obtain ⟨l, ls, hl, hs, -⟩ := h.head
      exact ⟨l, _, by rw [leaves, leavesOf, hl]; rfl, by rw [TokenKind.starts, hs]; rfl⟩
  | _ => exact ⟨_, _, rfl, rfl⟩

theorem Statement.begins {d : Tree} (h : Statement d) (hk : d.kind = NodeKind.block) :
    ∃ b ls, d.leaves = ⟨.kwBegin, b⟩ :: ls := by
  cases h with
  | block => exact ⟨_, _, rfl⟩
  | @assignment o =>
      have hk : (NodeKind.block) = Tree.assignment o.kind := (Kind.node.inj hk).symm
      rw [Tree.assignment] at hk
      split at hk <;> cases hk
  | _ => cases hk

end Tree

namespace Grammar

open Production

/-! ## Parts of statements -/

/-- The statement is read back in front of everything, but a conditional one not in front of
`else`. -/
def ReadsStatement (p : Production) (t : Tree) : Prop :=
  ∀ rest, (t.kind = NodeKind.ifStatement → firstKind rest ≠ .kwElse) → p.Reads [t] rest

theorem reads_before {x : Tree} (h : Expression x) {k : TokenKind} (hk : k.Ends 0) (c : Text)
    (rest : List Lexeme) : expression.Reads [x] (⟨k, c⟩ :: rest) :=
  reads_expression h hk

theorem reads_separator (rest : List Lexeme) : separator.Reads [semicolon] rest :=
  .choose_true (fun _ => rfl) (reads_take _ _)

/-- Neither the end of a list of statements nor a member starts as a statement does. -/
theorem starts_goes_on {k : TokenKind} (h : k.starts) :
    k ∉ [TokenKind.kwElse, .kwEnd, .kwUntil] ∧
      ∀ n l ls, l.kind = k → (⟨n, l :: ls⟩ : Cursor).atMember = false := by
  constructor
  · revert h; cases k <;> decide
  · intro n l ls hl
    simp only [Cursor.atMember, Cursor.kind_mk, firstKind_cons, hl]
    revert h; cases k <;> decide

variable {inner : Production} {ss : List Tree}

theorem reads_statements {k : TokenKind} (hk : k ∈ [TokenKind.kwEnd, .kwUntil])
    (hs : ∀ s ∈ ss, Statement s) (hi : ∀ s ∈ ss, ReadsStatement inner s) (c : Text)
    (rest : List Lexeme) : (statements inner k).Reads ss (⟨k, c⟩ :: rest) := by
  have hne : k ≠ .kwElse := by rintro rfl; revert hk; decide
  refine Repeats.reads (Repeats.each (fun ls => firstKind ls ≠ .kwElse) hne (fun n => ?_) ?_)
  · simp [Cursor.isAt]
  · intro s hm more hmore
    obtain ⟨l, ls, hl, hst⟩ := (hs s hm).head
    obtain ⟨hns, hnm⟩ := starts_goes_on hst
    rw [hl]
    refine ⟨fun he => hns (by rw [List.cons_append, firstKind_cons] at he; simp [he]),
      List.cons_ne_nil _ _, fun n => ?_,
      hi s hm more fun _ => hmore⟩
    have hlk : l.kind ≠ k := by rintro rfl; revert hk hns; cases l.kind <;> decide
    simp [Cursor.atEnd, Cursor.isAt, hnm n l _ rfl, hlk]

theorem reads_controlled {d : Tree} (hd : Statement d) (hb : d.kind = NodeKind.block)
    (hi : ReadsStatement inner d) (rest : List Lexeme) : (controlled inner).Reads [d] rest := by
  obtain ⟨b, ls, hl⟩ := hd.begins hb
  refine .choose_false (fun n => ?_) (hi rest fun hk => by rw [hb] at hk; cases hk)
  rw [leavesOf, leavesOf, List.append_nil, hl]
  rfl

/-! ## Blocks -/

theorem reads_blockBody {b e : Text} (hs : ∀ s ∈ ss, Statement s)
    (hi : ∀ s ∈ ss, ReadsStatement inner s) (rest : List Lexeme) :
    (blockBody inner).Reads (.leaf ⟨.kwBegin, b⟩ :: ss ++ [.leaf ⟨.kwEnd, e⟩]) rest :=
  ((reads_statements (by decide) hs hi e rest).take_append _).append_require

theorem reads_separatedBlock {b e : Text} (hs : ∀ s ∈ ss, Statement s)
    (hi : ∀ s ∈ ss, ReadsStatement inner s) (rest : List Lexeme) :
    (statementStep inner).Reads [separatedBlock b ss e] rest := by
  have h := (reads_blockBody (b := b) (e := e) hs hi (⟨.semicolon, [';']⟩ :: rest)).append
    (reads_separator rest)
  rw [List.append_assoc] at h
  exact .look fun _ => h.node _

/-- In front of `else` a block needs no semicolon. -/
theorem reads_block {b e l : Text} (hs : ∀ s ∈ ss, Statement s)
    (hi : ∀ s ∈ ss, ReadsStatement inner s) (rest : List Lexeme) :
    (statementStep inner).Reads [.block b ss e] (⟨.kwElse, l⟩ :: rest) := by
  have hsep : separator.Reads [] (⟨.kwElse, l⟩ :: rest) :=
    .choose_false (fun _ => rfl) (.choose_true (fun _ => rfl) (reads_skip _))
  have h := (reads_blockBody (b := b) (e := e) hs hi (⟨.kwElse, l⟩ :: rest)).append hsep
  rw [List.append_nil] at h
  exact .look fun _ => h.node _

/-! ## Statements over expressions -/

/-- What starts as an expression does is an expression statement or an assignment. -/
theorem reads_assignmentOrCall {ts : List Tree} {rest : List Lexeme} {l : Lexeme} {ls : List Lexeme}
    (hl : leavesOf ts = l :: ls) (hs : l.kind.canStartExpression)
    (h : assignmentOrCall.Reads ts rest) : (statementStep inner).Reads ts rest := by
  refine .look fun n => ?_
  rw [hl, List.cons_append, Cursor.kind_mk, firstKind_cons]
  revert hs
  cases l.kind <;> simp [TokenKind.canStartExpression, TokenKind.isName, TokenKind.isLiteral, h]

theorem reads_call {x : Tree} (hx : Expression x) (rest : List Lexeme) :
    (statementStep inner).Reads [.node NodeKind.expressionStatement [x, semicolon]] rest := by
  obtain ⟨l, ls, hl, hs, -⟩ := hx.head
  refine reads_assignmentOrCall (l := l) (by simp [leavesOf, leaves, hl]; rfl) hs ?_
  have hn : (choose (·.kind.isAssignment) (take ++ expression) skip).Reads []
      (⟨.semicolon, [';']⟩ :: rest) := .choose_false (fun _ => rfl) (reads_skip _)
  have hx := reads_before hx (k := .semicolon) (by decide) [';'] rest
  refine Reads.mark hx (fun _ => ?_) (hn.append (reads_separator rest))
  rfl

theorem reads_assignment {o : Lexeme} {x y : Tree} (hx : Expression x) (ho : o.kind.isAssignment)
    (hy : Expression y) (rest : List Lexeme) :
    (statementStep inner).Reads [.node (assignment o.kind) [x, .leaf o, y, semicolon]] rest := by
  obtain ⟨l, ls, hl, hs, -⟩ := hx.head
  refine reads_assignmentOrCall (l := l) (by simp [leavesOf, leaves, hl]; rfl) hs ?_
  have he : o.kind.Ends 0 := by revert ho; cases o.kind <;> decide
  have hr : expression.Reads [x] (leavesOf [.leaf o, y, semicolon] ++ rest) := reads_expression hx he
  have hr' := reads_before hy (k := .semicolon) (by decide) [';'] rest
  have hq : (choose (·.kind.isAssignment) (take ++ expression) skip ++ separator).Reads
      [.leaf o, y, semicolon] rest :=
    (Reads.choose_true (fun _ => ho) (hr'.take_append o)).append (reads_separator rest)
  refine hr.mark (fun n => ?_) hq
  have hk : (⟨n, leavesOf [.leaf o, y, semicolon] ++ rest⟩ : Cursor).kind = o.kind := rfl
  simp only [Cursor.isAt, hk, beq_iff_eq, ho, if_true, assignment]
  split <;> rfl

theorem reads_exit (e : Text) (rest : List Lexeme) : (statementStep inner).Reads
    [.node NodeKind.exitStatement [.leaf ⟨.kwExit, e⟩, semicolon]] rest := by
  have hn : (takeThen .lParen (choose (·.isAt .rParen) skip expression ++ require .rParen)).Reads []
      (⟨.semicolon, [';']⟩ :: rest) := .choose_false (fun _ => rfl) (reads_skip _)
  have h := (hn.take_append ⟨.kwExit, e⟩).append (reads_separator rest)
  exact .look fun _ => h.node _

theorem reads_exitWithout (e : Text) (rest : List Lexeme) : (statementStep inner).Reads
    [.node NodeKind.exitStatement
      [.leaf ⟨.kwExit, e⟩, .leaf ⟨.lParen, ['(']⟩, .leaf ⟨.rParen, [')']⟩, semicolon]] rest := by
  have hn : (choose (·.isAt .rParen) skip expression).Reads []
      (⟨.rParen, [')']⟩ :: ⟨.semicolon, [';']⟩ :: rest) :=
    .choose_true (fun _ => rfl) (reads_skip _)
  have ha : (takeThen .lParen (choose (·.isAt .rParen) skip expression ++ require .rParen)).Reads
      [.leaf ⟨.lParen, ['(']⟩, .leaf ⟨.rParen, [')']⟩] (⟨.semicolon, [';']⟩ :: rest) :=
    .choose_true (fun _ => rfl) (hn.append_require.take_append _)
  have h := (ha.take_append ⟨.kwExit, e⟩).append (reads_separator rest)
  exact .look fun _ => h.node _

theorem reads_exitWith (e : Text) {x : Tree} (hx : Expression x) (rest : List Lexeme) :
    (statementStep inner).Reads
      [.node NodeKind.exitStatement
        [.leaf ⟨.kwExit, e⟩, .leaf ⟨.lParen, ['(']⟩, x, .leaf ⟨.rParen, [')']⟩, semicolon]] rest := by
  obtain ⟨l, ls, hl, hs, -⟩ := hx.head
  have hx := reads_before hx (k := .rParen) (by decide) [')'] (⟨.semicolon, [';']⟩ :: rest)
  have hn : (choose (·.isAt .rParen) skip expression).Reads [x]
      (⟨.rParen, [')']⟩ :: ⟨.semicolon, [';']⟩ :: rest) := by
    refine .choose_false (fun _ => ?_) hx
    rw [leavesOf, hl]
    exact beq_false_of_ne (ne_of_start hs rfl)
  have ha : (takeThen .lParen (choose (·.isAt .rParen) skip expression ++ require .rParen)).Reads
      [.leaf ⟨.lParen, ['(']⟩, x, .leaf ⟨.rParen, [')']⟩] (⟨.semicolon, [';']⟩ :: rest) :=
    .choose_true (fun _ => rfl) (hn.append_require.take_append _)
  have h := (ha.take_append ⟨.kwExit, e⟩).append (reads_separator rest)
  exact .look fun _ => h.node _

/-! ## Statements over statements -/

variable {d : Tree} {rest : List Lexeme}

theorem reads_guarded (k : NodeKind) (l : Lexeme) {o : Text} {x : Tree} (hx : Expression x)
    (hd : (controlled inner).Reads [d] rest) :
    (guarded k inner).Reads [.node k [.leaf l, x, .leaf ⟨.kwDo, o⟩, d]] rest := by
  have hx := reads_before hx (k := .kwDo) (by decide) o (leavesOf [d] ++ rest)
  have h := ((hx.take_append l).append_require).append hd
  exact h.node _

theorem reads_ifThen {i t : Text} {x : Tree} (hx : Expression x)
    (hd : (controlled inner).Reads [d] rest) (hr : firstKind rest ≠ .kwElse) :
    (ifStatement inner).Reads
      [.node NodeKind.ifStatement [.leaf ⟨.kwIf, i⟩, x, .leaf ⟨.kwThen, t⟩, d]] rest := by
  have hx := reads_before hx (k := .kwThen) (by decide) t (leavesOf [d] ++ rest)
  have hn : (choose (·.isAt .kwElse) (.node NodeKind.elseClause (take ++ controlled inner)) skip).Reads
      [] rest := .choose_false (fun _ => beq_false_of_ne (by simpa [leavesOf] using hr)) (reads_skip rest)
  have h := (((hx.take_append ⟨.kwIf, i⟩).append_require).append hd).append hn
  exact h.node _

theorem reads_ifElse {i t l : Text} {x c : Tree} (hx : Expression x)
    (hc : ∀ ls, (controlled inner).Reads [c] (⟨.kwElse, l⟩ :: ls))
    (hd : (controlled inner).Reads [d] rest) :
    (ifStatement inner).Reads
      [.node NodeKind.ifStatement [.leaf ⟨.kwIf, i⟩, x, .leaf ⟨.kwThen, t⟩, c,
        .node NodeKind.elseClause [.leaf ⟨.kwElse, l⟩, d]]] rest := by
  have hx := reads_before hx (k := .kwThen) (by decide) t
    (leavesOf [c] ++ (leavesOf [.node NodeKind.elseClause [.leaf ⟨.kwElse, l⟩, d]] ++ rest))
  have he : (choose (·.isAt .kwElse) (.node NodeKind.elseClause (take ++ controlled inner)) skip).Reads
      [.node NodeKind.elseClause [.leaf ⟨.kwElse, l⟩, d]] rest :=
    .choose_true (fun _ => rfl) ((hd.take_append _).node _)
  have h := (((hx.take_append ⟨.kwIf, i⟩).append_require).append (hc _)).append he
  exact h.node _

theorem reads_repeatUntil {r u : Text} {x : Tree} (hs : ∀ s ∈ ss, Statement s)
    (hi : ∀ s ∈ ss, ReadsStatement inner s) (hx : Expression x) (rest : List Lexeme) :
    (repeatStatement inner).Reads [.node NodeKind.repeatStatement
      (.leaf ⟨.kwRepeat, r⟩ :: ss ++ [.leaf ⟨.kwUntil, u⟩, x, semicolon])] rest := by
  have hx := (reads_before hx (k := .semicolon) (by decide) [';'] rest).requireThen .kwUntil u
  have hb := reads_statements (k := .kwUntil) (by decide) hs hi u
    (leavesOf [x] ++ ⟨.semicolon, [';']⟩ :: rest)
  have h := ((hb.take_append ⟨.kwRepeat, r⟩).append hx).append (reads_separator rest)
  rw [List.append_assoc] at h
  exact h.node _

theorem reads_forTo {f o : Text} {t : Lexeme} {x y z : Tree} (hx : Expression x) (hy : Expression y)
    (ht : t.kind = .kwTo ∨ t.kind = .kwDownTo) (hz : Expression z)
    (hd : (controlled inner).Reads [d] rest) :
    (forStatement inner).Reads
      [.node NodeKind.forStatement [.leaf ⟨.kwFor, f⟩, x, .leaf ⟨.assign, [':', '=']⟩, y, .leaf t, z,
        .leaf ⟨.kwDo, o⟩, d]] rest := by
  have hz := reads_before hz (k := .kwDo) (by decide) o (leavesOf [d] ++ rest)
  have hto : (choose (·.atAny [.kwTo, .kwDownTo]) (take ++ expression)
      (report .missingToOrDownTo)).Reads [.leaf t, z] (⟨.kwDo, o⟩ :: (leavesOf [d] ++ rest)) :=
    .choose_true (fun _ => by rcases ht with ht | ht <;> simp [Cursor.atAny, leavesOf, leaves, ht])
      (hz.take_append t)
  have hte : t.kind.Ends 0 := by rcases ht with ht | ht <;> rw [ht] <;> decide
  have hy : expression.Reads [y] (leavesOf [.leaf t, z] ++ ⟨.kwDo, o⟩ :: (leavesOf [d] ++ rest)) :=
    reads_expression hy hte
  have hx := reads_before hx (k := .assign) (by decide) [':', '=']
    (leavesOf [y] ++ (leavesOf [.leaf t, z] ++ ⟨.kwDo, o⟩ :: (leavesOf [d] ++ rest)))
  have h := ((((hx.take_append ⟨.kwFor, f⟩).append (hy.requireThen .assign [':', '='])).append
    hto).append_require).append hd
  exact h.node _

theorem reads_forEach {f i o : Text} {l : Lexeme} {x : Tree} (hl : l.kind.isName)
    (hx : Expression x) (hd : (controlled inner).Reads [d] rest) :
    (forEachStatement inner).Reads
      [.node NodeKind.forEachStatement
        [.leaf ⟨.kwForEach, f⟩, .identifier l, .leaf ⟨.kwIn, i⟩, x, .leaf ⟨.kwDo, o⟩, d]] rest := by
  have hx := (reads_before hx (k := .kwDo) (by decide) o (leavesOf [d] ++ rest)).requireThen .kwIn i
  have hn := reads_expressionWithoutIn hl i (leavesOf [x] ++ ⟨.kwDo, o⟩ :: (leavesOf [d] ++ rest))
  have h := (((hn.take_append ⟨.kwForEach, f⟩).append hx).append_require).append hd
  exact h.node _

/-! ## Case statements -/

/-- The values and the block of a case line are fine. -/
structure Sound (inner : Production) (c : Case) : Prop where
  value : Expression c.value
  further : ∀ v ∈ c.further, Expression v
  body : Statement c.body
  block : c.body.kind = NodeKind.block
  reads : ReadsStatement inner c.body

theorem reads_caseLine {c : Case} (h : Sound inner c) (rest : List Lexeme) :
    (caseLine inner).Reads [c.tree] rest := by
  have hd := reads_controlled h.body h.block h.reads rest
  have he : TokenKind.colon.Ends 0 := by decide
  have hvs : ReadsExpressions expression (c.value :: c.further) := fun v hv _ he =>
    (List.mem_cons.mp hv).elim (fun hv => reads_expression (hv ▸ h.value) he)
      fun hv => reads_expression (h.further v hv) he
  have hv : (expression ++ whileAt (·.isAt .comma) (take ++ expression)).Reads
      (commaSeparated (c.value :: c.further)) (⟨.colon, [':']⟩ :: (leavesOf [c.body] ++ rest)) :=
    reads_commaSeparated hvs he nofun
  have h := hv.append_require.append hd
  rw [List.append_assoc] at h
  exact h.node _

theorem reads_caseLines {cases : List Case} (h : ∀ c ∈ cases, Sound inner c)
    (hr : firstKind rest ∈ [TokenKind.kwEnd, .kwElse]) :
    (whileAt (fun c => !(c.atEnd || c.atAny [.kwEnd, .kwElse, .kwUntil] || c.atMember))
      (caseLine inner)).Reads (cases.map Case.tree) rest := by
  refine Repeats.reads (Repeats.each (fun _ => True) trivial (fun n => ?_) ?_)
  · simp only [List.mem_cons, List.not_mem_nil, or_false] at hr
    rcases hr with hr | hr <;> simp [Cursor.atAny, hr]
  · intro t ht more _
    obtain ⟨c, hc, rfl⟩ := List.mem_map.mp ht
    obtain ⟨l, ls, hl, hs, -⟩ := (h c hc).value.head
    have hl : c.tree.leaves = l :: (ls ++ leavesOf (afterCommas c.further) ++
        leavesOf [.leaf ⟨.colon, [':']⟩, c.body]) := by
      simp [Case.tree, leaves, leavesOf, commaSeparated, hl]
    obtain ⟨hns, hnm⟩ := starts_goes_on (k := l.kind) (by rw [TokenKind.starts, hs]; rfl)
    refine ⟨trivial, by rw [hl]; exact List.cons_ne_nil _ _, fun n => ?_, reads_caseLine (h c hc) more⟩
    simp only [List.mem_cons, List.not_mem_nil, or_false, not_or] at hns
    simp [hl, Cursor.atEnd, Cursor.atAny, hnm n l _ rfl, hns]

theorem reads_caseStatement {c o e : Text} {x : Tree} {cases : List Case} {us : List Tree}
    (hx : Expression x) (h : ∀ c ∈ cases, Sound inner c)
    (hk : firstKind (leavesOf us ++ ⟨.kwEnd, e⟩ :: ⟨.semicolon, [';']⟩ :: rest) ∈
      [TokenKind.kwEnd, .kwElse])
    (hu : (choose (·.isAt .kwElse)
        (.node NodeKind.caseElse (take ++ statements inner .kwEnd)) skip).Reads us
      (⟨.kwEnd, e⟩ :: ⟨.semicolon, [';']⟩ :: rest)) :
    (caseStatement inner).Reads [.node NodeKind.caseStatement
      (caseStart c o x cases ++ us ++ [.leaf ⟨.kwEnd, e⟩, semicolon])] rest := by
  have hx := reads_before hx (k := .kwOf) (by decide) o (leavesOf (cases.map Case.tree) ++
    (leavesOf us ++ ⟨.kwEnd, e⟩ :: ⟨.semicolon, [';']⟩ :: rest))
  have hs := ((hx.take_append ⟨.kwCase, c⟩).append_require).append (reads_caseLines h hk)
  have h := ((hs.append hu).append_require).append (reads_separator rest)
  rw [List.append_assoc] at h
  exact h.node _

theorem reads_caseOf {c o e : Text} {x : Tree} {cases : List Case} (hx : Expression x)
    (h : ∀ c ∈ cases, Sound inner c) (rest : List Lexeme) :
    (caseStatement inner).Reads [.node NodeKind.caseStatement
      (caseStart c o x cases ++ [.leaf ⟨.kwEnd, e⟩, semicolon])] rest := by
  have hn : (choose (·.isAt .kwElse)
      (.node NodeKind.caseElse (take ++ statements inner .kwEnd)) skip).Reads []
      (⟨.kwEnd, e⟩ :: ⟨.semicolon, [';']⟩ :: rest) := .choose_false (fun _ => rfl) (reads_skip _)
  have h := reads_caseStatement (c := c) (o := o) hx h (List.mem_cons_self ..) hn
  rwa [List.append_nil] at h

theorem reads_caseElse {c o l e : Text} {x : Tree} {cases : List Case} (hx : Expression x)
    (h : ∀ c ∈ cases, Sound inner c) (hs : ∀ s ∈ ss, Statement s)
    (hi : ∀ s ∈ ss, ReadsStatement inner s) (rest : List Lexeme) :
    (caseStatement inner).Reads [.node NodeKind.caseStatement
      (caseStart c o x cases ++
        [.node NodeKind.caseElse (.leaf ⟨.kwElse, l⟩ :: ss), .leaf ⟨.kwEnd, e⟩, semicolon])]
      rest := by
  have hu := (reads_statements (k := .kwEnd) (by decide) hs hi e
    (⟨.semicolon, [';']⟩ :: rest)).take_append ⟨.kwElse, l⟩
  have h := reads_caseStatement (c := c) (o := o) hx h
    (List.mem_cons_of_mem _ (List.mem_cons_self ..))
    (.choose_true (fun _ => rfl) (hu.node NodeKind.caseElse))
  rwa [List.append_assoc] at h

/-! ## Statements and bodies -/

theorem readsStatement_of_step {t : Tree}
    (h : ∀ n, t.leaves.length ≤ n → ReadsStatement (statementStep (statementUpTo n)) t) :
    ∀ n, t.leaves.length < n → ReadsStatement (statementUpTo n) t
  | 0, hn => absurd hn (Nat.not_lt_zero _)
  | n + 1, hn => fun rest hr => .look fun _ => h n (Nat.le_of_lt_succ hn) rest hr

theorem length_leaves_lt {k : Kind} {l : Lexeme} {ts : List Tree} {t : Tree} {n : Nat} (h : t ∈ ts)
    (hn : (Tree.node k (.leaf l :: ts)).leaves.length ≤ n) : t.leaves.length < n := by
  have := length_leaves_le h
  rw [leaves, leavesOf, leaves, List.length_append, List.length_singleton] at hn
  omega

theorem reads_controlled_block {b e l : Text} {n : Nat} (hs : ∀ s ∈ ss, Statement s)
    (hi : ∀ s ∈ ss, ∀ n, s.leaves.length < n → ReadsStatement (statementUpTo n) s)
    (hn : (Tree.block b ss e).leaves.length < n) (rest : List Lexeme) :
    (controlled (statementUpTo n)).Reads [.block b ss e] (⟨.kwElse, l⟩ :: rest) := by
  cases n with
  | zero => omega
  | succ n =>
      have hss : ∀ s ∈ ss, ReadsStatement (statementUpTo n) s := fun s hm =>
        hi s hm n (length_leaves_lt (List.mem_append_left _ hm) (Nat.le_of_lt_succ hn))
      exact .choose_false (fun _ => rfl) (.look fun _ => reads_block hs hss rest)

theorem length_body_lt {c o : Text} {x : Tree} {cases : List Case} {us : List Tree} {k : Kind}
    {n : Nat} (hn : (Tree.node k (caseStart c o x cases ++ us)).leaves.length ≤ n) {line : Case}
    (h : line ∈ cases) : line.body.leaves.length < n := by
  have hb : line.body.leaves.length ≤ line.tree.leaves.length :=
    length_leaves_le (List.mem_append_right _ (List.mem_cons_of_mem _ (List.mem_cons_self ..)))
  have hm : line.tree ∈ x :: .leaf ⟨.kwOf, o⟩ :: cases.map Case.tree ++ us := by
    simp only [List.cons_append, List.mem_cons, List.mem_append, List.mem_map]
    exact .inr (.inr (.inl ⟨line, h, rfl⟩))
  exact Nat.lt_of_le_of_lt hb (length_leaves_lt hm hn)

/-- Every statement is read back at any depth that its lexemes leave room for. -/
theorem reads_statement {t : Tree} (h : Statement t) :
    ∀ n, t.leaves.length < n → ReadsStatement (statementUpTo n) t := by
  -- The parts of a statement have fewer lexemes than it has, so they are read one level deeper.
  induction h with
  | empty =>
      exact readsStatement_of_step fun _ _ rest _ => .look fun _ => (reads_take _ rest).node _
  | call hx => exact readsStatement_of_step fun _ _ rest _ => reads_call hx rest
  | assignment hx ho hy => exact readsStatement_of_step fun _ _ rest _ => reads_assignment hx ho hy rest
  | exit => exact readsStatement_of_step fun _ _ rest _ => reads_exit _ rest
  | exitWithout => exact readsStatement_of_step fun _ _ rest _ => reads_exitWithout _ rest
  | exitWith hx => exact readsStatement_of_step fun _ _ rest _ => reads_exitWith _ hx rest
  | block hs ih =>
      refine readsStatement_of_step fun n hn rest _ => reads_separatedBlock hs (fun s hm => ?_) rest
      exact ih s hm n (length_leaves_lt (List.mem_append_left _ hm) hn)
  | ifThen hx hd hk ih =>
      refine readsStatement_of_step fun n hn rest hr => ?_
      have hi := reads_controlled hd hk (ih n (length_leaves_lt (by simp) hn)) rest
      exact .look fun _ => reads_ifThen hx hi (hr rfl)
  | @ifElse _ _ b e l _ d ss hx hs hd hk ihs ih =>
      refine readsStatement_of_step fun n hn rest _ => ?_
      have hi := reads_controlled hd hk (ih n (by simp [leaves, leavesOf] at hn; omega)) rest
      have hb := reads_controlled_block (b := b) (e := e) (l := l) hs ihs
        (length_leaves_lt (by simp) hn)
      exact .look fun _ => reads_ifElse hx hb hi
  | caseOf hx hv hvs hd hk ih =>
      refine readsStatement_of_step fun n hn rest _ => ?_
      have hc := fun c hm => Sound.mk (hv c hm) (hvs c hm) (hd c hm) (hk c hm)
        (ih c hm n (length_body_lt hn hm))
      exact .look fun _ => reads_caseOf hx hc rest
  | @caseElse _ _ _ _ _ _ ss hx hv hvs hd hk hs ih ihs =>
      refine readsStatement_of_step fun n hn rest _ => ?_
      have hc := fun c hm => Sound.mk (hv c hm) (hvs c hm) (hd c hm) (hk c hm)
        (ih c hm n (length_body_lt hn hm))
      have he := length_leaves_lt (List.mem_append_right _ (List.mem_cons_self ..)) hn
      have hss : ∀ s ∈ ss, ReadsStatement (statementUpTo n) s := fun s hm =>
        ihs s hm n (Nat.lt_trans (length_leaves_lt hm (Nat.le_refl _)) he)
      exact .look fun _ => reads_caseElse hx hc hs hss rest
  | whileDo hx hd hk ih =>
      refine readsStatement_of_step fun n hn rest hr => ?_
      have hi := reads_controlled hd hk (ih n (length_leaves_lt (by simp) hn)) rest
      exact .look fun _ => reads_guarded _ _ hx hi
  | withDo hx hd hk ih =>
      refine readsStatement_of_step fun n hn rest hr => ?_
      have hi := reads_controlled hd hk (ih n (length_leaves_lt (by simp) hn)) rest
      exact .look fun _ => reads_guarded _ _ hx hi
  | repeatUntil hs hx ih =>
      refine readsStatement_of_step fun n hn rest _ => ?_
      have hi := fun s hm => ih s hm n (length_leaves_lt (List.mem_append_left _ hm) hn)
      exact .look fun _ => reads_repeatUntil hs hi hx rest
  | forTo hx hy ht hz hd hk ih =>
      refine readsStatement_of_step fun n hn rest hr => ?_
      have hi := reads_controlled hd hk (ih n (length_leaves_lt (by simp) hn)) rest
      exact .look fun _ => reads_forTo hx hy ht hz hi
  | forEach hl hx hd hk ih =>
      refine readsStatement_of_step fun n hn rest hr => ?_
      have hi := reads_controlled hd hk (ih n (length_leaves_lt (by simp) hn)) rest
      exact .look fun _ => reads_forEach hl hx hi

/-! ## The file around a body -/

theorem reads_body {b e : Text} (hs : ∀ s ∈ ss, Statement s) (rest : List Lexeme) :
    block.Reads [.block b ss e] rest := by
  have hi : ∀ s ∈ ss, ReadsStatement statement s := fun s hm rest hr =>
    .look fun _ => reads_statement (hs s hm) _ (length_leaves_lt_ahead s rest) rest hr
  exact (reads_blockBody hs hi rest).node _

theorem reads_nameOr {l : Lexeme} (h : l.kind.isName) (missing : Problem) (rest : List Lexeme) :
    (nameOr missing).Reads [.identifier l] rest :=
  .choose_true (fun _ => h) ((reads_take l rest).node _)

theorem reads_parameterList (rest : List Lexeme) :
    parameterList.Reads
      [.node NodeKind.parameterList [.leaf ⟨.lParen, ['(']⟩, .leaf ⟨.rParen, [')']⟩]] rest := by
  have hn : (choose atParameter parameters noParameter).Reads [] (⟨.rParen, [')']⟩ :: rest) :=
    .choose_false (fun _ => rfl) (.choose_true (fun _ => rfl) (reads_skip _))
  exact (hn.take_append _).append_require.node _

theorem reads_methodStart (t : Text) (rest : List Lexeme) :
    methodStart.Reads [] (⟨.kwProcedure, t⟩ :: rest) := by
  have ha : attributes.Reads [] (⟨.kwProcedure, t⟩ :: rest) := (Repeats.nil fun _ => rfl).reads
  exact ha.append_nothing (Repeats.nil fun _ => rfl).reads

theorem reads_procedure (hs : ∀ s ∈ ss, Statement s) (rest : List Lexeme) :
    method.Reads [procedure ss] rest := by
  have hb : (choose (·.isAt .kwBegin) (Grammar.block ++ takeIf .semicolon) skip).Reads
      [.block "begin".toList ss "end".toList, semicolon] rest :=
    .choose_true (fun _ => rfl)
      ((reads_body hs _).append (.choose_true (fun _ => rfl) (reads_take _ rest)))
  -- nothing stands between the parameters and the body
  let behind := leavesOf [.block "begin".toList ss "end".toList, semicolon] ++ rest
  have hr : (choose atReturnValue returnValue skip).Reads [] behind := reads_nothing fun _ => rfl
  have ho : (takeIf .semicolon).Reads [] behind := reads_nothing fun _ => rfl
  have hv : (choose (·.isAt .kwVar) (varSection .varSection) skip).Reads [] behind :=
    reads_nothing fun _ => rfl
  have hp : (choose (·.isAt .lParen) parameterList (report (.missing .lParen))).Reads
      [.node NodeKind.parameterList [.leaf ⟨.lParen, ['(']⟩, .leaf ⟨.rParen, [')']⟩]] behind :=
    .choose_true (fun _ => rfl) (reads_parameterList _)
  have hn := (reads_nameOr (l := ⟨.ident, ['P']⟩) rfl .missingProcedureName _).append hp
  have hm := (((hn.append_nothing hr).append_nothing ho).append_nothing hv).append hb
  have ht : methodTail.Reads _ rest :=
    .choose_true (fun _ => rfl) (hm.take_append ⟨.kwProcedure, "procedure".toList⟩)
  refine (reads_methodStart "procedure".toList _).mark (fun _ => ?_) ht
  rfl

theorem reads_memberList {t : Tree} {l : Lexeme} {ls rest : List Lexeme} (hl : t.leaves = l :: ls)
    (hk : l.kind ≠ .rBrace) (h : member.Reads [t] (⟨.rBrace, ['\x7d']⟩ :: rest)) :
    (memberList member).Reads [.leaf ⟨.lBrace, ['\x7b']⟩, t, .leaf ⟨.rBrace, ['\x7d']⟩] rest := by
  have hn : Repeats (fun c => !(c.isAt .rBrace || c.atEnd)) member [] (⟨.rBrace, ['\x7d']⟩ :: rest) :=
    .nil fun _ => rfl
  have hr : Repeats (fun c => !(c.isAt .rBrace || c.atEnd)) member ([t] ++ []) (⟨.rBrace, ['\x7d']⟩ :: rest) := by
    refine .cons (fun n => ?_) h (by simp [leavesOf, hl]) hn
    simp [leavesOf, hl, Cursor.isAt, Cursor.atEnd, hk]
  exact .choose_true (fun _ => rfl) (hr.reads.append_require.take_append _)

theorem reads_header (b : Text) (rest : List Lexeme) : header.Reads
    [.leaf ⟨.ident, "codeunit".toList⟩, .node NodeKind.objectId [.leaf ⟨.intLiteral, ['1']⟩],
      .identifier ⟨.ident, ['X']⟩] (⟨.lBrace, b⟩ :: rest) := by
  have hi : (choose (·.isAt .intLiteral) (.node NodeKind.objectId take) skip).Reads
      [.node NodeKind.objectId [.leaf ⟨.intLiteral, ['1']⟩]]
      (leavesOf [.identifier ⟨.ident, ['X']⟩] ++ ⟨.lBrace, b⟩ :: rest) :=
    .choose_true (fun _ => rfl) ((reads_take _ _).node _)
  have hn := (hi.take_append ⟨.ident, "codeunit".toList⟩).append
    (reads_nameOr rfl .missingObjectName _)
  have he : (choose (·.isAt .kwExtends) extendsClause skip).Reads [] (⟨.lBrace, b⟩ :: rest) :=
    reads_nothing fun _ => rfl
  have hm : (choose (·.isAt .kwImplements) implementsClause skip).Reads [] (⟨.lBrace, b⟩ :: rest) :=
    reads_nothing fun _ => rfl
  have hr : headerRest.Reads [] (⟨.lBrace, b⟩ :: rest) := .choose_true (fun _ => rfl) (reads_skip _)
  exact ((hn.append_nothing he).append_nothing hm).append_nothing hr

/-- A codeunit with one member. -/
def codeunit (t : Tree) : Tree :=
  .node NodeKind.codeunitObject
    [.leaf ⟨.ident, "codeunit".toList⟩, .node NodeKind.objectId [.leaf ⟨.intLiteral, ['1']⟩],
      .identifier ⟨.ident, ['X']⟩, .leaf ⟨.lBrace, ['\x7b']⟩, t, .leaf ⟨.rBrace, ['\x7d']⟩]

/-- The file around a member is read back. -/
theorem reads_codeunit {t : Tree} {l : Lexeme} {ls : List Lexeme} (hl : t.leaves = l :: ls)
    (hk : l.kind ≠ .rBrace) (h : member.Reads [t] [⟨.rBrace, ['\x7d']⟩]) : declarations.Reads [codeunit t] [] := by
  have hl := reads_memberList hl hk h
  have hd : declaration.Reads [codeunit t] [] := by
    refine .look fun n => ?_
    have hn : (⟨n, leavesOf [codeunit t] ++ []⟩ : Cursor).atWord "namespace".toList = false := rfl
    have hu : (⟨n, leavesOf [codeunit t] ++ []⟩ : Cursor).atWord "using".toList = false := rfl
    have hk : (if (⟨n, leavesOf [codeunit t] ++ []⟩ : Cursor).isAt .ident
        then NodeKind.ofObjectWord? (⟨n, leavesOf [codeunit t] ++ []⟩ : Cursor).text else none) =
          some .codeunitObject := rfl
    rw [hn, hu, hk]
    exact ((reads_header _ _).append hl).node _
  have hn : Repeats (fun c => !c.atEnd) declaration [] [] := .nil fun _ => rfl
  have h : Repeats (fun c => !c.atEnd) declaration ([codeunit t] ++ []) [] :=
    .cons (fun _ => rfl) hd (by simp [leavesOf, codeunit, leaves]) hn
  exact h.reads

theorem reads_member {t : Tree} {w : Text} {ls rest : List Lexeme} (hl : leavesOf [t] = ⟨.kwProcedure, w⟩ :: ls)
    (h : method.Reads [t] rest) : member.Reads [t] rest := by
  refine .look fun _ => .look fun _ => .look fun _ => ?_
  rw [hl]
  exact h

/-- The file around a body is read back. -/
theorem reads_host (hs : ∀ s ∈ ss, Statement s) : declarations.Reads [host ss] [] :=
  reads_codeunit (t := procedure ss) rfl nofun (reads_member rfl (reads_procedure hs _))

end Grammar

end AlRefactor
