import AlRefactor.Proofs.Grammar.Runs
import AlRefactor.Proofs.Grammar.Declarations

/-!
# The grammar halts

Every production of the grammar halts without a bound on its rounds, over whatever halts where a
lexeme less is ahead. A statement, a member and a case line read a lexeme where there is one, so lists
of them come to their end.
-/

namespace AlRefactor.Grammar

open Production

variable {c : Cursor} {n : Nat}

/-! ## Stretches -/

theorem halts_takes (n : Nat) (c : Cursor) (h : n ≤ c.ahead.length) : (takes n).Halts c := by
  induction n generalizing c with
  | zero => exact .skip
  | succ n ih =>
      have hc : c.ahead ≠ [] := List.ne_nil_of_length_pos (by omega)
      refine .append (.take hc) (ih _ ?_)
      have hr := rest_takes 1 c
      have hr : (take.read c).rest.ahead = c.ahead.drop 1 := hr
      rw [hr, List.length_drop]
      omega

/-- A stretch in brackets ends where the lexemes end at the latest. -/
theorem balancedLength_le (d : Nat) (ls : List Lexeme) : (balancedLength d ls).1 ≤ ls.length := by
  fun_induction balancedLength d ls with
  | case1 | case8 | case9 => exact Nat.zero_le _
  | case2 d l ls _ r ih | case3 d l ls _ r ih | case5 d l ls _ _ r ih | case7 d l ls _ _ r ih
  | case10 d l ls _ _ _ _ _ _ r ih => exact Nat.succ_le_succ ih
  | case4 | case6 => exact Nat.succ_le_succ (Nat.zero_le _)

/-- A clause ends where the lexemes end at the latest. -/
theorem clauseLength_le (d : Nat) (ls : List Lexeme) : clauseLength d ls ≤ ls.length := by
  fun_induction clauseLength d ls <;> simp only [List.length_cons, List.length_nil] <;> omega

theorem halts_balanced (c : Cursor) : balanced.Halts c := by
  refine .look (.append (halts_takes _ c (balancedLength_le 0 _)) ?_)
  split
  · exact .report
  · exact .skip

theorem leads_balanced (hc : c.kind = .lBracket ∨ c.kind = .lParen) : balanced.Leads c := by
  refine ⟨halts_balanced c, ?_⟩
  obtain ⟨m, ls⟩ := c
  cases ls with
  | nil => rcases hc with hc | hc <;> cases hc
  | cons l ls =>
      have hc : l.kind = .lBracket ∨ l.kind = .lParen := hc
      have hn : ∃ n, (balancedLength 0 (l :: ls)).1 = n + 1 := by
        rcases hc with hc | hc <;> simp [balancedLength, hc]
      obtain ⟨n, hn⟩ := hn
      refine Opens.append (p := takes (balancedLength 0 (l :: ls)).1) ?_
      rw [hn]
      exact Opens.append (p := take) (.take (List.cons_ne_nil l ls))

theorem halts_clause (c : Cursor) : clause.Halts c := .look (halts_takes _ c (clauseLength_le 0 _))

theorem halts_balancedIf (k : TokenKind) (c : Cursor) :
    (choose (·.isAt k) balanced skip).Halts c :=
  .choose (fun _ => halts_balanced c) fun _ => .skip

/-! ## Expressions -/

/-- Inner expressions halt where there are less than a number of lexemes ahead. -/
def InnerHalts (inner : Inner) (n : Nat) : Prop :=
  ∀ allowIn power, (inner allowIn power).HaltsBelow n

theorem InnerHalts.le {inner : Inner} {m : Nat} (h : InnerHalts inner n) (hm : m ≤ n) :
    InnerHalts inner m :=
  fun _ _ => (h _ _).le hm

theorem halts_expressions {inner : Inner} (h : InnerHalts inner n) :
    (expressions inner).HaltsBelow n := by
  refine .append (h true 0) fun c hc => .whileAt fun d hd ht => ?_
  exact (Leads.take (ahead_of_isAt ht nofun)).append ((h true 0).le (by omega))

section Expression

variable {inner : Inner} (h : InnerHalts inner c.ahead.length)
include h

theorem leads_bracketed (hc : c.ahead ≠ []) {close : TokenKind} (hk : close ≠ .eof) :
    (bracketed inner close).Leads c :=
  ((Leads.take hc).append fun d hd =>
    .choose (fun _ => .skip) fun _ => halts_expressions h d hd).required hk

theorem mayLead_primary : (primary inner).MayLead c := by
  refine .look ?_
  split
  · rename_i hl
    have hc : c.ahead ≠ [] := ahead_ne_nil fun hk => by simp [hk, TokenKind.isLiteral] at hl
    exact .of_leads ((Leads.take hc).node _)
  · split
    · rename_i hn; exact .of_leads (leads_name (ahead_of_isName hn))
    · split
      · rename_i hk
        have hc : c.ahead ≠ [] := ahead_ne_nil (by simp [hk])
        exact .of_leads (((Leads.take hc).append (h true 0)).required (by decide) |>.node _)
      · rename_i hk
        exact .of_leads ((leads_bracketed h (ahead_ne_nil (by simp [hk])) (by decide)).node _)
      · refine .append .report (.choose (fun _ => .skip) fun ht => .of_leads (.take ?_))
        exact fun (ha : c.ahead = []) => by simp [atExpressionStop, Cursor.atEnd, ha] at ht

theorem leads_suffix {k : NodeKind} (hk : follower c = some k) : (suffix inner).Leads c := by
  have hc : c.ahead ≠ [] := ahead_ne_nil fun he => by simp [follower, he] at hk
  have hs (missing : Problem) : (selector missing).Leads c :=
    (Leads.take hc).followed fun d => .choose
      (fun hd => (leads_name (ahead_ne_nil fun he => by
        simp [he, TokenKind.isName, TokenKind.isKeyword] at hd)).halts) fun _ => .report
  refine .look ?_
  split
  · exact hs _
  · exact hs _
  · exact (leads_bracketed h hc (by decide)).node _
  · exact (leads_bracketed h hc (by decide)).node _

theorem mayLead_operand (allowIn : Bool) : (operand inner allowIn).MayLead c := by
  refine .look ?_
  split
  · rename_i r hr
    have hc : c.ahead ≠ [] := ahead_ne_nil fun he => by simp [he, TokenKind.unaryPower?] at hr
    exact .of_leads (((Leads.take hc).append (h _ _)).node _)
  · exact .grow (mayLead_primary h) fun d k hd hk => leads_suffix (h.le hd) hk

theorem mayLead_expressionStep (allowIn : Bool) (power : Nat) :
    (expressionStep inner allowIn power).MayLead c := by
  refine .grow (mayLead_operand h allowIn) fun d k hd hk => ?_
  have hc : d.ahead ≠ [] := ahead_ne_nil fun he => by
    simp [operator, he, TokenKind.powers?] at hk
  exact .look ((Leads.take hc).append ((h.le hd) _ _))

end Expression

theorem mayLead_expressionUpTo (allowIn : Bool) (power : Nat) (hc : c.ahead.length < n) :
    (expressionUpTo n allowIn power).MayLead c := by
  induction n generalizing allowIn power c with
  | zero => exact absurd hc (Nat.not_lt_zero _)
  | succ n ih =>
      exact .look (mayLead_expressionStep (fun _ _ d hd => (ih _ _ (by omega)).halts) _ _)

theorem mayLead_expression (c : Cursor) : expression.MayLead c :=
  .look (mayLead_expressionUpTo _ _ (Nat.lt_succ_self _))

theorem halts_expression (c : Cursor) : expression.Halts c := (mayLead_expression c).halts

theorem halts_expressionWithoutIn (c : Cursor) : expressionWithoutIn.Halts c :=
  .look (mayLead_expressionUpTo _ _ (Nat.lt_succ_self _)).halts

/-- What can start an expression without being an operator, a literal or a name is a bracket. -/
theorem eq_bracket {k : TokenKind} (h : k.canStartExpression = true) (hu : k.unaryPower? = none)
    (hl : k.isLiteral = false) (hn : k.isName = false) : k = .lParen ∨ k = .lBracket := by
  revert h hu hl hn
  cases k <;> decide

/-- Where an expression can start, an operand is made. -/
theorem opens_operand (inner : Inner) (allowIn : Bool) (h : c.kind.canStartExpression = true) :
    (operand inner allowIn).Opens c := by
  have hc : c.ahead ≠ [] := ahead_ne_nil fun hk => by rw [hk] at h; revert h; decide
  refine .look ?_
  split
  · exact (Opens.take hc).append.node _
  · rename_i hu
    refine .grow (.look ?_)
    split
    · exact (Opens.take hc).node _
    · rename_i hl
      split
      · exact (Opens.take hc).node _
      · rename_i hn
        have hb := eq_bracket h hu (by simpa using hl) (by simpa using hn)
        split
        · exact (Opens.take hc).append.append.node _
        · exact (Opens.take hc).append.append.node _
        · rename_i hp hs
          exact absurd hb (by simp_all)

theorem leads_expression (h : c.kind.canStartExpression = true) : expression.Leads c :=
  ⟨halts_expression c, .look (.look (.grow (opens_operand _ _ h)))⟩

/-! ## Statements -/

theorem halts_recover (c : Cursor) : recover.Halts c := by
  refine .append (.whileAt fun d _ hd => .take fun ha => ?_) (halts_takeIf nofun)
  simp [Cursor.atEnd, ha] at hd

theorem halts_separator (c : Cursor) : separator.Halts c :=
  .choose (fun h => .take (ahead_of_isAt h nofun)) fun _ => .choose (fun _ => .skip) fun _ =>
    .append .report (.choose (fun _ => .skip) fun _ => halts_recover _)

theorem halts_direction (c : Cursor) :
    (choose (·.atAny [.kwTo, .kwDownTo]) (take ++ expression) (report .missingToOrDownTo)).Halts c :=
  .choose (fun h => ((Leads.take (ahead_ne_nil fun hk => by simp [Cursor.atAny, hk] at h)).followed
    halts_expression).halts) fun _ => .report

theorem leads_exitStatement (hc : c.ahead ≠ []) : exitStatement.Leads c := by
  have hv (d : Cursor) : (choose (·.isAt .rParen) skip expression ++ require .rParen).Halts d :=
    .append (.choose (fun _ => .skip) fun _ => halts_expression d) (halts_require nofun)
  have hp := (Leads.take hc).followed fun d => halts_takeThen (k := .lParen) nofun fun e _ => hv e
  exact (hp.followed halts_separator).node _

theorem leads_assignmentOrCall (h : c.kind.canStartExpression = true) :
    assignmentOrCall.Leads c := by
  have he := leads_expression h
  refine ⟨.mark he.halts (.append (.choose (fun ha => ?_) fun _ => .skip) (halts_separator _))
    he.opens.append, .mark he.opens.append⟩
  exact ((Leads.take (ahead_ne_nil fun hk => by simp [hk, TokenKind.isAssignment] at ha)).followed
    halts_expression).halts

section Statement

variable {inner : Production} (h : inner.LeadsBelow n)
include h

theorem halts_statements (close : TokenKind) : (statements inner close).HaltsBelow n :=
  fun _ hc => .whileAt fun d hd ht =>
    h d (fun ha => by simp [Cursor.atEnd, ha] at ht) (by omega)

theorem halts_controlled : (controlled inner).HaltsBelow n := fun c hc =>
  .choose (fun _ => .skip) fun ht => (h c (fun ha => by simp [Cursor.atEnd, ha] at ht) hc).halts

/-- A case line reads a lexeme: if neither a value nor a colon is there, a statement is. -/
theorem leads_caseLine (hn : c.ahead.length < n)
    (ht : (c.atEnd || c.atAny [.kwElse, .kwEnd, .kwUntil] || c.atMember) = false) :
    (caseLine inner).Leads c := by
  have hv : (expression ++ whileAt (·.isAt .comma) (take ++ expression)).MayLead c :=
    (mayLead_expression c).append <| .whileAt fun d _ hd =>
      (Leads.take (ahead_of_isAt hd nofun)).followed halts_expression
  have hp := hv.append (q := require .colon) <|
    .choose (fun hd => .of_leads (.take (ahead_of_isAt hd nofun))) fun _ => .report
  refine (hp.leads_append (halts_controlled h _ ?_) fun hm => ?_).node _
  · exact Nat.lt_of_le_of_lt (length_rest_le _ c) hn
  · obtain ⟨m, hr⟩ := rest_eq_of_made_nil hm
    rw [hr]
    refine .choose (fun he => ?_) fun _ => ?_
    · have he : (c.atEnd || c.atAny [.kwElse, .kwEnd, .kwUntil] || c.atMember) = true := he
      rw [ht] at he
      cases he
    · exact (h ⟨m, c.ahead⟩ (fun (ha : c.ahead = []) => by simp [Cursor.atEnd, ha] at ht) hn).opens

theorem halts_elseClause : (choose (·.isAt .kwElse)
    (node NodeKind.elseClause (take ++ controlled inner)) skip).HaltsBelow n := fun _ hd =>
  .choose (fun hk => (((Leads.take (ahead_of_isAt hk nofun)).append
    ((halts_controlled h).le (Nat.le_of_lt hd))).node _).halts) fun _ => .skip

theorem halts_caseLines :
    (whileAt (fun c => !(c.atEnd || c.atAny [.kwEnd, .kwElse, .kwUntil] || c.atMember))
      (caseLine inner)).HaltsBelow n := fun _ hc => .whileAt fun d hd ht => by
  refine leads_caseLine h (by omega) ?_
  simp only [Cursor.atAny, List.contains_cons, Bool.not_eq_true', Bool.or_eq_false_iff] at ht ⊢
  simp [ht]

theorem halts_caseElse : (choose (·.isAt .kwElse)
    (node NodeKind.caseElse (take ++ statements inner .kwEnd)) skip).HaltsBelow n := fun _ hd =>
  .choose (fun hk => (((Leads.take (ahead_of_isAt hk nofun)).append
    ((halts_statements h _).le (Nat.le_of_lt hd))).node _).halts) fun _ => .skip

end Statement

section Statement

variable {inner : Production} (h : inner.LeadsBelow c.ahead.length) (hc : c.ahead ≠ [])
include h hc

theorem leads_blockBody : (blockBody inner).Leads c :=
  ((Leads.take hc).append (halts_statements h _)).required nofun

theorem leads_ifStatement : (ifStatement inner).Leads c := by
  have hp := (Leads.take hc).followed halts_expression
  have hs := (hp.required (k := .kwThen) nofun).append (halts_controlled h)
  exact (hs.append (halts_elseClause h)).node _

theorem leads_caseStatement : (caseStatement inner).Leads c := by
  have hp := (Leads.take hc).followed halts_expression
  have hl := (hp.required (k := .kwOf) nofun).append (halts_caseLines h)
  have he := (hl.append (halts_caseElse h)).required (k := .kwEnd) nofun
  exact (he.followed halts_separator).node _

theorem leads_guarded (kind : NodeKind) : (guarded kind inner).Leads c := by
  have hp := (Leads.take hc).followed halts_expression
  exact ((hp.required (k := .kwDo) nofun).append (halts_controlled h)).node _

theorem leads_repeatStatement : (repeatStatement inner).Leads c := by
  have hp := (Leads.take hc).append (halts_statements h .kwUntil)
  have hu := hp.followed fun _ => halts_requireThen (k := .kwUntil) nofun halts_expression
  exact (hu.followed halts_separator).node _

theorem leads_forStatement : (forStatement inner).Leads c := by
  have hp := (Leads.take hc).followed halts_expression
  have ha := hp.followed fun _ => halts_requireThen (k := .assign) nofun halts_expression
  have ht := ha.followed halts_direction
  exact ((ht.required (k := .kwDo) nofun).append (halts_controlled h)).node _

theorem leads_forEachStatement : (forEachStatement inner).Leads c := by
  have hp := (Leads.take hc).followed halts_expressionWithoutIn
  have hi := hp.followed fun _ => halts_requireThen (k := .kwIn) nofun halts_expression
  exact ((hi.required (k := .kwDo) nofun).append (halts_controlled h)).node _

theorem leads_statementStep : (statementStep inner).Leads c := by
  refine .look ?_
  split
  · exact ((leads_blockBody h hc).followed halts_separator).node _
  · exact leads_ifStatement h hc
  · exact leads_caseStatement h hc
  · exact leads_guarded h hc _
  · exact leads_guarded h hc _
  · exact leads_repeatStatement h hc
  · exact leads_forStatement h hc
  · exact leads_forEachStatement h hc
  · exact leads_exitStatement hc
  · exact (Leads.take hc).node _
  · split
    · rename_i hs; exact leads_assignmentOrCall hs
    · exact .behind_report (.take hc)

end Statement

theorem leads_statementUpTo (n : Nat) : (statementUpTo n).LeadsBelow n := by
  induction n with
  | zero => exact fun _ _ hn => absurd hn (Nat.not_lt_zero _)
  | succ n ih => exact fun _ hc hn => .look (leads_statementStep (ih.le (Nat.le_of_lt_succ hn)) hc)

theorem leads_statement (hc : c.ahead ≠ []) : statement.Leads c :=
  .look (leads_statementUpTo _ c hc (Nat.lt_succ_self _))

theorem leads_block (hc : c.ahead ≠ []) : block.Leads c :=
  (leads_blockBody (fun _ hd _ => leads_statement hd) hc).node _

/-! ## Types -/

/-- A type over the types inside it. -/
def typeStep (element : Production) : Production := look fun c =>
  if c.kind.isName then
    take ++ choose (·.isAt .lBracket) balanced skip ++ typeTail c.text.lower element
  else report .missingType

theorem halts_typeTail (word : Text) {element : Production} (h : element.HaltsBelow n) :
    (typeTail word element).HaltsBelow n := by
  intro c hc
  unfold typeTail
  split
  · exact halts_takeThen (by decide) (h.le (Nat.le_of_lt hc))
  · split
    · exact halts_takeThen (by decide) fun d _ => halts_balancedIf _ d
    · split
      · exact halts_clause c
      · split
        · refine .append (.append ?_ ?_) ?_
          · refine .choose (fun hd => .take (ahead_ne_nil fun hk => ?_)) fun _ => .skip
            simp [hk, TokenKind.isName, Cursor.isAt] at hd
          · exact .choose (fun hd => .take (ahead_ne_nil (kind_of_atWord hd ▸ (by decide)))) fun _ => .skip
          · refine .choose (fun hd => ?_) fun _ => .skip
            exact ((Leads.take (ahead_ne_nil (kind_of_atWord hd ▸ (by decide)))).followed
              (halts_balancedIf _)).halts
        · exact .skip

theorem mayLead_typeStep {element : Production} (h : element.HaltsBelow c.ahead.length) :
    (typeStep element).MayLead c := by
  refine .look ?_
  split
  · rename_i hn
    exact .of_leads (((Leads.take (ahead_of_isName hn)).followed (halts_balancedIf _)).append
      (halts_typeTail _ h))
  · exact .report

theorem mayLead_typeUpTo (hc : c.ahead.length < n) : (typeUpTo n).MayLead c := by
  induction n generalizing c with
  | zero => exact absurd hc (Nat.not_lt_zero _)
  | succ n ih => exact mayLead_typeStep fun d hd => (ih (by omega)).halts

/-- A type node may be empty. -/
theorem halts_typeReference (c : Cursor) : typeReference.Halts c := by
  have ht : (look fun c => typeUpTo (c.ahead.length + 1)).MayLead c :=
    .look (mayLead_typeUpTo (Nat.lt_succ_self _))
  rcases ht.mayOpen with hn | ho
  · refine ⟨.mark ht.halts.runs .skip, ?_⟩
    rw [typeReference, read_node, hn]
    exact ⟨⟨rfl, trivial⟩, trivial⟩
  · exact .mark ht.halts .skip ho.append

theorem halts_typed (c : Cursor) : typed.Halts c := halts_requireThen nofun halts_typeReference

/-! ## Attributes -/

/-- A stretch that a brace cuts off ends in front of the brace. -/
theorem balancedLength_cut (d : Nat) (ls : List Lexeme) (h : (balancedLength d ls).2 = true) :
    ∃ l rest, ls.drop (balancedLength d ls).1 = l :: rest ∧ l.kind ∈ [.lBrace, .rBrace] := by
  fun_induction balancedLength d ls with
  | case1 | case4 | case6 => cases h
  | case2 d l ls _ r ih | case3 d l ls _ r ih | case5 d l ls _ _ r ih | case7 d l ls _ _ r ih
  | case10 d l ls _ _ _ _ _ _ r ih => exact ih h
  | case8 d l ls hk | case9 d l ls hk => exact ⟨l, ls, rfl, by simp [hk]⟩

theorem leads_attribute (h : c.isAt .lBracket = true) :
    (node NodeKind.memberAttribute balanced).Leads c :=
  (leads_balanced (.inl (kind_of_isAt h))).node _

theorem mayLead_attributes (c : Cursor) : attributes.MayLead c :=
  .whileAt fun _ _ hd => leads_attribute hd

theorem rest_balanced (c : Cursor) :
    (balanced.read c).rest.ahead = c.ahead.drop (balancedLength 0 c.ahead).1 := by
  rw [balanced, read_look, read_append, ← rest_takes]
  split <;> rfl

theorem rest_rounds_ne_nil (n : Nat) (c : Cursor) (hn : c.ahead.length ≤ n)
    (h : afterAttributes 0 c.ahead ≠ []) :
    (Assembly.trees.rounds (·.isAt .lBracket)
      (node NodeKind.memberAttribute balanced).read n c).rest.ahead ≠ [] := by
  have hc : c.ahead ≠ [] := fun ha => h (by rw [ha, afterAttributes])
  induction n generalizing c with
  | zero => exact absurd (List.eq_nil_of_length_eq_zero (Nat.le_zero.mp hn)) hc
  | succ n ih =>
      simp only [Assembly.rounds]
      split
      · rename_i ht
        have hk := kind_of_isAt ht
        have ha := balanced_advances c (.inl hk)
        simp only [Assembly.sequence, read_node]
        cases hu : (balancedLength 0 c.ahead).2 with
        | true =>
            -- Behind what a brace cuts off no further attribute is read.
            obtain ⟨l, rest, hr, hl⟩ := balancedLength_cut 0 c.ahead hu
            rw [← rest_balanced] at hr
            have hl : l.kind ≠ .lBracket := fun hk => by simp [hk] at hl
            have ht : (balanced.read c).rest.isAt .lBracket = false := by
              simp [Cursor.isAt, Cursor.kind, Cursor.peek, hr, hl]
            cases n <;> simp [Assembly.rounds, Assembly.idle, ht, hr]
        | false =>
            have hp : (balanced.read c).problems = [] := by
              simp [balanced, hu, made_takes]
            rw [afterAttributes_balanced hk hp] at h
            exact ih _ (by omega) h fun hn => h (by rw [hn, afterAttributes])
      · exact hc

/-! ## Variables -/

/-- What is found to be a variable has a name to be read behind its attributes, also where they are
cut off. -/
theorem rest_attributes_ne_nil (h : atVariable c = true) : (attributes.read c).rest.ahead ≠ [] := by
  refine rest_rounds_ne_nil _ c (Nat.le_refl _) fun hn => ?_
  simp [atVariable, hn] at h

theorem leads_listedName (h : c.ahead ≠ []) : listedName.Leads c := (leads_name h).node _

theorem ahead_rest_take (h : c.peek 1 ≠ .eof) : (take.read c).rest.ahead ≠ [] :=
  ahead_ne_nil (kind_rest_take c ▸ h)

theorem halts_furtherNames (c : Cursor) : furtherNames.Halts c := by
  refine .append (.whileAt fun d _ hd => ?_) (halts_takeThen nofun fun _ _ => .report)
  obtain ⟨hk, hn⟩ := Bool.and_eq_true_iff.mp hd
  have ht := Leads.take (ahead_of_isAt hk nofun)
  refine ⟨.append ht.halts (leads_listedName (ahead_rest_take fun he => ?_)).halts, ht.opens.append⟩
  simp [he, TokenKind.isName] at hn

theorem leads_variableDeclaration (h : atVariable c = true) : variableDeclaration.Leads c := by
  have hr := rest_attributes_ne_nil h
  generalize hd : (attributes.read c).rest = d at hr
  have hn : (choose (·.peek 1 == .comma) (listedName ++ furtherNames) name ++ typed ++
      require .semicolon).Leads d :=
    (Leads.choose (fun _ => (leads_listedName hr).followed halts_furtherNames)
      fun _ => leads_name hr).followed halts_typed |>.required nofun
  have ho := (mayLead_attributes c).mayOpen.opens_append fun _ => hd ▸ hn.opens
  exact ⟨.mark (mayLead_attributes c).halts (hd ▸ hn.halts) ho, .mark ho⟩

theorem leads_varSection (kind : NodeKind)
    (hc : c.kind = .kwVar ∨ c.kind = .kwProtected ∧ c.peek 1 = .kwVar) :
    (varSection kind).Leads c := by
  have hr : ((takeIf .kwProtected).read c).rest.ahead ≠ [] :=
    ahead_ne_nil (kind_rest_protected hc ▸ nofun)
  have hp : (takeIf .kwProtected).MayLead c :=
    .choose (fun h => .of_leads (.take (ahead_of_isAt h nofun))) fun _ => .skip
  have ht := hp.leads_append (.take hr) fun _ => .take hr
  exact (ht.followed fun _ => .whileAt fun _ _ => leads_variableDeclaration).node _

/-! ## Parameters and return values -/

theorem leads_parameter (h : atParameter c = true) : parameter.Leads c := by
  have hp : (takeIf .kwVar ++ nameOr .missingParameterName).Leads c := by
    cases hv : c.isAt .kwVar with
    | true =>
        exact Leads.followed (.choose (fun _ => .take (ahead_of_isAt hv nofun)) fun hf => by
          simp [hv] at hf) fun _ => halts_nameOr _
    | false =>
        have hn : c.kind.isName = true := by simpa [atParameter, hv] using h
        have hr : (takeIf .kwVar).read c = ⟨[], false, [], c⟩ := by simp [takeIf, hv]
        refine ⟨.append (halts_takeIf nofun) (halts_nameOr _), MayOpen.opens_append ?_ fun _ => ?_⟩
        · exact .inl (by rw [hr])
        · rw [hr]
          exact .choose (fun _ => (leads_name (ahead_of_isName hn)).opens) fun hf => by
            simp [hn] at hf
  exact (hp.followed halts_typed).node _

theorem halts_noParameter (c : Cursor) : noParameter.Halts c := .choose (fun _ => .skip) fun _ => .report

theorem leads_parameters (h : atParameter c = true) : parameters.Leads c := by
  refine (Leads.append (leads_parameter h) fun d _ => .whileAt fun d _ hd => ?_).followed fun d =>
    halts_takeThen nofun fun d _ => halts_noParameter d
  obtain ⟨hk, hn⟩ := Bool.and_eq_true_iff.mp hd
  have ht := Leads.take (ahead_of_isAt hk nofun)
  refine ⟨.append ht.halts (leads_parameter ?_).halts, ht.opens.append⟩
  simpa [atParameter, Cursor.isAt, kind_rest_take] using hn

theorem leads_parameterList (hc : c.ahead ≠ []) : parameterList.Leads c :=
  (((Leads.take hc).followed fun d =>
    .choose (fun h => (leads_parameters h).halts) fun _ => halts_noParameter d).required
    (by decide)).node _

theorem leads_returnValue (h : atReturnValue c = true) : returnValue.Leads c := by
  have hr : ((choose (·.kind.isName) name skip).read c).rest.ahead ≠ [] :=
    ahead_ne_nil (kind_rest_returnName h ▸ nofun)
  have hn : (choose (·.kind.isName) name skip).MayLead c :=
    .choose (fun hn => .of_leads (leads_name (ahead_of_isName hn))) fun _ => .skip
  exact ((hn.leads_append (.take hr) fun _ => .take hr).followed halts_typeReference).node _

/-! ## Procedures and triggers -/

theorem halts_methodRest (c : Cursor) : methodRest.Halts c := by
  refine .append (.append (.append (.append (.append (halts_nameOr _) ?_) ?_)
    (halts_takeIf nofun)) ?_) ?_
  · exact .choose (fun h => (leads_parameterList (ahead_of_isAt h nofun)).halts) fun _ => .report
  · exact .choose (fun h => (leads_returnValue h).halts) fun _ => .skip
  · exact .choose (fun h => (leads_varSection _ (.inl (kind_of_isAt h))).halts) fun _ => .skip
  · exact .choose (fun h => .append (leads_block (ahead_of_isAt h nofun)).halts (halts_takeIf nofun))
      fun _ => .skip

theorem halts_methodTail (c : Cursor) : methodTail.Halts c :=
  .choose (fun h => ((Leads.take (ahead_ne_nil fun hk => by
    simp [Cursor.atAny, hk] at h)).followed halts_methodRest).halts) fun _ => .report

theorem mayLead_methodStart (c : Cursor) : methodStart.MayLead c :=
  (mayLead_attributes c).append <| .whileAt fun _ _ hd => .take (ahead_ne_nil fun hk => by
    simp [hk, TokenKind.isAccessModifier] at hd)

theorem leads_method (h : AtMethod c) : method.Leads c := by
  have hs := mayLead_methodStart c
  have ho : (methodStart ++ methodTail).Opens c := hs.mayOpen.opens_append fun hm => by
    -- Nothing was read, so the keyword itself is here.
    obtain ⟨hb, ha⟩ := not_atModifier hm
    have hk := rest_of_made_nil hm
    refine .choose (fun ht => (Opens.take (ahead_ne_nil fun he => ?_)).append) fun hf => ?_
    · simp [Cursor.atAny, he] at ht
    · rcases h with h | h | h | h <;> simp_all [Cursor.atAny]
  exact ⟨.mark hs.halts (halts_methodTail _) ho, .mark ho⟩

/-! ## Members -/

theorem leads_property (hc : c.kind.isName = true) (hp : c.peek 1 = .eq) : property.Leads c := by
  have hr : (name.read c).rest.ahead ≠ [] := ahead_ne_nil (by simp [kind_rest_name, hp])
  have hn := leads_name (ahead_of_isName hc)
  have ht : (name ++ take).Leads c := ⟨.append hn.halts (.take hr), hn.opens.append⟩
  exact ((ht.followed halts_clause).required (by decide)).node _

theorem halts_sectionArguments (c : Cursor) : sectionArguments.Halts c :=
  .choose (fun h => ((leads_balanced (.inr (kind_of_isAt h))).node _).halts) fun _ => .skip

section Member

variable {inner : Production} (h : inner.LeadsBelow n)
include h

theorem halts_memberList : (memberList inner).HaltsBelow n := fun c hc =>
  halts_takeThen nofun fun d hd => .append
    (.whileAt fun e he ht => h e (fun ha => by simp [Cursor.atEnd, ha] at ht) (by omega))
    (halts_require nofun)

theorem halts_sectionBody : (sectionBody inner).HaltsBelow n := fun c hc =>
  .choose (fun _ => halts_memberList h c hc) fun _ => halts_expect (by decide) _

end Member

theorem leads_memberStep {inner : Production} (h : inner.LeadsBelow c.ahead.length)
    (hc : c.ahead ≠ []) : (memberStep inner).Leads c := by
  refine .look ?_
  split
  · rename_i hk; exact leads_varSection _ (.inl hk)
  all_goals first | exact leads_method (by simp_all [AtMethod, TokenKind.isAccessModifier]) | skip
  · rename_i hk
    split
    · rename_i hp; exact leads_varSection _ (.inr ⟨hk, by simpa using hp⟩)
    · exact leads_method (by simp_all [AtMethod, TokenKind.isAccessModifier])
  · exact .take hc
  · split
    · rename_i hp
      simp only [Bool.and_eq_true, beq_iff_eq] at hp
      exact leads_property hp.1 hp.2
    · split
      · exact (((leads_name hc).followed halts_sectionArguments).append (halts_sectionBody h)).node _
      · exact .behind_report (.take hc)

theorem leads_memberUpTo (n : Nat) : (memberUpTo n).LeadsBelow n := by
  induction n with
  | zero => exact fun _ _ hn => absurd hn (Nat.not_lt_zero _)
  | succ n ih => exact fun _ hc hn => .look (leads_memberStep (ih.le (Nat.le_of_lt_succ hn)) hc)

theorem leads_member (hc : c.ahead ≠ []) : member.Leads c :=
  .look (leads_memberUpTo _ c hc (Nat.lt_succ_self _))

/-! ## Objects and files -/

theorem leads_extendsClause (hc : c.ahead ≠ []) : extendsClause.Leads c :=
  ((Leads.take hc).followed fun _ => halts_nameOr _).node _

theorem leads_interfaces (hc : c.ahead ≠ []) : interfaces.Leads c := by
  refine ((leads_name hc).followed fun _ => .whileAt fun d _ hd => ?_).followed fun _ =>
    halts_takeThen nofun fun _ _ => .report
  obtain ⟨hk, hn⟩ := Bool.and_eq_true_iff.mp hd
  have ht := Leads.take (ahead_of_isAt hk nofun)
  refine ⟨.append ht.halts (leads_name (ahead_rest_take fun he => ?_)).halts, ht.opens.append⟩
  simp [he, TokenKind.isName] at hn

theorem leads_implementsClause (hc : c.ahead ≠ []) : implementsClause.Leads c :=
  ((Leads.take hc).followed fun _ => .choose (fun h => (leads_interfaces (ahead_of_isName h)).halts)
    fun _ => .report).node _

theorem halts_headerRest (c : Cursor) : headerRest.Halts c :=
  .choose (fun _ => .skip) fun _ => .append .report <| .whileAt fun d _ hd =>
    .take fun ha => by simp [Cursor.atEnd, ha] at hd

theorem leads_header (hc : c.ahead ≠ []) : header.Leads c := by
  refine .followed (.followed (.followed (.followed (.followed (.take hc) fun d => ?_)
    fun _ => halts_nameOr _) fun d => ?_) fun d => ?_) halts_headerRest
  · exact .choose (fun h => ((Leads.take (ahead_of_isAt h nofun)).node _).halts) fun _ => .skip
  · exact .choose (fun h => (leads_extendsClause (ahead_of_isAt h nofun)).halts) fun _ => .skip
  · exact .choose (fun h => (leads_implementsClause (ahead_of_isAt h nofun)).halts) fun _ => .skip

theorem leads_object (k : NodeKind) (hc : c.ahead ≠ []) : (object k).Leads c :=
  ((leads_header hc).append (halts_memberList fun _ hd _ => leads_member hd)).node _

theorem leads_directive (k : NodeKind) (hc : c.ahead ≠ []) : (directive k).Leads c :=
  (((Leads.take hc).followed halts_clause).required (by decide)).node _

theorem leads_declaration (hc : c.ahead ≠ []) : declaration.Leads c := by
  refine .look ?_
  split
  · exact leads_directive _ hc
  · split
    · exact leads_directive _ hc
    · split
      · exact leads_object _ hc
      · exact .behind_report (.take hc)

theorem halts_declarations (c : Cursor) : declarations.Halts c :=
  .whileAt fun _ _ hd => leads_declaration fun ha => by simp [Cursor.atEnd, ha] at hd

end AlRefactor.Grammar
