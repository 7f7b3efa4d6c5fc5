import AlRefactor.Proofs.Grammar.Halting

/-!
# Identifiers are names

Whatever a text is like, an identifier in its trees has one token below it. Behind a selector this can be a
keyword, everywhere else it is a name. Only the names of variables are not asked for where they are read:
the rule that finds a variable looks past its attributes by their brackets alone, while the attributes are
read up to a brace at most. So a brace can end up as the name of a variable, and then its brackets are
reported.
-/

namespace AlRefactor

open AlRefactor.Tree

namespace Tree

/-- `.` or `::` -/
def isSelector : Tree → Bool
  | .leaf l => l.kind == .dot || l.kind == .colonColon
  | .node .. => false

/-- An identifier behind some siblings, by what is below it: one token, which is a name or, behind a selector,
a keyword. Where brackets need not fit it can be a brace. -/
def Denotes (fit : Prop) (before us : List Tree) : Prop :=
  ∃ l : Lexeme, us = [.leaf l] ∧
    (l.kind.isName ∨ (l.kind.isKeyword ∧ ∃ t ∈ before.getLast?, t.isSelector) ∨
      (¬fit ∧ l.kind ∈ [.lBrace, .rBrace]))

/-- Every identifier among some siblings is one. -/
def Identifying (fit : Prop) (ts : List Tree) : Prop :=
  ∀ before us after, ts = before ++ .node NodeKind.identifierName us :: after → Denotes fit before us

/-- Every identifier among some siblings and below them is one. -/
def Identified (fit : Prop) (ts : List Tree) : Prop :=
  Identifying fit ts ∧ EverywhereAll (fun _ => Identifying fit) ts

variable {fit : Prop} {ts us : List Tree}

theorem Denotes.append {before below : List Tree} (h : Denotes fit before below) (ts : List Tree) :
    Denotes fit (ts ++ before) below := by
  obtain ⟨l, hl, hk | ⟨hk, t, ht, hs⟩ | hk⟩ := h
  · exact ⟨l, hl, .inl hk⟩
  · exact ⟨l, hl, .inr (.inl ⟨hk, t, List.mem_getLast?_append_of_mem_getLast? ht, hs⟩)⟩
  · exact ⟨l, hl, .inr (.inr hk)⟩

theorem Identifying.append (h : Identifying fit ts) (h' : Identifying fit us) : Identifying fit (ts ++ us) := by
  intro before below after he
  obtain ⟨as, rfl, hu⟩ | ⟨bs, rfl, hb⟩ := List.append_eq_append_iff.mp he
  · exact (h' as below after hu).append ts
  · cases bs with
    | nil =>
        have hd := (h' [] below after hb.symm).append before
        rwa [List.append_nil] at hd
    | cons b bs =>
        obtain ⟨rfl, -⟩ := List.cons.inj hb
        exact h before below bs rfl

theorem Identifying.of_kinds (h : ∀ t ∈ ts, t.kind ≠ NodeKind.identifierName) : Identifying fit ts := by
  rintro before us after rfl
  exact absurd rfl (h (.node NodeKind.identifierName us) (by simp))

theorem Identified.nil : Identified fit [] := ⟨.of_kinds (List.forall_mem_nil _), trivial⟩

theorem Identified.append (h : Identified fit ts) (h' : Identified fit us) : Identified fit (ts ++ us) :=
  ⟨h.1.append h'.1, everywhereAll_append.mpr ⟨h.2, h'.2⟩⟩

theorem Identified.leaf (l : Lexeme) : Identified fit [.leaf l] :=
  ⟨.of_kinds fun _ ht => List.mem_singleton.mp ht ▸ nofun, trivial, trivial⟩

theorem Identified.node {k : Kind} (hk : k ≠ NodeKind.identifierName) (h : Identified fit ts) :
    Identified fit [.node k ts] :=
  ⟨.of_kinds fun _ ht => List.mem_singleton.mp ht ▸ hk, h, trivial⟩

/-- An identifier behind some siblings. -/
theorem Identified.identifier {before : List Tree} {l : Lexeme} (hb : Identified fit before)
    (h : Denotes fit before [.leaf l]) :
    Identified fit (before ++ [.node NodeKind.identifierName [.leaf l]]) := by
  refine ⟨fun as us bs he => ?_, everywhereAll_append.mpr ⟨hb.2, ⟨(Identified.leaf l).1, trivial, trivial⟩, trivial⟩⟩
  cases bs using List.reverseRecOn with
  | nil =>
      obtain ⟨rfl, hn⟩ := List.append_inj' he rfl
      obtain ⟨-, rfl⟩ := Tree.node.inj (List.singleton_inj.mp hn)
      exact h
  | append_singleton bs b =>
      rw [← List.cons_append, ← List.append_assoc] at he
      exact hb.1 as us bs (List.append_inj_left' he rfl)

end Tree

namespace Production

/-- The problems that brackets do not fit. -/
def Fitting (problems : List (Problem × Nat)) : Prop := ∀ x ∈ problems, x.1 ≠ .unbalancedBrackets

theorem fitting_append {ps qs : List (Problem × Nat)} : Fitting (ps ++ qs) ↔ Fitting ps ∧ Fitting qs :=
  List.forall_mem_append

end Production

namespace Grammar

open Production

variable {c : Cursor}

/-- Behind the attributes ahead there is what they are looked past for, or a brace that cut one of them off. -/
theorem rest_rounds_attributes_or (n : Nat) (c : Cursor) (hn : c.ahead.length ≤ n) :
    let a := Assembly.trees.rounds (·.isAt .lBracket) (node NodeKind.memberAttribute balanced).read n c
    a.rest.ahead = afterAttributes 0 c.ahead ∨ a.rest.kind ∈ [.lBrace, .rBrace] ∧ ¬Fitting a.problems := by
  induction n generalizing c with
  | zero =>
      have hc : c.ahead = [] := List.eq_nil_of_length_eq_zero (Nat.le_zero.mp hn)
      simp [Assembly.rounds, Assembly.idle, hc, afterAttributes]
  | succ n ih =>
      simp only [Assembly.rounds]
      split
      · rename_i ht
        have hk := kind_of_isAt ht
        have ha := balanced_advances c (.inl hk)
        simp only [Assembly.sequence, read_node]
        cases hu : (balancedLength 0 c.ahead).2 with
        | true =>
            -- No further attribute is read in front of the brace.
            obtain ⟨l, rest, hr, hl⟩ := balancedLength_cut 0 c.ahead hu
            rw [← rest_balanced] at hr
            have hb : (balanced.read c).rest.kind ∈ [.lBrace, .rBrace] := by
              rwa [Cursor.kind, Cursor.peek, hr]
            have ht : (balanced.read c).rest.isAt .lBracket = false := by
              refine Bool.eq_false_iff.mpr fun ht => ?_
              rw [kind_of_isAt ht] at hb
              exact absurd hb (by decide)
            have hf : ¬Fitting (balanced.read c).problems := fun hf =>
              hf (.unbalancedBrackets, ((takes (balancedLength 0 c.ahead).1).read c).rest.read)
                (by simp [balanced, hu]) rfl
            have hs : Assembly.trees.rounds (·.isAt .lBracket)
                (node NodeKind.memberAttribute balanced).read n (balanced.read c).rest =
                Assembly.trees.idle (balanced.read c).rest := by
              cases n <;> simp [Assembly.rounds, ht]
            rw [hs]
            exact .inr ⟨hb, fun h => hf (fitting_append.mp h).1⟩
        | false =>
            have hp : (balanced.read c).problems = [] := by
              simp [balanced, hu, made_takes]
            rw [afterAttributes_balanced hk hp]
            exact (ih _ (by omega)).imp_right fun h => ⟨h.1, fun hf => h.2 (fitting_append.mp hf).2⟩
      · rename_i ht
        obtain ⟨m, ls⟩ := c
        cases ls with
        | nil => exact .inl rfl
        | cons l ls =>
            have hk : l.kind ≠ .lBracket := by simpa [Cursor.isAt, Cursor.kind, Cursor.peek] using ht
            simp [Assembly.idle, afterAttributes]

theorem rest_attributes_or (c : Cursor) :
    (attributes.read c).rest.ahead = afterAttributes 0 c.ahead ∨
      (attributes.read c).rest.kind ∈ [.lBrace, .rBrace] ∧ ¬Fitting (attributes.read c).problems :=
  rest_rounds_attributes_or _ c (Nat.le_refl _)

/-- What is found to be a variable has its name behind its attributes, unless a brace cuts one of them off. -/
theorem kind_rest_attributes {fit : Prop} (h : atVariable c = true)
    (hf : fit → Fitting (attributes.read c).problems) :
    (attributes.read c).rest.kind.isName ∨ (¬fit ∧ (attributes.read c).rest.kind ∈ [.lBrace, .rBrace]) := by
  refine (rest_attributes_or c).imp (fun hr => ?_) fun hb => ⟨fun hfit => hb.2 (hf hfit), hb.1⟩
  unfold atVariable at h
  split at h
  · rename_i l m ls he
    rw [Cursor.kind, Cursor.peek, hr, he]
    exact (Bool.and_eq_true_iff.mp h).1
  · cases h

/-- What is read first behind the attributes of a variable is its name, or that of the first one of several. -/
theorem made_behind_attributes (n : Nat) (l m : Lexeme) (ls : List Lexeme) (p q : Production) :
    ∃ ts, ((choose (·.peek 1 == .comma) (listedName ++ furtherNames) name ++ p ++ q).read ⟨n, l :: m :: ls⟩).made =
      (if m.kind == .comma then .node NodeKind.variableDeclarationName [.node NodeKind.identifierName [.leaf l]]
        else .node NodeKind.identifierName [.leaf l]) :: ts := by
  have hm : (⟨n, l :: m :: ls⟩ : Cursor).peek 1 = m.kind := rfl
  rw [read_append, read_append, read_choose, hm]
  split
  · exact ⟨_, rfl⟩
  · exact ⟨_, rfl⟩

/-- The name that the lookahead for a variable announces is the one that the variable gets, unless a brace cuts
an attribute off. -/
theorem made_announced (h : atVariable c = true) (hf : Fitting (attributes.read c).problems) :
    ∃ l m ls ts, afterAttributes 0 c.ahead = l :: m :: ls ∧ l.kind.isName ∧
      (variableDeclaration.read c).made =
        [.node (if m.kind == .comma then NodeKind.variableListDeclaration else NodeKind.variableDeclaration)
          ((attributes.read c).made ++
            (if m.kind == .comma then
              .node NodeKind.variableDeclarationName [.node NodeKind.identifierName [.leaf l]]
            else .node NodeKind.identifierName [.leaf l]) :: ts)] := by
  have hr := (rest_attributes_or c).resolve_right fun hb => hb.2 hf
  unfold atVariable at h
  split at h
  · rename_i l m ls ha
    rw [ha] at hr
    obtain ⟨n, ahead, hd⟩ : ∃ n ahead, (attributes.read c).rest = ⟨n, ahead⟩ := ⟨_, _, rfl⟩
    rw [hd] at hr
    obtain rfl : ahead = l :: m :: ls := hr
    obtain ⟨ts, hts⟩ := made_behind_attributes n l m ls typed (require .semicolon)
    refine ⟨l, m, ls, ts, ha, (Bool.and_eq_true_iff.mp h).1, ?_⟩
    rw [variableDeclaration, read_mark, hd, hts]
    have hm : (⟨n, l :: m :: ls⟩ : Cursor).peek 1 = m.kind := rfl
    rw [hm]
  · cases h

end Grammar

namespace Production

/-- If brackets fit wherever they have to, all identifiers that a production makes are some. -/
def Identifies (fit : Prop) (p : Production) (c : Cursor) : Prop :=
  (fit → Fitting (p.read c).problems) → Identified fit (p.read c).made

namespace Identifies

open Grammar (Inner ne_of_follower ne_of_operator)

variable {fit : Prop} {p q : Production} {c : Cursor}

/-! ## For each way to put productions together -/

theorem skip : Identifies fit skip c := fun _ => .nil

theorem take : Identifies fit take c := fun _ => by
  obtain ⟨n, _ | ⟨l, ls⟩⟩ := c
  · exact .nil
  · exact .leaf l

theorem report {problem : Problem} : Identifies fit (report problem) c := fun _ => .nil

theorem append (hp : Identifies fit p c) (hq : Identifies fit q (p.read c).rest) : Identifies fit (p ++ q) c :=
  fun h => (hp fun hf => (fitting_append.mp (h hf)).1).append (hq fun hf => (fitting_append.mp (h hf)).2)

theorem look {next : Cursor → Production} (h : Identifies fit (next c) c) : Identifies fit (look next) c := h

theorem choose {test : Cursor → Bool} (hp : test c = true → Identifies fit p c) (hq : Identifies fit q c) :
    Identifies fit (choose test p q) c := by
  rw [Identifies, read_choose]
  split
  · exact hp ‹_›
  · exact hq

theorem whileAt {test : Cursor → Bool} (hp : ∀ d, test d = true → Identifies fit p d) :
    Identifies fit (whileAt test p) c := by
  rw [Identifies, read_whileAt]
  generalize c.ahead.length = n
  induction n generalizing c with
  | zero => exact fun _ => .nil
  | succ n ih =>
      simp only [Assembly.rounds]
      split
      · exact fun h => (hp c ‹_› fun hf => (fitting_append.mp (h hf)).1).append
          (ih fun hf => (fitting_append.mp (h hf)).2)
      · exact fun _ => .nil

theorem mark {kind : Cursor → Kind} (hk : ∀ d, kind d ≠ NodeKind.identifierName) (h : Identifies fit (p ++ q) c) :
    Identifies fit (mark p kind q) c :=
  fun hn => (h hn).node (hk _)

theorem node {k : Kind} (hk : k ≠ NodeKind.identifierName) (h : Identifies fit p c) :
    Identifies fit (node k p) c :=
  .mark (fun _ => hk) (.append h .skip)

theorem grow {kind : Cursor → Option NodeKind} (hk : ∀ d k, kind d = some k → k ≠ .identifierName)
    (hp : Identifies fit p c) (hq : ∀ d, (kind d).isSome → Identifies fit q d) :
    Identifies fit (grow p kind q) c := by
  rw [Identifies, read_grow]
  split
  · rw [Identifies] at hp
    generalize (p.read c).rest.ahead.length = n
    generalize p.read c = a at hp ⊢
    induction n generalizing a with
    | zero => exact hp
    | succ n ih =>
        simp only [Assembly.grown]
        split
        · exact hp
        · rename_i k hd
          refine ih _ fun h => .node (fun he => hk _ k hd (Kind.node.inj he)) ?_
          exact (hp fun hf => (fitting_append.mp (h hf)).1).append
            (hq _ (hd ▸ rfl) fun hf => (fitting_append.mp (h hf)).2)
  · exact hp

theorem takes (n : Nat) : Identifies fit (takes n) c := by
  induction n generalizing c with
  | zero => exact .skip
  | succ n ih => exact .append .take ih

theorem balanced : Identifies fit balanced c := by
  refine .append (.takes _) ?_
  split
  · exact .report
  · exact .skip

theorem clause : Identifies fit clause c := .takes _

theorem takeIf (k : TokenKind) : Identifies fit (takeIf k) c := .choose (fun _ => .take) .skip

theorem expect (k : TokenKind) (missing : Problem) : Identifies fit (expect k missing) c :=
  .choose (fun _ => .take) .report

theorem require (k : TokenKind) : Identifies fit (require k) c := .expect _ _

theorem takeThen {k : TokenKind} (h : ∀ d, Identifies fit p d) : Identifies fit (takeThen k p) c :=
  .choose (fun _ => .append .take (h _)) .skip

theorem requireThen {k : TokenKind} (h : ∀ d, Identifies fit p d) : Identifies fit (requireThen k p) c :=
  .choose (fun _ => .append .take (h _)) .report

/-! ## Names -/

theorem name (h : c.kind.isName ∨ (¬fit ∧ c.kind ∈ [.lBrace, .rBrace])) : Identifies fit name c := by
  obtain ⟨n, _ | ⟨l, ls⟩⟩ := c
  · exact absurd h (by simp [Cursor.kind, Cursor.peek, TokenKind.isName])
  · have hd : Denotes fit [] [.leaf l] := ⟨l, rfl, h.imp_right .inr⟩
    exact fun _ => Identified.identifier .nil hd

theorem nameOr (missing : Problem) : Identifies fit (nameOr missing) c :=
  .choose (fun h => .name (.inl h)) .report

/-- Behind a selector a keyword is a name as well. -/
theorem selector {missing : Problem} (hc : c.kind = .dot ∨ c.kind = .colonColon) :
    Identifies fit (Grammar.selector missing) c := by
  obtain ⟨n, _ | ⟨s, ls⟩⟩ := c
  · exact absurd hc (by simp [Cursor.kind, Cursor.peek])
  · have hc : s.kind = .dot ∨ s.kind = .colonColon := hc
    have hs : isSelector (.leaf s) := by simpa [isSelector] using hc
    rw [Grammar.selector, Identifies, read_append, read_take_cons, read_choose]
    split
    · rename_i hk
      obtain _ | ⟨l, ls⟩ := ls
      · exact absurd hk (by simp [Cursor.kind, Cursor.peek, TokenKind.isName, TokenKind.isKeyword])
      · have hk : l.kind.isName ∨ l.kind.isKeyword := Bool.or_eq_true_iff.mp hk
        exact fun _ => (Identified.leaf s).identifier
          ⟨l, rfl, hk.imp_right fun hk => .inl ⟨hk, _, rfl, hs⟩⟩
    · exact fun _ => .leaf s

/-! ## Expressions -/

section Expression

variable {inner : Inner} (hi : ∀ allowIn power d, Identifies fit (inner allowIn power) d)
include hi

theorem bracketed (close : TokenKind) : Identifies fit (Grammar.bracketed inner close) c := by
  have he {d : Cursor} : Identifies fit (Grammar.expressions inner) d :=
    .append (hi _ _ _) (.whileAt fun _ _ => .append .take (hi _ _ _))
  exact .append (.append .take (.choose (fun _ => .skip) he)) (.require _)

theorem primary : Identifies fit (Grammar.primary inner) c := by
  refine .look ?_
  split
  · exact .node (by decide) .take
  split
  · exact .name (.inl ‹_›)
  split
  · exact .node (by decide) (.append (.append .take (hi _ _ _)) (.require _))
  · exact .node (by decide) (.bracketed hi _)
  · exact .append .report (.choose (fun _ => .skip) .take)

theorem suffix : Identifies fit (Grammar.suffix inner) c := by
  refine .look ?_
  split
  · exact .selector (.inl ‹_›)
  · exact .selector (.inr ‹_›)
  · exact .node (by decide) (.bracketed hi _)
  · exact .node (by decide) (.bracketed hi _)

theorem operand (allowIn : Bool) : Identifies fit (Grammar.operand inner allowIn) c := by
  refine .look ?_
  split
  · exact .node (by decide) (.append .take (hi _ _ _))
  · exact .grow (fun _ _ => ne_of_follower) (.primary hi) fun _ _ => .suffix hi

end Expression

theorem expressionUpTo (n : Nat) (allowIn : Bool) (power : Nat) :
    Identifies fit (Grammar.expressionUpTo n allowIn power) c := by
  induction n generalizing allowIn power c with
  | zero => exact .skip
  | succ n ih =>
      have hi (allowIn : Bool) (power : Nat) (d : Cursor) := ih allowIn power (c := d)
      exact .grow (fun _ _ => ne_of_operator) (.operand hi _) fun _ _ => .append .take (hi _ _ _)

theorem expression : Identifies fit Grammar.expression c := .expressionUpTo _ _ _

theorem expressionWithoutIn : Identifies fit Grammar.expressionWithoutIn c := .expressionUpTo _ _ _

/-! ## Types and parameters -/

theorem typeUpTo (n : Nat) : Identifies fit (Grammar.typeUpTo n) c := by
  induction n generalizing c with
  | zero => exact .skip
  | succ n ih =>
      have hb {test : Cursor → Bool} {d : Cursor} :
          Identifies fit (Production.choose test Production.balanced Production.skip) d :=
        .choose (fun _ => .balanced) .skip
      have ht (word : Text) {d : Cursor} :
          Identifies fit (Grammar.typeTail word (Grammar.typeUpTo n)) d := by
        unfold Grammar.typeTail
        split
        · exact .takeThen fun _ => ih
        split
        · exact .takeThen fun _ => hb
        split
        · exact .clause
        split
        · exact .append (.append (.choose (fun _ => .take) .skip) (.choose (fun _ => .take) .skip))
            (.choose (fun _ => .append .take hb) .skip)
        · exact .skip
      refine .look ?_
      split
      · exact .append (.append .take hb) (ht _)
      · exact .report

theorem typeReference : Identifies fit Grammar.typeReference c := .node (by decide) (.typeUpTo _)

theorem typed : Identifies fit Grammar.typed c := .requireThen fun _ => .typeReference

theorem parameter : Identifies fit Grammar.parameter c :=
  .node (by decide) (.append (.append (.takeIf _) (.nameOr _)) .typed)

theorem noParameter : Identifies fit Grammar.noParameter c := .choose (fun _ => .skip) .report

theorem parameters : Identifies fit Grammar.parameters c :=
  .append (.append .parameter (.whileAt fun _ _ => .append .take .parameter)) (.takeThen fun _ => .noParameter)

theorem parameterList : Identifies fit Grammar.parameterList c :=
  .node (by decide) (.append (.append .take (.choose (fun _ => .parameters) .noParameter)) (.require _))

theorem returnValue : Identifies fit Grammar.returnValue c :=
  .node (by decide)
    (.append (.append (.choose (fun h => .name (.inl h)) .skip) .take) .typeReference)

/-! ## Variables -/

theorem attributes : Identifies fit Grammar.attributes c := .whileAt fun _ _ => .node (by decide) .balanced

theorem listedName (h : c.kind.isName ∨ (¬fit ∧ c.kind ∈ [.lBrace, .rBrace])) :
    Identifies fit Grammar.listedName c := .node (by decide) (.name h)

theorem furtherNames : Identifies fit Grammar.furtherNames c := by
  refine .append (.whileAt fun d hd => .append .take (.listedName (.inl ?_))) (.takeThen fun _ => .report)
  rw [Grammar.kind_rest_take]
  exact (Bool.and_eq_true_iff.mp hd).2

/-- What is found to be a variable has its name behind its attributes. -/
theorem variableDeclaration (h : Grammar.atVariable c = true) :
    Identifies fit Grammar.variableDeclaration c := by
  intro hn
  have hk := Grammar.kind_rest_attributes h fun hf => (fitting_append.mp (hn hf)).1
  revert hn
  refine Identifies.mark (fun d => ?_) (.append .attributes (.append (.append (.choose ?_ (.name hk)) .typed)
    (.require _)))
  · split <;> decide
  · exact fun _ => .append (.listedName hk) .furtherNames

theorem varSection {k : NodeKind} (hk : k ≠ .identifierName) : Identifies fit (Grammar.varSection k) c :=
  .node (fun h => hk (Kind.node.inj h))
    (.append (.append (.takeIf _) .take) (.whileAt fun _ => .variableDeclaration))

/-! ## Statements -/

section Statement

theorem separator : Identifies fit Grammar.separator c := by
  have hr {d : Cursor} : Identifies fit Grammar.recover d := .append (.whileAt fun _ _ => .take) (.takeIf _)
  exact .choose (fun _ => .take) (.choose (fun _ => .skip) (.append .report (.choose (fun _ => .skip) hr)))

variable (hi : ∀ d, Identifies fit p d)
include hi

theorem statements (close : TokenKind) : Identifies fit (Grammar.statements p close) c :=
  .whileAt fun d _ => hi d

theorem controlled : Identifies fit (Grammar.controlled p) c := .choose (fun _ => .skip) (hi c)

theorem blockBody : Identifies fit (Grammar.blockBody p) c :=
  .append (.append .take (.statements hi _)) (.require _)

theorem ifStatement : Identifies fit (Grammar.ifStatement p) c :=
  .node (by decide) <| .append (.append (.append (.append .take .expression) (.require _)) (.controlled hi))
    (.choose (fun _ => .node (by decide) (.append .take (.controlled hi))) .skip)

theorem caseStatement : Identifies fit (Grammar.caseStatement p) c := by
  have hl {d : Cursor} : Identifies fit (Grammar.caseLine p) d := .node (by decide) <|
    .append (.append (.append .expression (.whileAt fun _ _ => .append .take .expression)) (.require _))
      (.controlled hi)
  have he {d : Cursor} : Identifies fit
      (Production.node NodeKind.caseElse (Production.take ++ Grammar.statements p .kwEnd)) d :=
    .node (by decide) (.append .take (.statements hi _))
  refine .node (by decide) (.append (.append (.append ?_ (.choose (fun _ => he) .skip)) (.require _)) .separator)
  exact .append (.append (.append .take .expression) (.require _)) (.whileAt fun _ _ => hl)

theorem guarded {k : NodeKind} (hk : k ≠ .identifierName) : Identifies fit (Grammar.guarded k p) c :=
  .node (fun h => hk (Kind.node.inj h))
    (.append (.append (.append .take .expression) (.require _)) (.controlled hi))

theorem repeatStatement : Identifies fit (Grammar.repeatStatement p) c :=
  .node (by decide)
    (.append (.append (.append .take (.statements hi _)) (.requireThen fun _ => .expression)) .separator)

theorem forStatement : Identifies fit (Grammar.forStatement p) c := by
  refine .node (by decide) (.append (.append (.append ?_ ?_) (.require _)) (.controlled hi))
  · exact .append (.append .take .expression) (.requireThen fun _ => .expression)
  · exact .choose (fun _ => .append .take .expression) .report

theorem forEachStatement : Identifies fit (Grammar.forEachStatement p) c := by
  refine .node (by decide) (.append (.append (.append ?_ ?_) (.require _)) (.controlled hi))
  · exact .append .take .expressionWithoutIn
  · exact .requireThen fun _ => .expression

omit hi in
theorem exitStatement : Identifies fit Grammar.exitStatement c :=
  .node (by decide) <| .append (.append .take
    (.takeThen fun _ => .append (.choose (fun _ => .skip) .expression) (.require _))) .separator

omit hi in
theorem assignmentOrCall : Identifies fit Grammar.assignmentOrCall c := by
  refine .mark (fun d => ?_) (.append .expression
    (.append (.choose (fun _ => .append .take .expression) .skip) .separator))
  repeat' split
  all_goals decide

end Statement

theorem statementUpTo (n : Nat) : Identifies fit (Grammar.statementUpTo n) c := by
  induction n generalizing c with
  | zero => exact .skip
  | succ n ih =>
      have hi (d : Cursor) := ih (c := d)
      refine .look (.look ?_)
      split
      · exact .node (by decide) (.append (.blockBody hi) .separator)
      · exact .ifStatement hi
      · exact .caseStatement hi
      · exact .guarded hi (by decide)
      · exact .guarded hi (by decide)
      · exact .repeatStatement hi
      · exact .forStatement hi
      · exact .forEachStatement hi
      · exact .exitStatement
      · exact .node (by decide) .take
      · split
        · exact .assignmentOrCall
        · exact .append .report .take

theorem block : Identifies fit Grammar.block c :=
  .node (by decide) (.blockBody fun _ => .look (.statementUpTo _))

/-! ## Members and files -/

theorem method : Identifies fit Grammar.method c := by
  have hr {d : Cursor} : Identifies fit Grammar.methodRest d := by
    refine .append (.append (.append (.append (.append (.nameOr _) ?_) ?_) (.takeIf _)) ?_) ?_
    · exact .choose (fun _ => .parameterList) .report
    · exact .choose (fun _ => .returnValue) .skip
    · exact .choose (fun _ => .varSection (by decide)) .skip
    · exact .choose (fun _ => .append .block (.takeIf _)) .skip
  refine .mark (fun d => ?_) (.append (.append .attributes (.whileAt fun _ _ => .take))
    (.choose (fun _ => .append .take hr) .report))
  repeat' split
  all_goals decide

theorem property (h : c.kind.isName) : Identifies fit Grammar.property c :=
  .node (by decide) (.append (.append (.append (.name (.inl h)) .take) .clause) (.require _))

theorem memberList (h : ∀ d, Identifies fit p d) : Identifies fit (Grammar.memberList p) c :=
  .takeThen fun _ => .append (.whileAt fun d _ => h d) (.require _)

theorem sectionOf (h : ∀ d, Identifies fit p d) (hc : c.kind.isName) :
    Identifies fit (Grammar.sectionOf p) c := by
  refine .node (by decide) (.append (.append (.name (.inl hc)) ?_) (.choose (fun _ => .memberList h) (.expect _ _)))
  exact .choose (fun _ => .node (by decide) .balanced) .skip

theorem memberUpTo (n : Nat) : Identifies fit (Grammar.memberUpTo n) c := by
  induction n generalizing c with
  | zero => exact .skip
  | succ n ih =>
      refine .look (.look ?_)
      split
      · exact .varSection (by decide)
      · exact .method
      · exact .method
      · exact .method
      · exact .method
      · exact .method
      · split
        · exact .varSection (by decide)
        · exact .method
      · exact .take
      · split
        · exact .property (Bool.and_eq_true_iff.mp ‹_›).1
        split
        · rename_i hk
          have hc : c.kind = .ident := beq_iff_eq.mp (Bool.and_eq_true_iff.mp hk).1
          exact .sectionOf (fun _ => ih) (by rw [hc]; rfl)
        · exact .append .report .take

theorem interfaces (h : c.kind.isName) : Identifies fit Grammar.interfaces c := by
  refine .append (.append (.name (.inl h)) (.whileAt fun d hd => .append .take (.name (.inl ?_))))
    (.takeThen fun _ => .report)
  rw [Grammar.kind_rest_take]
  exact (Bool.and_eq_true_iff.mp hd).2

theorem header : Identifies fit Grammar.header c := by
  refine .append (.append (.append (.append (.append .take ?_) (.nameOr _)) ?_) ?_) ?_
  · exact .choose (fun _ => .node (by decide) .take) .skip
  · exact .choose (fun _ => .node (by decide) (.append .take (.nameOr _))) .skip
  · exact .choose (fun _ => .node (by decide) (.append .take (.choose .interfaces .report))) .skip
  · exact .choose (fun _ => .skip) (.append .report (.whileAt fun _ _ => .take))

theorem directive {k : NodeKind} (hk : k ≠ .identifierName) : Identifies fit (Grammar.directive k) c :=
  .node (fun h => hk (Kind.node.inj h)) (.append (.append .take .clause) (.require _))

theorem declaration : Identifies fit Grammar.declaration c := by
  refine .look ?_
  split
  · exact .directive (by decide)
  split
  · exact .directive (by decide)
  split
  · rename_i k hk
    refine .node (fun h => ?_) (.append .header (.memberList fun _ => .look (.memberUpTo _)))
    split at hk
    · exact Grammar.ne_of_ofObjectWord? hk (Kind.node.inj h)
    · cases hk
  · exact .append .report .take

/-- All identifiers of a file are some. -/
theorem declarations : Identifies fit Grammar.declarations c := .whileAt fun _ _ => .declaration

end Identifies

end Production

end AlRefactor
