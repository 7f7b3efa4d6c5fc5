import AlRefactor.Proofs.Grammar.Nodes

/-!
# Properties that all productions share

A property of productions that every way to put productions together keeps holds of the grammar, as
soon as it holds of expressions and of the nodes that have something of their own to them.
-/

namespace AlRefactor

namespace Production

/-- Kinds of nodes in declarations for which it is not enough that what is below them has a
property. -/
def ownDeclarations : List Kind :=
  [NodeKind.varSection, .globalVarSection, .memberAttribute, .sectionArguments].map .node

/-- The same among all nodes but those of expressions. -/
def ownBodies : List Kind :=
  [NodeKind.ifStatement, .forEachStatement].map .node ++ ownDeclarations

/-- Kinds of nodes for which it is not enough that what is below them has a property. -/
def ownKinds : List Kind :=
  [NodeKind.binaryExpression, .rangeExpression].map .node ++ ownBodies

/-- A property of productions that all ways to put productions together keep, those apart that grow
expressions or make nodes of some kinds. -/
structure Hereditary (K : Production → Prop) : Prop where
  skip : K skip
  take : K take
  report (problem : Problem) : K (report problem)
  append {p q : Production} : K p → K q → K (p ++ q)
  look {next : Cursor → Production} : (∀ c, K (next c)) → K (look next)
  whileAt {test : Cursor → Bool} {p : Production} : K p → K (whileAt test p)
  mark {p q : Production} {kind : Cursor → Kind} :
    (∀ d, kind d ∉ ownKinds) → K p → K q → K (mark p kind q)

namespace Hereditary

open Grammar

variable {K : Production → Prop} {p q : Production}

section

variable (h : Hereditary K)
include h

theorem choose {test : Cursor → Bool} (hp : K p) (hq : K q) : K (Production.choose test p q) := by
  refine h.look fun c => ?_
  split
  · exact hp
  · exact hq

theorem node {k : Kind} (hk : k ∉ ownKinds) (hp : K p) : K (Production.node k p) :=
  h.mark (fun _ => hk) hp h.skip

theorem takeIf (k : TokenKind) : K (Production.takeIf k) := h.choose h.take h.skip

theorem expect (k : TokenKind) (missing : Problem) : K (Production.expect k missing) :=
  h.choose h.take (h.report _)

theorem require (k : TokenKind) : K (Production.require k) := h.expect _ _

theorem takeThen (k : TokenKind) (hp : K p) : K (Production.takeThen k p) :=
  h.choose (h.append h.take hp) h.skip

theorem requireThen (k : TokenKind) (hp : K p) : K (Production.requireThen k p) :=
  h.choose (h.append h.take hp) (h.report _)

theorem name : K Production.name := h.node (by decide) h.take

theorem nameOr (missing : Problem) : K (Production.nameOr missing) := h.choose h.name (h.report _)

theorem takes (n : Nat) : K (Production.takes n) := by
  induction n with
  | zero => exact h.skip
  | succ n ih => exact h.append h.take ih

theorem balanced : K Production.balanced := by
  refine h.look fun c => h.append (h.takes _) ?_
  split
  · exact h.report _
  · exact h.skip

theorem clause : K Production.clause := h.look fun _ => h.takes _

/-! ## Parts of expressions -/

section Expression

variable {inner : Inner} (hi : ∀ allowIn power, K (inner allowIn power))
include hi

theorem expressions : K (Grammar.expressions inner) :=
  h.append (hi _ _) (h.whileAt (h.append h.take (hi _ _)))

theorem bracketed (close : TokenKind) : K (Grammar.bracketed inner close) :=
  h.append (h.append h.take (h.choose h.skip (h.expressions hi))) (h.require _)

theorem argumentList (close : TokenKind) : K (Grammar.argumentList inner close) :=
  h.node (by decide) (h.bracketed hi close)

theorem primary : K (Grammar.primary inner) := by
  refine h.look fun c => ?_
  split
  · exact h.node (by decide) h.take
  · split
    · exact h.name
    · split
      · exact h.node (by decide) (h.append (h.append h.take (hi _ _)) (h.require _))
      · exact h.node (by decide) (h.bracketed hi _)
      · exact h.append (h.report _) (h.choose h.skip h.take)

omit hi in
theorem selector (missing : Problem) : K (Grammar.selector missing) :=
  h.append h.take (h.choose h.name (h.report _))

theorem suffix : K (Grammar.suffix inner) := by
  refine h.look fun c => ?_
  split
  · exact h.selector _
  · exact h.selector _
  · exact h.argumentList hi _
  · exact h.argumentList hi _

end Expression

/-! ## Declarations -/

theorem typeTail (word : Text) (hp : K p) : K (Grammar.typeTail word p) := by
  unfold Grammar.typeTail
  split
  · exact h.takeThen _ hp
  split
  · exact h.takeThen _ (h.choose h.balanced h.skip)
  split
  · exact h.clause
  split
  · refine h.append (h.append (h.choose h.take h.skip) (h.choose h.take h.skip)) ?_
    exact h.choose (h.append h.take (h.choose h.balanced h.skip)) h.skip
  · exact h.skip

theorem typeUpTo (n : Nat) : K (Grammar.typeUpTo n) := by
  induction n with
  | zero => exact h.skip
  | succ n ih =>
      refine h.look fun c => ?_
      split
      · exact h.append (h.append h.take (h.choose h.balanced h.skip)) (h.typeTail _ ih)
      · exact h.report _

theorem typeReference : K Grammar.typeReference :=
  h.node (by decide) (h.look fun _ => h.typeUpTo _)

theorem typed : K Grammar.typed := h.requireThen _ h.typeReference

theorem parameterList : K Grammar.parameterList := by
  have hp : K parameter := h.node (by decide) (h.append (h.append (h.takeIf _) (h.nameOr _)) h.typed)
  have hn : K noParameter := h.choose h.skip (h.report _)
  refine h.node (by decide) (h.append (h.append h.take (h.choose ?_ hn)) (h.require _))
  exact h.append (h.append hp (h.whileAt (h.append h.take hp))) (h.takeThen _ hn)

theorem returnValue : K Grammar.returnValue :=
  h.node (by decide) (h.append (h.append (h.choose h.name h.skip) h.take) h.typeReference)

theorem property : K Grammar.property :=
  h.node (by decide) (h.append (h.append (h.append h.name h.take) h.clause) (h.require _))

theorem directive {k : NodeKind} (hk : .node k ∉ ownKinds) : K (Grammar.directive k) :=
  h.node hk (h.append (h.append h.take h.clause) (h.require _))

theorem header : K Grammar.header := by
  have hx : K extendsClause := h.node (by decide) (h.append h.take (h.nameOr _))
  have hf : K interfaces := h.append (h.append h.name (h.whileAt (h.append h.take h.name)))
    (h.takeThen _ (h.report _))
  have hm : K implementsClause :=
    h.node (by decide) (h.append h.take (h.choose hf (h.report _)))
  have hr : K headerRest := h.choose h.skip (h.append (h.report _) (h.whileAt h.take))
  refine h.append (h.append (h.append (h.append (h.append h.take ?_) (h.nameOr _)) ?_) ?_) hr
  · exact h.choose (h.node (by decide) h.take) h.skip
  · exact h.choose hx h.skip
  · exact h.choose hm h.skip

end

/-! ## Expressions as a whole -/

section Growth

variable (h : Hereditary K)
  (hg : ∀ {p q : Production} {kind : Cursor → Option NodeKind},
    (∀ c k, kind c = some k → .node k ∉ ownBodies) → K p → K q → K (.grow p kind q))
include h hg

theorem expressionUpTo (n : Nat) (allowIn : Bool) (power : Nat) :
    K (Grammar.expressionUpTo n allowIn power) := by
  induction n generalizing allowIn power with
  | zero => exact h.skip
  | succ n ih =>
      have ho : K (Grammar.operand (Grammar.expressionUpTo n) allowIn) := by
        refine h.look fun c => ?_
        split
        · exact h.node (by decide) (h.append h.take (ih _ _))
        · refine hg (fun c k hk => ?_) (h.primary ih) (h.suffix ih)
          unfold follower at hk
          split at hk
          all_goals cases hk
          all_goals decide
      refine h.look fun _ => hg (fun c k hk => ?_) ho (h.look fun _ => h.append h.take (ih _ _))
      unfold operator at hk
      repeat' split at hk
      all_goals cases hk
      all_goals decide

theorem expression : K Grammar.expression := h.look fun _ => h.expressionUpTo hg _ _ _

theorem expressionWithoutIn : K Grammar.expressionWithoutIn :=
  h.look fun _ => h.expressionUpTo hg _ _ _

end Growth

/-! ## Variables -/

section Variables

variable (h : Hereditary K) (ha : K attributes)
include h ha

theorem variableDeclaration : K Grammar.variableDeclaration := by
  refine h.mark (fun d => ?_) ha (h.append (h.append ?_ h.typed) (h.require _))
  · split <;> decide
  · have hl : K listedName := h.node (by decide) h.name
    refine h.choose (h.append hl (h.append ?_ (h.takeThen _ (h.report _)))) h.name
    exact h.whileAt (h.append h.take hl)

/-- What a section of variables consists of. -/
theorem sectionVariables :
    K (Production.takeIf .kwProtected ++ .take ++ .whileAt atVariable Grammar.variableDeclaration) :=
  h.append (h.append (h.takeIf _) h.take) (h.whileAt (h.variableDeclaration ha))

end Variables

/-! ## Statements -/

section Statement

variable (h : Hereditary K) (he : K Grammar.expression)
include h

theorem separator : K Grammar.separator := by
  have hr : K recover := h.append (h.whileAt h.take) (h.takeIf _)
  exact h.choose h.take (h.choose h.skip (h.append (h.report _) (h.choose h.skip hr)))

theorem statements (close : TokenKind) (hp : K p) : K (Grammar.statements p close) := h.whileAt hp

theorem controlled (hp : K p) : K (Grammar.controlled p) := h.choose h.skip hp

theorem blockBody (hp : K p) : K (Grammar.blockBody p) :=
  h.append (h.append h.take (h.statements _ hp)) (h.require _)

include he

/-- What stands in front of the `else` of a conditional statement. -/
theorem ifParts (hp : K p) :
    K (.take ++ Grammar.expression ++ Production.require .kwThen ++ Grammar.controlled p) :=
  h.append (h.append (h.append h.take he) (h.require _)) (h.controlled hp)

/-- What a conditional statement consists of. -/
theorem conditional (hp : K p) :
    K (.take ++ Grammar.expression ++ Production.require .kwThen ++ Grammar.controlled p ++
      Production.choose (·.isAt .kwElse)
        (Production.node NodeKind.elseClause (.take ++ Grammar.controlled p)) .skip) :=
  h.append (h.ifParts he hp) (h.choose (h.node (by decide) (h.append h.take (h.controlled hp))) h.skip)

theorem caseStatement (hp : K p) : K (Grammar.caseStatement p) := by
  have hl : K (caseLine p) := h.node (by decide) (h.append (h.append (h.append he
    (h.whileAt (h.append h.take he))) (h.require _)) (h.controlled hp))
  have hs : K (Production.choose (·.isAt .kwElse)
      (.node NodeKind.caseElse (.take ++ Grammar.statements p .kwEnd)) .skip) :=
    h.choose (h.node (by decide) (h.append h.take (h.statements _ hp))) h.skip
  refine h.node (by decide) (h.append (h.append (h.append ?_ hs) (h.require _)) h.separator)
  exact h.append (h.append (h.append h.take he) (h.require _)) (h.whileAt hl)

theorem guarded {k : NodeKind} (hk : .node k ∉ ownKinds) (hp : K p) : K (Grammar.guarded k p) :=
  h.node hk (h.append (h.append (h.append h.take he) (h.require _)) (h.controlled hp))

theorem repeatStatement (hp : K p) : K (Grammar.repeatStatement p) :=
  h.node (by decide) (h.append (h.append (h.append h.take (h.statements _ hp))
    (h.requireThen _ he)) h.separator)

theorem forStatement (hp : K p) : K (Grammar.forStatement p) := by
  refine h.node (by decide) (h.append (h.append (h.append ?_ ?_) (h.require _)) (h.controlled hp))
  · exact h.append (h.append h.take he) (h.requireThen _ he)
  · exact h.choose (h.append h.take he) (h.report _)

/-- What a loop over a collection consists of. -/
theorem loopParts (hw : K Grammar.expressionWithoutIn) (hp : K p) :
    K (.take ++ Grammar.expressionWithoutIn ++ Production.requireThen .kwIn Grammar.expression ++
      Production.require .kwDo ++ Grammar.controlled p) :=
  h.append (h.append (h.append (h.append h.take hw) (h.requireThen _ he)) (h.require _))
    (h.controlled hp)

theorem exitStatement : K Grammar.exitStatement := by
  refine h.node (by decide) (h.append (h.append h.take (h.takeThen _ ?_)) h.separator)
  exact h.append (h.choose h.skip he) (h.require _)

theorem assignmentOrCall : K Grammar.assignmentOrCall := by
  refine h.mark (fun d => ?_) he (h.append (h.choose (h.append h.take he) h.skip) h.separator)
  repeat' split
  all_goals decide

variable (hi : ∀ p, K p → K (ifStatement p)) (hf : ∀ p, K p → K (forEachStatement p))
include hi hf

theorem statementUpTo (n : Nat) : K (Grammar.statementUpTo n) := by
  induction n with
  | zero => exact h.skip
  | succ n ih =>
      refine h.look fun _ => h.look fun c => ?_
      split
      · exact h.node (by decide) (h.append (h.blockBody ih) h.separator)
      · exact hi _ ih
      · exact h.caseStatement he ih
      · exact h.guarded he (by decide) ih
      · exact h.guarded he (by decide) ih
      · exact h.repeatStatement he ih
      · exact h.forStatement he ih
      · exact hf _ ih
      · exact h.exitStatement he
      · exact h.node (by decide) h.take
      · split
        · exact h.assignmentOrCall he
        · exact h.append (h.report _) h.take

theorem block : K Grammar.block := by
  refine h.node (by decide) (h.blockBody (h.look fun c => ?_))
  exact h.statementUpTo he hi hf _

/-! ## Members and files -/

variable (hv : ∀ k, k = .varSection ∨ k = .globalVarSection → K (Grammar.varSection k))
  (ha : K attributes)
include hv ha

theorem method : K Grammar.method := by
  have hr : K methodRest := by
    refine h.append (h.append (h.append (h.append (h.append (h.nameOr _) ?_) ?_) (h.takeIf _)) ?_) ?_
    · exact h.choose h.parameterList (h.report _)
    · exact h.choose h.returnValue h.skip
    · exact h.choose (hv _ (.inl rfl)) h.skip
    · exact h.choose (h.append (h.block he hi hf) (h.takeIf _)) h.skip
  refine h.mark (fun d => ?_) (h.append ha (h.whileAt h.take))
    (h.choose (h.append h.take hr) (h.report _))
  repeat' split
  all_goals decide

variable (hs : K sectionArguments)
include hs

theorem memberUpTo (n : Nat) : K (Grammar.memberUpTo n) := by
  have hm := h.method he hi hf hv ha
  induction n with
  | zero => exact h.skip
  | succ n ih =>
      have hl : K (memberList (Grammar.memberUpTo n)) :=
        h.takeThen _ (h.append (h.whileAt ih) (h.require _))
      refine h.look fun _ => h.look fun c => ?_
      split
      · exact hv _ (.inr rfl)
      · exact hm
      · exact hm
      · exact hm
      · exact hm
      · exact hm
      · split
        · exact hv _ (.inr rfl)
        · exact hm
      · exact h.take
      · split
        · exact h.property
        split
        · exact h.node (by decide) (h.append (h.append h.name hs) (h.choose hl (h.expect _ _)))
        · exact h.append (h.report _) h.take

/-- What all ways to put productions together keep holds of the grammar. -/
theorem declarations : K Grammar.declarations := by
  have hm : K (memberList member) :=
    h.takeThen _ (h.append (h.whileAt (h.look fun _ => h.memberUpTo he hi hf hv ha hs _)) (h.require _))
  refine h.whileAt (h.look fun c => ?_)
  split
  · exact h.directive (by decide)
  split
  · exact h.directive (by decide)
  split
  · rename_i k hk
    refine h.node ?_ (h.append h.header hm)
    split at hk
    · obtain ⟨e, he, rfl⟩ := Option.map_eq_some_iff.mp hk
      exact (by decide : ∀ e ∈ NodeKind.objectWords, Kind.node e.2 ∉ ownKinds) e
        (List.mem_of_find?_eq_some he)
    · cases hk
  · exact h.append (h.report _) h.take

omit hv ha hs in
/-- The same if the nodes in declarations need nothing of their own after all. -/
theorem declarations_of_node
    (hn : ∀ {p : Production} {k : Kind}, k ∈ ownDeclarations → K p → K (Production.node k p)) :
    K Grammar.declarations := by
  have ha : K attributes := h.whileAt (hn (by decide) h.balanced)
  have hs : K sectionArguments := h.choose (hn (by decide) h.balanced) h.skip
  refine h.declarations he hi hf (fun k hv => hn ?_ (h.sectionVariables ha)) ha hs
  rcases hv with rfl | rfl <;> decide

end Statement

end Hereditary

end Production

/-! ## Properties of nodes -/

namespace Grammar

open Production AlRefactor.Tree

theorem everywhere_node {P : Kind → List Tree → Prop} {p : Production} {k : Kind} {c : Cursor}
    (hk : P k (p.read c).made) (hp : EverywhereAll P (p.read c).made) :
    EverywhereAll P ((node k p).read c).made := by
  rw [read_node]
  exact ⟨⟨hk, hp⟩, trivial⟩

section

variable {P : Kind → List Tree → Prop} (hP : ∀ k ts, k ∉ ownDeclarations → P k ts)
include hP

theorem hereditary_everywhere : Hereditary fun p => ∀ c, EverywhereAll P (p.read c).made where
  skip _ := trivial
  take := by
    rintro ⟨n, _ | ⟨l, ls⟩⟩
    · exact trivial
    · exact ⟨trivial, trivial⟩
  report _ _ := trivial
  append hp hq c := everywhereAll_append.mpr ⟨hp c, hq _⟩
  look h c := h c c
  whileAt hp c := everywhere_rounds hp _ c
  mark hk hp hq c := ⟨⟨hP _ _ fun h => hk _ (List.mem_append_right _ (List.mem_append_right _ h)),
    everywhereAll_append.mpr ⟨hp c, hq _⟩⟩, trivial⟩

theorem everywhere_grow {p q : Production} {kind : Cursor → Option NodeKind}
    (hk : ∀ c k, kind c = some k → .node k ∉ ownBodies)
    (hp : ∀ c, EverywhereAll P (p.read c).made) (hq : ∀ c, EverywhereAll P (q.read c).made)
    (c : Cursor) : EverywhereAll P ((grow p kind q).read c).made := by
  rw [read_grow]
  split
  · refine everywhere_grown hq (fun c k ts h => hP _ _ fun hd => ?_) _ _ (hp c)
    exact hk c k h (List.mem_append_right _ hd)
  · exact hp c

end

end Grammar

end AlRefactor
