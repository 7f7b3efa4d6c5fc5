import AlRefactor.Action.Basic
import AlRefactor.Declaration.Role
import AlRefactor.Edit.EventCall
import AlRefactor.Edit.Signature
import AlRefactor.Edit.VarSection

/-!
# Events before and after a body
-/

namespace AlRefactor

/-- A parameter that an event can have. -/
structure Candidate where
  /-- Why subscribers may want it. -/
  reason : Text
  parameter : Variable
  /-- What is passed for it. -/
  argument : Text
  picked : Bool
  /-- Parameters with a higher rank come first. -/
  rank : Nat
deriving DecidableEq, Repr

namespace Candidate

def handledName : Text := "IsHandled"

def handledReason : Text := "handled pattern"

/-- Candidates of one key have the same name. -/
def key (c : Candidate) : Text := Text.lowercase c.parameter.name.unquote

/-- A candidate for a variable. The settings may ask for it to be passed by reference. -/
def make (config : Config) (v : Variable) (argument reason : Text) (byReference picked : Bool)
    (rank : Nat) : Candidate :=
  let byReference := byReference || v.byReference || config.passesByReference v.name ||
    config.publisherHasVarParametersOnly
  ⟨reason, (Variable.plain v.name v.type).withReference (byReference && v.canBeReference), argument,
    picked, rank⟩

/-- A candidate for a variable that is passed under its own name. -/
def ofVariable (config : Config) (v : Variable) (reason : Text) (byReference picked : Bool)
    (rank : Nat) : Candidate :=
  make config v v.name reason byReference picked rank

/-- Of candidates with one name only the first. -/
def distinct (cs : List Candidate) : List Candidate :=
  cs.foldl (fun seen c => if seen.any (·.key == c.key) then seen else seen ++ [c]) []

/-- The candidate as an entry of a list to choose from. -/
def item (c : Candidate) : Choice :=
  let byReference : Text := if c.parameter.byReference then "true" else "false"
  ⟨c.parameter.name,
    c.parameter.type ++ ", var: " ++ byReference ++ ", reason: " ++ c.reason, c.picked⟩

end Candidate

/-- The parameters of a new event, and the name that a return value without one is to have. -/
structure EventPlan where
  parameters : List Candidate
  returnName : Option Text
deriving DecidableEq, Repr

namespace EventPlan

/-- Subscribers can report that they did the work of the body. -/
def usesHandled (p : EventPlan) : Bool :=
  p.parameters.any (·.reason == Candidate.handledReason)

/-! ## Candidates -/

/-- The variable and the expression that the `exit` at the end of a body returns. -/
def finalResult? (ctx : Context) (n : Node) : Refactoring (Option (Variable × Text)) := do
  match (do
    let body ← n.child? NodeKind.block
    let last ← body.childNodes.getLast?
    if last.is NodeKind.exitStatement then last.childNodes.head? else none) with
  | none => pure none
  | some e =>
    match e.kind with
    | .node .identifierName => do
      let ts ← ctx.trees
      pure ((ts.lookup? n e.text).map fun v => (v, e.text))
    | .node .memberAccessExpression => do
      let ts ← ctx.trees
      pure ((ts.argument? n e).map fun a => (a.parameter, a.expression))
    | _ => pure none

/-- Some `exit` in a body returns a value. -/
def exitsWithValue (n : Node) : Bool :=
  (n.collect [NodeKind.exitStatement] false).any fun e => !e.childNodes.isEmpty

def exitReason (n : Node) (v : Variable) : Text :=
  let isIn := fun vs : List Variable => vs.any (·.name.sameName v.name)
  let isReturn := ((n.returnValue?.bind (·.name)).map (·.sameName v.name)).getD false
  "used in exit statement" ++
    (if isReturn then (" (return variable)" : Text)
     else if isIn n.parameters then " (parameter)"
     else if isIn n.locals then " (local variable)"
     else "")

/-- The return value as a variable, and the name it was given if it had none. -/
def returnVariable? (n : Node) : Refactoring (Option (Variable × Option Text)) := do
  match n.returnValue? with
  | none => pure none
  | some r =>
    match r.name with
    | some _ => pure ((r.toVariable? none).map fun v => (v, none))
    | none =>
      let name ← Refactoring.talk fun d => d.askForReturnName (TakenNames.ofMethod n)
      pure ((r.toVariable? (some name)).map fun v => (v, some name))

/-- The candidates that depend on the side, and the name a return value was given. -/
def sideCandidates (ctx : Context) (side : Side) (n : Node) :
    Refactoring (List Candidate × Option Text) := do
  let returned := fun (r : Option (Variable × Option Text)) picked =>
    (r.map fun (v, _) => Candidate.ofVariable ctx.config v "return value" true picked 90).toList
  match side with
  | .before =>
    let handled := Candidate.ofVariable ctx.config (.plain Candidate.handledName "Boolean")
      Candidate.handledReason true true 100
    let r ← returnVariable? n
    pure (handled :: returned r true, r.bind (·.2))
  | .after =>
    let exit ← finalResult? ctx n
    let exits := (exit.map fun (v, e) =>
      Candidate.make ctx.config v e (exitReason n v) true true 100).toList
    if (n.returnValue?.bind (·.name)).isSome || !exitsWithValue n then
      let r ← returnVariable? n
      pure (exits ++ returned r exit.isNone, r.bind (·.2))
    else pure (exits, none)

/-- The current and the previous record. -/
def recordCandidates (ctx : Context) (n : Node) : Refactoring (List Candidate) := do
  match n.object? with
  | none => pure []
  | some object =>
    let ts ← ctx.trees
    match ts.recordType? object with
    | none => pure []
    | some type =>
      pure [Candidate.ofVariable ctx.config (.plain "Rec" type) "current record" true false 60,
        Candidate.ofVariable ctx.config (.plain "xRec" type) "previous record" false false 60]

/-! ## Plans -/

/-- The numbers of the chosen candidates: the user's choice, otherwise the preselected ones. -/
def choose (offered : List Candidate) : Refactoring (List Nat) := do
  let s ← get
  if s.dialogue.isSilent then
    pure ((offered.zipIdx.filter fun (c, _) => c.picked).map (·.2))
  else
    let (answer, dialogue) := s.dialogue.pick (offered.map (·.item))
    set { s with dialogue }
    match answer with
    | some chosen => pure chosen
    | none => Refactoring.refuse .cancelled

/-- The chosen candidates, those of a higher rank first. -/
def select (offered : List Candidate) (chosen : List Nat) : List Candidate :=
  ((offered.zipIdx.filter fun (_, i) => chosen.contains i).map (·.1)).mergeSort
    fun a b => b.rank ≤ a.rank

/-- Collects the candidates for an event, lets the user choose, and orders the chosen ones. -/
def make (ctx : Context) (side : Side) (n : Node) : Refactoring EventPlan := do
  if !n.kind.isMethod then throw (.fault (.notMethod n.kind))
  let (first, returnName) ← sideCandidates ctx side n
  let records ← recordCandidates ctx n
  let parameters := n.parameters.map fun v =>
    Candidate.ofVariable ctx.config v "parameter" false true 80
  let locals := n.locals.map fun v =>
    Candidate.ofVariable ctx.config v "local variable" false false 70
  let offered := Candidate.distinct (first ++ records ++ parameters ++ locals)
  let chosen ← choose offered
  pure ⟨select offered chosen, returnName⟩

end EventPlan

namespace Publisher

def eventLines (name : Text) (parameters : List Variable) : List Text :=
  ["[IntegrationEvent(false, false)]",
   "local procedure " ++ name ++ "(" ++ Variable.parameterList parameters ++ ")",
   "begin", "end;"]

def edits? (ctx : Context) (side : Side) (object body n : Node) (methodName : Text)
    (plan : EventPlan) : Option (List Edit) := do
  let name := Text.fresh Text.sameName object.procedureNames (side.word ++ methodName.unquote.plain)
  let named := (plan.returnName.bind n.nameReturnValue?).toList
  let handled := side == .before && plan.usesHandled
  let declared :=
    if handled && !(TakenNames.ofMethod n).contains Candidate.handledName then
      (n.declare? (.plain Candidate.handledName "Boolean")).toList
    else []
  let call ← body.raiseEvent? name (plan.parameters.map (·.argument)) handled
    (match side with | .before => .top | .after => .bottom)
  let event ← ctx.config.findNewProcedureLocation.insert? object (some n) name .local
    (eventLines name (plan.parameters.map (·.parameter)))
  some (named ++ declared ++ [call, event])

/-- Adds an event on a side of the body of a procedure or trigger. -/
def add (ctx : Context) (document : Nat) (n : Node) (side : Side) : Refactoring Change := do
  let notFound := Refusal.targetNotFound document n.start
  match n.object?, n.child? NodeKind.block, n.name with
  | some object, some body, some name =>
    let plan ← EventPlan.make ctx side n
    match edits? ctx side object body n name plan with
    | some es => pure (Change.ofEdits document es)
    | none => Refactoring.refuse notFound
  | _, _, _ => Refactoring.refuse notFound

/-- The procedure or trigger with a body whose name stands on the line of a range. -/
def headerAt? (t : SyntaxTree) (span : Span) : Option Node := do
  let n ← t.methodAround? span.start
  let _ ← n.child? NodeKind.block
  if t.text.lineStart span.start == t.text.lineStart n.commandOffset then some n else none

def provider : Provider :=
  .ofTarget headerAt? (fun _ => true) fun _ document _ n =>
    pure <| if n.role.isPublisher then []
      else [Side.before, .after].map fun side =>
        ⟨"Add " ++ side.word ++ " publisher", .restructuring,
          .command ⟨.addPublisher side, document, n.commandOffset, []⟩⟩

end Publisher

end AlRefactor
