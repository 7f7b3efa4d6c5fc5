import AlRefactor.Action.Basic
import AlRefactor.Edit.VarSection

/-!
# Statements that become a procedure

Locals that only the statements use move into the new procedure; every other declaration of the old
one that they use becomes a parameter.
-/

namespace AlRefactor

/-- Statements of one block that a selection covers, and their range. -/
structure Selection where
  statements : List Node
  span : Span

namespace Selection

/-- The ranges have a character in common. -/
def overlap (a b : Span) : Bool := max a.start b.start < min a.stop b.stop

/-- A selection without the white space around it, and the statements of a body it touches, if it
starts with them and does not reach beyond them. -/
def touched? (t : SyntaxTree) (span : Span) : Option (Span × Selection) := do
  let selected ← t.text.trimSpan? span
  let block ← (t.covering selected).ancestors.find? fun n : Node => n.is NodeKind.block
  let _ ← block.method?
  let statements := block.childNodes.filter fun n : Node =>
    n.kind.isStatement && overlap n.span selected
  let first ← statements.head?
  let last ← statements.getLast?
  let covered : Span := ⟨first.start, last.stop⟩
  if covered.start != selected.start || covered.stop < selected.stop then none
  else some (selected, ⟨statements, covered⟩)

/-- The statements a selection consists of; the semicolon of the last one may be left out. -/
def at? (t : SyntaxTree) (span : Span) : Except Fault (Option Selection) :=
  match touched? t span with
  | none => .ok none
  | some (selected, s) =>
    match t.text.slice? ⟨selected.stop, s.span.stop⟩ with
    | none => .error .slice
    | some rest => .ok (if rest.isEmpty || rest == ";".toList then some s else none)

/-- The statements may leave the procedure. -/
def mayExit (s : Selection) : Bool :=
  s.statements.any fun n => n.subtree.any (·.is NodeKind.exitStatement)

end Selection

/-! ## References -/

namespace Node

/-- The node is the first composite one below its parent. -/
def isFirstBelow (n p : Node) : Bool := (p.childNodes.head?.map (·.same n)).getD false

/-- A name that stands for a variable, not for something that is called, a member or an option. -/
def standsForVariable (n : Node) : Bool :=
  match n.parent with
  | none => true
  | some p =>
    match p.kind with
    | .node .memberAccessExpression | .node .optionAccessExpression => n.isFirstBelow p
    | .node .invocationExpression => !n.isFirstBelow p
    | _ => true

/-- What stands inside these nodes, innermost first, is assigned to: as the target of an assignment,
as a loop variable, or through a member or an element of it. -/
def isWrittenIn (n : Node) : List Node → Bool
  | [] => false
  | p :: ps =>
    match p.kind with
    | .node .assignmentStatement | .node .compoundAssignmentStatement | .node .forStatement
    | .node .forEachStatement => n.isFirstBelow p
    | .node .memberAccessExpression | .node .elementAccessExpression =>
      n.isFirstBelow p && isWrittenIn p ps
    | _ => false

def isWritten (n : Node) : Bool := n.isWrittenIn n.ancestors.tail

def variableUses (n : Node) : List Node :=
  n.subtree.filter fun m => m.is NodeKind.identifierName && m.standsForVariable

end Node

namespace Extraction

/-! ## Variables -/

/-- A declaration of the old procedure; locals have a node that can be removed. -/
structure Declared where
  declared : Variable
  node : Option Node

/-- What can be moved or passed: parameters, a named return value and locals. -/
def declarations (method : Node) : List Declared :=
  method.parameterNodes.map (fun n => ⟨n.toParameter, none⟩) ++
    ((method.returnValue?.bind (·.toVariable? none)).map fun v => ⟨v, none⟩).toList ++
    method.localDeclarations.map fun n => ⟨n.toVariable, some n⟩

/-- Numbers of declarations in the order of their first use, and whether they are assigned to. -/
def usages (ds : List Declared) (references : List Node) : List (Nat × Bool) :=
  references.foldl (fun used r =>
    match ds.findIdx? fun d => d.declared.name.sameName r.text with
    | none => used
    | some i =>
      if used.any (·.1 == i) then used.map fun u => if u.1 == i then (i, u.2 || r.isWritten) else u
      else used ++ [(i, r.isWritten)]) []

/-- A name is used in the body outside of a range. -/
def usedOutside (method : Node) (span : Span) (name : Text) : Bool :=
  ((((method.child? NodeKind.block).map (·.variableUses)).getD []).filter fun r =>
    !span.covers r.span).any (·.text.sameName name)

/-- What becomes of a variable. -/
inductive Fate where
  | parameter (v : Variable)
  | moved (v : Variable) (declaration : Node)

/-- Locals without another use move; all else is passed, records and what is assigned to by
reference. -/
def fate (method : Node) (span : Span) (d : Declared) (written : Bool) : Fate :=
  let v := d.declared
  let passed := Fate.parameter <| (Variable.plain v.name v.type).withReference
    (v.canBeReference && (written || v.isRecord))
  match d.node with
  | some n => if usedOutside method span v.name then passed else .moved (.plain v.name v.type) n
  | none => passed

/-- Parameters and locals of the new procedure, and the declarations that move. -/
structure Plan where
  parameters : List Variable
  moved : List Variable
  removed : List Node

def plan (method : Node) (s : Selection) : Plan :=
  let ds := declarations method
  let fates := (usages ds (s.statements.flatMap (·.variableUses))).filterMap fun (i, w) =>
    ds[i]?.map fun d => fate method s.span d w
  { parameters := fates.filterMap fun | .parameter v => some v | .moved _ _ => none
    moved := fates.filterMap fun | .parameter _ => none | .moved v _ => some v
    removed := fates.filterMap fun | .parameter _ => none | .moved _ n => some n }

/-! ## Names -/

def defaultName : Text := "NewProcedure"

/-- Names a new procedure cannot have: those of globals and procedures. -/
def takenNames (method object : Node) : List Text :=
  (TakenNames.ofMethod method).globals ++ object.procedureNames

/-- What speaks against the name of a new procedure, if anything does. -/
def nameProblem? (method object : Node) (name : Text) : Option Text :=
  let globals : TakenNames := ⟨[], [], (TakenNames.ofMethod method).globals⟩
  match globals.conflict? name with
  | some c => some c.message
  | none =>
    if (object.proceduresNamed name).isEmpty then none
    else some ("a procedure named '" ++ name ++ "' already exists")

/-- The name of the new procedure: the user's, otherwise a free one. -/
def chosenName (asks : Bool) (method object : Node) : Refactoring Text :=
  if asks then
    Refactoring.talk fun d =>
      let (answer, d) := d.ask ⟨"Name of the new procedure", defaultName⟩
        fun t => nameProblem? method object t.trim
      (answer.map Text.trim, d)
  else pure (Text.fresh Text.sameName (takenNames method object) defaultName)

/-! ## Edits -/

def declarationLines (name : Text) (p : Plan) (body unit : Text) : List Text :=
  ["local procedure " ++ name ++ "(" ++ Variable.parameterList p.parameters ++ ")"] ++
    (if p.moved.isEmpty then []
      else ("var" : Text) :: p.moved.map fun v => unit ++ v.sectionLine) ++
    [("begin" : Text)] ++
    ((Text.splitAt '\n' body).map fun l => if l.isEmpty then [] else unit ++ l) ++
    [("end;" : Text)]

/-- The edits that move statements into a procedure: the call, the procedure, and the removal of the
declarations that move. -/
def edits? (ctx : Context) (t : SyntaxTree) (method object : Node) (s : Selection) (name : Text) :
    Option (List Edit) :=
  let p := plan method s
  let selected := t.text.extract s.span
  let indent := t.text.lineIndent s.span.start
  let body := selected.reindent indent [] "\n"
  let call := name ++ "(" ++ Text.join ", " (p.parameters.map (·.name)) ++ ")" ++
    (if selected.endsWith ";" then (";" : Text) else [])
  (ctx.config.findNewProcedureLocation.insert? object (some method) name .local
    (declarationLines name p body indent.indentUnit)).map fun declaration =>
      [⟨s.span, call⟩, declaration] ++ Node.undeclare p.removed

/-- Moves the statements a range covers into a procedure. Where procedures are sorted by name the
user is asked for it first, otherwise the name is to be changed afterwards. -/
def extract? (ctx : Context) (document : Nat) (t : SyntaxTree) (span : Span) :
    Refactoring (Option ActionResult) := do
  match ← Refactoring.ofFault (Selection.at? t span) with
  | none => pure none
  | some s =>
    let method := s.statements.head?.bind (·.method?)
    match method, method.bind (·.object?) with
    | some method, some object =>
      if s.mayExit then pure none
      else
        let asks := ctx.config.findNewProcedureLocation == .sortedByName &&
          !(← get).dialogue.isSilent
        let name ← chosenName asks method object
        pure <| (edits? ctx t method object s name).map fun es =>
          ⟨Change.ofEdits document es,
            if asks then none else (Edit.offsetAfter? es 0 0).map fun n => (document, n)⟩
    | _, _ => pure none

def provider : Provider where
  considers ctx document span := do
    if span.isEmpty then pure false
    else
      match ← ctx.tree? document with
      | none => pure false
      | some t =>
        let s ← Refactoring.ofFault (Selection.at? t span)
        pure ((s.map fun s => !s.mayExit).getD false)
  actions _ document span :=
    pure [⟨"Extract procedure", .extraction,
      .command ⟨.extractProcedure span.stop, document, span.start, []⟩⟩]

end Extraction

end AlRefactor
