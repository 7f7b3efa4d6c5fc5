import AlRefactor.Action.Menu
import AlRefactor.CommandLine.Help
import AlRefactor.CommandLine.OpenProject
import AlRefactor.Files.Uri
import AlRefactor.Json.Value
import AlRefactor.Text.Quoted

/-!
# The commands
-/

namespace AlRefactor

/-- What a command leaves behind: its output and the files it writes. -/
structure Report where
  output : Text
  written : List (Path × Text)
deriving DecidableEq, Repr

namespace Report

def ofText (output : Text) : Report := ⟨output, []⟩

end Report

/-! ## Positions and changes as JSON -/

namespace JsonValue

def ofPosition (p : Position) : JsonValue :=
  record [("line", ofNat p.line), ("character", ofNat p.column)]

def ofRange (start stop : Position) : JsonValue :=
  record [("start", ofPosition start), ("end", ofPosition stop)]

end JsonValue

namespace OpenProject

def position (t : Text) (offset : Nat) : Except Trouble Position :=
  match (LineTable.ofText t).position? t offset with
  | some p => .ok p
  | none => .error (.fault .slice)

def editJson (t : Text) (e : Edit) : Except Trouble JsonValue := do
  let start ← position t e.span.start
  let stop ← position t e.span.stop
  return .record [("range", .ofRange start stop), ("newText", .ofText e.text)]

def changeJson (p : OpenProject) (c : Change) : Except Trouble JsonValue := do
  let changes ← c.edits.mapM fun (d, es) => do
    return ((p.path d).uri, JsonValue.array (← es.mapM (editJson (p.text d))))
  return .record [("changes", .record changes)]

/-! ## Selections -/

def offset (p : OpenProject) (document : Nat) (place : Position) : Except Trouble Nat :=
  let text := p.text document
  let index := LineTable.ofText text
  match index.offset? text place with
  | some n => .ok n
  | none => .error (.noLine (p.uri document) (place.line + 1) index.count)

/-- The range between two positions, which may be given in any order. -/
def selection (p : OpenProject) (document : Nat) (target : Target) : Except Trouble Span := do
  let start ← p.offset document target.start
  let stop ← match target.stop with
    | some s => p.offset document s
    | none => .ok start
  return ⟨min start stop, max start stop⟩

/-- The folder of the project that a target belongs to, as it is written. -/
def writtenFolder (t : FileTree) (target : Target) (file : Path) : Text :=
  target.project.getD (t.projectFolder file).describe

/-- The actions at a target, and the project with the document they are for. -/
def actions (t : FileTree) (current : Path) (target : Target) (file : Path) :
    Except Trouble (OpenProject × List Action) := do
  let p ← load t current (writtenFolder t target file)
  let (document, p) ← p.openFile t file
  let span ← p.selection document target
  match p.run (Action.offered · document span) with
  | .ok as => return (p, as)
  | .error (.fault f) => .error (.fault f)
  | .error (.refused r) => .error (.refused [] r)

end OpenProject

/-! ## Listing actions -/

namespace Action

def isDeferred (a : Action) : Bool :=
  match a.effect with
  | .change _ => false
  | .command _ => true

def entryJson (a : Action) (index : Nat) : JsonValue :=
  .record [("index", .ofNat index), ("title", .ofText a.title), ("kind", .ofText a.kind.name),
    ("deferred", .bool a.isDeferred)]

def entryLine (a : Action) (index : Nat) : Text :=
  "[" ++ Text.ofNat index ++ "] " ++ a.title ++ " (" ++ a.kind.name.toList ++ ")\n"

def listing (as : List Action) (json : Bool) : Text :=
  if json then (JsonValue.array (as.zipIdx.map fun (a, i) => a.entryJson i)).pretty ++ "\n"
  else if as.isEmpty then "No code actions here.\n"
  else as.zipIdx.flatMap fun (a, i) => a.entryLine i

def select (as : List Action) (written : Text) : Except Trouble Action :=
  if as.isEmpty then .error .noActions
  else
    match written.word64? with
    | some i =>
      match as[i]? with
      | some a => .ok a
      | none => .error (.noIndex i as.length)
    | none =>
      match as.find? fun a => a.title.sameLetters written.trim with
      | some a => .ok a
      | none => .error (.noTitle written (as.map (·.title)))

end Action

/-! ## Carrying out an action -/

namespace OpenProject

def changedTexts (p : OpenProject) (c : Change) : Except Trouble (List (Nat × Text)) :=
  c.edits.mapM fun (d, es) =>
    match Edit.apply es (p.text d) with
    | .ok t => .ok (d, t)
    | .error (.fault f) => .error (.fault f)
    | .error e => .error (.badEdits (p.uri d) e)

/-- The document and the position of the name that is to be changed. -/
def renamePosition (p : OpenProject) (r : ActionResult) (changed : List (Nat × Text)) :
    Except Trouble (Option (Nat × Position)) :=
  match r.rename with
  | none => .ok none
  | some (d, offset) => do
    return some (d, ← position ((changed.lookup d).getD (p.text d)) offset)

def updateLine (uri : Text) : Text := "Updated " ++ uri ++ "\n"

def headLine (uri : Text) : Text := "==> " ++ uri ++ " <==\n"

def renameLine (p : Position) : Text :=
  "Rename the new procedure at line " ++ Text.ofNat (p.line + 1) ++ ", column " ++
    Text.ofNat (p.column + 1) ++ ".\n"

def linkJson (p : OpenProject) (place : Nat × Position) : JsonValue :=
  .record [("uri", .ofText (p.path place.1).uri), ("range", .ofRange place.2 place.2)]

def resultJson (title : Text) (edit : JsonValue) (link : Option JsonValue) : JsonValue :=
  let members : List (Text × JsonValue) := [("title", .ofText title), ("edit", edit)]
  .record (members ++ (link.map fun l => ("rename".toList, l)).toList)

def deliver (p : OpenProject) (title : Text) (r : ActionResult) (delivery : Delivery) :
    Except Trouble Report := do
  let changed ← p.changedTexts r.change
  let rename ← p.renamePosition r changed
  match delivery with
  | .json =>
    let edit ← p.changeJson r.change
    return .ofText ((resultJson title edit (rename.map p.linkJson)).pretty ++ "\n")
  | .write =>
    let updated := changed.flatMap fun (d, _) => updateLine (p.uri d)
    let hint := (rename.map fun (_, place) => renameLine place).getD []
    return ⟨updated ++ hint, changed.map fun (d, t) => (p.path d, t)⟩
  | .print =>
    return .ofText (changed.flatMap fun (d, t) =>
      (if changed.length > 1 then headLine (p.uri d) else []) ++ t)

def apply (p : OpenProject) (a : Action) (delivery : Delivery) : Except Trouble Report :=
  match p.run (Action.perform · a) with
  | .ok r => p.deliver a.title r delivery
  | .error (.fault f) => .error (.fault f)
  | .error (.refused r) => .error (.refused a.title r)

end OpenProject

/-! ## Printing a tree -/

namespace SyntaxTree

/-- A line for a node, indented by its depth; tokens and unreadable members have their text behind
them. Nothing inside of that text is shown again. -/
def nodeLine (n : Node) : Text :=
  if n.ancestors.tail.any (·.isToken) then []
  else List.replicate (2 * n.ancestors.tail.length) ' ' ++ n.summary.toList ++
    (if n.isToken then " " ++ n.text.quoted else []) ++ "\n"

def problemLine (t : SyntaxTree) (d : Diagnostic) : Except Trouble Text := do
  let p ← OpenProject.position t.text d.span.start
  return Text.ofNat (p.line + 1) ++ ":" ++ Text.ofNat (p.column + 1) ++ ": " ++
    d.problem.message.toList ++ "\n"

/-- All nodes of a tree, and what was wrong with its text. -/
def listing (t : SyntaxTree) : Except Trouble Text := do
  return t.nodes.flatMap nodeLine ++ (← t.diagnostics.mapM t.problemLine).flatten

end SyntaxTree

/-! ## The program -/

namespace Invocation

def reach (t : FileTree) (current : Path) (written : Text) : Except Trouble Path :=
  match t.resolve current written with
  | .ok p => .ok p
  | .error e => .error (.noFile written e)

def target? : Invocation → Option Target
  | .actions target _ | .apply target _ _ => some target
  | .help _ | .version | .tree _ => none

def paths : Invocation → List Text
  | .tree file => [file]
  | i => (i.target?.map fun target => target.file :: target.project.toList).getD []

def projectFolder? (i : Invocation) (t : FileTree) (current : Path) : Option Path := do
  let target ← i.target?
  let file ← (t.resolve current target.file).toOption
  (t.resolve current (OpenProject.writtenFolder t target file)).toOption

/-- Carries out what a command line asks for, in the current folder of a file tree. -/
def run (t : FileTree) (current : Path) : Invocation → Except Trouble Report
  | .help c => .ok (.ofText (Help.text c))
  | .version => .ok (.ofText Help.version)
  | .actions target json => do
    let file ← reach t current target.file
    let (_, as) ← OpenProject.actions t current target file
    return .ofText (Action.listing as json)
  | .apply target written delivery => do
    let file ← reach t current target.file
    let (p, as) ← OpenProject.actions t current target file
    p.apply (← Action.select as written) delivery
  | .tree written => do
    let file ← reach t current written
    match t.read file with
    | .ok text => return .ofText (← (SyntaxTree.parse text).listing)
    | .error e => .error (.unreadable file e)

end Invocation

/-- How the program ends. -/
inductive Ending where
  | done (report : Report)
  /-- The arguments cannot be understood. -/
  | misused
  | failed (message : Text)
  | aborted
deriving DecidableEq, Repr

namespace Ending

def code : Ending → Nat
  | .done _ => 0
  | .failed _ => 1
  | .misused => 2
  | .aborted => 101

def output : Ending → Text
  | .done o => o.output
  | _ => []

def written : Ending → List (Path × Text)
  | .done o => o.written
  | _ => []

def failure? : Ending → Option Text
  | .failed message => some ("Error: " ++ message)
  | _ => none

/-- Runs the program with arguments in the current folder of a file tree. -/
def ofArguments (t : FileTree) (current : Path) (args : List Text) : Ending :=
  match Invocation.ofArguments? args with
  | none => .misused
  | some i =>
    match i.run t current with
    | .ok o => .done o
    | .error (.fault _) => .aborted
    | .error e => .failed e.message

end Ending

end AlRefactor
