import AlRefactor.Edit.Basic
import AlRefactor.Files.ProjectFolder
import AlRefactor.Session.Refactoring

/-!
# Projects that are opened for a command
-/

namespace AlRefactor

/-- Why a command fails. -/
inductive Trouble where
  | noFile (written : Text) (cause : FileError)
  | noProject (written : Text) (cause : FileError)
  | unreadable (path : Path) (cause : FileError)
  /-- The sources of a project cannot be loaded. -/
  | noSources (written : Text) (cause : Trouble)
  | noLine (uri : Text) (line count : Nat)
  | noActions
  | noIndex (index count : Nat)
  | noTitle (written : Text) (titles : List Text)
  | refused (title : Text) (refusal : Refusal)
  | badEdits (uri : Text) (error : EditError)
  | fault (fault : Fault)
deriving Repr

namespace Trouble

def message : Trouble → Text
  | .noFile written cause => written ++ " not found: " ++ cause.message
  | .noProject written cause => "project folder " ++ written ++ " not found: " ++ cause.message
  | .unreadable path cause => "failed to read " ++ path.describe ++ ": " ++ cause.message
  | .noSources written cause =>
    "failed to load the AL sources of " ++ written ++ ": " ++ cause.message
  | .noLine uri line count =>
    uri ++ " has no line " ++ Text.ofNat line ++ " (" ++ Text.ofNat count ++ " lines)"
  | .noActions => "no code actions at this position"
  | .noIndex index count =>
    "no action with index " ++ Text.ofNat index ++ " (" ++ Text.ofNat count ++ " available)"
  | .noTitle written titles =>
    "no action titled '" ++ written ++ "'. Available: " ++ Text.join ", " titles
  | .refused title refusal => "'" ++ title ++ "' failed: " ++ refusal.message.toList
  | .badEdits uri error => "edits for " ++ uri ++ " do not apply: " ++ error.message.toList
  | .fault f => (f.message?.getD "").toList

end Trouble

/-- The sources of a project, the place of each document, and what else belongs to the project. -/
structure OpenProject where
  folder : Path
  workspace : Workspace
  paths : List Path
  config : Config
  project : Project

namespace OpenProject

/-- Opens a file as the next document, under its path from the folder of the project on. -/
def add (p : OpenProject) (path : Path) (text : Text) : OpenProject :=
  { p with
    workspace := p.workspace.add (path.within p.folder) text
    paths := p.paths ++ [path] }

def addAll (p : OpenProject) : List (Path × Option Text) → Except Trouble OpenProject
  | [] => .ok p
  | (path, none) :: _ => .error (.unreadable path .notText)
  | (path, some text) :: files => (p.add path text).addAll files

def load (t : FileTree) (current : Path) (written : Text) : Except Trouble OpenProject :=
  let loaded : Except Trouble OpenProject :=
    match t.resolve current written with
    | .error e => .error (.noProject written e)
    | .ok folder =>
      let p : OpenProject :=
        ⟨folder, .empty, [], (t.settings folder written).refactoring, t.project folder⟩
      p.addAll (t.filesNamed folder ".al" ++ t.filesNamed folder ".AL")
  match loaded with
  | .ok p => .ok p
  | .error e => .error (.noSources written e)

/-- The document of a file, which is opened if it does not belong to the project. -/
def openFile (p : OpenProject) (t : FileTree) (path : Path) : Except Trouble (Nat × OpenProject) :=
  match p.paths.findIdx? (· == path) with
  | some i => .ok (i, p)
  | none =>
    match t.read path with
    | .ok text => .ok (p.paths.length, p.add path text)
    | .error e => .error (.unreadable path e)

def uri (p : OpenProject) (document : Nat) : Text :=
  ((p.workspace.get? document).map (·.uri)).getD []

def text (p : OpenProject) (document : Nat) : Text :=
  ((p.workspace.get? document).map (·.text)).getD []

def path (p : OpenProject) (document : Nat) : Path := p.paths[document]?.getD []

def context (p : OpenProject) : Context := ⟨p.workspace, p.config, p.project⟩

/-- Carries out a refactoring without asking anybody. -/
def run {α : Type} (p : OpenProject) (r : Context → Refactoring α) : Except Failure α :=
  ((r p.context).run ⟨.empty, .start .silent⟩).1

end OpenProject

end AlRefactor
