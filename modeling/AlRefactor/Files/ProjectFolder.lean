import AlRefactor.Files.FileTree
import AlRefactor.Project
import AlRefactor.Settings

/-!
# What the folder of a project holds besides sources
-/

namespace AlRefactor

/-- Why a settings file is not used. -/
inductive SettingsError where
  | notText | malformed
deriving DecidableEq, Repr

namespace FileTree

/-- The settings file of a folder, looked for under the written path of the folder. -/
def settingsFile? (t : FileTree) (folder : Path) (written : Text) : Option Text :=
  Settings.fileNames.find? fun name =>
    (Path.ofEntry written name).size ≤ Path.longest && t.hasFile (folder ++ [name])

/-- The settings of a folder with a written path; without a file they are the standard ones. -/
def settings? (t : FileTree) (folder : Path) (written : Text) : Except SettingsError Settings :=
  match t.settingsFile? folder written with
  | none => .ok Settings.standard
  | some name =>
    match t.read (folder ++ [name]) with
    | .error _ => .error .notText
    | .ok text =>
      match Settings.read? text with
      | some s => .ok s
      | none => .error .malformed

/-- The settings of a folder, the standard ones if they cannot be read. -/
def settings (t : FileTree) (folder : Path) (written : Text) : Settings :=
  match t.settings? folder written with
  | .ok s => s
  | .error _ => Settings.standard

def project (t : FileTree) (folder : Path) : Project :=
  match t.read (folder ++ [Project.manifestName]) with
  | .ok text => Project.ofManifest text
  | .error _ => Project.unknown

def isProjectFolder (t : FileTree) (folder : Path) : Bool :=
  t.hasFile (folder ++ [Project.manifestName]) || (t.settingsFile? folder folder.describe).isSome

/-- The folder of the project of a file: the nearest one around it where a project starts, otherwise
the folder of the file. -/
def projectFolder (t : FileTree) (file : Path) : Path :=
  (file.folder.around.find? t.isProjectFolder).getD file.folder

end FileTree

end AlRefactor
