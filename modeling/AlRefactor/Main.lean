import AlRefactor.CommandLine.Program

/-!
# The program on the files of a machine

The commands are functions of a file tree. Here the part of the machine's files that a command can
look at is read into one, and what the command leaves behind is carried out.
-/

namespace AlRefactor.Machine

/-- The path that a name of a place on the machine stands for. -/
def pathOf (name : String) : Path := (Text.splitAt '/' name.toList).filter fun n => !n.isEmpty

def nameOf (p : Path) : String := String.ofList p.describe

def textOf (bytes : ByteArray) : Option Text := (String.fromUTF8? bytes).map (·.toList)

/-- Adds the file or the empty folder at a place, if there is one. -/
def visit (t : FileTree) (p : Path) : IO FileTree := do
  let place := (← IO.currentDir) / nameOf p
  if ← place.isDir then return t.addFolder p
  if ← place.pathExists then return t.addFile p (textOf (← IO.FS.readBinFile place))
  return t

def visitWritten (t : FileTree) (current : Path) (written : Text) : IO FileTree := do
  let start := if written.startsWith "/" then [] else current
  let mut t := t
  let mut p : Path := start
  for name in Text.splitAt '/' written do
    if name == "..".toList then p := p.folder
    else if !name.isEmpty && name != ".".toList then
      p := p ++ [name]
      t ← visit t p
  return t

/-- Adds the files that mark a folder as that of a project. -/
def visitMarks (t : FileTree) (folder : Path) : IO FileTree :=
  (Project.manifestName :: Settings.fileNames).foldlM (fun t n => visit t (folder ++ [n])) t

def isSource (name : Text) : Bool := name.endsWith ".al" || name.endsWith ".AL"

partial def visitSources (t : FileTree) (folder : Path) : IO FileTree := do
  let place := (← IO.currentDir) / nameOf folder
  let mut t := t
  if ← place.isDir then
    for entry in ← place.readDir do
      let p := folder ++ [entry.fileName.toList]
      if ← entry.path.isDir then t ← visitSources (t.addFolder p) p
      else if isSource entry.fileName.toList then t ← visit t p
  return t

/-- The folder a command works in, and all files that it can look at. -/
def picture (invocation : Invocation) : IO (FileTree × Path) := do
  let current := pathOf (← IO.currentDir).toString
  let mut t := FileTree.empty.addFolder current
  for written in invocation.paths do
    t ← visitWritten t current written
  for written in invocation.paths do
    if let .ok p := t.resolve current written then
      for folder in p.around do
        t ← visitMarks t folder
  if let some folder := invocation.projectFolder? t current then
    t ← visitSources t folder
  return (t, current)

/-- Writes files, prints the output or the failure, and answers with the exit code. -/
def conclude (e : Ending) : IO UInt32 := do
  for (p, text) in e.written do
    IO.FS.writeFile (nameOf p) (String.ofList text)
  IO.print (String.ofList e.output)
  match e.failure? with
  | some message => IO.eprintln (String.ofList message)
  | none => pure ()
  return e.code.toUInt32

end AlRefactor.Machine

def main (args : List String) : IO UInt32 := do
  let args := args.map String.toList
  match AlRefactor.Invocation.ofArguments? args with
  | none => AlRefactor.Machine.conclude .misused
  | some invocation => do
    let (t, current) ← AlRefactor.Machine.picture invocation
    AlRefactor.Machine.conclude (AlRefactor.Ending.ofArguments t current args)
