import AlRefactor.Text.Basic

/-!
# Files, folders and paths
-/

namespace AlRefactor

/-- A file, or a folder with its entries. -/
inductive FileTree where
  /-- A file with its text, if its bytes are one. -/
  | file (text : Option Text)
  /-- A folder. Its entries are in the order of their names. -/
  | folder (entries : List (Text × FileTree))
deriving Repr

/-- A place in a file tree: the names from the outermost folder inwards. -/
abbrev Path := List Text

namespace Path

/-- The path as a text that starts at the outermost folder. -/
def describe : Path → Text
  | [] => "/"
  | names => names.flatMap fun n => '/' :: n

def folder (p : Path) : Path := p.dropLast

/-- The folders around a place, from the inside outwards, itself included. -/
def around (p : Path) : List Path :=
  ((List.range (p.length + 1)).map fun n => p.take n).reverse

/-- Number of bytes of the longest path under which something can be opened. -/
def longest : Nat := 4095

/-- The path of an entry of a folder whose own path is written in some way. -/
def ofEntry (folder name : Text) : Text :=
  folder ++ (if folder.endsWith "/" then ([] : Text) else "/") ++ name

/-- The path from a folder on, if it leads through the folder; otherwise the whole path, in front of
which the outermost folder counts as a name. -/
def within (p folder : Path) : Text :=
  if folder.isPrefixOf p then Text.join "/" (p.drop folder.length)
  else Text.join "/" ("/" :: p)

end Path

/-- Why a place cannot be reached or a file cannot be read. -/
inductive FileError where
  | notFound | notFolder | isFolder | nameTooLong | notText
deriving DecidableEq, Repr

namespace FileError

def message : FileError → Text
  | .notFound => "No such file or directory (os error 2)"
  | .notFolder => "Not a directory (os error 20)"
  | .isFolder => "Is a directory (os error 21)"
  | .nameTooLong => "File name too long (os error 36)"
  | .notText => "stream did not contain valid UTF-8"

end FileError

namespace FileTree

def empty : FileTree := .folder []

def entries : FileTree → List (Text × FileTree)
  | .file _ => []
  | .folder es => es

def isFile : FileTree → Bool
  | .file _ => true
  | .folder _ => false

/-! ## Places -/

def find? : Path → FileTree → Option FileTree
  | [], t => some t
  | n :: ns, t => (t.entries.lookup n).bind (find? ns)

def hasFile (t : FileTree) (p : Path) : Bool := ((t.find? p).map (·.isFile)).getD false

def read (t : FileTree) (p : Path) : Except FileError Text :=
  match t.find? p with
  | none => .error .notFound
  | some (.folder _) => .error .isFolder
  | some (.file none) => .error .notText
  | some (.file (some text)) => .ok text

/-- Puts an entry into a folder, in place of one of the same name. -/
def put (name : Text) (entry : FileTree) : List (Text × FileTree) → List (Text × FileTree)
  | [] => [(name, entry)]
  | (n, e) :: es =>
    if n = name then (name, entry) :: es
    else if name < n then (name, entry) :: (n, e) :: es
    else (n, e) :: put name entry es

/-- Changes what is at a place; missing folders on the way are made. -/
def update (change : Option FileTree → FileTree) : Path → Option FileTree → FileTree
  | [], t => change t
  | n :: ns, t =>
    let es := (t.getD empty).entries
    .folder (put n (update change ns (es.lookup n)) es)

def addFile (t : FileTree) (p : Path) (text : Option Text) : FileTree :=
  update (fun _ => .file text) p (some t)

def addFolder (t : FileTree) (p : Path) : FileTree := update (·.getD empty) p (some t)

/-! ## Written paths -/

/-- Goes on by one name of a written path. An empty name and a dot lead nowhere else, two dots to
the folder around. -/
def step (t : FileTree) (p : Path) (name : Text) : Except FileError Path :=
  match t.find? p with
  | some (.folder es) =>
    if name.isEmpty || name == ".".toList then .ok p
    else if name == "..".toList then .ok p.folder
    else if name.size > 255 then .error .nameTooLong
    else if (es.lookup name).isSome then .ok (p ++ [name])
    else .error .notFound
  | _ => .error .notFolder

def resolve (t : FileTree) (folder : Path) (written : Text) : Except FileError Path :=
  if written.isEmpty then .error .notFound
  else (Text.splitAt '/' written).foldlM t.step (if written.startsWith "/" then [] else folder)

/-! ## Walks -/

mutual

/-- All files, depth first in the order of their names, with their places. -/
def files (p : Path) : FileTree → List (Path × Option Text)
  | .file text => [(p, text)]
  | .folder es => filesIn p es

def filesIn (p : Path) : List (Text × FileTree) → List (Path × Option Text)
  | [] => []
  | (n, t) :: es => files (p ++ [n]) t ++ filesIn p es

end

def filesNamed (t : FileTree) (p : Path) (ending : Text) : List (Path × Option Text) :=
  (filesIn p (((t.find? p).map (·.entries)).getD [])).filter fun (q, _) =>
    ((q.getLast?.map (·.endsWith ending)).getD false)

end FileTree

end AlRefactor
