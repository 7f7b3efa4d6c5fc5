import AlRefactor.Toml.Scalar

/-!
# Reading TOML documents
-/

namespace AlRefactor

namespace TomlValue

open Reader

/-! ## Keys -/

def isBareKey (c : Char) : Bool := c.isAlphanum || c == '_' || c == '-'

/-- How many brackets may stand around a value, and how many names a key may consist of. -/
def nesting : Nat := 80

def key : Reader (List Text) := do
  let names ←
    separated (blanks *> exact "." <* blanks) (someOf isBareKey <|> line '"' <|> line '\'')
  if names.length ≤ nesting then return names else failure

/-- A key, cut into the names of tables and its last name. -/
def place : Reader (List Text × Text) := do
  let names ← key
  match names.getLast? with
  | some last => pure (names.dropLast, last)
  | none => failure

/-- A key and its value, with the given layout around the equals sign. -/
def pairOf {α : Type} (layout : Reader Unit) (value : Reader α) :
    Reader ((List Text × Text) × α) := do
  let k ← place
  layout
  exact "="
  layout
  return (k, ← value)

/-! ## Values -/

/-- Items in brackets; lines may end between them and a comma may follow the last one. -/
def bracketed {α : Type} (start stop : Char) (item : Reader α) : Reader (List α) := do
  exact [start]
  gaps
  let items ← maybe do
    let items ← separated (gaps *> exact "," <* gaps) item
    let _ ← maybe (gaps *> exact ",")
    return items
  gaps
  exact [stop]
  return items.getD []

def inlineTable? (entries : List ((List Text × Text) × TomlValue)) : Option TomlValue :=
  (entries.foldlM (fun (es : TomlEntries) ((path, k), v) => es.addEntry? path k v .header) []).map
    (.table .inline)

/-- A value with at most `n` brackets around its innermost parts. -/
def value (n : Nat) : Reader TomlValue :=
  (.string <$> text) <|> (exact "true" *> pure (.bool true)) <|>
  (exact "false" *> pure (.bool false)) <|> dateTime <|> number <|>
  match n with
  | 0 => failure
  | n + 1 => (.array <$> bracketed '[' ']' (value n)) <|> do
      match inlineTable? (← bracketed '\x7b' '\x7d' (pairOf gaps (value n))) with
      | some t => pure t
      | none => failure

end TomlValue

/-! ## Lines -/

/-- A line of a document. -/
inductive TomlLine where
  | blank
  | table (path : List Text) (key : Text)
  | item (path : List Text) (key : Text)
  | entry (path : List Text) (key : Text) (value : TomlValue)

namespace TomlLine

open Reader TomlValue

def header (start stop : Text) : Reader (List Text × Text) := do
  exact start
  blanks
  let k ← place
  blanks
  exact stop
  return k

def read : Reader TomlLine := do
  blanks
  let l ← ((fun k => .item k.1 k.2) <$> header "[[" "]]") <|>
    ((fun k => .table k.1 k.2) <$> header "[" "]") <|>
    ((fun e => .entry e.1.1 e.1.2 e.2) <$> pairOf blanks (value nesting)) <|> pure .blank
  blanks
  let _ ← maybe comment
  return l

/-- The lines of a document, which may start with a byte order mark. -/
def readAll : Reader (List TomlLine) := do
  let _ ← maybe (exact "\ufeff")
  separated (do let _ ← newline) read

end TomlLine

/-- The tables of a document so far, and the one that entries go to. -/
structure TomlDocument where
  entries : TomlEntries
  current : List Text

namespace TomlDocument

def empty : TomlDocument := ⟨[], []⟩

def add? (d : TomlDocument) : TomlLine → Option TomlDocument
  | .blank => some d
  | .table path key => (d.entries.startTable? path key).map fun es => ⟨es, path ++ [key]⟩
  | .item path key => (d.entries.startItem? path key).map fun es => ⟨es, path ++ [key]⟩
  | .entry path key v =>
    (d.entries.change? false (TomlEntries.addEntry? path key v) d.current .header).map fun es =>
      { d with entries := es }

def read? (t : Text) : Option TomlValue := do
  let lines ← Reader.whole? TomlLine.readAll t
  let d ← lines.foldlM add? empty
  return .table .header d.entries

end TomlDocument

end AlRefactor
