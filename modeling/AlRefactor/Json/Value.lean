import AlRefactor.Text.Basic

/-!
# JSON values and their layout
-/

namespace AlRefactor

/-- A JSON value. Numbers keep their digits. A string with half of a surrogate pair stands for no
text. -/
inductive JsonValue where
  | null
  | bool (value : Bool)
  | number (digits : Text)
  | string (text : Option Text)
  | array (items : List JsonValue)
  | object (members : List (Option Text × JsonValue))
deriving Repr

namespace JsonValue

def ofText (t : Text) : JsonValue := .string (some t)

def ofNat (n : Nat) : JsonValue := .number (Text.ofNat n)

def record (members : List (Text × JsonValue)) : JsonValue :=
  .object (members.map fun (k, v) => (some k, v))

/-! ## Strings -/

def controlEscape (c : Char) : Text :=
  "\\u00" ++ [Nat.digitChar (c.toNat / 16), Nat.digitChar (c.toNat % 16)]

/-- A character in a string: quotes, backslashes and control characters are escaped. -/
def escape (c : Char) : Text :=
  if c = '"' then "\\\""
  else if c = '\\' then "\\\\"
  else if c = '\n' then "\\n"
  else if c = '\r' then "\\r"
  else if c = '\t' then "\\t"
  else if c = '\x08' then "\\b"
  else if c = '\x0c' then "\\f"
  else if c.toNat < 0x20 then controlEscape c
  else [c]

def quote : Option Text → Text
  | some t => "\"" ++ t.flatMap escape ++ "\""
  | none => "\"\\ud800\""

/-! ## Layout -/

/-- Lines in brackets, separated by commas and indented once more than the brackets. -/
def bracketed (start stop indent : Text) (items : List Text) : Text :=
  if items.isEmpty then start ++ stop
  else
    start ++ "\n" ++ Text.join ",\n" (items.map fun i => indent ++ "  " ++ i) ++ "\n" ++ indent ++
      stop

mutual

/-- The value over several lines; all but the first have the indentation. -/
def render (indent : Text) : JsonValue → Text
  | .null => "null"
  | .bool b => if b then "true" else "false"
  | .number ds => ds
  | .string t => quote t
  | .array items => bracketed "[" "]" indent (renderItems (indent ++ "  ") items)
  | .object members => bracketed "\x7b" "\x7d" indent (renderMembers (indent ++ "  ") members)

def renderItems (indent : Text) : List JsonValue → List Text
  | [] => []
  | v :: vs => render indent v :: renderItems indent vs

def renderMembers (indent : Text) : List (Option Text × JsonValue) → List Text
  | [] => []
  | (k, v) :: ms => (quote k ++ ": " ++ render indent v) :: renderMembers indent ms

end

/-- The value as a text with an indentation of two spaces. -/
def pretty (v : JsonValue) : Text := v.render []

end JsonValue

end AlRefactor
