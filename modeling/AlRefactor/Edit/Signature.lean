import AlRefactor.Declaration.Placement

/-!
# Changing what a procedure takes and returns
-/

namespace AlRefactor

/-- Literal that stands for any value of a simple type. -/
def Text.defaultValue? (type : Text) : Option Text :=
  let word := (Text.typeWord type).lower
  let among := fun ws : List String => ws.any (·.toList == word)
  if among ["boolean"] then some "false"
  else if among ["integer", "biginteger", "decimal", "byte", "duration"] then some "0"
  else if among ["text", "code", "char"] then some "''"
  else none

namespace Node

/-! ## Parameters -/

def extendParameters? (n : Node) (missing : List Variable) : Option Edit :=
  if missing.isEmpty then none
  else
    (n.child? NodeKind.parameterList).bind fun list =>
      let text := Variable.parameterList missing
      match list.lastChild? NodeKind.parameter with
      | some last => some (Edit.insert last.stop ("; " ++ text))
      | none => (list.child? TokenKind.lParen).map fun bracket => Edit.insert bracket.stop text

/-- Gives a name to a return value that has none. -/
def nameReturnValue? (n : Node) (name : Text) : Option Edit :=
  (n.child? NodeKind.returnValue).bind fun r =>
    if r.name.isSome then none
    else
      let place := ((r.child? TokenKind.colon).map (·.start)).getD r.start
      let spaced := place != 0 &&
        ((n.tree.text.charAt? (place - 1)).map Text.isAsciiSpace).getD false
      some (Edit.insert place (if spaced then name else " " ++ name))

/-! ## Overloads -/

def header? (n : Node) : Option Text := do
  let first ← n.children.find? fun c => !c.is NodeKind.memberAttribute
  let last ← (n.child? NodeKind.returnValue).or (n.child? NodeKind.parameterList)
  some (n.tree.text.extract ⟨first.start, last.stop⟩)

def obsoleteLine (count : Nat) (version : Option Text) : Text :=
  "[Obsolete('Please use the overload with " ++ Text.ofNat count ++ " parameters.', '" ++
    (version.map (("v" : Text) ++ ·)).getD [] ++ "')]"

/-- The statement that hands a call on to a procedure with more parameters. -/
def forwardingStatement (n : Node) (name : Text) (missing : List Variable) : Text :=
  let arguments := n.parameters.map (·.name) ++
    missing.map fun v => (v.type.defaultValue?).getD v.name
  let call := name ++ "(" ++ Text.join ", " arguments ++ ")"
  match n.returnValue? with
  | some r =>
    match r.name with
    | some result => result ++ " := " ++ call ++ ";"
    | none => "exit(" ++ call ++ ");"
  | none => call ++ ";"

/-- The lines of a procedure with the old parameters that calls the one with further parameters.
What has no literal to stand for it is declared. -/
def overloadLines (n : Node) (name header : Text) (missing : List Variable) (obsolete : Bool)
    (version : Option Text) : List Text :=
  let indent := n.lineIndent
  let inner := indent ++ indent.indentUnit
  let locals := missing.filter fun v => v.type.defaultValue?.isNone
  (if obsolete then [indent ++ obsoleteLine (n.parameters.length + missing.length) version]
    else []) ++
  [indent ++ header] ++
  (if locals.isEmpty then []
    else (indent ++ "var") :: locals.map fun v => inner ++ v.sectionLine) ++
  [indent ++ "begin", inner ++ n.forwardingStatement name missing, indent ++ "end;"]

/-- Adds parameters to a procedure and keeps its old header as an overload before it. -/
def addOverload (n : Node) (missing : List Variable) (obsolete : Bool)
    (version : Option Text) : List Edit :=
  match n.name, n.header?, n.extendParameters? missing with
  | some name, some header, some append =>
    let newline := n.tree.text.newline
    let block := Text.join newline (n.overloadLines name header missing obsolete version)
    [Edit.insert n.lineStart (block ++ newline ++ newline), append]
  | _, _, _ => []

end Node

end AlRefactor
