import AlRefactor.Declaration.Scope

/-!
# Names across documents

Objects are found by the names in declared types, and the type of an argument is the declared type
of what it names.
-/

namespace AlRefactor

/-- The trees of all documents, by the numbers of the documents. -/
abbrev Trees := List (Nat × SyntaxTree)

/-! ## Objects -/

namespace Trees

def tree? (ts : Trees) (document : Nat) : Option SyntaxTree := ts.lookup document

def objects (ts : Trees) : List (Nat × Node) :=
  ts.flatMap fun (d, t) => (t.root.childNodes.filter (·.kind.isObject)).map fun n => (d, n)

/-- The first object of one of the kinds that has a name. -/
def objectNamed? (ts : Trees) (kinds : List Kind) (name : Text) : Option (Nat × Node) :=
  ts.objects.find? fun (_, n) => n.isAny kinds && (n.name.map (·.sameName name)).getD false

end Trees

namespace Node

def property? (n : Node) (name : Text) : Option Text := do
  let p ← (n.childrenOf NodeKind.propertyDeclaration).find? fun p =>
    (p.name.map (·.sameName name)).getD false
  let eq ← p.child? TokenKind.eq
  let stop := ((p.lastChild? TokenKind.semicolon).map (·.start)).getD p.stop
  if eq.stop < stop then some (n.tree.text.extract ⟨eq.stop, stop⟩).trim else none

def extended? (n : Node) : Option Text :=
  (n.child? NodeKind.extendsClause).bind fun c =>
    (c.child? NodeKind.identifierName).map (·.text)

end Node

namespace Trees

/-! ## Records -/

def sourceTable? (ts : Trees) (object : Node) : Option Text :=
  match object.kind with
  | .node .tableObject => object.name
  | .node .tableExtensionObject => object.extended?
  | .node .pageObject => object.property? "SourceTable"
  | .node .pageExtensionObject =>
    object.extended?.bind fun base =>
      (ts.objectNamed? [NodeKind.pageObject] base).bind fun (_, page) =>
        page.property? "SourceTable"
  | _ => none

def recordType? (ts : Trees) (object : Node) : Option Text :=
  (ts.sourceTable? object).map (("Record " : Text) ++ ·)

/-- What a name means inside a procedure: locals come first, then parameters, a named return value,
globals, and the implicit records. -/
def lookup? (ts : Trees) (method : Node) (name : Text) : Option Variable :=
  let declared := method.locals ++ method.parameters ++
    (method.returnValue?.bind (·.toVariable? none)).toList ++
    (method.object?.map (·.globals)).getD []
  (declared.find? (·.name.sameName name)).or <|
    if name.sameName "Rec" || name.sameName "xRec" then
      (method.object?.bind ts.recordType?).map (Variable.plain name)
    else none

/-! ## Fields -/

/-- Name and type in the header `(number; name; type)` of a field. -/
def fieldHeader? (header : Text) : Option (Text × Text) := do
  let inner ← (Text.dropStart? "(" header).bind (Text.dropEnd? ")")
  let (_, rest) ← Text.cutAt? ';' inner
  let (name, type) ← Text.cutAt? ';' rest
  some (name.trim, type.trim)

def sectionsNamed (n : Node) (name : Text) : List Node :=
  (n.childrenOf NodeKind.sectionDeclaration).filter fun s =>
    (s.name.map (·.sameName name)).getD false

def declaredFields (object : Node) : List (Text × Text) :=
  ((sectionsNamed object "fields").flatMap (sectionsNamed · "field")).filterMap fun f =>
    (f.child? NodeKind.sectionArguments).bind fun a => fieldHeader? a.text

/-- The object declares fields of a table: it is the table or extends it. -/
def declaresFieldsOf (object : Node) (table : Text) : Bool :=
  let name :=
    match object.kind with
    | .node .tableObject => object.name
    | .node .tableExtensionObject => object.extended?
    | _ => none
  (name.map (·.sameName table)).getD false

def fieldsOfTable (ts : Trees) (table : Text) : List (Text × Text) :=
  (ts.objects.filter fun (_, n) => declaresFieldsOf n table).flatMap fun (_, n) => declaredFields n

def typeOfField? (ts : Trees) (table field : Text) : Option Text :=
  ((ts.fieldsOfTable table).find? fun (name, _) => name.sameName field).map (·.2)

end Trees

/-! ## Arguments -/

namespace Node

def typeOfLiteral? (n : Node) : Option Text :=
  n.firstToken?.bind fun t =>
    match t.kind with
    | .token .intLiteral => some "Integer"
    | .token .decimalLiteral => some "Decimal"
    | .token .stringLiteral => some "Text"
    | .token .kwTrue | .token .kwFalse => some "Boolean"
    | .token .dateTimeLiteral =>
      let text := t.text.lower
      if text.endsWith "dt" then some "DateTime"
      else if text.endsWith "d" then some "Date"
      else some "Time"
    | _ => none

/-- Argument for an expression that has the type of a literal. -/
def argumentOfLiteral? (expression literal : Node) : Option Argument :=
  literal.typeOfLiteral?.map fun type =>
    ⟨Variable.plain (type ++ "Value") type, expression.text, false⟩

end Node

def Text.parameterName (t : Text) : Text :=
  let name := t.unquote.plain
  if name.isEmpty then "Value" else name

namespace Trees

/-- What an argument of a call made in a procedure asks for, if its type is known: variables,
literals, values of enums and fields of records. -/
def argument? (ts : Trees) (method expression : Node) : Option Argument :=
  match expression.kind with
  | .node .identifierName =>
    (ts.lookup? method expression.text).map fun v =>
      ⟨Variable.plain v.name v.type, expression.text, true⟩
  | .node .literalExpression => expression.argumentOfLiteral? expression
  | .node .unaryExpression => do
    let operand ← expression.childNodes.head?
    if operand.is NodeKind.literalExpression then expression.argumentOfLiteral? operand else none
  | .node .optionAccessExpression => do
    let qualifier ← expression.childNodes.head?
    if qualifier.is NodeKind.optionAccessExpression then
      match qualifier.childrenOf NodeKind.identifierName with
      | keyword :: enum :: _ =>
        if keyword.text.sameName "Enum" then
          some ⟨Variable.plain enum.text.parameterName ("Enum " ++ enum.text), expression.text,
            false⟩
        else none
      | _ => none
    else none
  | .node .memberAccessExpression => do
    let receiver ← expression.childNodes.head?
    let member ← expression.lastChild? NodeKind.identifierName
    if receiver.is NodeKind.identifierName then
      let record ← ts.lookup? method receiver.text
      let (word, table) ← record.type.namedObject?
      if word.sameLetters "record" then
        let type ← ts.typeOfField? table member.text
        some ⟨Variable.plain member.text.parameterName type, expression.text, true⟩
      else none
    else none
  | _ => none

end Trees

end AlRefactor
