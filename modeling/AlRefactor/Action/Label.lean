import AlRefactor.Action.Basic
import AlRefactor.Edit.VarSection

/-!
# Labels for literals
-/

namespace AlRefactor

namespace Label

/-! ## Names -/

/-- What the name of a label ends with, by the procedure it is handed to. -/
def ending (callee : Option Text) : Text :=
  let calls := fun w : Text => (callee.map fun c => c.sameLetters w).getD false
  if calls "message" then "Msg"
  else if calls "error" then "Err"
  else if calls "confirm" || calls "strmenu" then "Qst"
  else "Lbl"

/-- Number of characters a name has at most before its ending. -/
def baseLength : Nat := 26

/-- The parts of a text between white space, hyphens and slashes. -/
def words : Text → List Text
  | [] => [[]]
  | c :: t =>
    if Text.isSpace c || c == '-' || c == '/' then [] :: words t
    else match words t with
      | [] => [[c]]
      | w :: ws => (c :: w) :: ws

/-- A word as part of a name: without the digits and signs in front, with a capital letter. -/
def wordName (w : Text) : Text :=
  match Text.plain (w.dropWhile fun c => c == '%' || c == '#' || c.isDigit) with
  | [] => []
  | c :: t => c.toUpper :: t

def base (content : Text) : Text :=
  let name := ((words content).flatMap wordName).take baseLength
  match name with
  | [] => "Text"
  | c :: _ => if c.isDigit then (("Text" : Text) ++ name).take baseLength else name

/-! ## Comments -/

/-- The digits of the placeholders `%1` to `%9` of a text behind a run of percent signs. A doubled
sign stands for itself and opens no placeholder. -/
def placeholdersAfter (signs : Nat) : Text → List Char
  | [] => []
  | c :: t =>
    if c == '%' then placeholdersAfter (signs + 1) t
    else if signs == 1 && c.isDigit && c != '0' then c :: placeholdersAfter 0 t
    else placeholdersAfter 0 t

/-- The digits of the placeholders of a text, each once, in the order of their first places. -/
def placeholders (content : Text) : List Char := (placeholdersAfter 0 content).eraseDups

/-- What a placeholder stands for: the argument of its number. -/
def explanation (arguments : List Node) (digit : Char) : Text :=
  match arguments[digit.toNat - '1'.toNat]? with
  | some a => '%' :: digit :: (" = " ++ a.text.trim)
  | none => ['%', digit]

/-- Every quote twice. -/
def doubleQuotes (t : Text) : Text := t.flatMap fun c => if c == '\'' then ['\'', '\''] else [c]

/-- The comment that explains the placeholders of a label, if it has any and the settings ask for
one. -/
def comment? (config : Config) (content : Text) (arguments : List Node) : Option Text :=
  if !config.extractToLabelCreatesComment || config.commentsAreLocalized then none
  else match placeholders content with
    | [] => none
    | ds => some (doubleQuotes (Text.join ", " (ds.map (explanation arguments))))

/-! ## Literals -/

/-- Every doubled quote once. -/
def singleQuotes : Text → Text
  | '\'' :: '\'' :: t => '\'' :: singleQuotes t
  | c :: t => c :: singleQuotes t
  | [] => []

def contentOf (literal : Text) : Text :=
  singleQuotes (((Text.dropStart? "'" literal).bind (Text.dropEnd? "'")).getD literal)

/-- The string literal in a body at a range, unless it is empty. -/
def literalAt? (t : SyntaxTree) (span : Span) : Option Node := do
  let n ← t.findAt? span.start [NodeKind.literalExpression]
  let token ← n.firstToken?
  let _ ← n.ancestorAmong? [NodeKind.block]
  let _ ← n.method?
  if token.is TokenKind.stringLiteral && token.text != "''".toList then some n else none

/-- The procedure that a literal is the first argument of, and the further arguments. -/
def call? (literal : Node) : Option (Text × List Node) := do
  let list ← literal.parent
  let callee ← (← list.parent).childNodes.head?
  match list.kind, list.childNodes with
  | .node .argumentList, first :: rest =>
    if first.same literal then
      match callee.kind with
      | .node .identifierName => some (callee.text, rest)
      | .node .memberAccessExpression =>
        (callee.lastChild? NodeKind.identifierName).map fun m => (m.text, rest)
      | _ => none
    else none
  | _, _ => none

/-- The name of the label and the edits that put it in place of a literal. -/
def edits? (ctx : Context) (literal : Node) : Option (List Edit) := do
  let method ← literal.method?
  let quoted := literal.text.trim
  let content := contentOf quoted
  let call := call? literal
  let name := Text.fresh Text.sameName (TakenNames.ofMethod method).all
    (base content ++ ending (call.map (·.1)))
  let comment :=
    match comment? ctx.config content ((call.map (·.2)).getD []) with
    | some c => ", Comment = '" ++ c ++ "'"
    | none => []
  let declaration ← method.declare? (.plain name ("Label " ++ quoted ++ comment))
  some [declaration, ⟨literal.span, name⟩]

def provider : Provider :=
  .ofTarget literalAt? (fun _ => true) fun ctx document _ n =>
    pure <| match edits? ctx n with
      | none => []
      | some es => [⟨"Extract to label", .extraction, .change (Change.ofEdits document es)⟩]

end Label

end AlRefactor
