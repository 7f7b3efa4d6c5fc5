import AlRefactor.Declaration.Scope
import AlRefactor.Edit.Basic
import AlRefactor.Text.Lines
import AlRefactor.Text.Lowercase

/-!
# Where a new procedure goes
-/

namespace AlRefactor

/-- Who may call a procedure. -/
inductive Access where
  | «public» | internal | «protected» | «local»
deriving DecidableEq, Repr

namespace Access

def name : Access → String
  | .public => "Public"
  | .internal => "Internal"
  | .protected => "Protected"
  | .local => "Local"

/-- What stands before `procedure`. -/
def modifier : Access → Text
  | .public => []
  | .internal => "internal "
  | .protected => "protected "
  | .local => "local "

def ofToken? : Kind → Option Access
  | .token .kwLocal => some .local
  | .token .kwInternal => some .internal
  | .token .kwProtected => some .protected
  | _ => none

end Access

/-- Access of a procedure. Triggers and all else have none. -/
def Node.access? (n : Node) : Option Access :=
  if n.is NodeKind.methodDeclaration then
    some ((n.childTokens.findSome? fun t => Access.ofToken? t.kind).getD .public)
  else none

/-- Habits of where new procedures go. -/
inductive Placement where
  /-- Behind the procedure that is being changed. -/
  | afterCurrent
  /-- Before the first procedure of the same access with a later name. -/
  | sortedByName
deriving DecidableEq, Repr

/-- What a new procedure stands next to. -/
inductive Anchor where
  | behind (n : Node)
  | before (n : Node)
  | closing (brace : Node)

namespace Placement

/-- What a procedure of a given name and access stands next to in an object. -/
def anchor? (p : Placement) (object : Node) (current : Option Node) (name : Text)
    (access : Access) : Option Anchor :=
  let peers := (object.childrenOf NodeKind.methodDeclaration).filter (·.access? == some access)
  let key := fun t : Text => Text.lowercase t.unquote
  let preferred :=
    match p with
    | .sortedByName =>
      (peers.find? fun m : Node => (m.name.map fun n => decide (key name < key n)).getD false).map
        Anchor.before
    | .afterCurrent => (current.filter fun m : Node => m.access? == some access).map Anchor.behind
  let last := (peers.getLast?.map Anchor.behind).or
    ((object.lastChild? TokenKind.rBrace).map Anchor.closing)
  preferred.or last

end Placement

namespace Node

/-- Indentation of the members of an object: that of the first one, otherwise one level more than
the object's own. -/
def indentOfMembers (n : Node) : Text :=
  let text := n.tree.text
  match n.childNodes.find? fun m => m.kind.isMethod || m.is NodeKind.globalVarSection with
  | some m => text.lineIndent m.start
  | none => let outer := text.lineIndent n.start; outer ++ outer.indentUnit

def startsLine (n : Node) : Bool := (n.tree.text.startsLine? n.start).getD false

def lineStart (n : Node) : Nat := n.tree.text.lineStart n.start

def lineIndent (n : Node) : Text := n.tree.text.lineIndent n.start

end Node

namespace Placement

def offset? (p : Placement) (object : Node) (current : Option Node) (name : Text)
    (access : Access) : Option Nat :=
  (p.anchor? object current name access).map fun
    | .behind n => n.full.stop
    | .before n => n.lineStart
    | .closing b => b.lineStart

/-- The edit that adds the lines of a procedure to an object, one blank line away from its
neighbours. -/
def insert? (p : Placement) (object : Node) (current : Option Node) (name : Text)
    (access : Access) (lines : List Text) : Option Edit :=
  if object.kind.isObject then
    let text := object.tree.text
    let newline := text.newline
    let indent := object.indentOfMembers
    let block := Text.join newline (lines.map fun l => if l.isEmpty then [] else indent ++ l)
    (p.anchor? object current name access).map fun
      | .behind n =>
        let gap := if text.isLineStart n.full.stop then newline else newline ++ newline
        Edit.insert n.full.stop (gap ++ block ++ newline)
      | .before n => Edit.insert n.lineStart (block ++ newline ++ newline)
      | .closing b =>
        let isEmpty := (b.prevSibling?.map (·.is TokenKind.lBrace)).getD false
        if b.startsLine then
          Edit.insert b.lineStart ((if isEmpty then [] else newline) ++ block ++ newline)
        else Edit.insert b.start (newline ++ block ++ newline ++ b.lineIndent)
  else none

end Placement

end AlRefactor
