import AlRefactor.Declaration.Placement

/-!
# Adding and removing declared variables
-/

namespace AlRefactor

/-! ## Order of types -/

/-- The types that come first in a section of variables, in their order. -/
def orderedTypes : List String :=
  ["record", "report", "codeunit", "xmlport", "page", "query", "notification", "bigtext",
   "dateformula", "recordid", "recordref", "fieldref", "filterpagebuilder"]

/-- Rank of a type in a section of variables. The types without a place of their own come last. -/
def Text.typeRank (type : Text) : Nat :=
  orderedTypes.findIdx fun w => w.toList == (Text.typeWord type).lower

/-! ## Adding -/

namespace Node

def typeOfEntry (n : Node) : Text := typeText (n.lastChild? NodeKind.typeReference)

/-- Entries of a section of variables: single declarations and lists. -/
def sectionEntries (n : Node) : List Node :=
  n.childNodes.filter (·.isOneOf [.variableDeclaration, .variableListDeclaration])

def insertLineBehind (n : Node) (line : Text) : Edit :=
  let text := n.tree.text
  let stop := n.full.stop
  if text.isLineStart stop && n.stop < stop then Edit.insert stop (line ++ text.newline)
  else Edit.insert n.stop (text.newline ++ line)

/-- The entry of a section that a new variable follows: the last one of its type, otherwise the last
one of an earlier type. -/
def entryBefore? (n : Node) (v : Variable) : Option Node :=
  let entries := n.sectionEntries.reverse
  (entries.find? fun e => (Text.typeWord e.typeOfEntry).sameLetters v.typeWord).or
    (entries.find? fun e => Text.typeRank e.typeOfEntry < Text.typeRank v.type)

def addToSection (n : Node) (v : Variable) : Edit :=
  let text := n.tree.text
  let newline := text.newline
  match n.entryBefore? v with
  | some e => e.insertLineBehind (e.lineIndent ++ v.sectionLine)
  | none =>
    match n.sectionEntries.head? with
    | some first =>
      if first.startsLine then
        Edit.insert first.lineStart (first.lineIndent ++ v.sectionLine ++ newline)
      else Edit.insert first.start (v.sectionLine ++ " ")
    | none =>
      let word := (n.child? TokenKind.kwVar).getD n
      let indent := word.lineIndent
      Edit.insert word.stop (newline ++ indent ++ indent.indentUnit ++ v.sectionLine)

/-- Where a new section of variables goes and how its lines are indented: before the body of a
procedure; before the first procedure of an object, otherwise before its end. -/
def sectionPlace? (n : Node) : Option (Nat × Text) :=
  if n.kind.isMethod then
    ((n.child? NodeKind.block).bind (·.child? TokenKind.kwBegin)).map fun b =>
      (b.start, b.lineIndent)
  else
    match n.childAmong? (NodeKind.methods.map .node) with
    | some m => some (m.start, m.lineIndent)
    | none =>
      (n.lastChild? TokenKind.rBrace).map fun b =>
        (b.start, b.lineIndent ++ b.lineIndent.indentUnit)

def insertSection? (n : Node) (v : Variable) : Option Edit :=
  let text := n.tree.text
  let newline := text.newline
  n.sectionPlace?.map fun (place, indent) =>
    let beforeMember := n.childNodes.any fun m => m.kind.isMethod && m.start == place
    let gap := if n.kind.isObject && beforeMember then newline else []
    let block := indent ++ "var" ++ newline ++ indent ++ indent.indentUnit ++ v.sectionLine ++
      newline ++ gap
    if (text.startsLine? place).getD false then Edit.insert (text.lineStart place) block
    else Edit.insert place (newline ++ block ++ indent)

/-- Declares a variable in a procedure or trigger, or in an object. -/
def declare? (n : Node) (v : Variable) : Option Edit :=
  let add := fun kind : NodeKind =>
    match n.child? kind with
    | some s => some (s.addToSection v)
    | none => n.insertSection? v
  if n.kind.isMethod then add .varSection
  else if n.kind.isObject then add .globalVarSection
  else none

/-! ## Removing -/

/-- The lines of a node, or the node alone where it shares its lines. -/
def wholeLines (n : Node) : Span := (n.tree.text.wholeLines? n.span).getD n.span

/-- The ranges to delete for the doomed ones among the names of a list: one for each run of
neighbours, with the comma behind a run that starts the list and the comma before any other. -/
def doomedRuns (doomed : Node → Bool) (before : Option Node) : List Node → List Span
  | [] => []
  | n :: ns =>
    if doomed n then
      let last := (n :: ns.takeWhile doomed).getLastD n
      let rest := ns.dropWhile doomed
      let run : Span :=
        match before, rest.head? with
        | some b, _ => ⟨b.stop, last.stop⟩
        | none, some next => ⟨n.start, next.start⟩
        | none, none => ⟨n.start, last.stop⟩
      run :: doomedRuns doomed (some last) rest
    else doomedRuns doomed (some n) ns
termination_by ns => ns.length
decreasing_by
  · have := (List.dropWhile_sublist doomed (l := ns)).length_le
    simp only [List.length_cons]
    omega
  · simp

def removeFromList (doomed : Node → Bool) (n : Node) : List Edit :=
  let names := n.childrenOf NodeKind.variableDeclarationName
  if !names.any doomed then []
  else if names.all doomed then [Edit.delete n.wholeLines]
  else (doomedRuns doomed none names).map Edit.delete

/-- Deletions for the doomed declarations of a section. A section that loses all goes itself. -/
def removeFromSection (doomed : Node → Bool) (n : Node) : List Edit :=
  if n.sectionDeclarations.all doomed then [Edit.delete n.wholeLines]
  else
    n.childNodes.flatMap fun e =>
      if e.is NodeKind.variableDeclaration then
        if doomed e then [Edit.delete e.wholeLines] else []
      else if e.is NodeKind.variableListDeclaration then removeFromList doomed e
      else []

def varSection? (n : Node) : Option Node := n.ancestors.find? (·.kind.isVarSection)

/-- Each node once, at its first place. -/
def distinct (ns : List Node) : List Node :=
  ns.foldl (fun seen n => if seen.any (·.same n) then seen else seen ++ [n]) []

def undeclare (declarations : List Node) : List Edit :=
  let doomed := fun n => declarations.any (·.same n)
  ((distinct (declarations.filterMap varSection?)).flatMap (removeFromSection doomed)).mergeSort
    fun a b => a.span.start ≤ b.span.start

/-- Deletions for the nodes of some numbers, unless one of them is no declaration. Numbers without a
node are passed over. -/
def removeVariablesOf (t : SyntaxTree) (ids : List Nat) : Except Fault (List Edit) :=
  let nodes := ids.filterMap t.get?
  match nodes.find? fun n => !n.isOneOf [.variableDeclaration, .variableDeclarationName] with
  | some n => .error (.notRemovable n.kind)
  | none => .ok (undeclare nodes)

end Node

end AlRefactor
