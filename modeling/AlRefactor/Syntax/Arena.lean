import AlRefactor.Grammar.File

/-!
# Syntax trees at their place in a text

The nodes of a tree are numbered in the order in which they are opened, and the nodes below one are
closed before it is. So the nodes of a subtree have consecutive numbers.
-/

namespace AlRefactor

/-! ## Places of tokens -/

/-- A token and its range with the layout that belongs to it. -/
structure Placed where
  token : Token
  full : Span
deriving DecidableEq, Repr, Inhabited

namespace Placed

/-- End of the layout that follows a token on its line, the line break included. A directive belongs
to what comes after it. -/
def trailingStop (stop : Nat) : List Token → Nat
  | [] => stop
  | t :: ts =>
    if !t.kind.isTrivia || t.kind == .directive then stop
    else if t.kind == .newline then t.stop
    else trailingStop t.stop ts

/-- The tokens at their places. The full range of a significant one starts where the one before it
ends; layout has its own range. -/
def ofTokens (leading : Nat) : List Token → List Placed
  | [] => []
  | t :: ts =>
    if t.kind.isTrivia then ⟨t, t.span⟩ :: ofTokens leading ts
    else
      let stop := trailingStop t.stop ts
      ⟨t, ⟨leading, stop⟩⟩ :: ofTokens stop ts

def isLayout (p : Placed) : Bool := p.token.kind.isTrivia

/-- Where the next significant token starts, or the text ends. -/
def nextStart (text : Text) (ps : List Placed) : Nat :=
  match ps.find? (!·.isLayout) with
  | some p => p.token.start
  | none => text.size

end Placed

/-! ## Numbered nodes -/

/-- A node as it is kept in an arena. The numbers of its subtree end before `next`. -/
structure Entry where
  kind : Kind
  span : Span
  full : Span
  parent : Option Nat
  children : List Nat
  next : Nat
  name : Option Text
deriving Repr, Inhabited

namespace Entry

/-- The range from the first to the last of some siblings, or a given one if there are none. -/
def around (otherwise : Span) (spans : List Span) : Span :=
  match spans.head?, spans.getLast? with
  | some first, some last => first.join last
  | _, _ => otherwise

/-- A node with what its children tell: its ranges, which go from the first to the last of them, and
its name. -/
def closed (text : Text) (e : Entry) (below : List Entry) (next : Nat) : Entry :=
  { e with
    span := around e.span (below.map (·.span))
    full := around e.full (below.map (·.full))
    next
    name :=
      if e.kind.isNamed then
        (below.find? (·.kind == .node .identifierName)).map fun c => text.extract c.span
      else none }

end Entry

/-! ## Building an arena from events -/

/-- An arena that is not complete yet. -/
structure Builder where
  /-- The tokens behind the last one that has become a leaf. -/
  tokens : List Placed
  entries : Array Entry
  /-- The numbers of the nodes that are not closed yet, innermost first. -/
  opened : List Nat
  /-- Where a node was to be closed though none was open. -/
  unmatched : List Nat

namespace Builder

def start (text : Text) : Builder := ⟨Placed.ofTokens 0 text.tokens, #[], [], []⟩

def withChild (es : Array Entry) (parent : Option Nat) (id : Nat) : Array Entry :=
  match parent with
  | none => es
  | some p => es.modify p fun e => { e with children := e.children ++ [id] }

/-- Adds a node without children below the innermost open one. -/
def add (b : Builder) (kind : Kind) (span full : Span) : Builder :=
  let id := b.entries.size
  let parent := b.opened.head?
  { b with
    entries := (withChild b.entries parent id).push ⟨kind, span, full, parent, [], id + 1, none⟩ }

/-- Opens a node, which has no range until it gets children. -/
def openNode (text : Text) (b : Builder) (k : Kind) : Builder :=
  let place := Span.empty (Placed.nextStart text b.tokens)
  { b.add k place place with opened := b.entries.size :: b.opened }

def closeNode (text : Text) (b : Builder) : Builder :=
  match b.opened with
  | [] => { b with unmatched := b.unmatched ++ [Placed.nextStart text b.tokens] }
  | id :: ids =>
    { b with
      entries := b.entries.modify id fun e =>
        e.closed text (e.children.filterMap (b.entries[·]?)) b.entries.size
      opened := ids }

/-- Makes a leaf of the next significant token, whatever layout stands before it. -/
def addToken (b : Builder) (kind : TokenKind) : Builder :=
  match b.tokens.dropWhile (·.isLayout) with
  | [] => b
  | p :: ps => { b.add kind p.token.span p.full with tokens := ps }

/-- Carries out events. The nodes around the one that starts are opened before it, the outermost one
first. -/
def replay (text : Text) : List Event → Builder → Builder
  | [], b => b
  | .start k adopter :: es, b =>
    let r := Event.adopters adopter es
    replay text r.2 ((k :: r.1).reverse.foldl (openNode text) b)
  | .token k :: es, b => replay text es (b.addToken k)
  | .finish :: es, b => replay text es (b.closeNode text)
  | .spent :: es, b => replay text es b
termination_by es => es.length
decreasing_by all_goals simp [Event.length_adopters]

/-! ### No entry gets lost -/

@[simp] theorem size_withChild (es : Array Entry) (parent : Option Nat) (id : Nat) :
    (withChild es parent id).size = es.size := by
  unfold withChild; split <;> simp

@[simp] theorem size_add (b : Builder) (kind : Kind) (span full : Span) :
    (b.add kind span full).entries.size = b.entries.size + 1 := by
  simp [add]

@[simp] theorem size_openNode (text : Text) (b : Builder) (k : Kind) :
    (b.openNode text k).entries.size = b.entries.size + 1 := by
  simp [openNode]

theorem size_le_closeNode (text : Text) (b : Builder) :
    b.entries.size ≤ (b.closeNode text).entries.size := by
  unfold closeNode; split <;> simp

theorem size_le_addToken (b : Builder) (kind : TokenKind) :
    b.entries.size ≤ (b.addToken kind).entries.size := by
  unfold addToken; split
  · exact Nat.le_refl _
  · simp

theorem size_le_foldl_openNode (text : Text) (ks : List Kind) (b : Builder) :
    b.entries.size ≤ (ks.foldl (openNode text) b).entries.size := by
  induction ks generalizing b with
  | nil => exact Nat.le_refl _
  | cons k ks ih => exact Nat.le_trans (by simp) (ih _)

theorem size_le_replay (text : Text) (es : List Event) (b : Builder) :
    b.entries.size ≤ (replay text es b).entries.size := by
  fun_induction replay text es b with
  | case1 b => exact Nat.le_refl _
  | case2 _ _ _ _ _ ih => exact Nat.le_trans (size_le_foldl_openNode ..) ih
  | case3 _ _ _ ih => exact Nat.le_trans (size_le_addToken ..) ih
  | case4 _ _ ih => exact Nat.le_trans (size_le_closeNode ..) ih
  | case5 _ _ ih => exact ih

theorem size_pos_replay_start (text : Text) (k : Kind) (adopter : Option Nat) (es : List Event)
    (b : Builder) : 0 < (replay text (.start k adopter :: es) b).entries.size := by
  rw [replay]
  refine Nat.lt_of_lt_of_le ?_ (size_le_replay ..)
  rw [List.reverse_cons, List.foldl_append]
  exact Nat.lt_of_lt_of_eq (Nat.succ_pos _) (size_openNode ..).symm

end Builder

/-! ## Trees of texts -/

/-- A problem and the range it concerns. -/
structure Diagnostic where
  problem : Problem
  span : Span
deriving DecidableEq, Repr

namespace Diagnostic

def describe (d : Diagnostic) : String := d.problem.message ++ " at " ++ d.span.describe

/-- The range of a problem met at the significant token of a given number: that of the token, or the
end of the last one if there are no more. -/
def place (tokens : List Token) (index : Nat) : Span :=
  match tokens[index]? with
  | some t => t.span
  | none => Span.empty ((tokens.getLast?.map (·.stop)).getD 0)

end Diagnostic

/-- The nodes of a text and what was wrong with it. The first node is the whole file. -/
structure SyntaxTree where
  text : Text
  entries : Array Entry
  diagnostics : List Diagnostic
  entries_pos : 0 < entries.size

namespace SyntaxTree

/-- The events of a text, and the problems in the order they were met. -/
def reading (text : Text) : List Event × List (Problem × Nat) :=
  Grammar.read (text.significant.map (·.toLexeme))

def build (text : Text) : Builder :=
  Builder.replay text (reading text).1 (Builder.start text)

/-- The tree of a text. Its root covers all of the text. -/
def parse (text : Text) : SyntaxTree :=
  let b := build text
  let whole : Span := ⟨0, text.size⟩
  { text
    entries := b.entries.modify 0 fun e => { e with span := whole, full := whole }
    diagnostics :=
      ((reading text).2.map fun (p, i) => ⟨p, Diagnostic.place text.significant i⟩) ++
        b.unmatched.map fun offset => ⟨.unbalancedNodes, Span.empty offset⟩
    entries_pos := by
      rw [Array.size_modify]; exact Builder.size_pos_replay_start text .. }

def ok (t : SyntaxTree) : Bool := t.diagnostics.isEmpty

/-- Number of nodes, leaves included. -/
def size (t : SyntaxTree) : Nat := t.entries.size

def summary (t : SyntaxTree) : String :=
  "SyntaxTree \x7b len: " ++ toString t.text.size ++ ", nodes: " ++ toString t.size ++
    ", errors: " ++ toString t.diagnostics.length ++ " \x7d"

end SyntaxTree

/-! ## Nodes -/

/-- A node of a tree. -/
structure Node where
  tree : SyntaxTree
  id : Nat
  id_lt : id < tree.entries.size

namespace SyntaxTree

def root (t : SyntaxTree) : Node := ⟨t, 0, t.entries_pos⟩

def get? (t : SyntaxTree) (id : Nat) : Option Node :=
  if h : id < t.entries.size then some ⟨t, id, h⟩ else none

def nodes (t : SyntaxTree) : List Node := (List.range t.size).filterMap t.get?

end SyntaxTree

namespace Node

def entry (n : Node) : Entry :=
  have := n.id_lt
  n.tree.entries[n.id]

def kind (n : Node) : Kind := n.entry.kind

/-- Range without the layout around the node. -/
def span (n : Node) : Span := n.entry.span

/-- Range with the layout that belongs to the node. -/
def full (n : Node) : Span := n.entry.full

def start (n : Node) : Nat := n.span.start

def stop (n : Node) : Nat := n.span.stop

/-- The name a declaration gives, quotes included. -/
def name (n : Node) : Option Text := n.entry.name

def text (n : Node) : Text := n.tree.text.extract n.span

def fullText (n : Node) : Text := n.tree.text.extract n.full

def isToken (n : Node) : Bool := n.kind.isToken

def is (n : Node) (k : Kind) : Bool := n.kind == k

def isAny (n : Node) (ks : List Kind) : Bool := ks.contains n.kind

def isOneOf (n : Node) (ks : List NodeKind) : Bool := n.isAny (ks.map .node)

/-- The same node of the same tree. -/
def same (n m : Node) : Bool := n.id == m.id

def summary (n : Node) : String := n.kind.name ++ "@" ++ n.span.describe

/-! ### Relatives -/

def parent (n : Node) : Option Node := n.entry.parent.bind n.tree.get?

/-- Children in order, leaves included. -/
def children (n : Node) : List Node := n.entry.children.filterMap n.tree.get?

def childNodes (n : Node) : List Node := n.children.filter fun m => !m.isToken

def childTokens (n : Node) : List Node := n.children.filter (·.isToken)

def childrenOf (n : Node) (k : Kind) : List Node := n.children.filter (·.is k)

def child? (n : Node) (k : Kind) : Option Node := n.children.find? (·.is k)

def lastChild? (n : Node) (k : Kind) : Option Node := (n.childrenOf k).getLast?

def childAmong? (n : Node) (ks : List Kind) : Option Node := n.children.find? (·.isAny ks)

def placeInParent? (n : Node) : Option (Node × Nat) :=
  n.parent.bind fun p => (p.children.findIdx? (·.same n)).map fun i => (p, i)

def nextSibling? (n : Node) : Option Node :=
  n.placeInParent?.bind fun (p, i) => p.children[i + 1]?

def prevSibling? (n : Node) : Option Node :=
  n.placeInParent?.bind fun (p, i) => if i = 0 then none else p.children[i - 1]?

/-- The node and the nodes around it, innermost first. -/
def ancestors (n : Node) : List Node :=
  n :: match n.parent with
    | none => []
    | some p => if p.id < n.id then p.ancestors else []
termination_by n.id

/-- Innermost node of one of the kinds around this one. -/
def ancestorAmong? (n : Node) (ks : List Kind) : Option Node :=
  n.ancestors.tail.find? (·.isAny ks)

/-- The nodes below this one and itself, in preorder. -/
def subtree (n : Node) : List Node :=
  (List.range' n.id (n.entry.next - n.id)).filterMap n.tree.get?

/-- The nodes in `[id, stop)` of one of the kinds; unless `nested`, those inside a found one are
left out. -/
def collectFrom (t : SyntaxTree) (ks : List Kind) (nested : Bool) (stop id : Nat) : List Node :=
  if id < stop then
    match t.get? id with
    | none => []
    | some n =>
      if n.isAny ks then
        n :: collectFrom t ks nested stop (if nested then id + 1 else max n.entry.next (id + 1))
      else collectFrom t ks nested stop (id + 1)
  else []
termination_by stop - id
decreasing_by all_goals (try split) <;> omega

/-- The nodes below this one of some of the kinds, in preorder. -/
def collect (n : Node) (ks : List Kind) (nested : Bool) : List Node :=
  collectFrom n.tree ks nested n.entry.next (n.id + 1)

/-- The composite nodes below this one of some kinds, in preorder, nested ones too. -/
def collectAll (n : Node) (ks : List NodeKind) : List Node := n.collect (ks.map .node) true

def firstToken? (n : Node) : Option Node := n.subtree.find? (·.isToken)

/-- The leaf reached by last children, at most `fuel` levels down. -/
def lastTokenUpTo? : Nat → Node → Option Node
  | 0, _ => none
  | fuel + 1, n => if n.isToken then some n else n.children.getLast?.bind (lastTokenUpTo? fuel)

def lastToken? (n : Node) : Option Node := lastTokenUpTo? n.tree.size n

end Node

/-! ## Nodes at offsets -/

namespace SyntaxTree

/-- The child at an offset: the one that the offset is inside of, otherwise one that it touches. -/
def childAt? (n : Node) (offset : Nat) : Option Node :=
  (n.children.find? (·.span.contains offset)).or (n.children.find? (·.span.touches offset))

/-- Goes down to the node at an offset, at most `fuel` levels. -/
def descend (offset : Nat) : Nat → Node → Node
  | 0, n => n
  | fuel + 1, n =>
    match childAt? n offset with
    | some m => descend offset fuel m
    | none => n

def elementAt (t : SyntaxTree) (offset : Nat) : Node := descend offset t.size t.root

/-- The innermost node of one of the kinds around an offset. -/
def findAt? (t : SyntaxTree) (offset : Nat) (ks : List Kind) : Option Node :=
  (t.elementAt offset).ancestors.find? (·.isAny ks)

/-- The smallest node whose range covers a range, otherwise the whole file. -/
def covering (t : SyntaxTree) (span : Span) : Node :=
  ((t.elementAt span.start).ancestors.find? (·.span.covers span)).getD t.root

end SyntaxTree

end AlRefactor
