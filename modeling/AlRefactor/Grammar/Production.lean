import AlRefactor.Syntax.Problem
import AlRefactor.Syntax.Event
import AlRefactor.Token.Lexer

/-!
# Productions: the rules of the grammar, and what they make of the lexemes they read
-/

namespace AlRefactor

/-- The lexemes still to be read, and how many were read before them. -/
structure Cursor where
  read : Nat
  ahead : List Lexeme
deriving Repr

namespace Cursor

/-- Kind of the `n`th lexeme ahead, `eof` behind the last one. -/
def peek (c : Cursor) (n : Nat) : TokenKind := (c.ahead[n]?.map (·.kind)).getD .eof

def kind (c : Cursor) : TokenKind := c.peek 0

/-- Text of the next lexeme, empty at the end. -/
def text (c : Cursor) : Text := (c.ahead.head?.map (·.text)).getD []

def atEnd (c : Cursor) : Bool := c.ahead.isEmpty

def isAt (c : Cursor) (k : TokenKind) : Bool := c.kind == k

def atAny (c : Cursor) (ks : List TokenKind) : Bool := ks.contains c.kind

def atWord (c : Cursor) (word : Text) : Bool := c.isAt .ident && c.text.sameLetters word

end Cursor

/-! ## Productions -/

/-- A rule of the grammar. It never fails: what it cannot read becomes a problem. -/
inductive Production where
  /-- Reads nothing. -/
  | skip
  /-- Takes the next lexeme as a leaf. -/
  | take
  /-- Notes a problem at the next lexeme. -/
  | report (problem : Problem)
  /-- One production after the other. -/
  | andThen (p q : Production)
  /-- The production that what lies ahead asks for. -/
  | look (next : Cursor → Production)
  /-- Repeats a production that reads at least one lexeme as long as the test holds. -/
  | whileAt (test : Cursor → Bool) (p : Production)
  /-- Puts what two productions read below a node, whose kind shows between the two. -/
  | mark (p : Production) (kind : Cursor → Kind) (q : Production)
  /-- If `p` reads a node, opens a node of the kind that what lies ahead asks for around it and
  around what `q` reads, again and again. -/
  | grow (p : Production) (kind : Cursor → Option NodeKind) (q : Production)

namespace Production

instance : Append Production := ⟨andThen⟩

/-- Chooses by what lies ahead. -/
def choose (test : Cursor → Bool) (p q : Production) : Production :=
  look fun c => if test c then p else q

/-- Puts what a production reads below a node. -/
def node (k : Kind) (p : Production) : Production := mark p (fun _ => k) skip

/-! ## What productions make -/

/-- How the parts of a result are put together. -/
structure Assembly (ω : Type) where
  /-- Of nothing. -/
  nothing : ω
  /-- Of one part and what follows it. -/
  both : ω → ω → ω
  /-- Of a lexeme; behind the last one there is none. -/
  token : Option Lexeme → ω
  /-- Of a node and what is below it. -/
  node : Kind → ω → ω
  /-- Of a node, the complete node that it is opened around, and what else is below it. -/
  adopt : NodeKind → ω → ω → ω

/-- What a production made of the lexemes it read, whether that is a single node, the problems with
the number of the lexeme at which each was met, and the rest. -/
structure Outcome (ω : Type) where
  made : ω
  single : Bool
  problems : List (Problem × Nat)
  rest : Cursor

namespace Assembly

variable {ω : Type} (m : Assembly ω)

def idle (c : Cursor) : Outcome ω := ⟨m.nothing, false, [], c⟩

def leaf (c : Cursor) : Outcome ω :=
  match c.ahead with
  | [] => ⟨m.token none, false, [], c⟩
  | l :: ls => ⟨m.token (some l), false, [], ⟨c.read + 1, ls⟩⟩

def sequence (p q : Cursor → Outcome ω) (c : Cursor) : Outcome ω :=
  let a := p c
  let b := q a.rest
  ⟨m.both a.made b.made, false, a.problems ++ b.problems, b.rest⟩

/-- At most `n` rounds of `p`, as long as the test holds. -/
def rounds (test : Cursor → Bool) (p : Cursor → Outcome ω) : Nat → Cursor → Outcome ω
  | 0 => m.idle
  | n + 1 => fun c => if test c then m.sequence p (rounds test p n) c else m.idle c

def marked (p : Cursor → Outcome ω) (kind : Cursor → Kind) (q : Cursor → Outcome ω)
    (c : Cursor) : Outcome ω :=
  let a := p c
  let b := q a.rest
  ⟨m.node (kind a.rest) (m.both a.made b.made), true, a.problems ++ b.problems, b.rest⟩

/-- At most `n` nodes one around the other, the first of them around the one that was made. -/
def grown (kind : Cursor → Option NodeKind) (q : Cursor → Outcome ω) : Nat → Outcome ω → Outcome ω
  | 0, a => a
  | n + 1, a =>
    match kind a.rest with
    | none => a
    | some k =>
      let b := q a.rest
      grown kind q n ⟨m.adopt k a.made b.made, true, a.problems ++ b.problems, b.rest⟩

end Assembly

/-- What a production makes at a cursor. Every round of a repetition reads a lexeme, so their number
bounds the rounds. -/
def run {ω : Type} (m : Assembly ω) : Production → Cursor → Outcome ω
  | skip, c => m.idle c
  | take, c => m.leaf c
  | report p, c => ⟨m.nothing, false, [(p, c.read)], c⟩
  | andThen p q, c => m.sequence (p.run m) (q.run m) c
  | look next, c => (next c).run m c
  | whileAt test p, c => m.rounds test (p.run m) c.ahead.length c
  | mark p kind q, c => m.marked (p.run m) kind (q.run m) c
  | grow p kind q, c =>
    let a := p.run m c
    if a.single then m.grown kind (q.run m) a.rest.ahead.length a else a

def Assembly.events : Assembly (List Event) where
  nothing := []
  both := (· ++ ·)
  token l := [.token ((l.map (·.kind)).getD .eof)]
  node k es := .start k none :: es ++ [.finish]
  adopt k first es := Event.adopt 0 first.length first ++ .start k none :: es ++ [.finish]

/-- The events of a production. -/
def emit (p : Production) : Cursor → Outcome (List Event) := p.run .events

/-! ## Single lexemes -/

def takeIf (k : TokenKind) : Production := choose (·.isAt k) take skip

/-- Takes the next lexeme if it has the kind and otherwise notes that it is missing. -/
def expect (k : TokenKind) (missing : Problem) : Production :=
  choose (·.isAt k) take (report missing)

def require (k : TokenKind) : Production := expect k (.missing k)

/-- If the next lexeme has the kind, takes it and goes on with `p`. -/
def takeThen (k : TokenKind) (p : Production) : Production := choose (·.isAt k) (take ++ p) skip

/-- Requires a lexeme and goes on with `p` only if it is there. -/
def requireThen (k : TokenKind) (p : Production) : Production :=
  choose (·.isAt k) (take ++ p) (report (.missing k))

def name : Production := node NodeKind.identifierName take

def nameOr (missing : Problem) : Production := choose (·.kind.isName) name (report missing)

def takes : Nat → Production
  | 0 => skip
  | n + 1 => take ++ takes n

/-! ## Bracketed stretches -/

/-- Number of lexemes up to the bracket that closes the first one, round and square brackets
counted alike, and whether a brace cuts the stretch off before. -/
def balancedLength (depth : Nat) : List Lexeme → Nat × Bool
  | [] => (0, false)
  | l :: ls =>
    match l.kind with
    | .lParen | .lBracket => let r := balancedLength (depth + 1) ls; (r.1 + 1, r.2)
    | .rParen | .rBracket =>
      if depth ≤ 1 then (1, false)
      else let r := balancedLength (depth - 1) ls; (r.1 + 1, r.2)
    | .lBrace | .rBrace => (0, true)
    | _ => let r := balancedLength depth ls; (r.1 + 1, r.2)

def balanced : Production := look fun c =>
  let r := balancedLength 0 c.ahead
  takes r.1 ++ if r.2 then report .unbalancedBrackets else skip

/-- Number of lexemes before the next semicolon, closing brace or closing bracket that stands
outside of brackets. -/
def clauseLength (depth : Nat) : List Lexeme → Nat
  | [] => 0
  | l :: ls =>
    match l.kind with
    | .semicolon | .rBrace => if depth = 0 then 0 else clauseLength depth ls + 1
    | .lParen | .lBracket => clauseLength (depth + 1) ls + 1
    | .rParen | .rBracket => if depth = 0 then 0 else clauseLength (depth - 1) ls + 1
    | _ => clauseLength depth ls + 1

def clause : Production := look fun c => takes (clauseLength 0 c.ahead)

end Production

namespace Cursor

/-- Places where reading can set in again after something unreadable. -/
def atSync (c : Cursor) : Bool :=
  match c.kind with
  | .semicolon | .kwEnd | .kwUntil | .rBrace | .kwProcedure | .kwTrigger | .kwLocal | .kwInternal
  | .kwProtected | .kwVar | .kwBegin => true
  | _ => false

/-- Places where a statement list gives way to the next member. -/
def atMember (c : Cursor) : Bool :=
  match c.kind with
  | .kwProcedure | .kwTrigger | .kwLocal | .kwInternal | .kwProtected | .kwVar | .rBrace => true
  | _ => false

end Cursor

end AlRefactor
