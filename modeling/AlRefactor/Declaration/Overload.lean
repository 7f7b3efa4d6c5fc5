import AlRefactor.Config
import AlRefactor.Declaration.Role

/-!
# Which procedure a call means

A call with more arguments than a procedure has parameters may ask for further parameters.
-/

namespace AlRefactor

/-! ## Fit of arguments -/

/-- How well a parameter takes an argument. -/
inductive Fit where
  | exact | sameWord | assignable
deriving DecidableEq, Repr

/-- Number of parameters of each fit. -/
structure Score where
  exact : Nat
  sameWord : Nat
  assignable : Nat
deriving DecidableEq, Repr

namespace Score

def zero : Score := ⟨0, 0, 0⟩

/-- More exact fits count first, then more fits of the type word, then more assignable ones. -/
def le (a b : Score) : Bool :=
  a.exact < b.exact ||
    (a.exact == b.exact &&
      (a.sameWord < b.sameWord || (a.sameWord == b.sameWord && a.assignable ≤ b.assignable)))

def add (s : Score) : Fit → Score
  | .exact => { s with exact := s.exact + 1 }
  | .sameWord => { s with sameWord := s.sameWord + 1 }
  | .assignable => { s with assignable := s.assignable + 1 }

end Score

/-- Types whose values can be assigned to each other. -/
def assignableGroups : List (List String) :=
  [["code", "text"], ["integer", "decimal", "enum", "option"]]

/-- A parameter passed by reference takes only what can be assigned to. -/
def fit? (parameter : Variable) (argument : Argument) : Option Fit :=
  let p := parameter.typeWord
  let a := argument.parameter.typeWord
  if parameter.byReference && !argument.assignable then none
  else if parameter.type.trim.sameLetters argument.parameter.type.trim then some .exact
  else if p.sameLetters a then some .sameWord
  else if assignableGroups.any fun g => [p, a].all fun w => g.any fun s => Text.sameLetters s w then
    some .assignable
  else none

/-- Score of the parameters against as many arguments; with `exactOnly`, anything less than an
exact fit is none. -/
def score? (exactOnly : Bool) : List Variable → List Argument → Option Score
  | p :: ps, a :: as =>
    match fit? p a with
    | none => none
    | some f => if exactOnly && f != .exact then none else (score? exactOnly ps as).map (·.add f)
  | _, _ => some .zero

/-! ## Choice -/

/-- A procedure that a call means once parameters are added. -/
structure CallTarget where
  method : Node
  missing : List Variable
  isPublisher : Bool

namespace CallTarget

/-- Of the best entries the last one. -/
def best? : List (Node × Score) → Option (Node × Score)
  | [] => none
  | e :: es =>
    match best? es with
    | none => some e
    | some b => if e.2.le b.2 then some b else some e

/-- The procedures with fewer parameters than there are arguments, and their scores. -/
def candidates (exactOnly : Bool) (methods : List Node) (arguments : List Argument) :
    List (Node × Score) :=
  methods.filterMap fun m =>
    let ps := m.parameters
    if ps.length < arguments.length then
      (score? exactOnly ps arguments).map fun s => (m, s)
    else none

/-- Parameters for further arguments, under names that are not taken yet. -/
def missingParameters (byReference : Bool) (taken : List Text) : List Argument → List Variable
  | [] => []
  | a :: as =>
    let name := Text.fresh Text.sameName taken a.parameter.name
    let v := Variable.plain name a.parameter.type
    v.withReference (byReference && v.canBeReference) ::
      missingParameters byReference (taken ++ [name]) as

def find? (exactOnly : Bool) (methods : List Node) (arguments : List Argument) (config : Config) :
    Except Fault (Option CallTarget) :=
  match best? (candidates exactOnly methods arguments) with
  | none => .ok none
  | some (m, _) => do
    let publisher := (← m.roleOf).isPublisher
    let ps := m.parameters
    let missing := missingParameters (publisher && config.publisherHasVarParametersOnly)
      (ps.map (·.name)) (arguments.drop ps.length)
    return some ⟨m, missing, publisher⟩

end CallTarget

end AlRefactor
