import AlRefactor.Declaration.Scope

/-!
# Questions to the user
-/

namespace AlRefactor

/-- An entry of a list to choose from. -/
structure Choice where
  label : Text
  description : Text
  /-- Chosen unless the user decides otherwise. -/
  picked : Bool
deriving DecidableEq, Repr

/-- A question that asks for a text. -/
structure Question where
  prompt : Text
  placeholder : Text
deriving DecidableEq, Repr

/-- A question as it was asked, with the answers that were not accepted and why. -/
inductive Request where
  | pick (items : List Choice)
  | text (question : Question) (rejected : List (Text × Text))
deriving DecidableEq, Repr

/-- Who is asked. -/
inductive Host where
  /-- Nobody: every question is settled by its standard answer. -/
  | silent
  /-- Somebody whose answers are known beforehand; a missing answer and `none` cancel. -/
  | scripted (picks : List (Option (List Nat))) (texts : List (Option Text))
deriving DecidableEq, Repr

/-- Who is asked from now on, and what was asked so far. -/
structure Dialogue where
  host : Host
  requests : List Request
deriving DecidableEq, Repr

namespace Dialogue

def start (host : Host) : Dialogue := ⟨host, []⟩

def isSilent (d : Dialogue) : Bool :=
  match d.host with
  | .silent => true
  | .scripted _ _ => false

def pick (d : Dialogue) (items : List Choice) : Option (List Nat) × Dialogue :=
  match d.host with
  | .silent => (none, d)
  | .scripted picks texts =>
    (picks.head?.join, ⟨.scripted picks.tail texts, d.requests ++ [.pick items]⟩)

/-- The first answer that is not rejected, the rejected ones before it with the reasons, and the
answers after it. -/
def firstAccepted (reject : Text → Option Text) :
    List (Option Text) → Option Text × List (Text × Text) × List (Option Text)
  | [] => (none, [], [])
  | none :: rest => (none, [], rest)
  | some answer :: rest =>
    match reject answer with
    | none => (some answer, [], rest)
    | some reason =>
      let (accepted, rejected, left) := firstAccepted reject rest
      (accepted, (answer, reason) :: rejected, left)

def ask (d : Dialogue) (question : Question) (reject : Text → Option Text) :
    Option Text × Dialogue :=
  match d.host with
  | .silent => (none, d)
  | .scripted picks texts =>
    let (accepted, rejected, left) := firstAccepted reject texts
    (accepted, ⟨.scripted picks left, d.requests ++ [.text question rejected]⟩)

/-! ## Names of return values -/

def standardReturnName : Text := "ReturnValue"

/-- Asks for the name of a return value that has none. -/
def askForReturnName (d : Dialogue) (names : TakenNames) : Option Text × Dialogue :=
  if d.isSilent then (some (Text.fresh Text.sameName names.all standardReturnName), d)
  else
    let (answer, d) := d.ask ⟨"Name of the return value", standardReturnName⟩
      fun t => (names.conflict? t.trim).map (·.message)
    (answer.map Text.trim, d)

end Dialogue

end AlRefactor
