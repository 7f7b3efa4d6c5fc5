import AlRefactor.Syntax.Kind

/-!
# Requests without an answer
-/

namespace AlRefactor

/-- Why a request has no answer. -/
inductive Fault where
  /-- A range that is not in the text or does not end between characters. -/
  | slice
  /-- A node that is no single declaration of a variable. -/
  | notVariable (kind : Kind)
  | notParameter (kind : Kind)
  | notReturnValue (kind : Kind)
  /-- A node that is neither a procedure nor a trigger, where its role is asked for. -/
  | noRole (kind : Kind)
  /-- A node that cannot be removed from a section of variables. -/
  | notRemovable (kind : Kind)
  /-- A node that is neither a procedure nor a trigger, where an event is raised. -/
  | notMethod (kind : Kind)
deriving DecidableEq, Repr

namespace Fault

def message? : Fault → Option String
  | .slice => none
  | .notVariable k => some ("parse_variable called on " ++ k.name)
  | .notParameter k => some ("parse_parameter called on " ++ k.name)
  | .notReturnValue k => some ("parse_return_value called on " ++ k.name)
  | .noRole k => some ("classify called on " ++ k.name)
  | .notRemovable k => some ("remove_variables called on " ++ k.name)
  | .notMethod k => some ("not a method: " ++ k.name)

end Fault

end AlRefactor
