import AlRefactor.Declaration.Placement

/-!
# Settings
-/

namespace AlRefactor

/-- Settings of the refactorings. -/
structure Config where
  /-- Parameters of new events are passed by reference. -/
  publisherHasVarParametersOnly : Bool
  findNewProcedureLocation : Placement
  /-- New labels get a comment that explains their placeholders. -/
  extractToLabelCreatesComment : Bool
  /-- Comments of labels hold wordings in other languages, so none is made up. -/
  commentsAreLocalized : Bool
  /-- Names of event parameters that are passed by reference. -/
  varParameters : List Text
deriving DecidableEq, Repr

namespace Config

def standard : Config := ⟨false, .afterCurrent, false, false, ["IsHandled"]⟩

def passesByReference (c : Config) (name : Text) : Bool := c.varParameters.any (·.sameName name)

end Config

end AlRefactor
