import AlRefactor.Config
import AlRefactor.Project
import AlRefactor.Session.Dialogue
import AlRefactor.Session.Workspace

/-!
# What a refactoring works with
-/

namespace AlRefactor

/-- What stays the same during a refactoring. -/
structure Context where
  workspace : Workspace
  config : Config
  project : Project

/-- What a refactoring changes besides its result: the trees at hand and the talk with the user. -/
structure Progress where
  source : TreeSource
  dialogue : Dialogue

/-- Why a refactoring that was asked for is not carried out. -/
inductive Refusal where
  | cancelled
  | unknownDocument (document : Nat)
  | targetNotFound (document offset : Nat)
deriving DecidableEq, Repr

namespace Refusal

def message : Refusal → String
  | .cancelled => "refactoring cancelled"
  | .unknownDocument d => "unknown document #" ++ toString d
  | .targetNotFound d n => "nothing to refactor at offset " ++ toString n ++ " in #" ++ toString d

end Refusal

/-- Why a refactoring ends without a result. -/
inductive Failure where
  | refused (refusal : Refusal)
  | fault (fault : Fault)
deriving DecidableEq, Repr

/-- A computation that looks at trees, may ask the user, and may end without a result. -/
abbrev Refactoring := ExceptT Failure (StateM Progress)

namespace Refactoring

def refuse {α : Type} (r : Refusal) : Refactoring α := throw (.refused r)

def ofFault {α : Type} : Except Fault α → Refactoring α
  | .ok a => pure a
  | .error f => throw (.fault f)

/-- A computation that ends with a result has got one from its first step. -/
theorem exists_of_bind {α β : Type} {x : Refactoring α} {f : α → Refactoring β} {b : β}
    {w w' : Progress} (h : (x >>= f).run.run w = (.ok b, w')) :
    ∃ a v, x.run.run w = (.ok a, v) ∧ (f a).run.run v = (.ok b, w') := by
  rw [ExceptT.run_bind, StateT.run_bind] at h
  generalize x.run.run w = r at h ⊢
  obtain ⟨a | a, v⟩ := r
  · cases h
  · exact ⟨a, v, rfl, h⟩

/-- A text from the user; no answer cancels the refactoring. -/
def talk (f : Dialogue → Option Text × Dialogue) : Refactoring Text := do
  let s ← get
  let (answer, dialogue) := f s.dialogue
  set { s with dialogue }
  match answer with
  | some t => pure t
  | none => refuse .cancelled

end Refactoring

namespace Context

/-- The tree of a document, if there is such a document. -/
def tree? (ctx : Context) (document : Nat) : Refactoring (Option SyntaxTree) := do
  match ctx.workspace.get? document with
  | none => pure none
  | some d =>
    let s ← get
    let (t, source) := s.source.tree d
    set { s with source }
    pure (some t.tree)

def tree (ctx : Context) (document : Nat) : Refactoring SyntaxTree := do
  match ← ctx.tree? document with
  | some t => pure t
  | none => Refactoring.refuse (.unknownDocument document)

def trees (ctx : Context) : Refactoring Trees := do
  let s ← get
  let (ts, source) := s.source.trees ctx.workspace.documents
  set { s with source }
  pure ts

end Context

end AlRefactor
