import AlRefactor.Action.Extraction
import AlRefactor.Action.Global
import AlRefactor.Action.Label
import AlRefactor.Action.Parameters
import AlRefactor.Action.Publisher
import AlRefactor.Action.Validate

/-!
# The actions at a range, and carrying them out
-/

namespace AlRefactor

namespace Action

/-- All sources of actions, in the order of their actions in a menu. -/
def providers : List Provider :=
  [CallFix.provider, Publisher.provider, MoveToGlobal.provider, Label.provider,
   FieldAssignment.provider, Extraction.provider]

def offeredBy (ctx : Context) (document : Nat) (span : Span) :
    List Provider → Refactoring (List Action)
  | [] => pure []
  | p :: ps => do
    let first ← if ← p.considers ctx document span then p.actions ctx document span else pure []
    return first ++ (← offeredBy ctx document span ps)

def offered (ctx : Context) (document : Nat) (span : Span) : Refactoring (List Action) :=
  offeredBy ctx document span providers

end Action

namespace Command

/-- What a command found at its offset; without it there is nothing to do. -/
def found {α : Type} (c : Command) : Option α → Refactoring α
  | some a => pure a
  | none => Refactoring.refuse (.targetNotFound c.document c.offset)

/-- The result of a command that consists of edits; no edits mean that it found nothing. -/
def edited (c : Command) (edits : List Edit) : Refactoring ActionResult :=
  c.found (if edits.isEmpty then none else some ⟨Change.ofEdits c.document edits, none⟩)

/-- Carries out a command on the documents as they are now. -/
def execute (c : Command) (ctx : Context) : Refactoring ActionResult := do
  let t ← ctx.tree c.document
  match c.kind with
  | .addPublisher side =>
    let n ← c.found (t.methodAround? c.offset)
    return ⟨← Publisher.add ctx c.document n side, none⟩
  | .addParameters =>
    let n ← c.found (t.procedureAround? c.offset)
    c.edited (n.extendParameters? c.missing).toList
  | .addOverload obsolete =>
    let n ← c.found (t.procedureAround? c.offset)
    c.edited (n.addOverload c.missing obsolete ctx.project.version)
  | .extractProcedure stop =>
    if stop < c.offset then c.found none
    else c.found (← Extraction.extract? ctx c.document t ⟨c.offset, stop⟩)

end Command

namespace Action

def perform (ctx : Context) (a : Action) : Refactoring ActionResult :=
  match a.effect with
  | .change c => pure ⟨c, none⟩
  | .command c => c.execute ctx

end Action

namespace Change

def texts (c : Change) (w : Workspace) : List (Nat × Except EditError Text) :=
  c.edits.filterMap fun (d, es) => (w.get? d).map fun doc => (d, Edit.apply es doc.text)

/-- The documents with the new texts of a change; texts that cannot be changed stay. -/
def store (c : Change) (w : Workspace) : Workspace :=
  (c.texts w).foldl (fun w (d, r) =>
    match r with
    | .ok t => (w.update? d t).getD w
    | .error _ => w) w

end Change

end AlRefactor
