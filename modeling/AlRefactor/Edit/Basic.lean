import AlRefactor.Fault
import AlRefactor.Text.Basic

/-!
# Edits of texts
-/

namespace AlRefactor

/-- New text for a range of a text. -/
structure Edit where
  span : Span
  text : Text
deriving DecidableEq, Repr

/-- Why a batch of edits cannot be carried out. -/
inductive EditError where
  | overlap (first second : Span)
  | outOfBounds (span : Span) (size : Nat)
  | fault (fault : Fault)
deriving DecidableEq, Repr

namespace EditError

def message : EditError → String
  | .overlap a b => "overlapping edits at " ++ a.describe ++ " and " ++ b.describe
  | .outOfBounds s n =>
    "edit " ++ s.describe ++ " is outside of a text of length " ++ toString n
  | .fault f => f.message?.getD ""

end EditError

namespace Edit

def insert (offset : Nat) (text : Text) : Edit := ⟨Span.empty offset, text⟩

def delete (span : Span) : Edit := ⟨span, []⟩

def isInsert (e : Edit) : Bool := e.span.isEmpty

/-! ## Batches -/

/-- Order of edits: by start, then by end. -/
def le (a b : Edit) : Bool :=
  a.span.start < b.span.start || (a.span.start == b.span.start && a.span.stop ≤ b.span.stop)

/-- The edits in order; those of one range stay in the order of the batch. -/
def sort (edits : List Edit) : List Edit := edits.mergeSort le

/-- The first two neighbours that reach into each other. -/
def clash? : List Edit → Option (Span × Span)
  | a :: b :: es =>
    if a.span.stop > b.span.start then some (a.span, b.span) else clash? (b :: es)
  | _ => none

/-- Writes a text anew from an offset on: the edits' texts at their ranges, all else as it was. -/
def splice? (pos : Nat) (t : Text) : List Edit → Option Text
  | [] => some t
  | e :: es => do
    let before ← t.take? (e.span.start - pos)
    let rest ← t.drop? (e.span.stop - pos)
    let after ← splice? e.span.stop rest es
    pure (before ++ e.text ++ after)

/-- Carries out a batch. All ranges are ranges of the text as it is, so they may not overlap. -/
def apply (edits : List Edit) (t : Text) : Except EditError Text :=
  let sorted := sort edits
  match sorted.find? fun e => e.span.stop > t.size with
  | some e => .error (.outOfBounds e.span t.size)
  | none =>
    match clash? sorted with
    | some (a, b) => .error (.overlap a b)
    | none =>
      match splice? 0 t sorted with
      | some r => .ok r
      | none => .error (.fault .slice)

def shift (e : Edit) : Int := e.text.size - e.span.length

def totalShift : List Edit → Int
  | [] => 0
  | e :: es => e.shift + totalShift es

/-- Where a byte of the text of an edit ends up when the whole batch is carried out. There is no
answer if the byte is out of reach in the text as it is, and 0 stands for a place out of reach. -/
def offsetAfter? (edits : List Edit) (index within : Nat) : Option Nat :=
  (edits[index]?.filter fun target => target.span.start + within < 0x100000000).map fun target =>
    let before := edits.zipIdx.filter fun (e, i) =>
      i != index && (e.span.start < target.span.start ||
        (e.span.start == target.span.start && i < index && e.isInsert))
    let offset : Int := totalShift (before.map (·.1)) + (target.span.start + within : Nat)
    if 0 ≤ offset ∧ offset < 0x100000000 then offset.toNat else 0

end Edit

/-- Edits of several documents, which are known by their numbers. -/
structure Change where
  edits : List (Nat × List Edit)
deriving DecidableEq, Repr, Inhabited

namespace Change

def empty : Change := ⟨[]⟩

/-- Puts edits behind those of the document in a list ordered by document. -/
def addTo (document : Nat) (new : List Edit) : List (Nat × List Edit) → List (Nat × List Edit)
  | [] => [(document, new)]
  | (d, es) :: rest =>
    if d = document then (d, es ++ new) :: rest
    else if document < d then (document, new) :: (d, es) :: rest
    else (d, es) :: addTo document new rest

/-- Adds edits of a document; documents without edits are not listed. -/
def add (c : Change) (document : Nat) (new : List Edit) : Change :=
  if new.isEmpty then c else ⟨addTo document new c.edits⟩

def ofEdits (document : Nat) (edits : List Edit) : Change := empty.add document edits

def editsOf (c : Change) (document : Nat) : List Edit := (c.edits.lookup document).getD []

def count (c : Change) : Nat := (c.edits.flatMap (·.2)).length

def isEmpty (c : Change) : Bool := c.count == 0

end Change

end AlRefactor
