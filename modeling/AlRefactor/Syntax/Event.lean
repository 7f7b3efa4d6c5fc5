import AlRefactor.Syntax.Kind

/-!
# Events: the steps in which the grammar tells what it reads

A node may be opened around one that is complete already. Its start then comes behind the complete
node, and the start of the complete node notes how far.
-/

namespace AlRefactor

/-- A step of reading. -/
inductive Event where
  /-- Opens a node, perhaps inside of one that starts a distance further on. -/
  | start (kind : Kind) (adopter : Option Nat)
  /-- Puts the next significant token below the innermost open node. -/
  | token (kind : TokenKind)
  /-- Closes the innermost open node. -/
  | finish
  /-- A start that was carried out before, together with the node it adopts. -/
  | spent
deriving DecidableEq, Repr, Inhabited

namespace Event

/-- Notes where the next node around a complete one starts: at the outermost node that has adopted
it so far, which is looked for behind some events. -/
def adopt : Nat → Nat → List Event → List Event
  | _, _, [] => []
  | skipped + 1, distance, e :: es => e :: adopt skipped (distance - 1) es
  | 0, distance, .start k none :: es => .start k (some distance) :: es
  | 0, distance, .start k (some d) :: es => .start k (some d) :: adopt (d - 1) (distance - 1) es
  | 0, _, e :: es => e :: es

/-- The kinds of the nodes around one whose adopter starts a distance further on, innermost first,
and the events behind it with the starts of these nodes spent. -/
def adopters : Option Nat → List Event → List Kind × List Event
  | none, es => ([], es)
  | some _, [] => ([], [])
  | some (d + 2), e :: es => let r := adopters (some (d + 1)) es; (r.1, e :: r.2)
  | some _, .start k adopter :: es => let r := adopters adopter es; (k :: r.1, .spent :: r.2)
  | some _, _ :: es => ([], .spent :: es)

theorem length_adopters (adopter : Option Nat) (es : List Event) :
    (adopters adopter es).2.length = es.length := by
  fun_induction adopters adopter es with
  | case1 => rfl
  | case2 => rfl
  | case3 d e es r ih => simp [r, ih]
  | case4 d k adopter es _ r ih => simp [r, ih]
  | case5 => rfl

end Event

end AlRefactor
