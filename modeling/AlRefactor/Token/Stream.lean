import AlRefactor.Token.Lexer

/-!
# Reading tokens one at a time

A number that had swallowed the first dot of a range would be split into the number and the dots. What
is made ahead of its turn that way waits until it is asked for.
-/

namespace AlRefactor

/-- A lexer in the middle of a text. -/
structure Lexer where
  source : Text
  /-- How much is read. -/
  position : Nat
  /-- What is still to be read. -/
  rest : Text
  /-- What was read last. -/
  slice : Text
  /-- Tokens made ahead of their turn. -/
  pending : List Token

/-- A number with a dot behind its digits. -/
def Token.swallowsDot (t : Token) : Bool :=
  (t.kind == .intLiteral || t.kind == .error) && decide (1 < t.text.size) &&
    t.text.getLast? == some '.' && t.text.dropLast.all Char.isDigit

namespace Lexer

def start (t : Text) : Lexer := ⟨t, 0, t, [], []⟩

/-- Reads what the rules make of the beginning of the rest. -/
def read? (l : Lexer) : Option (Token × Lexer) :=
  match l.rest with
  | [] => none
  | c :: t =>
    let s := Lexeme.scan c t
    let read := c :: t.take s.2
    some (⟨⟨s.1, read⟩, l.position⟩,
      { l with position := l.position + Text.size read, rest := t.drop s.2, slice := read })

/-- Takes a number and its dot apart. The dot may begin a range. -/
def split (t : Token) (l : Lexer) : Token × Lexer :=
  let dot := t.stop - 1
  let number : Token := ⟨⟨.intLiteral, t.text.dropLast⟩, t.start⟩
  match l.read? with
  | some (u, l) =>
    if u.kind == .dot && u.start == t.stop then
      (number, { l with pending := [⟨⟨.dotDot, ['.', '.']⟩, dot⟩] })
    else (number, { l with pending := [⟨⟨.dot, ['.']⟩, dot⟩, u] })
  | none => (number, { l with pending := [⟨⟨.dot, ['.']⟩, dot⟩] })

def next? (l : Lexer) : Option (Token × Lexer) :=
  match l.pending with
  | t :: ts => some (t, { l with pending := ts })
  | [] =>
    match l.read? with
    | none => none
    | some (t, l) => some (if t.swallowsDot then split t l else (t, l))

/-! ### There are always fewer tokens to come -/

/-- A bound on the number of tokens to come: a character makes at most one, and a number that is
split makes one more. -/
def toCome (l : Lexer) : Nat := 2 * l.rest.length + l.pending.length

theorem toCome_read? {l m : Lexer} {t : Token} (h : l.read? = some (t, m)) :
    m.toCome + 2 ≤ l.toCome ∧ m.pending = l.pending := by
  unfold read? at h
  split at h
  · cases h
  · rename_i hr
    cases h
    simp only [toCome, hr, List.length_drop, List.length_cons, and_true]
    omega

theorem toCome_split {l : Lexer} (t : Token) (h : l.pending = []) :
    (split t l).2.toCome ≤ l.toCome + 1 := by
  unfold split
  split
  · rename_i hr
    have hm := (toCome_read? hr).1
    simp only [toCome, h, List.length_nil] at hm
    split <;> simp only [toCome, h, List.length_cons, List.length_nil] <;> omega
  · simp [toCome, h]

theorem toCome_next? {l m : Lexer} {t : Token} (h : l.next? = some (t, m)) :
    m.toCome < l.toCome := by
  unfold next? at h
  split at h
  · rename_i hp
    cases h
    simp [toCome, hp]
  · rename_i hp
    split at h
    · cases h
    · rename_i u l' hr
      obtain ⟨hc, hq⟩ := toCome_read? hr
      have hs := toCome_split u (hq.trans hp)
      by_cases hd : u.swallowsDot
      · rw [if_pos hd] at h
        rw [Option.some.inj h] at hs
        exact Nat.lt_of_le_of_lt hs (by omega)
      · rw [if_neg hd] at h
        cases h
        omega

/-- All tokens to come, each with the lexer as it is behind it. -/
def run (l : Lexer) : List (Token × Lexer) :=
  match h : l.next? with
  | none => []
  | some (t, m) =>
    have := toCome_next? h
    (t, m) :: m.run
termination_by l.toCome

end Lexer

end AlRefactor
