import AlRefactor.Text.Basic

/-!
# TOML values and tables
-/

namespace AlRefactor

/-- How a table came to be, which decides how it can be added to. -/
inductive TomlOrigin where
  /-- It has a header of its own. -/
  | header
  /-- It has a part with a header. -/
  | implied
  /-- It is named by the dotted key of an entry. -/
  | dotted
  /-- It is a value in braces. -/
  | inline
deriving DecidableEq, Repr

/-- A TOML value. The entries of a table are kept in the order in which they are written. -/
inductive TomlValue where
  | bool (value : Bool)
  | string (value : Text)
  | integer (value : Int)
  /-- The number `mantissa * 10 ^ exponent`. -/
  | decimal (mantissa exponent : Int)
  /-- An infinity, or a value that is no number. -/
  | special
  /-- A date, a time or both. -/
  | moment
  | array (items : List TomlValue)
  /-- An array of tables with headers. -/
  | tables (items : List (List (Text × TomlValue)))
  | table (origin : TomlOrigin) (entries : List (Text × TomlValue))
deriving Repr

abbrev TomlEntries := List (Text × TomlValue)

namespace TomlEntries

/-- Gives a key a value, in place of an earlier one. -/
def put (key : Text) (value : TomlValue) : TomlEntries → TomlEntries
  | [] => [(key, value)]
  | (k, v) :: es => if k = key then (key, value) :: es else (k, v) :: put key value es

/-! ## Adding to tables

A table has one header at most. Dotted keys reach only tables without a header, which then cannot
get one any more, and nothing is added to a value in braces. -/

/-- A table of this origin may be reached by the dotted key of an entry. -/
def reachable (dotted : Bool) : TomlOrigin → Bool
  | .header => !dotted
  | .implied | .dotted => true
  | .inline => false

/-- Changes the table at a path, of an array of tables the last one. Missing tables are made. -/
def change? (dotted : Bool) (f : TomlOrigin → TomlEntries → Option TomlEntries) :
    List Text → TomlOrigin → TomlEntries → Option TomlEntries
  | [], origin, es => f origin es
  | k :: ks, _, es =>
    match es.lookup k with
    | none =>
      let origin := if dotted then TomlOrigin.dotted else .implied
      (change? dotted f ks origin []).map fun c => es.put k (.table origin c)
    | some (.table origin c) =>
      if reachable dotted origin then
        let origin := if dotted then TomlOrigin.dotted else origin
        (change? dotted f ks origin c).map fun c => es.put k (.table origin c)
      else none
    | some (.tables ts) =>
      match ts.getLast? with
      | none => none
      | some c =>
        (change? dotted f ks .header c).map fun c => es.put k (.tables (ts.dropLast ++ [c]))
    | some _ => none

/-- Adds a value under a key that consists of the names of tables and a name of its own. -/
def addEntry? (path : List Text) (key : Text) (value : TomlValue) :
    TomlOrigin → TomlEntries → Option TomlEntries :=
  change? true (fun origin es =>
    if (origin == .dotted) == path.isEmpty || (es.lookup key).isSome then none
    else some (es.put key value)) path

def startTable? (path : List Text) (key : Text) : TomlEntries → Option TomlEntries :=
  change? false (fun _ es =>
    match es.lookup key with
    | none => some (es.put key (.table .header []))
    | some (.table .implied c) => some (es.put key (.table .header c))
    | some _ => none) path .header

def startItem? (path : List Text) (key : Text) : TomlEntries → Option TomlEntries :=
  change? false (fun _ es =>
    match es.lookup key with
    | none => some (es.put key (.tables [[]]))
    | some (.tables ts) => some (es.put key (.tables (ts ++ [[]])))
    | some _ => none) path .header

end TomlEntries

namespace TomlValue

/-! ## Numbers that can be represented -/

/-- The number is closer to a number of double precision than to the first one beyond them. -/
def isDouble (mantissa exponent : Int) : Bool :=
  let digits : Int := (toString mantissa.natAbs).length
  let bound := (Nat.pow 2 54 - 1) * Nat.pow 2 970
  if mantissa = 0 || digits + exponent < 300 then true
  else if digits + exponent > 320 then false
  else mantissa.natAbs * Nat.pow 10 exponent.toNat < bound * Nat.pow 10 (-exponent).toNat

mutual

/-- All numbers of a value can be represented, integers in 128 bits. -/
def fits : TomlValue → Bool
  | .integer n =>
    -0x80000000000000000000000000000000 ≤ n && n < 0x100000000000000000000000000000000
  | .decimal m e => isDouble m e
  | .array items => fitsAll items
  | .tables ts => fitsTables ts
  | .table _ es => fitsEntries es
  | .bool _ | .string _ | .special | .moment => true

def fitsAll : List TomlValue → Bool
  | [] => true
  | v :: vs => fits v && fitsAll vs

def fitsEntries : List (Text × TomlValue) → Bool
  | [] => true
  | (_, v) :: es => fits v && fitsEntries es

def fitsTables : List (List (Text × TomlValue)) → Bool
  | [] => true
  | t :: ts => fitsEntries t && fitsTables ts

end

/-! ## Typed reading -/

def bool? : TomlValue → Option Bool
  | .bool b => some b
  | _ => none

def string? : TomlValue → Option Text
  | .string t => some t
  | _ => none

def items? : TomlValue → Option (List TomlValue)
  | .array items => some items
  | .tables ts => some (ts.map (.table .header))
  | _ => none

/-- The fields of a record: the entries of a table with these names, or the items of an array in
this order. What else a table holds must be readable, but does not matter. A date or a time is a
record without any of the fields. -/
def fields? (names : List Text) : TomlValue → Option (List (Option TomlValue))
  | .table _ es =>
    if es.all fun (k, v) => names.contains k || v.fits then some (names.map fun n => es.lookup n)
    else none
  | .moment => some (names.map fun _ => none)
  | v => v.items?.map fun items => names.zipIdx.map fun (_, i) => items[i]?

/-- A field with a value where nothing is written. -/
def orElse {α : Type} (standard : α) (read : TomlValue → Option α) : Option TomlValue → Option α
  | none => some standard
  | some v => read v

/-- One of some words: a string, or the only key of a table with an empty value. -/
def word? : TomlValue → Option Text
  | .string t => some t
  | .table _ [(k, .table _ [])] | .table _ [(k, .array [])] => some k
  | _ => none

end TomlValue

end AlRefactor
