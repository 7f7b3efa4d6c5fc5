import AlRefactor.Json.Reader
import AlRefactor.Text.Blank

/-!
# Projects and their manifests
-/

namespace AlRefactor

/-- What is known of a project. -/
structure Project where
  name : Option Text
  version : Option Text
deriving DecidableEq, Repr

namespace Project

def unknown : Project := ⟨none, none⟩

def manifestName : Text := "app.json"

/-- A text that may be left out. -/
def optionalText? : Option JsonValue → Option (Option Text)
  | none | some .null => some none
  | some (.string (some t)) => some (some t)
  | some _ => none

/-- The value of a member that an object has at most once. -/
def member? (members : List (Option Text × JsonValue)) (key : Text) : Option (Option JsonValue) :=
  match members.filter fun (k, _) => k == some key with
  | [] => some none
  | [(_, v)] => some (some v)
  | _ => none

/-- What is written for name and version, under these words or in this order. -/
def written? : JsonValue → Option (Option JsonValue × Option JsonValue)
  | .array items => if items.length ≤ 2 then some (items[0]?, items[1]?) else none
  | .object members =>
    if members.all fun (k, _) => k.isSome then do
      let name ← member? members "name"
      return (name, ← member? members "version")
    else none
  | _ => none

/-- A project by its manifest. A blank version is none. -/
def ofJson? (v : JsonValue) : Option Project := do
  let (name, version) ← written? v
  let name ← optionalText? name
  let version ← optionalText? version
  return ⟨name, version.filter fun t => !t.isBlank⟩

/-- What a manifest says; nothing is known from one that cannot be read. -/
def ofManifest (t : Text) : Project := ((JsonValue.read? t).bind ofJson?).getD unknown

end Project

end AlRefactor
