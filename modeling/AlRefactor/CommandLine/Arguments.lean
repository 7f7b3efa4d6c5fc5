import AlRefactor.Text.Position
import AlRefactor.Text.Reader
import AlRefactor.Text.Blank

/-!
# Arguments of the command line
-/

namespace AlRefactor

/-! ## Options and operands -/

/-- An option that a command knows. -/
structure OptionSpec where
  name : Text
  letter : Option Char
  hasValue : Bool

/-- A piece of a command line. -/
inductive Piece where
  | option (name value : Text)
  | operand (text : Text)
  /-- Something that is no piece; what follows is not looked at. -/
  | bad

namespace Piece

/-- The argument is written like an option; a lone hyphen is an operand. -/
def isOptionLike (a : Text) : Bool := a.startsWith "-" && a.length != 1

/-- Single letters behind a hyphen. A letter that has a value takes the rest of the argument, or
waits for the next one. -/
def ofLetters (specs : List OptionSpec) : Text → List Piece × Option Text
  | [] => ([], none)
  | c :: cs =>
    match specs.find? fun s => s.letter == some c with
    | none => ([.bad], none)
    | some s =>
      if s.hasValue then
        if cs.isEmpty then ([], some s.name)
        else ([.option s.name ((Text.dropStart? "=" cs).getD cs)], none)
      else
        let (pieces, waiting) := ofLetters specs cs
        (.option s.name [] :: pieces, waiting)

/-- A long name, which may have its value behind an equals sign. -/
def ofName (specs : List OptionSpec) (a : Text) : List Piece × Option Text :=
  let (name, value) := match Text.cutAt? '=' a with
    | some (name, value) => (name, some value)
    | none => (a, none)
  match specs.find? fun s => s.name == name with
  | none => ([.bad], none)
  | some s =>
    match s.hasValue, value with
    | true, some v => ([.option name v], none)
    | true, none => ([], some name)
    | false, some _ => ([.bad], none)
    | false, none => ([.option name []], none)

/-- The pieces of an option, and the name of one that waits for its value. -/
def ofOption (specs : List OptionSpec) (a : Text) : List Piece × Option Text :=
  match Text.dropStart? "--" a with
  | some rest => ofName specs rest
  | none => ofLetters specs (a.drop 1)

/-- The pieces of a command line. Behind two hyphens there are only operands. -/
def all (specs : List OptionSpec) (waiting : Option Text) : List Text → List Piece
  | [] => if waiting.isSome then [.bad] else []
  | a :: rest =>
    match waiting with
    | some name => if isOptionLike a then [.bad] else .option name a :: all specs none rest
    | none =>
      if a == "--".toList then rest.map .operand
      else if isOptionLike a then
        let (pieces, waiting) := ofOption specs a
        pieces ++ all specs waiting rest
      else .operand a :: all specs none rest

end Piece

/-! ## Invocations -/

/-- A line and a column, counted from one, with a colon between them. -/
def Position.read? (t : Text) : Option Position := do
  let (line, column) ← Text.cutAt? ':' t
  let line ← (Text.trim line).word32?
  let column ← (Text.trim column).word32?
  if line = 0 ∨ column = 0 then none else some ⟨line - 1, column - 1⟩

/-- The commands. -/
inductive CommandName where
  | actions | apply | tree
deriving DecidableEq, Repr

/-- How the result of an action is handed over. -/
inductive Delivery where
  | print | write | json
deriving DecidableEq, Repr

/-- Where an action applies. -/
structure Target where
  file : Text
  start : Position
  stop : Option Position
  project : Option Text
deriving DecidableEq, Repr

/-- What help is about: the whole program, one of its commands, or help itself. -/
inductive Topic where
  | program
  | command (c : CommandName)
  | help
deriving DecidableEq, Repr

/-- What a command line asks for. -/
inductive Invocation where
  | help (topic : Topic)
  | version
  | actions (target : Target) (json : Bool)
  | apply (target : Target) (action : Text) (delivery : Delivery)
  | tree (file : Text)
deriving DecidableEq, Repr

namespace CommandName

def text : CommandName → Text
  | .actions => "actions"
  | .apply => "apply"
  | .tree => "tree"

def ofText? (t : Text) : Option CommandName := [actions, apply, tree].find? fun c => c.text == t

def sharedOptions : List OptionSpec := [⟨"verbose", some 'v', false⟩, ⟨"help", some 'h', false⟩]

def targetOptions : List OptionSpec :=
  [⟨"at", none, true⟩, ⟨"to", none, true⟩, ⟨"project", none, true⟩, ⟨"json", none, false⟩]

def options : CommandName → List OptionSpec
  | .tree => sharedOptions
  | .actions => targetOptions ++ sharedOptions
  | .apply =>
    targetOptions ++
      [⟨"action", some 'a', true⟩, ⟨"write", none, false⟩, ⟨"no-input", none, false⟩] ++
      sharedOptions

end CommandName

/-- The options and the file that a command line gives. -/
structure Given where
  values : List (Text × Text)
  file : Option Text

namespace Given

def value? (g : Given) (name : Text) : Option Text := g.values.lookup name

def has (g : Given) (name : Text) : Bool := (g.value? name).isSome

def accepts (name value : Text) : Bool :=
  if name == "at".toList || name == "to".toList then (Position.read? value).isSome
  else name != "project".toList || !value.isEmpty

/-- Adds the pieces of a command line one after the other. Nothing is given twice. There is no
answer if something is wrong, and `none` if help is asked for before. -/
def add? (g : Given) : List Piece → Option (Option Given)
  | [] => some (some g)
  | .bad :: _ => none
  | .operand t :: ps =>
    if g.file.isSome || t.isEmpty then none else add? { g with file := some t } ps
  | .option name value :: ps =>
    if name == "help".toList then some none
    else if g.has name || !accepts name value then none
    else add? { g with values := g.values ++ [(name, value)] } ps

def target? (g : Given) : Option Target := do
  let file ← g.file
  let start ← (g.value? "at").bind Position.read?
  return ⟨file, start, (g.value? "to").bind Position.read?, g.value? "project"⟩

/-- What a command is asked for; some options have to be given, and not all go together. -/
def invocation? (g : Given) : CommandName → Option Invocation
  | .tree => g.file.map .tree
  | .actions => g.target?.map fun t => .actions t (g.has "json")
  | .apply => do
    let t ← g.target?
    let action ← g.value? "action"
    if g.has "json" && g.has "write" then none
    else some (.apply t action
      (if g.has "json" then .json else if g.has "write" then .write else .print))

end Given

namespace Invocation

def outerOptions : List OptionSpec :=
  CommandName.sharedOptions ++ [⟨"version", some 'V', false⟩]

def ofCommand? (c : CommandName) (args : List Text) : Option Invocation :=
  match Given.add? ⟨[], none⟩ (Piece.all c.options none args) with
  | none => none
  | some none => some (.help (.command c))
  | some (some g) => g.invocation? c

def ofHelp? : List Text → Option Invocation
  | [] => some (.help .program)
  | [t] =>
    if t == "help".toList then some (.help .help)
    else (CommandName.ofText? t).map fun c => .help (.command c)
  | _ => none

/-- The first of the pieces before the command that ends the matter, if there is one. -/
def ending? (verbose : Bool) : List Piece → Option (Option Invocation)
  | [] => none
  | .option name _ :: ps =>
    if name == "help".toList then some (some (.help .program))
    else if name == "version".toList then some (some .version)
    else if verbose then some none
    else ending? true ps
  | _ :: _ => some none

/-- What a command line asks for, if it is correct. -/
def read? (verbose : Bool) : List Text → Option Invocation
  | [] => none
  | a :: rest =>
    if a == "--".toList then none
    else if Piece.isOptionLike a then
      match ending? verbose (Piece.ofOption outerOptions a).1 with
      | some r => r
      | none => read? true rest
    else if a == "help".toList then ofHelp? rest
    else (CommandName.ofText? a).bind fun c => ofCommand? c rest

/-- What the arguments of the program ask for; none if they cannot be understood. -/
def ofArguments? (args : List Text) : Option Invocation := read? false args

end Invocation

end AlRefactor
