import AlRefactor.CommandLine.Arguments

/-!
# Help texts
-/

namespace AlRefactor.Help

/-- A section of a help text: what there is, and what it is for. -/
structure Section where
  title : Text
  rows : List (Text × Text)

namespace Section

def render (s : Section) : Text :=
  let width := ((s.rows.map fun (l, _) => l.length).max?).getD 0
  s.title ++ [':', '\n'] ++ s.rows.flatMap fun (l, r) =>
    [' ', ' '] ++ l ++ List.replicate (width - l.length + 2) ' ' ++ r ++ ['\n']

end Section

/-- A help text. -/
structure Page where
  about : Text
  usage : Text
  sections : List Section
  /-- Lines at the end. -/
  closing : List Text

namespace Page

def render (p : Page) : Text :=
  p.about ++ ("\n\nUsage: alfix " : Text) ++ p.usage ++ ['\n'] ++
    (p.sections.flatMap fun s => '\n' :: s.render) ++
    (if p.closing.isEmpty then [] else '\n' :: p.closing.flatMap fun l => l ++ ['\n'])

end Page

def about : CommandName → Text
  | .actions => "List the code actions offered at a position or selection"
  | .apply => "Run one code action and print or write the result"
  | .tree => "Print the syntax tree of a file"

def fileSection : Section := ⟨"Arguments", [("<FILE>", "AL source file")]⟩

def startRow : Text × Text := ("    --at <AT>", "Start position as LINE:COLUMN (1-based)")

def targetRows : List (Text × Text) :=
  [("    --to <TO>", "End of the selection as LINE:COLUMN (1-based). Defaults to \x60--at\x60"),
   ("    --project <PROJECT>",
    "Project folder (defaults to the nearest folder with app.json or alfix.toml)")]

def verboseRow : Text × Text := ("-v, --verbose", "Log engine decisions to stderr")

def closingRow : Text × Text := ("-h, --help", "Print help")

def versionRow : Text × Text := ("-V, --version", "Print version")

def aboutHelp : Text := "Print this message or the help of the given subcommand(s)"

def helpRow : Text × Text := ("help", aboutHelp)

def listRow : Text × Text := ("    --json", "Print the actions as JSON")

def applyRows : List (Text × Text) :=
  [("-a, --action <ACTION>", "Index or title of the action (see \x60alfix actions\x60)"),
   ("    --write", "Write the changed documents back to disk"),
   ("    --json", "Print the edits as an LSP WorkspaceEdit"),
   ("    --no-input", "Never prompt; use defaults instead")]

def program : Page :=
  { about := "Refactorings for AL (Business Central) sources"
    usage := "[OPTIONS] <COMMAND>"
    sections :=
      [⟨"Commands",
        [CommandName.actions, .apply, .tree].map (fun c => (c.text, about c)) ++
          [helpRow]⟩,
       ⟨"Options", [verboseRow, closingRow, versionRow]⟩]
    closing :=
      ["Examples:",
       "  alfix actions src/Sales.Codeunit.al --at 12:9",
       "  alfix apply src/Sales.Codeunit.al --at 12:9 --action 0 --write",
       ("  alfix apply src/Sales.Codeunit.al --at 14:9 --to 16:30" : Text) ++
         " --action \"Extract procedure\" --json",
       "  alfix tree src/Sales.Codeunit.al"] }

def command : CommandName → Page
  | .actions =>
    { about := about .actions
      usage := "actions [OPTIONS] --at <AT> <FILE>"
      sections := [fileSection, ⟨"Options",
        startRow :: verboseRow :: targetRows ++ [listRow, closingRow]⟩]
      closing := [] }
  | .apply =>
    { about := about .apply
      usage := "apply [OPTIONS] --at <AT> --action <ACTION> <FILE>"
      sections := [fileSection, ⟨"Options",
        startRow :: verboseRow :: targetRows ++ applyRows ++ [closingRow]⟩]
      closing :=
        ["Without --write the changed documents are printed to stdout.",
         "With --json the edits are printed as an LSP WorkspaceEdit."] }
  | .tree =>
    { about := about .tree
      usage := "tree [OPTIONS] <FILE>"
      sections := [fileSection, ⟨"Options", [verboseRow, closingRow]⟩]
      closing := [] }

def help : Page :=
  { about := aboutHelp
    usage := "help [COMMAND]..."
    sections := [⟨"Arguments", [("[COMMAND]...", "Print help for the subcommand(s)")]⟩]
    closing := [] }

def page : Topic → Page
  | .program => program
  | .command c => command c
  | .help => help

def text (t : Topic) : Text := (page t).render

def version : Text := "alfix 0.4.2\n"

end AlRefactor.Help
