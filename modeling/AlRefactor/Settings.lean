import AlRefactor.Config
import AlRefactor.Toml.Document

/-!
# Settings files
-/

namespace AlRefactor

namespace Placement

def ofToml? (v : TomlValue) : Option Placement :=
  v.word?.bind fun w =>
    if w == "afterCurrent".toList then some .afterCurrent
    else if w == "sortedByName".toList then some .sortedByName
    else none

end Placement

namespace Config

def fieldNames : List Text :=
  ["publisherHasVarParametersOnly", "findNewProcedureLocation", "extractToLabelCreatesComment",
   "commentsContainTranslations", "varParameters"]

/-- The settings of the refactorings in a table; what is not set is as in the standard settings. -/
def ofToml? (v : TomlValue) : Option Config := do
  match ← v.fields? fieldNames with
  | [byReference, location, comment, localized, names] =>
    return {
      publisherHasVarParametersOnly :=
        ← TomlValue.orElse standard.publisherHasVarParametersOnly TomlValue.bool? byReference
      findNewProcedureLocation :=
        ← TomlValue.orElse standard.findNewProcedureLocation Placement.ofToml? location
      extractToLabelCreatesComment :=
        ← TomlValue.orElse standard.extractToLabelCreatesComment TomlValue.bool? comment
      commentsAreLocalized :=
        ← TomlValue.orElse standard.commentsAreLocalized TomlValue.bool? localized
      varParameters := ← TomlValue.orElse standard.varParameters
        (fun v => v.items?.bind fun items => items.mapM TomlValue.string?) names }
  | _ => none

end Config

/-- Everything that a settings file can hold. -/
structure Settings where
  refactoring : Config
  /-- How much is reported of the work. -/
  logLevel : Text
deriving DecidableEq, Repr

namespace Settings

def standard : Settings := ⟨Config.standard, "warn"⟩

/-- The names of settings files in a folder; the first one that is there counts. -/
def fileNames : List Text := ["alfix.toml", ".alfix.toml"]

def logLevelOf? (v : TomlValue) : Option Text := do
  match ← v.fields? ["level"] with
  | [level] => TomlValue.orElse standard.logLevel TomlValue.string? level
  | _ => none

def ofToml? (v : TomlValue) : Option Settings := do
  match ← v.fields? ["refactor", "logging"] with
  | [refactoring, logging] =>
    return ⟨← TomlValue.orElse Config.standard Config.ofToml? refactoring,
      ← TomlValue.orElse standard.logLevel logLevelOf? logging⟩
  | _ => none

/-- The settings that a file holds, if all of it can be read. -/
def read? (t : Text) : Option Settings := (TomlDocument.read? t).bind ofToml?

/-- The settings that a file holds, the standard ones if it cannot be read. -/
def ofText (t : Text) : Settings := (read? t).getD standard

end Settings

end AlRefactor
