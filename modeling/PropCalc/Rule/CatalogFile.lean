/-
  Catalogs in files: JSON texts in a storage.
-/
import PropCalc.Json.Forms
import PropCalc.Storage

namespace PropCalc

/-- Why a catalog cannot be loaded or saved. -/
inductive CatalogFileError
  | inaccessible (path : String) (reason : FileError)
  /-- The file holds no JSON text, or not that of a catalog. -/
  | invalidJson (path : String)
  | invalid (fault : CatalogFault)
  deriving DecidableEq, Repr

namespace CatalogFileError

/-- What the error is, followed by what it comes from, step by step. -/
def messages : CatalogFileError → List String
  | .inaccessible path reason =>
    let access := s!"cannot access {path}: " ++ reason.message
    ["could not read rule catalog: " ++ access, access, reason.message]
  | .invalidJson path =>
    let reason := "not the form of a rule catalog"
    let json := s!"invalid JSON in {path}: " ++ reason
    ["could not read rule catalog: " ++ json, json, reason]
  | .invalid (.duplicateId id) => [(CatalogFault.duplicateId id).message]
  | .invalid (.malformedPattern id reason) =>
    [(CatalogFault.malformedPattern id reason).message, reason.message]

end CatalogFileError

namespace Catalog

/-- The text that a catalog is saved as. -/
def fileText (c : Catalog) : String := Json.pretty c.toJson

/-- The valid catalog that the text of a file holds. -/
def ofFileText (path text : String) : Except CatalogFileError Catalog :=
  match Json.decodeText ofJson text with
  | none => .error (.invalidJson path)
  | some c =>
    match c.validate with
    | .ok () => .ok c
    | .error fault => .error (.invalid fault)

variable {m : Type → Type} [Monad m]

/-- Loads a catalog, and checks it. -/
def load (s : Storage m) (path : String) : m (Except CatalogFileError Catalog) := do
  match ← s.read path with
  | .ok text => return ofFileText path text
  | .error reason => return .error (.inaccessible path reason)

/-- Saves a catalog. -/
def save (c : Catalog) (s : Storage m) (path : String) : m (Except CatalogFileError Unit) := do
  match ← s.write path c.fileText with
  | .ok () => return .ok ()
  | .error reason => return .error (.inaccessible path reason)

end Catalog

end PropCalc
