import FlatRecord.Validation

/-!
# Registries

A registry keeps one schema under each name. A name that is taken stays as it is.
-/

namespace FlatRecord

/-- Why a registry refuses. -/
inductive RegistryError where
  /-- The name is taken. -/
  | taken (name : String)
  /-- There is no schema of that name. -/
  | unknown (name : String)
  /-- The record cannot be used. -/
  | structure (error : StructureError)
  deriving DecidableEq

namespace RegistryError

/-- The wording of an error. -/
def message : RegistryError → String
  | taken name => "schema '" ++ name ++ "' already registered"
  | unknown name => "schema '" ++ name ++ "' not found"
  | .structure error => error.message

end RegistryError

/-- Schemas by name. -/
structure Registry where
  /-- The schemas in the order of their names. -/
  schemas : SortedMap String Schema := ∅

namespace Registry

/-- The schema of a name. -/
def get? (r : Registry) (name : String) : Option Schema := r.schemas.get? name

/-- The names in ascending order. -/
def names (r : Registry) : List String := r.schemas.keys

/-- Adds a schema under a name that is not taken. -/
def register (r : Registry) (name : String) (schema : Schema) : Except RegistryError Registry :=
  if r.schemas.contains name then .error (.taken name) else .ok ⟨r.schemas.insert name schema⟩

/-- Validates a record with the schema of a name. -/
def validate (r : Registry) (name : String) (record : Record) (context : Context) :
    Except RegistryError Outcome :=
  match r.get? name with
  | some schema => (FlatRecord.validate record schema context).mapError .structure
  | none => .error (.unknown name)

end Registry

end FlatRecord
