import QueryScribe.Usage

/-!
# Query helpers

A target may have helpers that build queries: functions, and classes whose instances are made or
configured. Each helper belongs to a family, under which its use is recorded.
-/

namespace QueryScribe

/-- How a helper is called. -/
inductive HelperForm
  /-- By its name, with arguments. -/
  | function
  /-- As a new instance, with arguments. -/
  | constructor
  /-- As a new instance, followed by calls that set its options. -/
  | options
deriving DecidableEq, Repr

/-- A helper: its family, the name that is imported for it, and how it is called. -/
structure Helper where
  family : Family
  name : String
  form : HelperForm := .function
deriving DecidableEq, Repr

/-- The call of a helper with arguments that are already written. -/
def Helper.write (h : Helper) (args : List String) : String :=
  match h.form with
  | .function => h.name ++ "(" ++ ", ".intercalate args ++ ")"
  | .constructor => "new " ++ h.name ++ "(" ++ ", ".intercalate args ++ ")"
  | .options => "new " ++ h.name ++ "()" ++ String.join args

/-- The helpers of a target by family. Filters, stages and accumulators are found by the operator of
a query, the others by name. -/
structure Helpers where
  filters : List (String × Helper) := []
  aggregates : List (String × Helper) := []
  accumulators : List (String × Helper) := []
  projections : List (String × Helper) := []
  sorts : List (String × Helper) := []
  geojson : List (String × Helper) := []
  model : List (String × Helper) := []
deriving DecidableEq, Repr

namespace Helpers

/-- The helpers of a family. -/
def family (hs : Helpers) : Family → List (String × Helper)
  | .filters => hs.filters
  | .aggregates => hs.aggregates
  | .accumulators => hs.accumulators
  | .projections => hs.projections
  | .sorts => hs.sorts
  | .geojson => hs.geojson
  | .model => hs.model

/-- The helper of a family for a key. -/
def find? (hs : Helpers) (f : Family) (key : String) : Option Helper := (hs.family f).lookup key

/-- Functions of a family under their operators: the name after a dollar sign. -/
def operators (f : Family) (names : List String) : List (String × Helper) :=
  names.map fun name => ("$" ++ name, ⟨f, name, .function⟩)

/-- Helpers of a family under their own names. -/
def named (f : Family) (form : HelperForm) (names : List String) : List (String × Helper) :=
  names.map fun name => (name, ⟨f, name, form⟩)

end Helpers

end QueryScribe
