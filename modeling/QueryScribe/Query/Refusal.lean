import QueryScribe.Failure

/-!
# Refusals

A document that has no form as a query is refused. A refusal is no failure: the document is then
written plainly.
-/

namespace QueryScribe

/-- Why a document is no query. -/
inductive Refusal
  -- the form of documents and arrays
  | emptyDocument
  | keyNotString
  | keys (missing unexpected : List String)
  | arrayShape
  -- values
  | noString (type : ValueType)
  | noNumber (type : ValueType)
  | noValue (cause : Cause)
  | noHelper (key : String)
  -- filters
  | emptyFilter
  | noDocuments (operator : String)
  | noFilter (operator : String)
  | loneOptions
  | noOperators
  -- geometry
  | noShape (operator : String)
  | onlyGeometry (operator : String)
  | unknownShape (shape : String)
  | noPoint (operator kind : String)
  | noGeometries
  | unknownGeometry (kind : Option String)
  | shortPosition
  -- stages
  | noStage (stage : String)
  | pipelineStage
  | noPipeline
  | groupId
  | groupField
  | sortMeta
  | sortDirection (value : String)
deriving DecidableEq, Repr

/-- The reason that is logged. -/
def Refusal.message : Refusal → String
  | emptyDocument => "expected a non-empty document"
  | keyNotString => "document key is not a string"
  | keys missing unexpected =>
    "document keys: missing " ++ Text.quotedList missing ++ ", unexpected " ++
      Text.quotedList unexpected
  | arrayShape => "unexpected array shape"
  | noString type => "expected a string, got " ++ type.name
  | noNumber type => "expected a number, got " ++ type.name
  | noValue cause => cause.message
  | noHelper key => "no builder helper for " ++ key
  | emptyFilter => "a filter needs at least one clause"
  | noDocuments operator => operator ++ " needs a non-empty array of documents"
  | noFilter operator => "no filter helper for " ++ operator
  | loneOptions => "$options without $regex"
  | noOperators => "$not needs an operator document"
  | noShape operator => operator ++ " needs exactly one shape"
  | onlyGeometry operator => operator ++ " only takes a $geometry"
  | unknownShape shape => "no $geoWithin helper for " ++ shape
  | noPoint operator kind => operator ++ " needs a Point, got " ++ kind
  | noGeometries => "GeometryCollection needs geometries"
  | unknownGeometry kind => "unsupported geometry " ++ (kind.map Text.quoted).getD "None"
  | shortPosition => "a position needs at least two coordinates"
  | noStage stage => "no aggregation helper for " ++ stage
  | pipelineStage => "a pipeline holds one stage per document"
  | noPipeline => "a facet needs a pipeline array"
  | groupId => "$group starts with _id"
  | groupField => "$group fields need an accumulator"
  | sortMeta => "the only sort $meta is textScore"
  | sortDirection value => "sort direction " ++ value ++ " is not 1 or -1"

end QueryScribe
