import QueryScribe.Proofs.Building.Members

/-!
# What a query reads of a document

A query looks into the operands of some operators and writes the others as they are. `Shape.Below`
gives the documents and arrays that the query of a document may look into, each with the key of the
entry that it is the operand of, or an item of. Of these a query reads some keys, texts and flags
without writing them (`Shape.Reads`), passes over some values (`Shape.Drops`), and converts some
numbers (`Shape.Converts`).
-/

namespace QueryScribe

open Builder

/-- The members that a query reads of the operand of a key. Of entries with one of these keys only the
last counts. -/
def memberNames : String → List String
  | "$text" => ["$search"]
  | "$near" | "$nearSphere" => "$geometry" :: nearOptions
  | "$geometry" | "geometries" | "coordinates" => ["type", "coordinates", "geometries"]
  | "$sample" => ["size"]
  | "$lookup" => lookupFields
  | "$graphLookup" => graphFields ++ graphOptions
  | "$replaceRoot" => ["newRoot"]
  | _ => []

/-- The keys whose operands hold coordinates. -/
def coordinateNames : List String := ["coordinates", "$box", "$polygon", "$center", "$centerSphere"]

/-- The keys whose operands a query looks into. -/
def openNames : List String :=
  ["$and", "$or", "$nor", "$not", "$elemMatch", "$text", "$mod", "$geoWithin", "$geoIntersects",
    "$near", "$nearSphere", "$geometry", "geometries", "$match", "$sample", "$lookup", "$graphLookup",
    "restrictSearchWithMatch", "$group", "$project", "$sort", "$replaceRoot", "$facet"] ++
      coordinateNames

namespace Shape

/-- What the query of a document may look into, with the key whose operand it is: the operands of some
keys, documents of operators, the pipelines of facets, and the items of arrays. -/
inductive Below (top : Shape) : String → Shape → Prop
  | top : Below top "" top
  | entry {context key : String} {s : Shape} {e : Tree × Shape} (h : Below top context s)
    (he : e ∈ s.entries) (hkey : e.1.stringKey? = some key)
    (hopen : key ∈ openNames ∨ e.2.operators?.isSome) : Below top key e.2
  | facet {s : Shape} {e : Tree × Shape} (h : Below top "$facet" s) (he : e ∈ s.entries) :
    Below top "" e.2
  | item {context : String} {s i : Shape} (h : Below top context s) (hi : i ∈ s.items) :
    Below top context i

/-- The nodes that a query reads without writing them: documents and arrays, the keys that it knows,
the kind of a geometry and what a sort asks for, and flags of a projection. -/
inductive Reads (top : Shape) : Tree → Prop
  | document {context : String} {tree : Tree} {entries : List (Tree × Shape)}
    (h : Below top context (.document tree entries)) : Reads top tree
  | array {context : String} {tree : Tree} {items : List Shape}
    (h : Below top context (.array tree items)) : Reads top tree
  | key {context key : String} {s : Shape} {e : Tree × Shape} (h : Below top context s)
    (he : e ∈ s.entries) (hkey : e.1.stringKey? = some key)
    (hname : isOperator key ∨ key ∈ memberNames context ∨
      key = "_id" ∧ context ∈ ["$group", "$project"]) : Reads top e.1
  | text {context key : String} {s : Shape} {e : Tree × Shape} (h : Below top context s)
    (he : e ∈ s.entries) (hkey : e.1.stringKey? = some key) (htext : e.2.tree.stringKey?.isSome)
    (hname : key = "$meta" ∨ key = "type" ∧ key ∈ memberNames context) : Reads top e.2.tree
  | flag {s : Shape} {e : Tree × Shape} (h : Below top "$project" s) (he : e ∈ s.entries)
    (hflag : e.2.tree.core.isOf .booleanLiteral) : Reads top e.2.tree

/-- The nodes that a query converts to numbers: limits and depths, distances and coordinates, and what
projections and sorts say of their fields. -/
inductive Converts (top : Shape) : Tree → Prop
  | value {context key : String} {s : Shape} {e : Tree × Shape} (h : Below top context s)
    (he : e ∈ s.entries) (hkey : e.1.stringKey? = some key)
    (hname : key ∈ ["$limit", "$skip"] ∨
      key ∈ memberNames context ∧ key ∈ "size" :: "maxDepth" :: nearOptions) : Converts top e.2.tree
  | field {context : String} {s : Shape} {e : Tree × Shape} (h : Below top context s)
    (he : e ∈ s.entries) (hname : context ∈ ["$project", "$sort"]) : Converts top e.2.tree
  | coordinate {context : String} {s i : Shape} (h : Below top context s) (hi : i ∈ s.items)
    (hname : context ∈ coordinateNames) : Converts top i.tree

/-- The entries whose values a query passes over: those of members and of options whose key comes
again, and coordinates beside geometries. -/
def Drops (context : String) (entries : List (Tree × Shape)) (e : Tree × Shape) : Prop :=
  ∃ key, e.1.stringKey? = some key ∧
    ((key ∈ memberNames context ∨ key = "$options") ∧ last? key entries ≠ some e.2 ∨
      key = "coordinates" ∧ key ∈ memberNames context ∧ (last? "geometries" entries).isSome)

end Shape

end QueryScribe
