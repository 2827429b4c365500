import QueryScribe.Query.Build

/-!
# Geometry

A geometry is a document with its kind and its coordinates, or with the geometries it collects.
-/

namespace QueryScribe.Builder

variable (b : Builder)

/-- The coordinates of a position, at least two. -/
def coordinates (s : Shape) : Build (List Call) := do
  let items ← items s
  if items.length < 2 then refuse .shortPosition
  else items.mapM fun item => b.double item.tree

/-- A position. -/
def position (s : Shape) : Build Call := do
  b.call .geojson "Position" (← b.coordinates s)

/-- A list of positions. -/
def positions (s : Shape) : Build Call := do
  list (← (← items s).mapM b.position)

/-- The rings of a polygon, each a list of positions. -/
def rings (s : Shape) : Build (List Call) := do
  (← items s).mapM b.positions

/-- The kinds of geometry with coordinates. -/
inductive GeometryKind
  | point | multiPoint | lineString | multiLineString | polygon | multiPolygon
deriving DecidableEq, Repr

/-- The name of a kind. -/
def GeometryKind.label : GeometryKind → String
  | point => "Point" | multiPoint => "MultiPoint" | lineString => "LineString"
  | multiLineString => "MultiLineString" | polygon => "Polygon" | multiPolygon => "MultiPolygon"

/-- The kind with a name. -/
def GeometryKind.ofLabel? (label : String) : Option GeometryKind :=
  [point, multiPoint, lineString, multiLineString, polygon, multiPolygon].find? (·.label == label)

/-- The arguments of a geometry from its coordinates. -/
def geometryArguments (s : Shape) : GeometryKind → Build (List Call)
  | .point => do return [← b.position s]
  | .multiPoint | .lineString => do return [← b.positions s]
  | .multiLineString => do return [← list (← (← items s).mapM b.positions)]
  | .polygon => b.rings s
  | .multiPolygon => do
    let polygons ← (← items s).mapM fun polygon => do
      b.call .geojson "PolygonCoordinates" (← b.rings polygon)
    return [← list polygons]

/-- A geometry with coordinates. -/
def coordinateGeometry (kind : Option String) (coordinates : Option Shape) : Build Call :=
  match kind.bind GeometryKind.ofLabel?, coordinates with
  | some kind, some s => do b.call .geojson kind.label (← b.geometryArguments s kind)
  | _, _ => refuse (.unknownGeometry kind)

/-- A geometry from its members, each with what its value collects. -/
def geometryOf (members : List (String × Shape × Build (List Call))) : Build (String × Call) := do
  let (kindShape, _) ← member "type" members
  let coordinates := members.lookup "coordinates"
  let geometries := members.lookup "geometries"
  match kindShape.tree.stringKey? with
  | some "GeometryCollection" =>
    match geometries <|> coordinates with
    | some (_, collect) =>
      let parts ← list (← collect)
      return ("GeometryCollection", ← b.call .geojson "GeometryCollection" [parts])
    | none => refuse .noGeometries
  | kind =>
    if geometries.isSome then refuse (.unknownGeometry kind)
    else
      let call ← b.coordinateGeometry kind (coordinates.map (·.1))
      return (kind.getD "", call)

mutual

/-- A geometry with the name of its kind. -/
def geometry : Shape → Build (String × Call)
  | .document _ entries => do
    let members ← ofRefusal (members ["type"] ["coordinates", "geometries"] (collections entries))
    b.geometryOf members
  | _ => refuse .emptyDocument

/-- Entries with what their values collect. -/
def collections : List (Tree × Shape) → List (Tree × Shape × Build (List Call))
  | [] => []
  | (key, value) :: rest => (key, value, collected value) :: collections rest

/-- The geometries of an array. -/
def collected : Shape → Build (List Call)
  | .array _ (first :: rest) => do
    let (_, call) ← geometry first
    return call :: (← geometries rest)
  | _ => refuse .arrayShape

/-- Some geometries. -/
def geometries : List Shape → Build (List Call)
  | [] => return []
  | first :: rest => do
    let (_, call) ← geometry first
    return call :: (← geometries rest)

end

end QueryScribe.Builder
