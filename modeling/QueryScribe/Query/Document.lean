import QueryScribe.Query.Stage

/-!
# Documents as queries

A document is tried as a query. If it is refused, all that was noted in the attempt is forgotten.
-/

namespace QueryScribe.Renderer

/-- The text of a document as a query, if it is one. -/
def query? (r : Renderer) (entries : List (Tree × Shape)) : Render (Option String) := do
  match r.target.helpers with
  | none => return none
  | some helpers =>
    if entries.isEmpty then return none
    else do
      let saved ← Render.notes
      match ← (Builder.query ⟨r, helpers⟩ entries).run with
      | .ok call => return some (call.write r.target)
      | .error reason => do
        Render.log (.plainDocument reason)
        Render.note fun _ => saved
        return none

end QueryScribe.Renderer
