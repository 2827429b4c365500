import QueryScribe.Proofs.Accounting.Basic

/-!
# Queries account for their helpers

Geometries, filters, stages and queries record the helpers of the calls they give, in post-order.
-/

namespace QueryScribe.Builder

open Build (Quiet Accounts Gives)
open Call (Balanced IsText)

variable {b : Builder} {W : String → Prop} {prior : List Helper} {args : List Call} {field : Call}

variable (hb : b.Writes W)

include hb

-- The members of a mutual block that only hand the builder on count as not using it.
set_option linter.unusedSectionVars false

/-! ## Geometry -/

theorem quiet_coordinates (s : Shape) :
    Quiet (fun cs => ∀ c ∈ cs, IsText W c) (b.coordinates s) := by
  refine .bind (quiet_items s) fun items _ => ?_
  split
  · exact .refuse _
  · exact .mapM fun item _ => hb.numeric _ item.tree

theorem accounts_position (s : Shape) : Accounts W ([·]) [] (b.position s) :=
  .quietly (quiet_coordinates hb s) fun _ hcs => accounts_call _ _ (.textAll hcs)

theorem accounts_positions (s : Shape) : Accounts W ([·]) [] (b.positions s) :=
  .quietly (quiet_items s) fun _ _ => .bind (.mapM fun item _ => accounts_position hb item)
    fun _ _ h => accounts_list h

theorem accounts_rings (s : Shape) : Accounts W id [] (b.rings s) :=
  .quietly (quiet_items s) fun _ _ => .mapM fun item _ => accounts_positions hb item

theorem accounts_geometryArguments (s : Shape) (kind : GeometryKind) :
    Accounts W id [] (b.geometryArguments s kind) := by
  cases kind with
  | point => exact .bind (accounts_position hb s) fun _ _ h => .pure h
  | multiPoint => exact .bind (accounts_positions hb s) fun _ _ h => .pure h
  | lineString => exact .bind (accounts_positions hb s) fun _ _ h => .pure h
  | multiLineString =>
    exact .quietly (quiet_items s) fun _ _ => .bind (.mapM fun item _ => accounts_positions hb item)
      fun _ _ h => .bindAll (accounts_list h) fun _ _ h => .pure h
  | polygon => exact accounts_rings hb s
  | multiPolygon =>
    refine .quietly (quiet_items s) fun _ _ => .bind (.mapM fun item _ => ?_)
      fun _ _ h => .bindAll (accounts_list h) fun _ _ h => .pure h
    exact .bindAll (accounts_rings hb item) fun _ _ h => accounts_call _ _ h

theorem accounts_coordinateGeometry (kind : Option String) (coordinates : Option Shape) :
    Accounts W ([·]) [] (b.coordinateGeometry kind coordinates) := by
  unfold coordinateGeometry
  split
  · rename_i kind s _
    exact .bindAll (accounts_geometryArguments hb s kind) fun _ _ h => accounts_call _ _ h
  · exact .refuse _

theorem accounts_geometryOf {members : List (String × Shape × Build (List Call))}
    (hmembers : ∀ m ∈ members, Accounts W id [] m.2.2) :
    Accounts W (fun g => [g.2]) [] (b.geometryOf members) := by
  refine .quietly (quiet_member "type" members) fun kindShape _ => ?_
  dsimp only
  split
  · split
    · rename_i shape collect hfound
      have hcollect : Accounts W id [] collect := by
        rcases (Option.orElse_eq_some _ _ _).1 hfound with hfound | ⟨-, hfound⟩
        · exact hmembers _ (mem_of_lookup hfound)
        · exact hmembers _ (mem_of_lookup hfound)
      exact .bindAll hcollect fun _ _ h => .bindAll (accounts_list h) fun _ _ h =>
        .bindAll (accounts_call _ _ h) fun _ _ h => .pure h
    · exact .refuse _
  · split
    · exact .refuse _
    · exact .bindAll (accounts_coordinateGeometry hb _ _) fun _ _ h => .pure h

mutual

theorem accounts_geometry : (s : Shape) →
    Accounts W (fun g => [g.2]) [] (b.geometry s)
  | .document _ entries => by
    refine .quietly (.ofRefusal (Q := fun ms => ∀ m ∈ ms, Accounts W id [] m.2.2) fun ms hms => ?_)
      fun _ hms => accounts_geometryOf hb hms
    exact forall_keyed (V := fun m => Accounts W id [] m.2.2)
      (fun e he _ _ => accounts_collections entries e he) (by simp) (keyed_of_members hms)
  | .array _ _ => .refuse _
  | .scalar _ => .refuse _

theorem accounts_collections : (entries : List (Tree × Shape)) →
    ∀ e ∈ b.collections entries, Accounts W id [] e.2.2
  | [] => fun _ he => nomatch he
  | (_, value) :: rest =>
    List.forall_mem_cons.2 ⟨accounts_collected value, accounts_collections rest⟩

theorem accounts_collected : (s : Shape) → Accounts W id [] (b.collected s)
  | .array _ (first :: rest) =>
    .bind (accounts_geometry first) fun _ _ h =>
      .bind (accounts_geometries rest) fun _ _ h' => .pure (h.append h')
  | .array _ [] => .refuse _
  | .document _ _ => .refuse _
  | .scalar _ => .refuse _

theorem accounts_geometries : (items : List Shape) →
    Accounts W id [] (b.geometries items)
  | [] => .pure .nil
  | first :: rest =>
    .bind (accounts_geometry first) fun _ _ h =>
      .bind (accounts_geometries rest) fun _ _ h' => .pure (h.append h')

end


/-! ## Filters -/

omit hb in
theorem accounts_conjunction (h : Balanced W args prior) :
    Accounts W ([·]) prior (b.conjunction args) := by
  unfold conjunction
  split
  · exact .pure h
  · exact accounts_call _ _ h

theorem quiet_textSearch (s : Shape) : Quiet (IsText W) (b.textSearch s) :=
  .bind (quiet_members _ _ _) fun ms _ => .bind (quiet_member _ ms) fun s _ => hb.plain s.tree

theorem accounts_near (op : String) (hfield : IsText W field) (s : Shape) :
    Accounts W ([·]) [] (b.near op field s) := by
  refine .quietly (quiet_members _ _ _) fun ms _ => .quietly (quiet_member _ ms) fun geometry _ => ?_
  refine .bind (accounts_geometry hb geometry) fun ⟨kind, point⟩ hs hpoint => ?_
  dsimp only
  split
  · exact .refuse _
  · refine .bind (.mapM fun name _ => ?_) fun distances _ hdistances =>
      accounts_call _ _ (((Balanced.text hfield).append hpoint).append hdistances)
    split
    · rename_i distance _
      exact .text (hb.numeric _ distance.tree)
    · exact .pure .absent

theorem accounts_planeShape (hfield : IsText W field) (shape : String)
    (s : Shape) : Accounts W ([·]) [] (b.planeShape field shape s) := by
  unfold planeShape
  split
  · refine .quietly (quiet_twoItems s) fun ⟨lowerLeft, upperRight⟩ _ => ?_
    refine .quietly (quiet_coordinates hb lowerLeft) fun first hfirst => ?_
    refine .quietly (quiet_coordinates hb upperRight) fun second hsecond => ?_
    exact accounts_call _ _ ((Balanced.text hfield).append
      ((Balanced.textAll hfirst).append (.textAll hsecond)))
  · split
    · refine .quietly (quiet_items s) fun items _ => .bind (.mapM fun point _ => ?_) fun _ _ h =>
        .bindAll (accounts_list h) fun _ _ h => accounts_call _ _ ((Balanced.text hfield).append h)
      exact .quietly (quiet_coordinates hb point) fun _ h => accounts_list (.textAll h)
    · split
      · refine .quietly (quiet_twoItems s) fun ⟨center, radius⟩ _ => ?_
        refine .quietly (quiet_coordinates hb center) fun center hcenter => ?_
        refine .quietly (hb.numeric _ radius.tree) fun radius hradius => ?_
        exact accounts_call _ _ ((Balanced.text hfield).append
          ((Balanced.textAll hcenter).append (.text hradius)))
      · exact .refuse _

theorem accounts_geoClause (op : String) (hfield : IsText W field) (s : Shape) :
    Accounts W ([·]) [] (b.geoClause op field s) := by
  unfold geoClause
  split
  · rename_i shape value _
    split
    · exact .bind (accounts_geometry hb value) fun _ _ h =>
        accounts_call _ _ ((Balanced.text hfield).append h)
    · split
      · exact .refuse _
      · exact accounts_planeShape hb hfield shape value
  · exact .refuse _

theorem accounts_regexClause (hfield : IsText W field) (options : Option Tree)
    (s : Shape) : Accounts W ([·]) [] (b.regexClause field options s) := by
  refine .quietly (hb.plain s.tree) fun pattern hpattern => ?_
  cases options with
  | some t =>
    exact .quietly (hb.plain t) fun _ h => accounts_call _ _
      ((Balanced.text hfield).append ((Balanced.text hpattern).append (.text h)))
  | none => exact accounts_call _ _ ((Balanced.text hfield).append (.text hpattern))

theorem accounts_modClause (hfield : IsText W field) (s : Shape) :
    Accounts W ([·]) [] (b.modClause field s) :=
  .quietly (quiet_twoItems s) fun ⟨divisor, remainder⟩ _ =>
    .quietly (hb.plain divisor.tree) fun _ h => .quietly (hb.plain remainder.tree) fun _ h' =>
      accounts_call _ _ ((Balanced.text hfield).append ((Balanced.text h).append (.text h')))

theorem accounts_plainClause (hfield : IsText W field) (siblings : Siblings)
    (op : String) (s : Shape) : Accounts W ([·]) [] (b.plainClause field siblings op s) := by
  unfold plainClause
  split
  · exact .quietly (hb.plain s.tree) fun _ h =>
      accounts_call _ _ ((Balanced.text hfield).append (.text h))
  · split
    · exact accounts_regexClause hb hfield _ s
    · split
      · exact accounts_modClause hb hfield s
      · split
        · exact accounts_geoClause hb op hfield s
        · split
          · exact accounts_near hb op hfield s
          · exact .refuse _

theorem accounts_eqClause (hfield : IsText W field) (t : Tree) :
    Accounts W id [] (do return [← b.call .filters "eq" [field, ← b.plain t]] : Build (List Call)) :=
  .quietly (hb.plain t) fun _ h =>
    .bindAll (accounts_call _ _ ((Balanced.text hfield).append (.text h))) fun _ _ h => .pure h

theorem accounts_entryClauses_of {keyTree : Tree} {s : Shape}
    (hlogical : ∀ key, Accounts W id [] (b.logicalClauses key s))
    (hfield : ∀ field, IsText W field → Accounts W id [] (b.fieldClauses field s)) :
    Accounts W id [] (b.entryClauses keyTree s) := by
  rw [entryClauses_eq]
  refine .quietly (quiet_key keyTree) fun key _ => ?_
  split
  · exact hlogical key
  split
  · exact .quietly (hb.plain s.tree) fun _ h =>
      .bindAll (accounts_call _ _ (.text h)) fun _ _ h => .pure h
  split
  · exact .quietly (quiet_textSearch hb s) fun _ h =>
      .bindAll (accounts_call _ _ (.text h)) fun _ _ h => .pure h
  split
  · exact .refuse _
  · exact .quietly (quiet_field hb keyTree) hfield

theorem accounts_operatorClause_of (hfield : IsText W field) {siblings : Siblings}
    (op : String) {s : Shape} (hnot : Accounts W ([·]) [] (b.notClause field s))
    (helement : Accounts W ([·]) [] (b.elementClause field s)) :
    Accounts W ([·]) [] (b.operatorClause field siblings op s) := by
  rw [operatorClause_eq]
  split
  · exact hnot
  split
  · exact helement
  · exact accounts_plainClause hb hfield siblings op s

mutual

theorem accounts_filter : (s : Shape) → Accounts W ([·]) [] (b.filter s)
  | .document _ entries =>
    .bindAll (accounts_clauses entries) fun _ _ h => accounts_conjunction h
  | .array _ _ => .refuse _
  | .scalar _ => .refuse _

theorem accounts_clauses : (entries : List (Tree × Shape)) →
    Accounts W id [] (b.clauses entries)
  | [] => .pure .nil
  | (_, value) :: rest =>
    .bind (accounts_entryClauses value) fun _ _ h =>
      .bind (accounts_clauses rest) fun _ _ h' => .pure (h.append h')

theorem accounts_entryClauses {keyTree : Tree} :
    (s : Shape) → Accounts W id [] (b.entryClauses keyTree s)
  | .document tree entries => by
    refine accounts_entryClauses_of hb (fun _ => .refuse _) fun field hfield => ?_
    dsimp only [fieldClauses]
    split
    · exact accounts_operatorClauses hfield _ entries
    · exact accounts_eqClause hb hfield tree
  | .array tree [] =>
    accounts_entryClauses_of hb (fun _ => .refuse _) fun _ hfield => accounts_eqClause hb hfield tree
  | .array tree (first :: rest) => by
    refine accounts_entryClauses_of hb (fun _ => ?_) fun _ hfield => accounts_eqClause hb hfield tree
    exact .bind (accounts_filter first) fun _ _ h => .bind (accounts_filters rest) fun _ _ h' =>
      .bindAll (accounts_call _ _ (h.append h')) fun _ _ h => .pure h
  | .scalar tree =>
    accounts_entryClauses_of hb (fun _ => .refuse _) fun _ hfield => accounts_eqClause hb hfield tree

theorem accounts_filters : (items : List Shape) →
    Accounts W id [] (b.filters items)
  | [] => .pure .nil
  | first :: rest =>
    .bind (accounts_filter first) fun _ _ h =>
      .bind (accounts_filters rest) fun _ _ h' => .pure (h.append h')

theorem accounts_operatorClauses {field : Call} (hfield : IsText W field)
    (siblings : Siblings) : (entries : List (Tree × Shape)) →
    Accounts W id [] (b.operatorClauses field siblings entries)
  | [] => .pure .nil
  | (keyTree, operand) :: rest => by
    rw [operatorClauses_cons]
    refine .quietly (quiet_key keyTree) fun op _ => ?_
    split
    · split
      · exact accounts_operatorClauses hfield siblings rest
      · exact .refuse _
    · exact .bind (accounts_operatorClause hfield siblings op operand) fun _ _ h =>
        .bind (accounts_operatorClauses hfield siblings rest) fun _ _ h' => .pure (h.append h')

theorem accounts_operatorClause {field : Call} (hfield : IsText W field)
    (siblings : Siblings) (op : String) : (s : Shape) →
    Accounts W ([·]) [] (b.operatorClause field siblings op s)
  | .document _ entries => by
    refine accounts_operatorClause_of hb hfield op ?_ ?_
    · dsimp only [notClause]
      split
      · exact .bindAll (accounts_operatorClauses hfield _ entries) fun _ _ h =>
          .bindAll (accounts_conjunction h) fun _ _ h => accounts_call _ _ h
      · exact .refuse _
    · exact .bindAll (accounts_clauses entries) fun _ _ h =>
        .bindAll (accounts_conjunction h) fun _ _ h =>
          accounts_call _ _ ((Balanced.text hfield).append h)
  | .array _ _ => accounts_operatorClause_of hb hfield op (.refuse _) (.refuse _)
  | .scalar _ => accounts_operatorClause_of hb hfield op (.refuse _) (.refuse _)

end

/-! ## Stages -/

theorem accounts_accumulation (keyTree : Tree) (op : String) (s : Shape) :
    Accounts W ([·]) [] (b.accumulation keyTree op s) :=
  .quietly (quiet_field hb keyTree) fun _ h => .quietly (hb.plain s.tree) fun _ h' =>
    accounts_call _ _ ((Balanced.text h).append (.text h'))

theorem accounts_graphOption (name : String) (s : Shape) :
    Accounts W id [] (b.graphOption name s) := by
  unfold graphOption
  split
  · exact .quietly (hb.numeric _ s.tree) fun _ h => .pure ((Balanced.text h).option name)
  · split
    · exact .quietly (hb.string s.tree) fun _ h => .pure ((Balanced.text h).option name)
    · split
      · exact .bindAll (accounts_filter hb s) fun _ _ h => .pure (h.option name)
      · exact .pure .nil

theorem accounts_graphLookup (s : Shape) : Accounts W id [] (b.graphLookup s) := by
  refine .quietly (quiet_members _ _ _) fun ms _ => ?_
  refine .quietly (quiet_member _ ms) fun _ _ => .quietly (hb.string _) fun origin horigin => ?_
  refine .quietly (quiet_member _ ms) fun _ _ => .quietly (hb.plain _) fun start hstart => ?_
  refine .quietly (quiet_member _ ms) fun _ _ => .quietly (hb.string _) fun source hsource => ?_
  refine .quietly (quiet_member _ ms) fun _ _ => .quietly (hb.string _) fun aim haim => ?_
  refine .quietly (quiet_member _ ms) fun _ _ => .quietly (hb.string _) fun output houtput => ?_
  have hargs : Balanced W [origin, start, source, aim, output] [] :=
    .textAll (by simp [horigin, hstart, hsource, haim, houtput])
  refine .bind (.flatMapM fun m _ => accounts_graphOption hb m.1 m.2) fun options hs h => ?_
  rw [List.flatMap_id] at h
  split
  · rename_i hnil
    rw [hnil] at h
    exact .pure (h.helpers ▸ hargs)
  · exact .bindAll (accounts_call _ _ h) fun _ _ h => .pure (hargs.append h)

theorem accounts_group (s : Shape) : Accounts W id [] (b.group s) := by
  refine .quietly (quiet_entries s) fun entries _ => ?_
  split
  · rename_i keyTree id rest
    split
    · exact .refuse _
    · refine .quietly (hb.plain id.tree) fun id hid => ?_
      refine .bind (.mapM fun ⟨keyTree, expression⟩ _ => ?_) fun _ _ h =>
        .pure ((Balanced.text hid).append h)
      dsimp only
      split
      · exact accounts_accumulation hb keyTree _ _
      · exact .refuse _
  · exact .refuse _

/-- The fields of a projection are texts. -/
def Projection.AreTexts (W : String → Prop) (p : Projection) : Prop :=
  (∀ c ∈ p.included, IsText W c) ∧ ∀ c ∈ p.excluded, IsText W c

theorem quiet_projectField {p : Projection} (hp : p.AreTexts W) (keyTree : Tree)
    (s : Shape) : Quiet (Projection.AreTexts W) (b.projectField p keyTree s) := by
  refine .bind (quiet_truth hb s.tree) fun keep _ => .bind (quiet_key keyTree) fun key _ => ?_
  split
  · exact .pure hp
  · refine .bind (quiet_field hb keyTree) fun field hfield => ?_
    have hsnoc : ∀ fields : List Call, (∀ c ∈ fields, IsText W c) →
        ∀ c ∈ fields ++ [field], IsText W c := fun fields h =>
      List.forall_mem_append.2 ⟨h, List.forall_mem_singleton.2 hfield⟩
    split
    · exact .pure ⟨hsnoc _ hp.1, hp.2⟩
    · exact .pure ⟨hp.1, hsnoc _ hp.2⟩

theorem quiet_projectFields (entries : List (Tree × Shape)) {p : Projection}
    (hp : p.AreTexts W) : Quiet (Projection.AreTexts W)
      (entries.foldlM (fun p (keyTree, flag) => b.projectField p keyTree flag) p) := by
  induction entries generalizing p with
  | nil => exact .pure hp
  | cons e rest ih => exact .bind (quiet_projectField hb hp e.1 e.2) fun _ h => ih h

omit hb in
theorem accounts_fieldsCall (name : String) {fields : List Call}
    (hfields : ∀ c ∈ fields, IsText W c) : Accounts W id [] (b.fieldsCall name fields) := by
  unfold fieldsCall
  split
  · exact .pure .nil
  · exact .bindAll (accounts_call _ _ (.textAll hfields)) fun _ _ h => .pure h

theorem accounts_projection (s : Shape) : Accounts W ([·]) [] (b.projection s) := by
  refine .quietly (quiet_entries s) fun entries _ => ?_
  refine .quietly (quiet_projectFields hb entries ⟨by simp, by simp⟩) fun p hp => ?_
  refine .bind (accounts_fieldsCall _ hp.1) fun included _ hincluded => ?_
  refine .bind (accounts_fieldsCall _ hp.2) fun excluded _ hexcluded => ?_
  dsimp only
  split
  · refine .bind (accounts_call _ _ .nil) fun part _ h =>
      .bindUsing _ (.pure h : Accounts W id _ (pure [part])) fun parts _ h => ?_
    replace h := (hincluded.append hexcluded).append h
    split
    · exact .pure (by simp_all)
    · exact accounts_call _ _ h
  · refine .bind (.pure .nil : Accounts W id [] (pure [])) fun parts _ h => ?_
    replace h := (hincluded.append hexcluded).append h
    split
    · exact .pure (by simp_all)
    · exact accounts_call _ _ h

theorem quiet_direction (s : Shape) : Quiet (fun _ => True) (b.direction s) := by
  unfold direction
  split
  · split
    · exact .pure trivial
    · exact .refuse _
  · exact .refuse _
  · refine .bind (hb.number s.tree) fun value _ => ?_
    split
    · exact .pure trivial
    · split
      · exact .pure trivial
      · exact .bind (.lift (Render.silent_ofConversion _)) fun _ _ => .refuse _

theorem accounts_sort (s : Shape) : Accounts W ([·]) [] (b.sort s) := by
  refine .quietly (quiet_entries s) fun entries _ =>
    .bindAll (.mapM fun ⟨keyTree, order⟩ _ => ?_) fun orders _ h => ?_
  · exact .quietly (quiet_field hb keyTree) fun _ h =>
      .quietly (quiet_direction hb order) fun _ _ => accounts_call _ _ (.text h)
  · split
    · exact .pure h
    · exact accounts_call _ _ h

theorem accounts_simpleStage (stage : String) (s : Shape) :
    Accounts W id [] (b.simpleStage stage s) := by
  unfold simpleStage
  refine .ite (.quietly (hb.string s.tree) fun _ h => .pure (.text h)) ?_
  refine .ite (.bindAll (accounts_filter hb s) fun _ _ h => .pure h) ?_
  refine .ite (.quietly (hb.numeric _ s.tree) fun _ h => .pure (.text h)) ?_
  refine .ite ?_ (.ite ?_ ?_)
  · exact .quietly (quiet_members _ _ _) fun ms _ => .quietly (quiet_member _ ms) fun _ _ =>
      .quietly (hb.numeric _ _) fun _ h => .pure (.text h)
  · exact .quietly (quiet_members _ _ _) fun ms _ => .mapM fun _ _ =>
      .quietly (quiet_member _ ms) fun value _ => .text (hb.string value.tree)
  refine .ite (accounts_graphLookup hb s) (.ite (accounts_group hb s) ?_)
  refine .ite (.bindAll (accounts_projection hb s) fun _ _ h => .pure h) ?_
  refine .ite (.bindAll (accounts_sort hb s) fun _ _ h => .pure h) ?_
  refine .ite ?_ (.refuse _)
  exact .quietly (quiet_members _ _ _) fun ms _ => .quietly (quiet_member _ ms) fun _ _ =>
    .quietly (hb.plain _) fun _ h => .pure (.text h)

theorem accounts_ofSimpleStage (name : String) (s : Shape) :
    Accounts W ([·]) [] (b.simpleStage name s >>= b.call .aggregates name) :=
  .bindAll (accounts_simpleStage hb name s) fun _ _ h => accounts_call _ _ h

mutual

theorem accounts_stage (name : String) : (s : Shape) →
    Accounts W ([·]) [] (b.stage name s)
  | .document tree entries => by
    change Accounts W _ [] (if name = "$facet" then b.facets entries >>= b.call .aggregates name
      else b.simpleStage name (.document tree entries) >>= b.call .aggregates name)
    refine .ite ?_ (accounts_ofSimpleStage hb name _)
    exact .bindAll (accounts_facets entries) fun _ _ h => accounts_call _ _ h
  | .array _ _ => .ite (.refuse _) (accounts_ofSimpleStage hb name _)
  | .scalar _ => .ite (.refuse _) (accounts_ofSimpleStage hb name _)

theorem accounts_facets : (entries : List (Tree × Shape)) →
    Accounts W id [] (b.facets entries)
  | [] => .pure .nil
  | (keyTree, pipeline) :: rest =>
    .bind (accounts_facet keyTree pipeline) fun _ _ h =>
      .bind (accounts_facets rest) fun _ _ h' => .pure (h.append h')

/-- A facet accounts for its pipeline. Its name is written after the pipeline but comes before it. -/
theorem accounts_facet (keyTree : Tree) : (s : Shape) →
    Accounts W ([·]) [] (b.facet keyTree s)
  | .array _ items =>
    .bindAll (accounts_pipeline items) fun _ _ h => .quietly (quiet_field hb keyTree)
      fun _ hfield => .bindAll (accounts_list h) fun _ _ h =>
        accounts_call _ _ ((Balanced.text hfield).append h)
  | .document _ _ => .refuse _
  | .scalar _ => .refuse _

theorem accounts_pipeline : (items : List Shape) →
    Accounts W id [] (b.pipeline items)
  | [] => .pure .nil
  | first :: rest =>
    .bind (accounts_stageDocument first) fun _ _ h =>
      .bind (accounts_pipeline rest) fun _ _ h' => .pure (h.append h')

theorem accounts_stageDocument : (s : Shape) →
    Accounts W ([·]) [] (b.stageDocument s)
  | .document _ [(keyTree, operand)] => by
    change Accounts W _ [] (match keyTree.stringKey? with
      | some key => if b.isStage key then b.stage key operand else refuse .pipelineStage
      | none => refuse .pipelineStage)
    split
    · exact .ite (accounts_stage _ operand) (.refuse _)
    · exact .refuse _
  | .document _ [] => .refuse _
  | .document _ (_ :: _ :: _) => .refuse _
  | .array _ _ => .refuse _
  | .scalar _ => .refuse _

end

/-- A query records the helpers that it calls and no others, in post-order. -/
theorem accounts_query (entries : List (Tree × Shape)) : Accounts W ([·]) [] (b.query entries) := by
  have hfilter : Accounts W ([·]) [] (b.clauses entries >>= b.conjunction) :=
    .bindAll (accounts_clauses hb entries) fun _ _ h => accounts_conjunction h
  unfold query
  split
  · rename_i keyTree value
    unfold singleEntry
    dsimp only
    split
    · refine .ite (accounts_stage hb _ value) (.ite ?_ ?_)
      · exact .bindAll (accounts_geometry hb value) fun _ _ h => .pure h
      split
      · exact accounts_accumulation hb keyTree _ _
      · exact hfilter
    · exact hfilter
  · exact hfilter

end QueryScribe.Builder
