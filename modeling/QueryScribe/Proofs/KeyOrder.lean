import QueryScribe.Proofs.Building.Steps
import QueryScribe.Proofs.Locality.Basic
import QueryScribe.Proofs.Shapes
import QueryScribe.Target

/-!
# The order of keys

Where the entries of a document are named, their order does not matter. A lookup, the operand of nearness
and a geometry collect their entries by key, and go on with the members in an order of their own. Two
orders of the same entries therefore are both refused before anything is written, with reasons that may
differ, or go on in the same way (`outcome_of_members`). A regular expression looks for its options among
the other operators, and the loop over the operators passes the options by (`operatorClauses_filter`).

What can be told of building a query is what it gives or which fault it ends in, and the journal it leaves;
the reason of a refusal is only logged (`Build.outcome`).
-/

namespace QueryScribe

open List

/-! ## Outcomes -/

namespace Build

variable {α β : Type}

/-- What building gives from a journal, nothing if it refuses, or the fault that it ends in, and the
journal it leaves. -/
def outcome (m : Build α) (j : Journal) : Except Fault (Option α) × Journal :=
  ((Render.exec m.run j).1.map Except.toOption, (Render.exec m.run j).2)

theorem outcome_bind {m m' : Build α} (h : outcome m = outcome m') (f : α → Build β) :
    outcome (m >>= f) = outcome (m' >>= f) := by
  funext j
  have hj := congrFun h j
  unfold outcome at hj ⊢
  rw [ExceptT.run_bind, ExceptT.run_bind, Render.exec_bind, Render.exec_bind]
  rcases hm : Render.exec m.run j with ⟨fault | (reason | a), k⟩ <;>
    rcases hm' : Render.exec m'.run j with ⟨fault' | (reason' | a'), k'⟩ <;>
    rw [hm, hm'] at hj <;> obtain ⟨hresult, hjournal⟩ := Prod.mk.inj hj <;> cases hresult <;>
    cases hjournal <;> rfl

end Build

/-! ## Members by key -/

namespace Shape

variable {α : Type}

/-- Entries whose keys are pairwise distinct, as far as they are strings. -/
def DistinctKeys (entries : List (Tree × α)) : Prop := (entries.filterMap (·.1.stringKey?)).Nodup

instance (entries : List (Tree × α)) : Decidable (DistinctKeys entries) :=
  inferInstanceAs (Decidable (List.Nodup _))

theorem map_named (entries : List (Tree × α)) :
    (named entries).map (·.1) = entries.filterMap (·.1.stringKey?) := by
  rw [named, map_filterMap]
  congr 1
  funext e
  cases e.1.stringKey? <;> rfl

end Shape

namespace Builder

open Shape (named DistinctKeys map_named)

variable {α β : Type} {entries entries' : List (Tree × α)} {ms ms' : List (String × α)}

theorem putMember_of_notMem {key : String} {value : α} (h : key ∉ ms.map (·.1)) :
    putMember key value ms = ms ++ [(key, value)] := by
  induction ms with
  | nil => rfl
  | cons m ms ih =>
    rw [map_cons, mem_cons, not_or] at h
    rw [putMember, if_neg (Ne.symm h.1), ih h.2]
    rfl

theorem keyed_of_distinct (hkeys : ∀ e ∈ entries, e.1.stringKey?.isSome)
    (hdistinct : (ms.map (·.1) ++ entries.filterMap (·.1.stringKey?)).Nodup) :
    keyed entries ms = .ok (ms ++ named entries) := by
  induction entries generalizing ms with
  | nil => simp [keyed, named]
  | cons e entries ih =>
    obtain ⟨hkey, hkeys⟩ := forall_mem_cons.1 hkeys
    obtain ⟨key, hkey⟩ := Option.isSome_iff_exists.1 hkey
    have hcons : (e :: entries).filterMap (·.1.stringKey?) =
        key :: entries.filterMap (·.1.stringKey?) := filterMap_cons_some hkey
    rw [hcons] at hdistinct
    have hnew : key ∉ ms.map (·.1) := fun hmem =>
      (nodup_append.1 hdistinct).2.2 key hmem key (.head _) rfl
    have hput : ((ms ++ [(key, e.2)]).map (·.1) ++ entries.filterMap (·.1.stringKey?)).Nodup := by
      rwa [map_append, append_assoc]
    have hnamed : named (e :: entries) = (key, e.2) :: named entries :=
      filterMap_cons_some (by rw [hkey]; rfl)
    rw [keyed, hkey]
    dsimp only
    rw [putMember_of_notMem hnew, ih hkeys hput, hnamed, append_assoc]
    rfl

theorem keyed_of_mem {e : Tree × α} (he : e ∈ entries) (hkey : e.1.stringKey? = none) :
    keyed entries ms = .error .keyNotString := by
  induction entries generalizing ms with
  | nil => cases he
  | cons d entries ih =>
    rw [keyed]
    split
    · rename_i key hd
      rcases mem_cons.1 he with rfl | he
      · rw [hkey] at hd
        cases hd
      · exact ih he
    · rfl

theorem lookup_of_mem (hdistinct : (ms.map (·.1)).Nodup) {key : String} {value : α}
    (h : (key, value) ∈ ms) : ms.lookup key = some value := by
  induction ms with
  | nil => cases h
  | cons m ms ih =>
    rw [map_cons, nodup_cons] at hdistinct
    rcases mem_cons.1 h with rfl | h
    · exact lookup_cons_self
    · have hne : (key == m.1) = false :=
        beq_false_of_ne fun heq => hdistinct.1 (heq ▸ mem_map_of_mem h)
      rw [lookup_cons, hne]
      exact ih hdistinct.2 h

theorem lookup_eq_of_perm (h : ms.Perm ms') (hdistinct : (ms.map (·.1)).Nodup) (key : String) :
    ms.lookup key = ms'.lookup key := by
  have hdistinct' : (ms'.map (·.1)).Nodup := (h.map _).nodup_iff.1 hdistinct
  cases hms : ms.lookup key with
  | some value => exact (lookup_of_mem hdistinct' (h.mem_iff.1 (mem_of_lookup hms))).symm
  | none =>
    cases hms' : ms'.lookup key with
    | none => rfl
    | some value =>
      rw [lookup_of_mem hdistinct (h.mem_iff.2 (mem_of_lookup hms'))] at hms
      cases hms

theorem members_of_distinct (hne : entries.isEmpty = false)
    (hkeys : ∀ e ∈ entries, e.1.stringKey?.isSome) (hdistinct : DistinctKeys entries)
    (required allowed : List String) : ∃ reason, members required allowed entries =
      if (required.filter (!((named entries).map (·.1)).contains ·)).isEmpty &&
          (((named entries).map (·.1)).filter fun key =>
            !required.contains key && !allowed.contains key).isEmpty then .ok (named entries)
      else .error reason := by
  have hkeyed : keyed entries [] = .ok (named entries) := keyed_of_distinct hkeys hdistinct
  unfold members
  rw [hne, hkeyed]
  exact ⟨_, rfl⟩

/-- Entries in another order are collected into members that are found alike, or refused both. -/
theorem members_of_perm (h : entries.Perm entries') (hdistinct : DistinctKeys entries)
    (required allowed : List String) :
    (∃ ms ms', members required allowed entries = .ok ms ∧ members required allowed entries' = .ok ms' ∧
      ∀ key, ms.lookup key = ms'.lookup key) ∨
    ∃ reason reason', members required allowed entries = .error reason ∧
      members required allowed entries' = .error reason' := by
  have hempty := h.isEmpty_eq
  cases hentries : entries.isEmpty with
  | true =>
    rw [hentries] at hempty
    refine .inr ⟨.emptyDocument, .emptyDocument, ?_, ?_⟩
    · rw [members, hentries]
      rfl
    · rw [members, ← hempty]
      rfl
  | false =>
    rw [hentries] at hempty
    by_cases hkeys : ∀ e ∈ entries, e.1.stringKey?.isSome
    · have hkeys' : ∀ e ∈ entries', e.1.stringKey?.isSome := fun e he => hkeys e (h.mem_iff.2 he)
      have hdistinct' : DistinctKeys entries' := (h.filterMap _).nodup_iff.1 hdistinct
      have hnamed : (named entries).Perm (named entries') := h.filterMap _
      have hkeysOf := hnamed.map (·.1)
      -- Which keys are missing does not depend on the order, nor whether any is unexpected.
      have hmissing : required.filter (!((named entries).map (·.1)).contains ·) =
          required.filter (!((named entries').map (·.1)).contains ·) := by
        refine filter_congr fun key _ => ?_
        rw [Bool.eq_iff_iff]
        simp only [Bool.not_eq_true', ← Bool.not_eq_true, contains_iff_mem, hkeysOf.mem_iff]
      have hunexpected := (hkeysOf.filter fun key =>
        !required.contains key && !allowed.contains key).isEmpty_eq
      obtain ⟨reason, hmembers⟩ := members_of_distinct hentries hkeys hdistinct required allowed
      obtain ⟨reason', hmembers'⟩ := members_of_distinct hempty.symm hkeys' hdistinct' required allowed
      rw [hmembers, hmembers', hmissing, hunexpected]
      split
      · exact .inl ⟨_, _, rfl, rfl, lookup_eq_of_perm hnamed (map_named entries ▸ hdistinct)⟩
      · exact .inr ⟨_, _, rfl, rfl⟩
    · rw [not_forall] at hkeys
      obtain ⟨e, hkey⟩ := hkeys
      obtain ⟨he, hkey⟩ := Classical.not_imp.1 hkey
      have hnone : e.1.stringKey? = none := by simpa using hkey
      refine .inr ⟨.keyNotString, .keyNotString, ?_, ?_⟩
      · rw [members, hentries, keyed_of_mem he hnone]
        rfl
      · rw [members, ← hempty, keyed_of_mem (h.mem_iff.1 he) hnone]
        rfl

theorem outcome_of_members (h : entries.Perm entries') (hdistinct : DistinctKeys entries)
    (required allowed : List String) (f : List (String × α) → Build β)
    (hf : ∀ ms ms', (∀ key, ms.lookup key = ms'.lookup key) → f ms = f ms') :
    (ofRefusal (members required allowed entries) >>= f).outcome =
      (ofRefusal (members required allowed entries') >>= f).outcome := by
  rcases members_of_perm h hdistinct required allowed with
    ⟨ms, ms', hms, hms', hlookup⟩ | ⟨reason, reason', hms, hms'⟩
  · rw [hms, hms']
    change (pure ms >>= f).outcome = (pure ms' >>= f).outcome
    rw [pure_bind, pure_bind, hf ms ms' hlookup]
  · rw [hms, hms']
    rfl

theorem member_congr {key : String} (h : ms.lookup key = ms'.lookup key) :
    member key ms = member key ms' := by
  unfold member
  rw [h]

end Builder

/-! ## Documents in another order -/

/-- The tree of a document with its entries in another order, below the same nodes that pass through. -/
inductive Tree.Reorders : Tree → Tree → Prop
  | document {id id' listing listing' : Nat} {rule rule' : Rule} {span span' area area' : Span}
      {entries entries' rest rest' : List Tree} (h : entries.Perm entries') :
      Reorders (.node id .objectLiteral span (.node listing rule area entries :: rest))
        (.node id' .objectLiteral span' (.node listing' rule' area' entries' :: rest'))
  | wrapper {id id' : Nat} {rule : Rule} {span span' : Span} {c c' : Tree}
      (hrule : rule.isCategory = false) (h : Reorders c c') :
      Reorders (.node id rule span [c]) (.node id' rule span' [c'])

namespace Shape

theorem entries_under_of_reorders {t t' : Tree} (h : t.Reorders t') (top top' : Tree) :
    (under top t).entries.Perm (under top' t').entries := by
  induction h with
  | document h =>
    rw [entries_under_document, entries_under_document, h.all_eq]
    split
    · rw [entriesOf_eq_filterMap, entriesOf_eq_filterMap]
      exact h.filterMap entry?
    · exact .nil
  | @wrapper _ _ rule _ _ _ _ hrule _ ih =>
    have harray : rule ≠ .arrayLiteral := by
      rintro rfl
      cases hrule
    have hobject : rule ≠ .objectLiteral := by
      rintro rfl
      cases hrule
    rw [under_singleton harray hobject, under_singleton harray hobject, hrule]
    exact ih

theorem exists_reversed {t : Tree} (hobject : t.isOf .objectLiteral)
    (hentries : (ofTree t).entries.isEmpty = false) :
    ∃ t', t.Reorders t' ∧ (ofTree t').entries = (ofTree t).entries.reverse := by
  match t with
  | .leaf _ _ => cases hobject
  | .node id rule span cs =>
    obtain rfl : rule = .objectLiteral := by simpa [Tree.isOf, Tree.rule?] using hobject
    match cs with
    | [] => cases hentries
    | [.leaf _ _] => cases hentries
    | .leaf _ _ :: _ :: _ => cases hentries
    | .node listing rule area entries :: rest =>
      refine ⟨.node id .objectLiteral span (.node listing rule area entries.reverse :: rest),
        .document (reverse_perm entries).symm, ?_⟩
      unfold ofTree
      rw [entries_under_document, entries_under_document, all_reverse, entriesOf_eq_filterMap,
        entriesOf_eq_filterMap, filterMap_reverse]
      split <;> rfl

end Shape

namespace Builder

open Shape (DistinctKeys)

variable (b : Builder) {s s' : Shape} (h : s.entries.Perm s'.entries) (hdistinct : DistinctKeys s.entries)

theorem simpleStage_lookup (s : Shape) : b.simpleStage "$lookup" s = (do
    let members ← ofRefusal (members lookupFields [] s.entries)
    lookupFields.mapM fun name => do b.string (← member name members).tree) := rfl

theorem stage_lookup (s : Shape) :
    b.stage "$lookup" s = b.simpleStage "$lookup" s >>= b.call .aggregates "$lookup" := by
  cases s <;> rfl

theorem operatorClause_near {op : String} (hop : op ∈ ["$near", "$nearSphere"]) (field : Call)
    (siblings : Siblings) (s : Shape) : b.operatorClause field siblings op s = b.near op field s := by
  rw [operatorClause_eq]
  rcases mem_pair.1 hop with rfl | rfl <;> rfl

include h hdistinct

theorem outcome_lookup : (b.simpleStage "$lookup" s).outcome = (b.simpleStage "$lookup" s').outcome := by
  rw [simpleStage_lookup, simpleStage_lookup]
  refine outcome_of_members h hdistinct _ _ _ fun ms ms' hlookup => ?_
  congr 1
  funext name
  rw [member_congr (hlookup name)]

theorem outcome_near (op : String) (field : Call) :
    (b.near op field s).outcome = (b.near op field s').outcome := by
  unfold near
  refine outcome_of_members h hdistinct _ _ _ fun ms ms' hlookup => ?_
  rw [member_congr (hlookup "$geometry")]
  simp only [hlookup]

theorem outcome_geometry : (b.geometry s).outcome = (b.geometry s').outcome := by
  have hperm : (b.collections s.entries).Perm (b.collections s'.entries) := by
    rw [collections_eq_map, collections_eq_map]
    exact h.map _
  have hkeys : DistinctKeys (b.collections s.entries) := by
    rw [DistinctKeys, collections_eq_map, filterMap_map]
    exact hdistinct
  rw [geometry_eq_members, geometry_eq_members]
  refine outcome_of_members hperm hkeys _ _ _ fun ms ms' hlookup => ?_
  unfold geometryOf
  rw [member_congr (hlookup "type")]
  simp only [hlookup]

end Builder

/-! ## Options among operators -/

namespace Shape

variable {α : Type}

/-- The entries of a document other than options. -/
def withoutOptions (entries : List (Tree × α)) : List (Tree × α) :=
  entries.filter (·.1.stringKey? ≠ some "$options")

end Shape

namespace Builder

open Shape (DistinctKeys named map_named withoutOptions operatorsOf?_eq_some_iff)

/-- Operators with distinct keys know the same of each other in any order. -/
theorem Siblings.of_perm {operators operators' : List (String × Shape)} (h : operators.Perm operators')
    (hdistinct : (operators.map (·.1)).Nodup) : Siblings.of operators = Siblings.of operators' := by
  have hreverse : operators.reverse.Perm operators'.reverse :=
    (reverse_perm _).trans (h.trans (reverse_perm _).symm)
  have hkeys : (operators.reverse.map (·.1)).Nodup := by
    rwa [map_reverse, nodup_reverse]
  unfold Siblings.of
  rw [lookup_eq_of_perm hreverse hkeys, h.any_eq]

variable (b : Builder)

/-- The loop over operators with a regular expression among them passes options by. -/
theorem operatorClauses_filter (field : Call) {siblings : Siblings} (hregex : siblings.hasRegex)
    (entries : List (Tree × Shape)) : b.operatorClauses field siblings entries =
      b.operatorClauses field siblings (withoutOptions entries) := by
  induction entries with
  | nil => rfl
  | cons e entries ih =>
    unfold withoutOptions at ih ⊢
    by_cases hoptions : e.1.stringKey? = some "$options"
    · rw [filter_cons_of_neg (by simpa using hoptions), operatorClauses_cons, key, hoptions, ← ih]
      dsimp only
      rw [pure_bind, if_pos rfl, if_pos hregex]
    · rw [filter_cons_of_pos (by simpa using hoptions), operatorClauses_cons, operatorClauses_cons, ih]

theorem operatorClauses_of_perm {entries entries' : List (Tree × Shape)} (h : entries.Perm entries')
    (hdistinct : DistinctKeys entries) (hrest : withoutOptions entries = withoutOptions entries')
    {operators : List (String × Shape)} (hoperators : Shape.operatorsOf? entries = some operators)
    (hregex : ∃ e ∈ entries, e.1.stringKey? = some "$regex") : ∃ operators',
      Shape.operatorsOf? entries' = some operators' ∧ ∀ field,
        b.operatorClauses field (.of operators) entries = b.operatorClauses field (.of operators') entries' := by
  obtain ⟨rfl, hops⟩ := operatorsOf?_eq_some_iff.1 hoperators
  have hoperators' : Shape.operatorsOf? entries' = some (named entries') :=
    operatorsOf?_eq_some_iff.2 ⟨rfl, fun e he => hops e (h.mem_iff.2 he)⟩
  have hsiblings : Siblings.of (named entries) = Siblings.of (named entries') :=
    Siblings.of_perm (h.filterMap _) (map_named entries ▸ hdistinct)
  have hhas : (Siblings.of (named entries)).hasRegex := by
    obtain ⟨e, he, hkey⟩ := hregex
    have hmem : ("$regex", e.2) ∈ named entries :=
      mem_filterMap.2 ⟨e, he, by rw [hkey]; rfl⟩
    exact any_eq_true.2 ⟨_, hmem, rfl⟩
  refine ⟨_, hoperators', fun field => ?_⟩
  rw [← hsiblings, operatorClauses_filter b field hhas, operatorClauses_filter b field hhas entries', hrest]

/-- The clauses about a field with a regular expression do not depend on where its options stand. -/
theorem fieldClauses_of_moved_options {s s' : Shape} (h : s.entries.Perm s'.entries)
    (hdistinct : DistinctKeys s.entries) (hrest : withoutOptions s.entries = withoutOptions s'.entries)
    (hoperators : s.operators?.isSome)
    (hregex : ∃ e ∈ s.entries, e.1.stringKey? = some "$regex") (field : Call) :
    b.fieldClauses field s = b.fieldClauses field s' ∧ b.notClause field s = b.notClause field s' := by
  cases s with
  | array tree items => cases hoperators
  | scalar tree => cases hoperators
  | document tree entries =>
    obtain ⟨operators, hoperators⟩ := Option.isSome_iff_exists.1 hoperators
    obtain ⟨operators', hoperators', hclauses⟩ :=
      operatorClauses_of_perm b h hdistinct hrest hoperators hregex
    obtain ⟨e, he, -⟩ := hregex
    cases s' with
    | array tree' items => cases h.mem_iff.1 he
    | scalar tree' => cases h.mem_iff.1 he
    | document tree' entries' =>
      change Shape.operatorsOf? entries = _ at hoperators
      change Shape.operatorsOf? entries' = _ at hoperators'
      unfold fieldClauses notClause
      dsimp only
      rw [hoperators, hoperators']
      dsimp only
      exact ⟨hclauses field, congrArg (· >>= _) (hclauses field)⟩

theorem entryClauses_of_field {keyTree : Tree} {name : String} (hkey : keyTree.stringKey? = some name)
    (hname : Shape.isOperator name = false) (s : Shape) :
    b.entryClauses keyTree s = b.field keyTree >>= fun field => b.fieldClauses field s := by
  have hne : ∀ op, Shape.isOperator op → name ≠ op := by
    rintro op hop rfl
    rw [hop] at hname
    cases hname
  have hlogical : isLogical name = false := by
    simp [isLogical, hne "$and" rfl, hne "$or" rfl, hne "$nor" rfl]
  rw [entryClauses_eq, key, hkey]
  simp [hlogical, hname, hne "$expr" rfl, hne "$where" rfl, hne "$text" rfl]

end Builder

open Shape (ofTree DistinctKeys withoutOptions)

/-- **Where members are named, their order does not matter.** Take a document and the same entries in
any other order, with distinct keys. As a lookup, as the operand of nearness and as a geometry both have
the same outcome: both are refused, or both end in one fault, or both give one query and leave one journal,
with the uses noted in it. If the keys are operators with a regular expression among them, and only options
have moved, then the clauses about a field are built by the very same action. -/
theorem key_order_of_named_members (b : Builder) {t t' : Tree} (h : t.Reorders t')
    (hdistinct : DistinctKeys (ofTree t).entries) :
    (b.stage "$lookup" (ofTree t)).outcome = (b.stage "$lookup" (ofTree t')).outcome ∧
    (∀ op ∈ ["$near", "$nearSphere"], ∀ field siblings,
      (b.operatorClause field siblings op (ofTree t)).outcome =
        (b.operatorClause field siblings op (ofTree t')).outcome) ∧
    (b.geometry (ofTree t)).outcome = (b.geometry (ofTree t')).outcome ∧
    ((ofTree t).operators?.isSome = true → (∃ e ∈ (ofTree t).entries, e.1.stringKey? = some "$regex") →
      withoutOptions (ofTree t).entries = withoutOptions (ofTree t').entries →
      (∀ keyTree name, keyTree.stringKey? = some name → Shape.isOperator name = false →
        b.entryClauses keyTree (ofTree t) = b.entryClauses keyTree (ofTree t')) ∧
      ∀ field siblings, b.operatorClause field siblings "$not" (ofTree t) =
        b.operatorClause field siblings "$not" (ofTree t')) := by
  have hperm : (ofTree t).entries.Perm (ofTree t').entries := Shape.entries_under_of_reorders h t t'
  refine ⟨?_, ?_, b.outcome_geometry hperm hdistinct, ?_⟩
  · rw [b.stage_lookup, b.stage_lookup]
    exact Build.outcome_bind (b.outcome_lookup hperm hdistinct) _
  · intro op hop field siblings
    rw [b.operatorClause_near hop, b.operatorClause_near hop]
    exact b.outcome_near hperm hdistinct op field
  · intro hoperators hregex hrest
    have hmoved := b.fieldClauses_of_moved_options hperm hdistinct hrest hoperators hregex
    constructor
    · intro keyTree name hkey hname
      rw [b.entryClauses_of_field hkey hname, b.entryClauses_of_field hkey hname]
      congr 1
      funext field
      exact (hmoved field).1
    · intro field siblings
      rw [Builder.operatorClause_eq, Builder.operatorClause_eq, if_pos rfl, if_pos rfl]
      exact (hmoved field).2

/-- A lookup whose members stand in the order opposite to that of the arguments, and options before their
regular expression. The other way round they are written alike. -/
theorem key_order_of_reversed_members :
    let b : Builder := ⟨.within .java default 40, Java.helpers⟩
    let text (m : Build Call) : Option String := ((m.outcome {}).1.toOption.bind id).map (·.write .java)
    ∃ root ∈ (parse ("[\x7b'as': 'd', 'foreignField': 'c', 'localField': 'b', 'from': 'a'\x7d, " ++
        "\x7b'$options': 'i', '$regex': 'x'\x7d]")).toOption,
      (∃ t ∈ root.nodes, ∃ t', t.Reorders t' ∧ (ofTree t').entries = (ofTree t).entries.reverse ∧
        text (b.stage "$lookup" (ofTree t')) = some "lookup(\"a\", \"b\", \"c\", \"d\")") ∧
      ∃ t ∈ root.nodes, ∃ t', t.Reorders t' ∧ (ofTree t').entries = (ofTree t).entries.reverse ∧
        text (b.operatorClause (.text "f") (.of []) "$not" (ofTree t')) =
          some "not(regex(f, \"x\", \"i\"))" := by
  intro b text
  have hrun : ∃ root ∈ (parse ("[\x7b'as': 'd', 'foreignField': 'c', 'localField': 'b', 'from': 'a'\x7d, " ++
        "\x7b'$options': 'i', '$regex': 'x'\x7d]")).toOption,
      (∃ t ∈ root.nodes, t.isOf .objectLiteral = true ∧ (ofTree t).entries.isEmpty = false ∧
        DistinctKeys (ofTree t).entries ∧
        text (b.stage "$lookup" (ofTree t)) = some "lookup(\"a\", \"b\", \"c\", \"d\")") ∧
      ∃ t ∈ root.nodes, t.isOf .objectLiteral = true ∧ (ofTree t).entries.isEmpty = false ∧
        DistinctKeys (ofTree t).entries ∧ (ofTree t).operators?.isSome = true ∧
        (∃ e ∈ (ofTree t).entries, e.1.stringKey? = some "$regex") ∧
        (withoutOptions (ofTree t).entries).length = 1 ∧
        text (b.operatorClause (.text "f") (.of []) "$not" (ofTree t)) =
          some "not(regex(f, \"x\", \"i\"))" := by
    decide +kernel
  obtain ⟨root, hroot, ⟨t, ht, hobject, hentries, hdistinct, hlookup⟩,
    ⟨u, hu, huobject, huentries, hudistinct, hoperators, hregex, hone, hnot⟩⟩ := hrun
  refine ⟨root, hroot, ⟨t, ht, ?_⟩, u, hu, ?_⟩
  · obtain ⟨t', h, hreverse⟩ := Shape.exists_reversed hobject hentries
    refine ⟨t', h, hreverse, ?_⟩
    unfold text at hlookup ⊢
    rwa [← (key_order_of_named_members b h hdistinct).1]
  · obtain ⟨u', h, hreverse⟩ := Shape.exists_reversed huobject huentries
    refine ⟨u', h, hreverse, ?_⟩
    have hrest : withoutOptions (ofTree u).entries = withoutOptions (ofTree u').entries := by
      obtain ⟨e, he⟩ := List.length_eq_one_iff.1 hone
      have hfilter : withoutOptions (ofTree u').entries = (withoutOptions (ofTree u).entries).reverse := by
        rw [hreverse, withoutOptions, List.filter_reverse]
        rfl
      rw [hfilter, he]
      rfl
    rwa [← ((key_order_of_named_members b h hudistinct).2.2.2 hoperators hregex hrest).2]

end QueryScribe
