import QueryScribe.Proofs.Filter.Equations
import QueryScribe.Proofs.Writable

/-!
# A query covers its document

A query that is built has written every node of its document, but for what it reads and what it
passes over. The proof goes down the document with the functions that build the query. It is about
any judgement `P` on actions and what holds if they give a result, and any property `W` of nodes that
the steps which write a node establish (`Builder.Covers`). Documents and arrays that the query looks
into have the property once it is known of what they hold.
-/

namespace QueryScribe.Builder

open List

open Shape (Below Reads Converts Drops last?)

/-- The steps of building, for the query of a document: what each has established if it gives a
result, and how the property of nodes is found for what a query only reads. -/
structure Covers (b : Builder) (top : Shape) (T W : Tree → Prop)
    (P : (α : Type) → Build α → Prop → Prop) : Prop where
  pure : ∀ {α : Type} {C : Prop} (a : α), C → P α (pure a) C
  bind : ∀ {α β : Type} {C D : Prop} {x : Build α} {f : α → Build β}, P α x C →
    (∀ a, C → P β (f a) D) → P β (x >>= f) D
  refuse : ∀ {α : Type} {C : Prop} (reason : Refusal), P α (refuse reason) C
  call : ∀ (family : Family) (key : String) (args : List Call), P Call (b.call family key args) True
  list : ∀ items : List Call, P Call (list items) True
  plain : ∀ {t : Tree}, T t → P Call (b.plain t) (W t)
  string : ∀ {t : Tree}, T t → P Call (b.string t) (W t)
  numeric : ∀ {type : ValueType} {t : Tree}, type = .integer ∨ type = .decimal → T t →
    top.Converts t → P Call (b.numeric type t) (W t)
  number : ∀ {β : Type} {D : Prop} {t : Tree} {f : Number → Build β}, T t → top.Converts t →
    (∀ n, t.number? = some n → W t → P β (f n) D) → P β (b.number t >>= f) D
  shown : ∀ {t : Tree} {n : Number}, T t → top.Converts t → t.number? = some n →
    P String (liftM (Render.ofConversion n.write : Render String)) True
  key : ∀ {t : Tree}, T t → top.Reads t → t.stringKey?.isSome → W t
  flag : ∀ {t : Tree}, T t → top.Reads t → t.core.isOf .booleanLiteral → W t
  entry : ∀ {context : String} {s : Shape} {e : Tree × Shape}, Below top context s →
    e ∈ s.entries → T e.1 ∧ T e.2.tree
  item : ∀ {context : String} {s i : Shape}, Below top context s → i ∈ s.items → T i.tree
  document : ∀ {context : String} {t : Tree} {entries : List (Tree × Shape)},
    Below top context (.document t entries) →
      (∀ e ∈ entries, W e.1 ∧ (W e.2.tree ∨ Drops context entries e)) → W t
  array : ∀ {context : String} {t : Tree} {items : List Shape}, Below top context (.array t items) →
    (∀ i ∈ items, W i.tree) → W t

namespace Covers

variable {b : Builder} {top : Shape} {T W : Tree → Prop} {P : (α : Type) → Build α → Prop → Prop}
  {α β : Type} {C D : Prop} {context : String} {s : Shape} {t : Tree}

section Steps

variable (hb : b.Covers top T W P)

include hb

theorem imp {x : Build α} (hx : P α x C) (h : C → D) : P α x D := by
  rw [← bind_pure x]
  exact hb.bind hx fun a hC => hb.pure a (h hC)

/-- What an action has established is kept by one that goes on with its result. -/
theorem seq {x : Build α} {f : α → Build β} (hx : P α x C) (hf : ∀ a, P β (f a) True) :
    P β (x >>= f) C :=
  hb.bind hx fun a hC => hb.imp (hf a) fun _ => hC

theorem done (a : α) : P α (Pure.pure a) True := hb.pure a trivial

theorem mapM {l : List α} {g : α → Build β} {R : α → Prop} (hg : ∀ a ∈ l, P β (g a) (R a)) :
    P _ (l.mapM g) (∀ a ∈ l, R a) := by
  induction l with
  | nil => exact hb.pure _ (forall_mem_nil R)
  | cons a l ih =>
    rw [mapM_cons]
    refine hb.bind (hg a (.head _)) fun _ ha => ?_
    exact hb.bind (ih fun a h => hg a (.tail _ h)) fun _ hl => hb.pure _ (forall_mem_cons.2 ⟨ha, hl⟩)

theorem withKey {f : String → Build β} (hf : ∀ key, t.stringKey? = some key → P β (f key) C) :
    P β (Builder.key t >>= f) C := by
  unfold Builder.key
  split
  · rename_i key hkey
    exact hf key hkey
  · exact hb.refuse _

theorem field (ht : T t) : P Call (b.field t) (t.stringKey?.isSome ∧ W t) := by
  unfold Builder.field Builder.key
  split
  · rename_i hkey
    exact hb.imp (hb.plain ht) fun h => ⟨by rw [hkey]; rfl, h⟩
  · exact hb.refuse _

/-! ## Entries and items -/

/-- A key that a query knows is read. -/
theorem knownKey {e : Tree × Shape} {key : String} (hs : Below top context s) (he : e ∈ s.entries)
    (hkey : e.1.stringKey? = some key) (hname : Shape.isOperator key ∨ key ∈ memberNames context ∨
      key = "_id" ∧ context ∈ ["$group", "$project"]) : W e.1 :=
  hb.key (hb.entry hs he).1 (.key hs he hkey hname) (by rw [hkey]; rfl)

theorem items {f : List Shape → Build β} (hf : s.items ≠ [] → P β (f s.items) C) :
    P β (Builder.items s >>= f) C := by
  unfold Builder.items
  split
  · exact hb.refuse _
  · rename_i hne
    exact hf fun h => hne (isEmpty_iff.2 h)

theorem entries {f : List (Tree × Shape) → Build β} (hf : s.entries ≠ [] → P β (f s.entries) C) :
    P β (Builder.entries s >>= f) C := by
  unfold Builder.entries
  split
  · exact hb.refuse _
  · rename_i hne
    exact hf fun h => hne (isEmpty_iff.2 h)

theorem tree_of_entries (hs : Below top context s) (hne : s.entries ≠ [])
    (h : ∀ e ∈ s.entries, W e.1 ∧ (W e.2.tree ∨ Drops context s.entries e)) : W s.tree := by
  cases s with
  | document t entries => exact hb.document hs h
  | array t items => exact absurd rfl hne
  | scalar t => exact absurd rfl hne

theorem tree_of_items (hs : Below top context s) (hne : s.items ≠ []) (h : ∀ i ∈ s.items, W i.tree) :
    W s.tree := by
  cases s with
  | array t items => exact hb.array hs h
  | document t entries => exact absurd rfl hne
  | scalar t => exact absurd rfl hne

theorem eachItem {g : Shape → Build α} {f : List α → Build β} (hs : Below top context s)
    (hg : ∀ i, Below top context i → i ∈ s.items → P α (g i) (W i.tree))
    (hf : ∀ l, P β (f l) True) : P β (Builder.items s >>= fun l => l.mapM g >>= f) (W s.tree) :=
  hb.items fun hne => hb.seq (hb.imp (hb.mapM fun i hi => hg i (hs.item hi) hi)
    (hb.tree_of_items hs hne)) hf

theorem twoItems {f : Shape × Shape → Build β} (hs : Below top context s)
    (hf : ∀ first second, first ∈ s.items → second ∈ s.items →
      (W first.tree → W second.tree → W s.tree) → P β (f (first, second)) C) :
    P β (Builder.twoItems s >>= f) C := by
  unfold Builder.twoItems
  split
  · rename_i first second heq
    refine hf first second (by simp [heq]) (by simp [heq]) fun h₁ h₂ => ?_
    exact hb.tree_of_items hs (by simp [heq]) (by simp [heq, h₁, h₂])
  · exact hb.refuse _

/-! ## Members -/

/-- A document has the property if the members that are read of it have it. Values are kept with
something else, which is forgotten. -/
theorem tree_of_members {g : Shape → α} {required allowed : List String} {ms : List (String × α)}
    (hs : Below top context s)
    (h : members required allowed (s.entries.map fun e => (e.1, g e.2)) = .ok ms)
    (hnames : ∀ name ∈ required ++ allowed, name ∈ memberNames context)
    (hmembers : ∀ name ∈ required ++ allowed, ∀ v, last? name s.entries = some v →
      ms.lookup name = some (g v) → W v.tree ∨
        name = "coordinates" ∧ (last? "geometries" s.entries).isSome) : W s.tree := by
  have hlast : ∀ name, last? name (s.entries.map fun e => (e.1, g e.2)) =
      (last? name s.entries).map g := fun name => by
    simp only [last?, ← map_reverse, find?_map, Option.map_map]
    rfl
  have hkeyed := keyed_of_members h
  obtain ⟨hne, hallowed⟩ := names_of_members h
  refine hb.tree_of_entries hs (fun heq => hne (by rw [heq]; rfl)) fun e he => ?_
  obtain ⟨name, hkey, hname⟩ := hallowed (e.1, g e.2) (mem_map_of_mem he)
  refine ⟨hb.knownKey hs he hkey (.inr (.inl (hnames name hname))), ?_⟩
  by_cases hv : last? name s.entries = some e.2
  · have hlookup : ms.lookup name = some (g e.2) := by
      rw [lookup_keyed name hkeyed, hlast, hv]
      rfl
    exact (hmembers name hname e.2 hv hlookup).imp_right fun h =>
      ⟨name, hkey, .inr ⟨h.1, hnames name hname, h.2⟩⟩
  · exact .inr ⟨name, hkey, .inl ⟨.inl (hnames name hname), hv⟩⟩

theorem members {required allowed : List String} {f : List (String × Shape) → Build β}
    (hs : Below top context s)
    (hnames : ∀ name ∈ required ++ allowed, name ∈ memberNames context)
    (hf : ∀ ms : List (String × Shape),
      (∀ m ∈ ms, ∃ key, key.stringKey? = some m.1 ∧ (key, m.2) ∈ s.entries) →
      ((∀ name ∈ required ++ allowed, ∀ v, ms.lookup name = some v → W v.tree) → W s.tree) →
      P β (f ms) C) :
    P β (ofRefusal (Builder.members required allowed s.entries) >>= f) C := by
  cases h : Builder.members required allowed s.entries with
  | error reason => exact hb.refuse _
  | ok ms =>
    refine hf ms ?_ fun hmembers => ?_
    · exact forall_keyed (fun e he key hkey => ⟨e.1, hkey, he⟩) (forall_mem_nil _) (keyed_of_members h)
    · refine hb.tree_of_members (g := id) hs (by simpa using h) hnames fun name hname v _ hv => ?_
      exact .inl (hmembers name hname v hv)

theorem member {ms : List (String × α)} {key : String} {f : α → Build β}
    (hf : ∀ v, ms.lookup key = some v → P β (f v) C) : P β (Builder.member key ms >>= f) C := by
  unfold Builder.member
  split
  · rename_i v hv
    exact hf v hv
  · exact hb.refuse _

/-! ## Geometry -/

theorem coordinates (hs : Below top context s) (hname : context ∈ coordinateNames) :
    P _ (b.coordinates s) (W s.tree) := by
  refine hb.items fun hne => ?_
  split
  · exact hb.refuse _
  · exact hb.imp (hb.mapM fun i hi => hb.numeric (.inr rfl) (hb.item hs hi)
      (.coordinate hs hi hname)) (hb.tree_of_items hs hne)

theorem position (hs : Below top context s) (hname : context ∈ coordinateNames) :
    P _ (b.position s) (W s.tree) :=
  hb.seq (hb.coordinates hs hname) fun _ => hb.call _ _ _

theorem positions (hs : Below top context s) (hname : context ∈ coordinateNames) :
    P _ (b.positions s) (W s.tree) :=
  hb.eachItem hs (fun _ hi _ => hb.position hi hname) fun _ => hb.list _

theorem rings (hs : Below top context s) (hname : context ∈ coordinateNames) :
    P _ (b.rings s) (W s.tree) :=
  hb.items fun hne => hb.imp (hb.mapM fun _ hi => hb.positions (hs.item hi) hname)
    (hb.tree_of_items hs hne)

theorem geometryArguments (hs : Below top context s) (hname : context ∈ coordinateNames)
    (kind : GeometryKind) : P _ (b.geometryArguments s kind) (W s.tree) := by
  cases kind with
  | point => exact hb.seq (hb.position hs hname) fun _ => hb.done _
  | multiPoint => exact hb.seq (hb.positions hs hname) fun _ => hb.done _
  | lineString => exact hb.seq (hb.positions hs hname) fun _ => hb.done _
  | multiLineString =>
    exact hb.eachItem hs (fun _ hi _ => hb.positions hi hname) fun _ =>
      hb.seq (hb.list _) fun _ => hb.done _
  | polygon => exact hb.rings hs hname
  | multiPolygon =>
    exact hb.eachItem hs (fun _ hi _ => hb.seq (hb.rings hi hname) fun _ => hb.call _ _ _) fun _ =>
      hb.seq (hb.list _) fun _ => hb.done _

theorem coordinateGeometry (kind : Option String) {coordinates : Option Shape}
    (hcoordinates : ∀ s ∈ coordinates, Below top "coordinates" s) :
    P _ (b.coordinateGeometry kind coordinates) (kind.isSome ∧ ∀ s ∈ coordinates, W s.tree) := by
  unfold Builder.coordinateGeometry
  split
  · rename_i name s hkind
    have hs := hcoordinates s rfl
    refine hb.seq (hb.imp (hb.geometryArguments hs (by decide) name) fun h => ?_) fun _ =>
      hb.call _ _ _
    refine ⟨?_, fun s' hs' => Option.mem_some_iff.1 hs' ▸ h⟩
    cases kind with
    | none => cases hkind
    | some kind => rfl
  · exact hb.refuse _

/-- A geometry covers its kind and its coordinates, or the geometries that it collects. -/
theorem geometryOf (ms : List (String × Shape × Build (List Call)))
    (hkind : ∀ v, ms.lookup "type" = some v → v.1.tree.stringKey?.isSome → W v.1.tree)
    (hcoordinates : ∀ v, ms.lookup "coordinates" = some v → Below top "coordinates" v.1)
    (hcollects : ∀ name v, ms.lookup name = some v → name ∈ ["coordinates", "geometries"] →
      P _ v.2 (W v.1.tree)) :
    P _ (b.geometryOf ms) (∀ name ∈ ["type", "coordinates", "geometries"], ∀ v,
      ms.lookup name = some v → W v.1.tree ∨
        name = "coordinates" ∧ (ms.lookup "geometries").isSome) := by
  refine hb.member fun kind htype => ?_
  replace hkind := hkind kind htype
  dsimp only
  have hcovers : W kind.1.tree → (∀ name ∈ ["coordinates", "geometries"], ∀ v,
      ms.lookup name = some v → W v.1.tree ∨
        name = "coordinates" ∧ (ms.lookup "geometries").isSome) →
      ∀ name ∈ ["type", "coordinates", "geometries"], ∀ v, ms.lookup name = some v →
        W v.1.tree ∨ name = "coordinates" ∧ (ms.lookup "geometries").isSome := by
    intro h hrest name hname v hv
    rcases mem_cons.1 hname with rfl | hname
    · rw [htype] at hv
      exact .inl (Option.some.inj hv ▸ h)
    · exact hrest name hname v hv
  split
  · rename_i hname
    replace hkind := hkind (by rw [hname]; rfl)
    split
    · rename_i shape collect hfound
      have hcollect : P _ collect (∀ name ∈ ["coordinates", "geometries"], ∀ v,
          ms.lookup name = some v → W v.1.tree ∨
            name = "coordinates" ∧ (ms.lookup "geometries").isSome) := by
        cases hgeometries : ms.lookup "geometries" with
        | some g =>
          rw [hgeometries] at hfound
          cases hfound
          refine hb.imp (hcollects "geometries" _ hgeometries (by decide)) fun h name hname v hv => ?_
          rcases mem_pair.1 hname with rfl | rfl
          · exact .inr ⟨rfl, rfl⟩
          · rw [hgeometries] at hv
            exact .inl (Option.some.inj hv ▸ h)
        | none =>
          rw [hgeometries] at hfound
          refine hb.imp (hcollects "coordinates" _ hfound (by decide)) fun h name hname v hv => ?_
          rcases mem_pair.1 hname with rfl | rfl
          · rw [show ms.lookup "coordinates" = _ from hfound] at hv
            exact .inl (Option.some.inj hv ▸ h)
          · rw [hgeometries] at hv
            cases hv
      exact hb.seq (hb.imp hcollect (hcovers hkind)) fun _ => hb.seq (hb.list _) fun _ =>
        hb.seq (hb.call _ _ _) fun _ => hb.done _
    · exact hb.refuse _
  · split
    · exact hb.refuse _
    · rename_i hno
      refine hb.seq (hb.imp (hb.coordinateGeometry _ ?_) fun ⟨hsome, h⟩ =>
        hcovers (hkind hsome) fun name hname v hv => .inl ?_) fun _ => hb.done _
      · intro s hs
        obtain ⟨v, hv, rfl⟩ := Option.map_eq_some_iff.1 hs
        exact hcoordinates v hv
      · rcases mem_pair.1 hname with rfl | rfl
        · exact h v.1 (Option.map_eq_some_iff.2 ⟨v, hv, rfl⟩)
        · rw [hv] at hno
          exact absurd rfl hno

theorem geometryMembers {context : String} (hs : Below top context s)
    (hname : context ∈ ["$geometry", "geometries", "coordinates"])
    (hcollected : ∀ e ∈ s.entries, ∀ key ∈ ["coordinates", "geometries"],
      e.1.stringKey? = some key → P _ (b.collected e.2) (W e.2.tree)) :
    P _ (b.geometry s) (W s.tree) := by
  have hmembers : memberNames context = ["type", "coordinates", "geometries"] := by
    simp only [mem_cons, not_mem_nil, or_false] at hname
    rcases hname with rfl | rfl | rfl <;> rfl
  rw [geometry_eq_members, collections_eq_map]
  cases h : Builder.members ["type"] ["coordinates", "geometries"]
      (s.entries.map fun e => (e.1, e.2, b.collected e.2)) with
  | error reason => exact hb.refuse _
  | ok ms =>
    have hfind : ∀ name v, ms.lookup name = some v → v.2 = b.collected v.1 ∧
        ∃ key, key.stringKey? = some name ∧ (key, v.1) ∈ s.entries := by
      intro name v hv
      rw [lookup_keyed name (keyed_of_members h), lookup_nil, Option.or_none] at hv
      obtain ⟨key, hkey, hmem⟩ := Shape.mem_of_last? hv
      obtain ⟨e, he, heq⟩ := mem_map.1 hmem
      cases heq
      exact ⟨rfl, e.1, hkey, he⟩
    have hgeometries : (ms.lookup "geometries").isSome →
        (last? "geometries" s.entries).isSome := by
      intro hsome
      obtain ⟨v, hv⟩ := Option.isSome_iff_exists.1 hsome
      obtain ⟨-, key, hkey, hmem⟩ := hfind _ v hv
      simp only [last?, Option.isSome_map, find?_isSome, mem_reverse]
      exact ⟨(key, v.1), hmem, beq_iff_eq.2 hkey⟩
    refine hb.imp (hb.geometryOf ms (fun v hv htext => ?_) (fun v hv => ?_)
      fun name v hv hname => ?_) fun hcovers => ?_
    · obtain ⟨-, key, hkey, hmem⟩ := hfind _ v hv
      exact hb.key (hb.entry hs hmem).2 (.text hs hmem hkey htext
        (.inr ⟨rfl, by rw [hmembers]; decide⟩)) htext
    · obtain ⟨-, key, hkey, hmem⟩ := hfind _ v hv
      exact hs.entry hmem hkey (.inl (by decide))
    · obtain ⟨heq, key, hkey, hmem⟩ := hfind _ v hv
      rw [heq]
      exact hcollected _ hmem name hname hkey
    · refine hb.tree_of_members (g := fun v => (v, b.collected v)) hs h
        (fun name hname => by rw [hmembers]; exact hname) fun name hname v _ hv => ?_
      exact (hcovers name hname _ hv).imp_right (And.imp_right hgeometries)

end Steps

mutual

theorem geometry (hb : b.Covers top T W P) : (s : Shape) → {context : String} → Below top context s →
    context ∈ ["$geometry", "geometries", "coordinates"] → P _ (b.geometry s) (W s.tree)
  | .document _ entries, _, hs, hname =>
    hb.geometryMembers hs hname fun e he _ hkey htext =>
      hb.collectedOf entries hs (fun _ he => he) e he hkey htext
  | .array _ _, _, _, _ => hb.refuse _
  | .scalar _, _, _, _ => hb.refuse _

theorem collectedOf (hb : b.Covers top T W P) : (es : List (Tree × Shape)) → {context : String} →
    {s : Shape} → Below top context s → (∀ e ∈ es, e ∈ s.entries) → ∀ e ∈ es, {key : String} →
      key ∈ ["coordinates", "geometries"] → e.1.stringKey? = some key →
        P _ (b.collected e.2) (W e.2.tree)
  | [], _, _, _, _ => fun _ he => nomatch he
  | (keyTree, value) :: rest, _, _, hs, hes => fun e he key hkey htext => by
    rcases mem_cons.1 he with rfl | he
    · have hopen : key ∈ openNames := by
        rcases mem_pair.1 hkey with rfl | rfl <;> decide
      refine hb.collected value (hs.entry (hes _ (.head _)) htext (.inl hopen)) ?_
      rcases mem_pair.1 hkey with rfl | rfl <;> decide
    · exact hb.collectedOf rest hs (fun e he => hes e (.tail _ he)) e he hkey htext

theorem collected (hb : b.Covers top T W P) : (s : Shape) → {context : String} → Below top context s →
    context ∈ ["$geometry", "geometries", "coordinates"] → P _ (b.collected s) (W s.tree)
  | .array _ (first :: rest), _, hs, hname =>
    hb.bind (hb.geometry first (hs.item (.head _)) hname) fun _ hfirst =>
      hb.seq (hb.imp (hb.geometries rest hs (fun _ hi => .tail _ hi) hname) fun hrest =>
        hb.array hs (forall_mem_cons.2 ⟨hfirst, hrest⟩)) fun _ => hb.done _
  | .array _ [], _, _, _ => hb.refuse _
  | .document _ _, _, _, _ => hb.refuse _
  | .scalar _, _, _, _ => hb.refuse _

theorem geometries (hb : b.Covers top T W P) : (l : List Shape) → {context : String} → {s : Shape} →
    Below top context s → (∀ i ∈ l, i ∈ s.items) →
      context ∈ ["$geometry", "geometries", "coordinates"] →
        P _ (b.geometries l) (∀ i ∈ l, W i.tree)
  | [], _, _, _, _, _ => hb.pure _ (forall_mem_nil _)
  | first :: rest, _, _, hs, hl, hname =>
    hb.bind (hb.geometry first (hs.item (hl _ (.head _))) hname) fun _ hfirst =>
      hb.seq (hb.imp (hb.geometries rest hs (fun i hi => hl i (.tail _ hi)) hname) fun hrest =>
        forall_mem_cons.2 ⟨hfirst, hrest⟩) fun _ => hb.done _

end

/-! ## Clauses -/

section Clauses

variable (hb : b.Covers top T W P) {field : Call} {siblings : Siblings}

include hb

theorem conjunction (clauses : List Call) : P _ (b.conjunction clauses) True := by
  unfold Builder.conjunction
  split
  · exact hb.done _
  · exact hb.call _ _ _

theorem textSearch (hs : Below top "$text" s) : P _ (b.textSearch s) (W s.tree) := by
  refine hb.members hs (by decide) fun ms hfind hcovers => hb.member fun v hv => ?_
  obtain ⟨key, -, hmem⟩ := hfind _ (mem_of_lookup hv)
  refine hb.imp (hb.plain (hb.entry hs hmem).2) fun h => hcovers fun name hname v' hv' => ?_
  rw [mem_singleton.1 hname, hv] at hv'
  exact Option.some.inj hv' ▸ h

theorem near {op : String} (hop : op ∈ ["$near", "$nearSphere"]) (hs : Below top op s) :
    P _ (b.near op field s) (W s.tree) := by
  have hmembers : memberNames op = "$geometry" :: nearOptions := by
    rcases mem_pair.1 hop with rfl | rfl <;> rfl
  refine hb.members hs (fun name hname => by rw [hmembers]; exact hname) fun ms hfind hcovers =>
    hb.member fun v hv => ?_
  obtain ⟨key, hkey, hmem⟩ := hfind _ (mem_of_lookup hv)
  have hbelow : Below top "$geometry" v := hs.entry hmem hkey (.inl (by decide))
  refine hb.bind (hb.geometry v hbelow (by decide)) fun ⟨kind, point⟩ hgeometry => ?_
  dsimp only
  split
  · exact hb.refuse _
  refine hb.seq (hb.imp (hb.mapM (R := fun name => ∀ v, ms.lookup name = some v → W v.tree)
    fun name hname => ?_) fun hdistances => hcovers fun name hname v' hv' => ?_) fun _ => hb.call _ _ _
  · cases hlookup : ms.lookup name with
    | none => exact hb.pure _ nofun
    | some distance =>
      obtain ⟨key, hkey, hmem⟩ := hfind _ (mem_of_lookup hlookup)
      have hconverts : top.Converts distance.tree := .value hs hmem hkey
        (.inr ⟨by rw [hmembers]; exact .tail _ hname, .tail _ (.tail _ hname)⟩)
      exact hb.imp (hb.numeric (.inr rfl) (hb.entry hs hmem).2 hconverts) fun h v hv =>
        Option.some.inj hv ▸ h
  · rcases mem_cons.1 hname with rfl | hname
    · rw [hv] at hv'
      exact Option.some.inj hv' ▸ hgeometry
    · exact hdistances name hname v' hv'

theorem planeShape (shape : String) (hs : shape ∈ coordinateNames → Below top shape s) :
    P _ (b.planeShape field shape s) (W s.tree) := by
  unfold Builder.planeShape
  split
  · rename_i hbox
    subst hbox
    have hs := hs (by decide)
    refine hb.twoItems hs fun lower upper hlower hupper htree => ?_
    refine hb.bind (hb.coordinates (hs.item hlower) (by decide)) fun _ h₁ => ?_
    exact hb.seq (hb.imp (hb.coordinates (hs.item hupper) (by decide)) (htree h₁)) fun _ =>
      hb.call _ _ _
  split
  · rename_i hpolygon
    subst hpolygon
    exact hb.eachItem (hs (by decide)) (fun _ hi _ => hb.seq (hb.coordinates hi (by decide)) fun _ =>
      hb.list _) fun _ => hb.seq (hb.list _) fun _ => hb.call _ _ _
  split
  · rename_i hcenter
    have hname : shape ∈ coordinateNames := by
      rcases (by simpa using hcenter : shape = "$center" ∨ shape = "$centerSphere") with rfl | rfl <;>
        decide
    have hs := hs hname
    refine hb.twoItems hs fun center radius hcenter hradius htree => ?_
    refine hb.bind (hb.coordinates (hs.item hcenter) hname) fun _ h₁ => ?_
    exact hb.seq (hb.imp (hb.numeric (.inr rfl) (hb.item hs hradius) (.coordinate hs hradius hname))
      (htree h₁)) fun _ => hb.call _ _ _
  · exact hb.refuse _

/-- A document that is one operator with its operand. -/
theorem tree_of_operator {op : String} {operand : Shape} (hs : Below top context s)
    (h : s.operators? = some [(op, operand)]) :
    ∃ e ∈ s.entries, e.1.stringKey? = some op ∧ e.2 = operand ∧ (W operand.tree → W s.tree) := by
  cases s with
  | document tree entries =>
    obtain ⟨hnamed, hops⟩ := Shape.operatorsOf?_eq_some_iff.1 h
    obtain _ | ⟨e, _ | ⟨e', rest⟩⟩ := entries
    · cases hnamed
    · obtain ⟨op', hop', hisop⟩ := (Option.any_eq_true _ _).1 (hops e (.head _))
      have hnamed' : [(op, operand)] = [(op', e.2)] := by
        rw [hnamed, Shape.named, filterMap_cons_some (by rw [hop']; rfl)]
        rfl
      cases hnamed'
      refine ⟨e, .head _, hop', rfl, fun h => hb.document hs fun e' he' => ?_⟩
      rw [mem_singleton.1 he']
      exact ⟨hb.knownKey hs (.head _) hop' (.inl hisop), .inl h⟩
    · obtain ⟨a, ha, -⟩ := (Option.any_eq_true _ _).1 (hops e (.head _))
      obtain ⟨a', ha', -⟩ := (Option.any_eq_true _ _).1 (hops e' (.tail _ (.head _)))
      rw [Shape.named, filterMap_cons_some (by rw [ha]; rfl),
        filterMap_cons_some (by rw [ha']; rfl)] at hnamed
      cases hnamed
  | array tree items => cases h
  | scalar tree => cases h

theorem geoClause {op : String} (hs : Below top op s) :
    P _ (b.geoClause op field s) (W s.tree) := by
  unfold Builder.geoClause
  split
  · rename_i shape value hoperators
    obtain ⟨e, he, hkey, rfl, htree⟩ := hb.tree_of_operator hs hoperators
    split
    · rename_i hgeometry
      subst hgeometry
      exact hb.seq (hb.imp (hb.geometry _ (hs.entry he hkey (.inl (by decide))) (by decide)) htree)
        fun _ => hb.call _ _ _
    split
    · exact hb.refuse _
    · exact hb.imp (hb.planeShape shape fun hname => hs.entry he hkey
        (.inl (mem_append_right _ hname))) htree
  · exact hb.refuse _

theorem regexClause {options : Option Tree} (hs : T s.tree) (hoptions : ∀ t ∈ options, T t) :
    P _ (b.regexClause field options s) (W s.tree ∧ ∀ t ∈ options, W t) := by
  refine hb.bind (hb.plain hs) fun _ h => ?_
  cases options with
  | none => exact hb.imp (hb.call _ _ _) fun _ => ⟨h, nofun⟩
  | some t =>
    refine hb.bind (hb.plain (hoptions t rfl)) fun _ ht => hb.imp (hb.call _ _ _) fun _ => ⟨h, ?_⟩
    exact fun t' ht' => Option.mem_some_iff.1 ht' ▸ ht

theorem modClause (hs : Below top "$mod" s) : P _ (b.modClause field s) (W s.tree) :=
  hb.twoItems hs fun _ _ hdivisor hremainder htree =>
    hb.bind (hb.plain (hb.item hs hdivisor)) fun _ h₁ =>
      hb.seq (hb.imp (hb.plain (hb.item hs hremainder)) (htree h₁)) fun _ => hb.call _ _ _

theorem plainClause (op : String) (hs : T s.tree) (hopen : op ∈ openNames → Below top op s)
    (hoptions : ∀ t ∈ siblings.options, T t) :
    P _ (b.plainClause field siblings op s)
      (W s.tree ∧ (op = "$regex" → ∀ t ∈ siblings.options, W t)) := by
  have hother : ∀ {x : Build Call}, op ≠ "$regex" → P _ x (W s.tree) →
      P _ x (W s.tree ∧ (op = "$regex" → ∀ t ∈ siblings.options, W t)) :=
    fun hne hx => hb.imp hx fun h => ⟨h, fun heq => absurd heq hne⟩
  unfold Builder.plainClause
  split
  · rename_i hop
    refine hother (fun heq => ?_) (hb.seq (hb.plain hs) fun _ => hb.call _ _ _)
    rw [heq] at hop
    exact absurd hop (by decide)
  split
  · exact hb.imp (hb.regexClause hs hoptions) fun h => ⟨h.1, fun _ => h.2⟩
  rename_i hne
  refine hother hne ?_
  split
  · rename_i hop
    subst hop
    exact hb.modClause (hopen (by decide))
  split
  · rename_i hop
    have hname : op ∈ openNames := by
      rcases (by simpa using hop : op = "$geoWithin" ∨ op = "$geoIntersects") with rfl | rfl <;> decide
    exact hb.geoClause (hopen hname)
  split
  · rename_i hop
    have hname : op ∈ ["$near", "$nearSphere"] := by simpa using hop
    exact hb.near hname (hopen (by rcases mem_pair.1 hname with rfl | rfl <;> decide))
  · exact hb.refuse _

/-- What the clauses of operators cover of an entry: its operand, or the options of all operators if it
is a regular expression. Options have one beside them. -/
def OperatorCovered (W : Tree → Prop) (siblings : Siblings) (e : Tree × Shape) : Prop :=
  ∃ op, e.1.stringKey? = some op ∧ (if op = "$options" then siblings.hasRegex = true else W e.2.tree) ∧
    (op = "$regex" → ∀ t ∈ siblings.options, W t)

theorem tree_of_operators {entries : List (Tree × Shape)} {operators : List (String × Shape)}
    (hs : Below top context (.document t entries)) (h : Shape.operatorsOf? entries = some operators)
    (hcovered : ∀ e ∈ entries, OperatorCovered W (.of operators) e) : W t := by
  obtain ⟨hnamed, hops⟩ := Shape.operatorsOf?_eq_some_iff.1 h
  refine hb.document hs fun e he => ?_
  obtain ⟨op, hop, hvalue, -⟩ := hcovered e he
  refine ⟨hb.knownKey hs he hop (.inl (by simpa [hop] using hops e he)), ?_⟩
  split at hvalue
  · rename_i hoptions
    subst hoptions
    by_cases hlast : last? "$options" entries = some e.2
    · obtain ⟨⟨name, value⟩, hmem, hregex⟩ := any_eq_true.1 hvalue
      obtain rfl : name = "$regex" := eq_of_beq hregex
      rw [hnamed] at hmem
      obtain ⟨e', he', hkey⟩ := mem_filterMap.1 hmem
      obtain ⟨name, hname, heq⟩ := Option.map_eq_some_iff.1 hkey
      cases heq
      obtain ⟨op, hop, -, hwritten⟩ := hcovered e' he'
      rw [hname] at hop
      cases hop
      exact .inl (hwritten rfl _ (by rw [Shape.options_of h, hlast]; rfl))
    · exact .inr ⟨_, hop, .inl ⟨.inr rfl, hlast⟩⟩
  · exact .inl hvalue

theorem options_of {entries : List (Tree × Shape)} {operators : List (String × Shape)}
    (hs : Below top context (.document t entries)) (h : Shape.operatorsOf? entries = some operators) :
    ∀ t ∈ (Siblings.of operators).options, T t := by
  intro t ht
  rw [Shape.options_of h] at ht
  obtain ⟨value, hvalue, rfl⟩ := Option.map_eq_some_iff.1 ht
  obtain ⟨key, -, hmem⟩ := Shape.mem_of_last? hvalue
  exact (hb.entry hs hmem).2

theorem oneClause {x : Build Call} (hx : P _ x C) (key : String) (args : Call → List Call) :
    P _ (x >>= fun c => b.call .filters key (args c) >>= fun clause => Pure.pure [clause]) C :=
  hb.seq hx fun _ => hb.seq (hb.call _ _ _) fun _ => hb.done _

theorem entryClauses_of {parent : Shape} {keyTree : Tree} (hp : Below top context parent)
    (he : (keyTree, s) ∈ parent.entries)
    (hlogical : ∀ key, Below top key s → P _ (b.logicalClauses key s) (W s.tree))
    (hfield : ∀ field key, keyTree.stringKey? = some key → P _ (b.fieldClauses field s) (W s.tree)) :
    P _ (b.entryClauses keyTree s) (W keyTree ∧ W s.tree) := by
  obtain ⟨hkeyTree, htree⟩ := hb.entry hp he
  rw [entryClauses_eq]
  refine hb.withKey fun key hkey => ?_
  have hknown : Shape.isOperator key → W keyTree := fun hop => hb.knownKey hp he hkey (.inl hop)
  split
  · rename_i hop
    have hop : key ∈ ["$and", "$or", "$nor"] := contains_iff_mem.1 hop
    have hall : ∀ key ∈ ["$and", "$or", "$nor"], Shape.isOperator key ∧ key ∈ openNames := by decide
    obtain ⟨hoperator, hopen⟩ := hall key hop
    exact hb.imp (hlogical key (hp.entry he hkey (.inl hopen))) fun h => ⟨hknown hoperator, h⟩
  split
  · rename_i hop
    have hoperator : Shape.isOperator key := by
      rcases (by simpa using hop : key = "$expr" ∨ key = "$where") with rfl | rfl <;> decide
    exact hb.oneClause (hb.imp (hb.plain htree) fun h => ⟨hknown hoperator, h⟩) _ _
  split
  · rename_i hop
    subst hop
    exact hb.oneClause (hb.imp (hb.textSearch (hp.entry he hkey (.inl (by decide)))) fun h =>
      ⟨hknown (by decide), h⟩) _ _
  split
  · exact hb.refuse _
  · exact hb.bind (hb.field hkeyTree) fun field h => hb.imp (hfield field key hkey) fun h' => ⟨h.2, h'⟩

theorem operatorClause_of {parent : Shape} {keyTree : Tree} {op : String}
    (hp : Below top context parent) (he : (keyTree, s) ∈ parent.entries)
    (hop : keyTree.stringKey? = some op) (hoptions : ∀ t ∈ siblings.options, T t)
    (hnot : Below top "$not" s → P _ (b.notClause field s) (W s.tree))
    (helement : Below top "$elemMatch" s → P _ (b.elementClause field s) (W s.tree)) :
    P _ (b.operatorClause field siblings op s)
      (W s.tree ∧ (op = "$regex" → ∀ t ∈ siblings.options, W t)) := by
  rw [operatorClause_eq]
  split
  · rename_i heq
    subst heq
    exact hb.imp (hnot (hp.entry he hop (.inl (by decide)))) fun h => ⟨h, fun h => absurd h (by decide)⟩
  split
  · rename_i heq
    subst heq
    exact hb.imp (helement (hp.entry he hop (.inl (by decide)))) fun h => ⟨h, fun h => absurd h (by decide)⟩
  · exact hb.plainClause op (hb.entry hp he).2 (fun hopen => hp.entry he hop (.inl hopen)) hoptions

theorem eqClause (ht : T t) : P _ (do return [← b.call .filters "eq" [field, ← b.plain t]] :
    Build (List Call)) (W t) :=
  hb.oneClause (hb.plain ht) _ fun c => [field, c]

end Clauses

/-! ## Filters -/

mutual

theorem filter (hb : b.Covers top T W P) : (s : Shape) → {context : String} → Below top context s →
    P _ (b.filter s) (W s.tree)
  | .document _ entries, _, hs => by
    refine hb.seq (hb.imp (hb.clauses entries hs fun _ he => he) fun h => ?_) hb.conjunction
    exact hb.document hs fun e he => ⟨(h e he).1, .inl (h e he).2⟩
  | .array _ _, _, _ => hb.refuse _
  | .scalar _, _, _ => hb.refuse _

theorem clauses (hb : b.Covers top T W P) : (es : List (Tree × Shape)) → {context : String} →
    {s : Shape} → Below top context s → (∀ e ∈ es, e ∈ s.entries) →
      P _ (b.clauses es) (∀ e ∈ es, W e.1 ∧ W e.2.tree)
  | [], _, _, _, _ => hb.pure _ (forall_mem_nil _)
  | (_, value) :: rest, _, _, hs, hes =>
    hb.bind (hb.entryClauses value hs (hes _ (.head _))) fun _ hfirst =>
      hb.seq (hb.imp (hb.clauses rest hs fun e he => hes e (.tail _ he)) fun hrest =>
        forall_mem_cons.2 ⟨hfirst, hrest⟩) fun _ => hb.done _

theorem entryClauses (hb : b.Covers top T W P) : (s : Shape) → {keyTree : Tree} → {context : String} →
    {parent : Shape} → Below top context parent → (keyTree, s) ∈ parent.entries →
      P _ (b.entryClauses keyTree s) (W keyTree ∧ W s.tree)
  | .document tree entries, _, _, _, hp, he => by
    refine hb.entryClauses_of hp he (fun _ _ => hb.refuse _) fun field key hkey => ?_
    dsimp only [fieldClauses]
    split
    · rename_i operators hoperators
      have hs := hp.entry he hkey
        (.inr (by rw [Shape.operators?, hoperators]; rfl))
      exact hb.imp (hb.operatorClauses entries _ hs (fun _ he => he) (hb.options_of hs hoperators))
        (hb.tree_of_operators hs hoperators)
    · exact hb.eqClause (hb.entry hp he).2
  | .array tree [], _, _, _, hp, he =>
    hb.entryClauses_of hp he (fun _ _ => hb.refuse _) fun _ _ _ => hb.eqClause (hb.entry hp he).2
  | .array tree (first :: rest), _, _, _, hp, he => by
    refine hb.entryClauses_of hp he (fun _ hs => ?_) fun _ _ _ => hb.eqClause (hb.entry hp he).2
    refine hb.bind (hb.filter first (hs.item (.head _))) fun _ hfirst => ?_
    exact hb.seq (hb.imp (hb.filters rest hs fun _ hi => .tail _ hi) fun hrest =>
      hb.array hs (forall_mem_cons.2 ⟨hfirst, hrest⟩)) fun _ =>
        hb.seq (hb.call _ _ _) fun _ => hb.done _
  | .scalar tree, _, _, _, hp, he =>
    hb.entryClauses_of hp he (fun _ _ => hb.refuse _) fun _ _ _ => hb.eqClause (hb.entry hp he).2

theorem filters (hb : b.Covers top T W P) : (l : List Shape) → {context : String} → {s : Shape} →
    Below top context s → (∀ i ∈ l, i ∈ s.items) → P _ (b.filters l) (∀ i ∈ l, W i.tree)
  | [], _, _, _, _ => hb.pure _ (forall_mem_nil _)
  | first :: rest, _, _, hs, hl =>
    hb.bind (hb.filter first (hs.item (hl _ (.head _)))) fun _ hfirst =>
      hb.seq (hb.imp (hb.filters rest hs fun i hi => hl i (.tail _ hi)) fun hrest =>
        forall_mem_cons.2 ⟨hfirst, hrest⟩) fun _ => hb.done _

theorem operatorClauses (hb : b.Covers top T W P) : (es : List (Tree × Shape)) → {context : String} →
    {s : Shape} → (field : Call) → {siblings : Siblings} → Below top context s →
      (∀ e ∈ es, e ∈ s.entries) → (∀ t ∈ siblings.options, T t) →
        P _ (b.operatorClauses field siblings es) (∀ e ∈ es, OperatorCovered W siblings e)
  | [], _, _, _, _, _, _, _ => hb.pure _ (forall_mem_nil _)
  | (keyTree, operand) :: rest, _, _, field, _, hs, hes, hoptions => by
    have hrest := hb.operatorClauses rest field hs (fun e he => hes e (.tail _ he)) hoptions
    rw [operatorClauses_cons]
    refine hb.withKey fun op hop => ?_
    split
    · rename_i heq
      split
      · rename_i hregex
        refine hb.imp hrest fun h => forall_mem_cons.2 ⟨⟨op, hop, ?_, ?_⟩, h⟩
        · rwa [if_pos heq]
        · rw [heq]
          exact fun h => absurd h (by decide)
      · exact hb.refuse _
    · rename_i hne
      refine hb.bind (hb.operatorClause operand hs (hes _ (.head _)) hop hoptions)
        fun _ ⟨h, hregex⟩ => hb.seq (hb.imp hrest fun h' => ?_) fun _ => hb.done _
      exact forall_mem_cons.2 ⟨⟨op, hop, by rwa [if_neg hne], hregex⟩, h'⟩

theorem operatorClause (hb : b.Covers top T W P) : (s : Shape) → {keyTree : Tree} → {op : String} →
    {context : String} → {parent : Shape} → {field : Call} → {siblings : Siblings} →
      Below top context parent → (keyTree, s) ∈ parent.entries → keyTree.stringKey? = some op →
        (∀ t ∈ siblings.options, T t) → P _ (b.operatorClause field siblings op s)
          (W s.tree ∧ (op = "$regex" → ∀ t ∈ siblings.options, W t))
  | .document _ entries, _, _, _, _, _, _, hp, he, hop, hoptions => by
    refine hb.operatorClause_of hp he hop hoptions (fun hs => ?_) fun hs => ?_
    · dsimp only [notClause]
      split
      · rename_i operators hoperators
        exact hb.seq (hb.imp (hb.operatorClauses entries _ hs (fun _ he => he)
          (hb.options_of hs hoperators)) (hb.tree_of_operators hs hoperators)) fun _ =>
            hb.seq (hb.conjunction _) fun _ => hb.call _ _ _
      · exact hb.refuse _
    · refine hb.seq (hb.imp (hb.clauses entries hs fun _ he => he) fun h => ?_) fun _ =>
        hb.seq (hb.conjunction _) fun _ => hb.call _ _ _
      exact hb.document hs fun e he => ⟨(h e he).1, .inl (h e he).2⟩
  | .array _ _, _, _, _, _, _, _, hp, he, hop, hoptions =>
    hb.operatorClause_of hp he hop hoptions (fun _ => hb.refuse _) fun _ => hb.refuse _
  | .scalar _, _, _, _, _, _, _, hp, he, hop, hoptions =>
    hb.operatorClause_of hp he hop hoptions (fun _ => hb.refuse _) fun _ => hb.refuse _

end

/-! ## Stages -/

section Stages

variable (hb : b.Covers top T W P)

include hb

/-- A field with an accumulator, which is a document of its own. -/
theorem accumulation {keyTree : Tree} {v operand : Shape} {op : String} (hs : Below top context s)
    (he : (keyTree, v) ∈ s.entries) (h : b.accumulator? v = some (op, operand)) :
    P _ (b.accumulation keyTree op operand) (W keyTree ∧ W v.tree) := by
  unfold Builder.accumulator? at h
  split at h
  · rename_i op' operand' hoperators
    split at h
    · cases h
      refine hb.bind (hb.field (hb.entry hs he).1) fun _ ⟨hsome, hkeyTree⟩ => ?_
      obtain ⟨key, hkey⟩ := Option.isSome_iff_exists.1 hsome
      have hbelow := hs.entry he hkey (.inr (by rw [hoperators]; rfl))
      obtain ⟨e', he', -, rfl, htree⟩ := hb.tree_of_operator hbelow hoperators
      exact hb.seq (hb.imp (hb.plain (hb.entry hbelow he').2) fun h => ⟨hkeyTree, htree h⟩) fun _ =>
        hb.call _ _ _
    · cases h
  · cases h

theorem graphOption {name : String} {key : Tree} (hs : Below top "$graphLookup" s)
    (hkey : key.stringKey? = some name) {v : Shape} (hv : (key, v) ∈ s.entries) :
    P _ (b.graphOption name v) (name ∈ graphOptions → W v.tree) := by
  obtain ⟨-, ht⟩ := hb.entry hs hv
  unfold Builder.graphOption
  split
  · rename_i hname
    refine hb.seq (hb.imp (hb.numeric (.inl rfl) ht (.value hs hv hkey ?_)) fun h _ => h) fun _ =>
      hb.done _
    rw [hname]
    exact .inr (by decide)
  split
  · exact hb.seq (hb.imp (hb.string ht) fun h _ => h) fun _ => hb.done _
  split
  · rename_i hname
    subst hname
    exact hb.seq (hb.imp (hb.filter v (hs.entry hv hkey (.inl (by decide)))) fun h _ => h) fun _ =>
      hb.done _
  · exact hb.pure _ fun h => by simp_all [graphOptions]

theorem graphLookup (hs : Below top "$graphLookup" s) : P _ (b.graphLookup s) (W s.tree) := by
  refine hb.members hs (by decide) fun ms hfind hcovers => ?_
  have hmember {name : String} {v : Shape} (hv : ms.lookup name = some v) : T v.tree := by
    obtain ⟨key, -, hmem⟩ := hfind _ (mem_of_lookup hv)
    exact (hb.entry hs hmem).2
  refine hb.member fun v₁ h₁ => hb.bind (hb.string (hmember h₁)) fun _ hw₁ => ?_
  refine hb.member fun v₂ h₂ => hb.bind (hb.plain (hmember h₂)) fun _ hw₂ => ?_
  refine hb.member fun v₃ h₃ => hb.bind (hb.string (hmember h₃)) fun _ hw₃ => ?_
  refine hb.member fun v₄ h₄ => hb.bind (hb.string (hmember h₄)) fun _ hw₄ => ?_
  refine hb.member fun v₅ h₅ => hb.bind (hb.string (hmember h₅)) fun _ hw₅ => ?_
  have hfields : ∀ name ∈ graphFields, ∀ v, ms.lookup name = some v → W v.tree := by
    simp only [graphFields, forall_mem_cons, h₁, h₂, h₃, h₄, h₅, Option.some.injEq]
    exact ⟨fun v hv => hv ▸ hw₁, fun v hv => hv ▸ hw₂, fun v hv => hv ▸ hw₃, fun v hv => hv ▸ hw₄,
      fun v hv => hv ▸ hw₅, forall_mem_nil _⟩
  refine hb.seq (hb.imp (hb.mapM (R := fun m => m.1 ∈ graphOptions → W m.2.tree) fun m hm => ?_)
    fun hoptions => hcovers fun name hname v hv => ?_) fun _ => ?_
  · obtain ⟨key, hkey, hmem⟩ := hfind m hm
    exact hb.graphOption hs hkey hmem
  · rcases mem_append.1 hname with hname | hname
    · exact hfields name hname v hv
    · exact hoptions _ (mem_of_lookup hv) hname
  · split
    · exact hb.done _
    · exact hb.seq (hb.call _ _ _) fun _ => hb.done _

theorem group (hs : Below top "$group" s) : P _ (b.group s) (W s.tree) := by
  refine hb.entries fun hne => ?_
  split
  · rename_i keyTree id rest heq
    split
    · exact hb.refuse _
    · rename_i hkey
      have hkey : keyTree.stringKey? = some "_id" := not_not.1 hkey
      have hid : (keyTree, id) ∈ s.entries := by rw [heq]; exact .head _
      refine hb.bind (hb.plain (hb.entry hs hid).2) fun _ hw => ?_
      refine hb.seq (hb.imp (hb.mapM (R := fun e => W e.1 ∧ W e.2.tree) fun e he => ?_) fun hrest =>
        hb.tree_of_entries hs hne fun e he => ?_) fun _ => hb.done _
      · dsimp only
        split
        · rename_i op operand haccumulator
          exact hb.accumulation hs (by rw [heq]; exact .tail _ he) haccumulator
        · exact hb.refuse _
      · rw [heq] at he
        rcases mem_cons.1 he with rfl | he
        · exact ⟨hb.knownKey hs hid hkey (.inr (.inr ⟨rfl, by decide⟩)), .inl hw⟩
        · exact ⟨(hrest e he).1, .inl (hrest e he).2⟩
  · exact hb.refuse _

theorem truth (ht : T t) (hflag : t.core.isOf .booleanLiteral → top.Reads t)
    (hconverts : top.Converts t) : P _ (b.truth t) (W t) := by
  unfold Builder.truth
  dsimp only
  split
  · rename_i hbool
    exact hb.pure _ (hb.flag ht (hflag hbool) hbool)
  · exact hb.number ht hconverts fun _ _ h => hb.pure _ h

theorem projectField (p : Projection) {e : Tree × Shape} (hs : Below top "$project" s)
    (he : e ∈ s.entries) : P _ (b.projectField p e.1 e.2) (W e.1 ∧ W e.2.tree) := by
  obtain ⟨hkeyTree, ht⟩ := hb.entry hs he
  refine hb.bind (hb.truth ht (.flag hs he) (.field hs he (by decide))) fun keep hw => ?_
  refine hb.withKey fun key hkey => ?_
  split
  · rename_i hid
    obtain ⟨rfl, -⟩ : key = "_id" ∧ keep = false := by simpa using hid
    exact hb.pure _ ⟨hb.knownKey hs he hkey (.inr (.inr ⟨rfl, by decide⟩)), hw⟩
  · refine hb.bind (hb.field hkeyTree) fun _ h => ?_
    split
    · exact hb.pure _ ⟨h.2, hw⟩
    · exact hb.pure _ ⟨h.2, hw⟩

theorem projectFields (p : Projection) {es : List (Tree × Shape)} (hs : Below top "$project" s)
    (hes : ∀ e ∈ es, e ∈ s.entries) :
    P _ (es.foldlM (fun p (keyTree, flag) => b.projectField p keyTree flag) p)
      (∀ e ∈ es, W e.1 ∧ W e.2.tree) := by
  induction es generalizing p with
  | nil => exact hb.pure _ (forall_mem_nil _)
  | cons e rest ih =>
    refine hb.bind (hb.projectField p hs (hes e (.head _))) fun p h => ?_
    exact hb.imp (ih p fun e he => hes e (.tail _ he)) fun hrest => forall_mem_cons.2 ⟨h, hrest⟩

theorem fieldsCall (name : String) (fields : List Call) : P _ (b.fieldsCall name fields) True := by
  unfold Builder.fieldsCall
  split
  · exact hb.done _
  · exact hb.seq (hb.call _ _ _) fun _ => hb.done _

theorem projection (hs : Below top "$project" s) : P _ (b.projection s) (W s.tree) := by
  refine hb.entries fun hne => hb.bind (hb.projectFields {} hs fun _ he => he) fun p h => ?_
  have htree := hb.tree_of_entries hs hne fun e he => ⟨(h e he).1, .inl (h e he).2⟩
  refine hb.imp ?_ fun _ : True => htree
  refine hb.seq (hb.fieldsCall _ _) fun _ => hb.seq (hb.fieldsCall _ _) fun _ => ?_
  dsimp only
  split
  · refine hb.seq (hb.call _ _ _) fun _ => hb.seq (hb.done _) fun _ => ?_
    split
    · exact hb.done _
    · exact hb.call _ _ _
  · refine hb.seq (hb.done _) fun _ => ?_
    split
    · exact hb.done _
    · exact hb.call _ _ _

theorem direction {e : Tree × Shape} (hs : Below top "$sort" s) (he : e ∈ s.entries)
    (hkey : e.1.stringKey?.isSome) : P _ (b.direction e.2) (W e.2.tree) := by
  obtain ⟨key, hkey⟩ := Option.isSome_iff_exists.1 hkey
  unfold Builder.direction
  split
  · rename_i op operand hoperators
    split
    · rename_i hmeta
      obtain ⟨rfl, htext⟩ : op = "$meta" ∧ operand.tree.stringKey? = some "textScore" := by
        simpa using hmeta
      have hbelow := hs.entry he hkey (.inr (by rw [hoperators]; rfl))
      obtain ⟨e', he', hkey', rfl, htree⟩ := hb.tree_of_operator hbelow hoperators
      have hsome : e'.2.tree.stringKey?.isSome := by rw [htext]; rfl
      exact hb.pure _ (htree (hb.key (hb.entry hbelow he').2 (.text hbelow he' hkey' hsome (.inl rfl))
        hsome))
    · exact hb.refuse _
  · exact hb.refuse _
  · have ht := (hb.entry hs he).2
    have hconverts : top.Converts e.2.tree := .field hs he (by decide)
    refine hb.number ht hconverts fun n hn h => ?_
    split
    · exact hb.pure _ h
    split
    · exact hb.pure _ h
    · exact hb.bind (hb.shown ht hconverts hn) fun _ _ => hb.refuse _

theorem sort (hs : Below top "$sort" s) : P _ (b.sort s) (W s.tree) := by
  refine hb.entries fun hne => hb.seq (hb.imp (hb.mapM (R := fun e => W e.1 ∧ W e.2.tree)
    fun e he => ?_) fun h => hb.tree_of_entries hs hne fun e he => ⟨(h e he).1, .inl (h e he).2⟩)
    fun orders => ?_
  · refine hb.bind (hb.field (hb.entry hs he).1) fun _ ⟨hsome, hw⟩ => ?_
    exact hb.seq (hb.imp (hb.direction hs he hsome) fun h => ⟨hw, h⟩) fun _ => hb.call _ _ _
  · split
    · exact hb.done _
    · exact hb.call _ _ _

/-- A stage that reads members of its operand and writes each. -/
theorem stageOfMembers {names : List String} {f : List (String × Shape) → Build β}
    (hs : Below top context s) (hnames : ∀ name ∈ names, name ∈ memberNames context)
    (hf : ∀ ms, (∀ name v, ms.lookup name = some v → T v.tree ∧
        ∃ key, key.stringKey? = some name ∧ (key, v) ∈ s.entries) →
      P _ (f ms) (∀ name ∈ names, ∀ v, ms.lookup name = some v → W v.tree)) :
    P _ (ofRefusal (Builder.members names [] s.entries) >>= f) (W s.tree) := by
  refine hb.members hs (by simpa using hnames) fun ms hfind hcovers => ?_
  rw [append_nil] at hcovers
  refine hb.imp (hf ms fun name v hv => ?_) hcovers
  obtain ⟨key, hkey, hmem⟩ := hfind _ (mem_of_lookup hv)
  exact ⟨(hb.entry hs hmem).2, key, hkey, hmem⟩

omit hb in
theorem ite {p : Prop} [Decidable p] {x y : Build α} (hx : p → P α x C) (hy : P α y C) :
    P α (if p then x else y) C := by
  split
  · rename_i h
    exact hx h
  · exact hy

/-- The arguments of a stage cover its operand, and the stage is an operator. -/
theorem simpleStage {stage : String} {keyTree : Tree} {v : Shape} (hs : Below top context s)
    (he : (keyTree, v) ∈ s.entries) (hkey : keyTree.stringKey? = some stage) :
    P _ (b.simpleStage stage v) (Shape.isOperator stage ∧ W v.tree) := by
  have ht := (hb.entry hs he).2
  have hopen : ∀ {name : String}, stage = name → name ∈ openNames → Below top name v :=
    fun heq h => heq ▸ hs.entry he hkey (.inl (heq ▸ h))
  have hone : ∀ {name : String} {x : Build Call}, Shape.isOperator name → stage = name →
      P _ x (W v.tree) →
      P (List Call) (do return [← x]) (Shape.isOperator stage ∧ W v.tree) :=
    fun hop heq hx => hb.seq (hb.imp hx fun h => ⟨heq ▸ hop, h⟩) fun _ => hb.done _
  have hall : ∀ {name : String} {x : Build (List Call)}, Shape.isOperator name → stage = name →
      P _ x (W v.tree) → P _ x (Shape.isOperator stage ∧ W v.tree) :=
    fun hop heq hx => hb.imp hx fun h => ⟨heq ▸ hop, h⟩
  unfold Builder.simpleStage
  refine ite (fun h => ?_) (ite (fun h => ?_) (ite (fun h => ?_) (ite (fun h => ?_) (ite (fun h => ?_)
    (ite (fun h => ?_) (ite (fun h => ?_) (ite (fun h => ?_) (ite (fun h => ?_) (ite (fun h => ?_)
      (hb.refuse _))))))))))
  · have hoperators : ∀ name ∈ ["$count", "$out", "$sortByCount", "$unwind"],
        Shape.isOperator name := by decide
    exact hone (hoperators stage (contains_iff_mem.1 h)) rfl (hb.string ht)
  · exact hone (by decide) h (hb.filter v (hopen h (by decide)))
  · have hname : stage ∈ ["$limit", "$skip"] := by simpa using h
    have hoperators : ∀ name ∈ ["$limit", "$skip"], Shape.isOperator name := by decide
    exact hone (hoperators stage hname) rfl (hb.numeric (.inl rfl) ht (.value hs he hkey (.inl hname)))
  · refine hall (by decide) h (hb.stageOfMembers (hopen h (by decide)) (by decide) fun ms hfind =>
      hb.member fun m hm => ?_)
    obtain ⟨ht, key, hkey, hmem⟩ := hfind _ m hm
    refine hb.seq (hb.imp (hb.numeric (.inl rfl) ht (.value (hopen h (by decide)) hmem hkey
      (.inr (by decide)))) fun h name hname m' hm' => ?_) fun _ => hb.done _
    rw [mem_singleton.1 hname, hm] at hm'
    exact Option.some.inj hm' ▸ h
  · refine hall (by decide) h (hb.stageOfMembers (hopen h (by decide)) (by decide) fun ms hfind =>
      hb.mapM fun name _ => hb.member fun m hm => ?_)
    refine hb.imp (hb.string (hfind _ m hm).1) fun h m' hm' => ?_
    rw [hm] at hm'
    exact Option.some.inj hm' ▸ h
  · exact hall (by decide) h (hb.graphLookup (hopen h (by decide)))
  · exact hall (by decide) h (hb.group (hopen h (by decide)))
  · exact hone (by decide) h (hb.projection (hopen h (by decide)))
  · exact hone (by decide) h (hb.sort (hopen h (by decide)))
  · refine hall (by decide) h (hb.stageOfMembers (hopen h (by decide)) (by decide) fun ms hfind =>
      hb.member fun m hm => ?_)
    refine hb.seq (hb.imp (hb.plain (hfind _ m hm).1) fun h name hname m' hm' => ?_) fun _ => hb.done _
    rw [mem_singleton.1 hname, hm] at hm'
    exact Option.some.inj hm' ▸ h

end Stages

mutual

theorem stage (hb : b.Covers top T W P) (name : String) : (s : Shape) →
    P _ (b.simpleStage name s) (Shape.isOperator name ∧ W s.tree) →
      (name = "$facet" → Below top "$facet" s) → P _ (b.stage name s) (Shape.isOperator name ∧ W s.tree)
  | .document tree entries, hsimple, hfacet => by
    change P _ (if name = "$facet" then b.facets entries >>= b.call .aggregates name
      else b.simpleStage name (.document tree entries) >>= b.call .aggregates name) _
    refine ite (fun hname => ?_) (hb.seq hsimple fun _ => hb.call _ _ _)
    have hs := hfacet hname
    refine hb.seq (hb.imp (hb.facets entries fun e he => ⟨(hb.entry hs he).1, hs.facet he⟩) fun h => ?_)
      fun _ => hb.call _ _ _
    exact ⟨hname ▸ by decide, hb.document hs fun e he => ⟨(h e he).1, .inl (h e he).2⟩⟩
  | .array _ _, hsimple, _ => ite (fun _ => hb.refuse _) (hb.seq hsimple fun _ => hb.call _ _ _)
  | .scalar _, hsimple, _ => ite (fun _ => hb.refuse _) (hb.seq hsimple fun _ => hb.call _ _ _)

theorem facets (hb : b.Covers top T W P) : (es : List (Tree × Shape)) →
    (∀ e ∈ es, T e.1 ∧ Below top "" e.2) → P _ (b.facets es) (∀ e ∈ es, W e.1 ∧ W e.2.tree)
  | [], _ => hb.pure _ (forall_mem_nil _)
  | (_, pipeline) :: rest, hes =>
    hb.bind (hb.facet pipeline (hes _ (.head _)).1 (hes _ (.head _)).2) fun _ hfirst =>
      hb.seq (hb.imp (hb.facets rest fun e he => hes e (.tail _ he)) fun hrest =>
        forall_mem_cons.2 ⟨hfirst, hrest⟩) fun _ => hb.done _

theorem facet (hb : b.Covers top T W P) {keyTree : Tree} : (s : Shape) → T keyTree → Below top "" s →
    P _ (b.facet keyTree s) (W keyTree ∧ W s.tree)
  | .array _ items, hkeyTree, hs =>
    hb.bind (hb.pipeline items fun _ hi => hs.item hi) fun _ hitems =>
      hb.seq (hb.imp (hb.field hkeyTree) fun h => ⟨h.2, hb.array hs hitems⟩)
        fun _ => hb.seq (hb.list _) fun _ => hb.call _ _ _
  | .document _ _, _, _ => hb.refuse _
  | .scalar _, _, _ => hb.refuse _

theorem pipeline (hb : b.Covers top T W P) : (l : List Shape) → (∀ i ∈ l, Below top "" i) →
    P _ (b.pipeline l) (∀ i ∈ l, W i.tree)
  | [], _ => hb.pure _ (forall_mem_nil _)
  | first :: rest, hl =>
    hb.bind (hb.stageDocument first (hl _ (.head _))) fun _ hfirst =>
      hb.seq (hb.imp (hb.pipeline rest fun i hi => hl i (.tail _ hi)) fun hrest =>
        forall_mem_cons.2 ⟨hfirst, hrest⟩) fun _ => hb.done _

theorem stageDocument (hb : b.Covers top T W P) : (s : Shape) → Below top "" s →
    P _ (b.stageDocument s) (W s.tree)
  | .document t [(keyTree, operand)], hs => by
    have he : (keyTree, operand) ∈ Shape.entries (.document t [(keyTree, operand)]) := .head _
    change P _ (match keyTree.stringKey? with
      | some key => if b.isStage key then b.stage key operand else Builder.refuse .pipelineStage
      | none => Builder.refuse .pipelineStage) _
    split
    · rename_i key hkey
      refine ite (fun _ => ?_) (hb.refuse _)
      refine hb.imp (hb.stage key operand (hb.simpleStage hs he hkey) fun hname => ?_) fun h =>
        hb.document hs ?_
      · exact hs.entry he (hname ▸ hkey) (.inl (by decide))
      · exact forall_mem_singleton.2 ⟨hb.knownKey hs he hkey (.inl h.1), .inl h.2⟩
    · exact hb.refuse _
  | .document _ [], _ => hb.refuse _
  | .document _ (_ :: _ :: _), _ => hb.refuse _
  | .array _ _, _ => hb.refuse _
  | .scalar _, _ => hb.refuse _

end

/-! ## Queries -/

/-- A query covers the document that it is built of. -/
theorem query {entries : List (Tree × Shape)} (hb : b.Covers (.document t entries) T W P) :
    P _ (b.query entries) (W t) := by
  have hs : Below (.document t entries) "" (.document t entries) := .top
  have hfilter : P _ (b.clauses entries >>= b.conjunction) (W t) := by
    refine hb.seq (hb.imp (hb.clauses entries hs fun _ he => he) fun h => ?_) hb.conjunction
    exact hb.document hs fun e he => ⟨(h e he).1, .inl (h e he).2⟩
  unfold Builder.query
  split
  · rename_i keyTree value
    have he : (keyTree, value) ∈ Shape.entries (.document t [(keyTree, value)]) := .head _
    unfold Builder.singleEntry
    dsimp only
    split
    · rename_i key hkey
      refine ite (fun _ => ?_) (ite (fun hname => ?_) ?_)
      · refine hb.imp (hb.stage key value (hb.simpleStage hs he hkey) fun hname => ?_) fun h =>
          hb.document hs ?_
        · exact hs.entry he (hname ▸ hkey) (.inl (by decide))
        · exact forall_mem_singleton.2 ⟨hb.knownKey hs he hkey (.inl h.1), .inl h.2⟩
      · subst hname
        have hvalue : Below _ "$geometry" value := hs.entry he hkey (.inl (by decide))
        refine hb.seq (hb.imp (hb.geometry value hvalue (by decide)) fun h => hb.document hs ?_)
          fun _ => hb.done _
        exact forall_mem_singleton.2 ⟨hb.knownKey hs he hkey (.inl (by decide)), .inl h⟩
      · split
        · rename_i op operand haccumulator
          refine hb.imp (hb.accumulation hs he haccumulator) fun h => hb.document hs ?_
          exact forall_mem_singleton.2 ⟨h.1, .inl h.2⟩
        · exact hfilter
    · exact hfilter
  · exact hfilter

end Covers

end QueryScribe.Builder
