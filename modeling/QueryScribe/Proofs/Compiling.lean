import QueryScribe.Compile
import QueryScribe.Proofs.Writing.Visit
import QueryScribe.Target

/-!
# What a compile comes to

A compile reads its source and writes the tree, so how it ends follows from how writing a program ends
(`ends_render`). Three results come of this.

* No compile ends in an internal failure, in a type that is not known or in a conversion of what is no
  number. The only faults that are no failures of the source are numbers that are too large and
  integers with too many digits (`fault_of_compile`).
* Syntax that is not supported is found wherever it stands, unless a query looks through it at a key, a
  flag, a document or an array, or it stands in a value that a query passes over
  (`passed_over_of_refused`).
* What compiles plainly compiles as queries too, if the numbers that the queries convert can be
  converted (`isOk_compile_idiomatic`).

None of the conditions can be dropped: an integer may have more digits than there may be in a text, a
query drops the first of two entries with one key without looking at it, and it converts a number that
a plain document only copies.
-/

namespace QueryScribe

open Render (Ends exec)

/-! ## The steps of a compile -/

variable {target : Target}

variable {options : Options} {source : String} {root : Tree} {output : Output}

theorem compile_of_parse (hlength : options.exceeded source.length = none)
    (h : parse source = .ok root) :
    compile target options source =
      match exec (render target (options.source source) options.idiomatic root) {} with
      | (result, journal) => result.map fun code =>
          ⟨trimmed code, journal.notes.usage.render target.imports⟩ := by
  unfold compile compileWithLog
  rw [hlength]
  dsimp only
  rw [h]
  dsimp only
  -- The style that a compile starts in makes no difference to what is written in a style.
  have hstyle := (keepsTo_render target (options.source source) options.idiomatic root).style {}
    options.idiomatic
  have hrun : (render target (options.source source) options.idiomatic root).run
      { idiomatic := options.idiomatic } = _ := hstyle
  rw [hrun]
  rfl

/-- A compile with a result has read its source, whose tree was then written. -/
theorem exists_of_compile_eq_ok (h : compile target options source = .ok output) :
    options.exceeded source.length = none ∧ ∃ root, parse source = .ok root ∧
      ∃ code, (exec (render target (options.source source) options.idiomatic root) {}).1 = .ok code := by
  cases hlength : options.exceeded source.length with
  | some limit =>
    unfold compile compileWithLog at h
    rw [hlength] at h
    cases h
  | none =>
    cases hparse : parse source with
    | error fault =>
      unfold compile compileWithLog at h
      rw [hlength] at h
      dsimp only at h
      rw [hparse] at h
      cases h
    | ok root =>
      rw [compile_of_parse hlength hparse] at h
      refine ⟨rfl, root, rfl, ?_⟩
      rcases hexec : exec (render target (options.source source) options.idiomatic root) {} with
        ⟨fault | code, journal⟩
      · rw [hexec] at h
        cases h
      · exact ⟨code, rfl⟩

/-- The statements of a program that compiles can be written but for what queries leave out. -/
theorem writable_of_compile (hmarked : target.Marked) (h : compile target options source = .ok output)
    (hparse : parse source = .ok root) : ∀ s ∈ root.subtrees, Tree.Writable ⟨target, options.names⟩ root
      (Setting.Queries ⟨target, options.names⟩ options.idiomatic) s := by
  obtain ⟨-, root', hparse', code, hcode⟩ := exists_of_compile_eq_ok h
  obtain rfl : root' = root := Except.ok.inj (hparse'.symm.trans hparse)
  have hends := (ends_render hparse target (options.source source) options.idiomatic
    (E := fun _ => True) fun _ _ _ => trivial).ends
  rw [hcode] at hends
  exact hends hmarked

/-! ## Faults -/

/-- The known targets write all literals but octal ones that are no numbers or have too many digits. -/
theorem Target.fault_of_writeLiteral (htarget : target ∈ Target.all) {type : ValueType} {text : String}
    {fault : Fault} (h : target.writeLiteral type text = .error fault) :
    (∃ cause : Cause, fault = .ofCause cause ∧ cause.kind = .evaluation) ∨
      type = .octal ∧ fault = .conversion .tooManyDigits ∧
        ∃ n, Literal.number text .octal = .ok n ∧ n.IsLong := by
  rcases List.mem_cons.1 htarget with rfl | htarget
  · cases type with
    | octal =>
      have hfault : ((Literal.number text .octal).mapError Fault.ofCause >>= fun n =>
          n.write.mapError Fault.conversion) = .error fault := h
      cases hnumber : Literal.number text .octal with
      | error cause =>
        rw [hnumber] at hfault
        cases hfault
        exact .inl ⟨cause, rfl, Literal.kind_of_number hnumber⟩
      | ok n =>
        rw [hnumber] at hfault
        replace hfault : n.write.mapError Fault.conversion = .error fault := hfault
        cases hwrite : n.write with
        | error conversionFault =>
          rw [hwrite] at hfault
          cases hfault
          obtain ⟨rfl, hlong⟩ := Number.write_eq_error hwrite
          exact .inr ⟨rfl, rfl, n, rfl, hlong⟩
        | ok text' =>
          rw [hwrite] at hfault
          cases hfault
    | _ => cases h
  · obtain rfl := List.mem_singleton.1 htarget
    cases type <;> cases h

/-- However a compile for a known target ends, it does not end in an internal failure, in a type that is
not known or in a node of the wrong form, and not in a conversion but of two kinds. A number that is too
large comes from a float, or from an integer of at least `2^1023`; a number with too many digits is an
integer of more than 4300 digits, or stands in a string of which an integer is read. -/
theorem fault_of_compile {target : Target} (htarget : target ∈ Target.all) (options : Options)
    (source : String) {fault : Fault} (h : compile target options source = .error fault) :
    (∃ f, fault = .failure f ∧ f.kind ≠ .internal) ∨
      ∃ root, parse source = .ok root ∧ ∃ s ∈ root.nodes,
        fault = .conversion .overflow ∧ s.IsLarge ∨
          fault = .conversion .tooManyDigits ∧ s.IsLong options.names := by
  cases hlength : options.exceeded source.length with
  | some limit =>
    unfold compile compileWithLog at h
    rw [hlength] at h
    cases h
    exact .inl ⟨_, rfl, nofun⟩
  | none =>
    cases hparse : parse source with
    | error syntaxFault =>
      unfold compile compileWithLog at h
      rw [hlength] at h
      dsimp only at h
      rw [hparse] at h
      cases h
      refine .inl ⟨_, rfl, ?_⟩
      cases syntaxFault <;> nofun
    | ok root =>
      rw [compile_of_parse hlength hparse] at h
      have hends := (ends_render hparse target (options.source source) options.idiomatic
        (E := Expected ⟨target, options.names⟩ root) fun _ hfault _ => hfault).ends
      rcases hexec : exec (render target (options.source source) options.idiomatic root) {} with
        ⟨fault' | code, journal⟩
      · rw [hexec] at h hends
        cases h
        cases hends with
        | failure hkind => exact .inl ⟨_, rfl, hkind⟩
        | large hs hlarge => exact .inr ⟨root, rfl, _, hs, .inl ⟨rfl, hlarge⟩⟩
        | long hs hlong => exact .inr ⟨root, rfl, _, hs, .inr ⟨rfl, hlong⟩⟩
        | literal hwrite hoctal =>
          rcases Target.fault_of_writeLiteral htarget hwrite with
            ⟨cause, rfl, hkind⟩ | ⟨htype, rfl, n, hn, hlong⟩
          · exact .inl ⟨_, rfl, by rw [Failure.kind, hkind]; decide⟩
          · obtain ⟨s, hs, hof, htext⟩ := hoctal htype
            obtain ⟨token, htoken, rfl⟩ := Option.map_eq_some_iff.1 htext
            have hrule := beq_iff_eq.1 hof
            have hnumber : s.rule?.any Rule.isNumber := by rw [hrule]; rfl
            have hnatural : s.natural = .octal := by
              cases s with
              | leaf => cases hrule
              | node =>
                cases Option.some.inj hrule
                rfl
            refine .inr ⟨root, rfl, s, hs, .inr ⟨rfl, .inl ⟨n, ?_, hlong⟩⟩⟩
            rw [Tree.number?_of_literal hnumber htoken, hnatural, hn]
            rfl
      · rw [hexec] at h
        cases h

theorem compile_large_limit :
    (compile .java { idiomatic := false } "\x7b'$limit': 1e400\x7d").isOk ∧
      compile .java {} "\x7b'$limit': 1e400\x7d" = .error (.conversion .overflow) := by
  decide +kernel

/-- The fault of a limit that is too large comes from a large literal. -/
theorem fault_of_large_limit :
    compile .java {} "\x7b'$limit': 1e400\x7d" = .error (.conversion .overflow) ∧
      ∃ root, parse "\x7b'$limit': 1e400\x7d" = .ok root ∧ ∃ s ∈ root.nodes, s.IsLarge := by
  obtain ⟨-, h⟩ := compile_large_limit
  refine ⟨h, ?_⟩
  rcases fault_of_compile List.mem_cons_self {} "\x7b'$limit': 1e400\x7d" h with
    ⟨f, hf, -⟩ | ⟨root, hroot, s, hs, ⟨-, hlarge⟩ | ⟨hf, -⟩⟩
  · cases hf
  · exact ⟨root, hroot, s, hs, hlarge⟩
  · cases hf

/-! ## Syntax that is not supported -/

/-- Java writes operations with characters that no option of a regular expression has. -/
theorem Target.java_marked : Target.java.Marked where
  conjunction a b texts := ⟨' ', by simp [Target.java, String.intercalate_cons_cons], by decide⟩
  disjunction a b texts := ⟨' ', by simp [Target.java, String.intercalate_cons_cons], by decide⟩
  power a b := ⟨' ', by simp [Target.java], by decide⟩
  operate op a b := by
    unfold Target.operate
    split
    · exact ⟨' ', by simp [Target.java], by decide⟩
    · exact ⟨' ', by simp, by decide⟩
  endOfStatement := rfl
  flag _ := rfl

theorem Target.marked_of_mem (htarget : target ∈ Target.all) : target.Marked := by
  rcases List.mem_cons.1 htarget with rfl | htarget
  · exact Target.java_marked
  · obtain rfl := List.mem_singleton.1 htarget
    refine ⟨fun a b texts => ?_, fun a b texts => ?_, fun a b => ?_, fun op a b => ?_, rfl, fun _ => rfl⟩
    · exact ⟨' ', by simp [Target.python, String.intercalate_cons_cons], by decide⟩
    · exact ⟨' ', by simp [Target.python, String.intercalate_cons_cons], by decide⟩
    · exact ⟨' ', by simp [Target.python], by decide⟩
    · unfold Target.operate
      split
      · exact ⟨' ', by simp [Target.python], by decide⟩
      · exact ⟨' ', by simp, by decide⟩

/-- A node of a program that compiles is admitted, unless a query looks through it or passes over a
value that it stands in. -/
theorem admitted_or_of_compile (htarget : target ∈ Target.all)
    (h : compile target options source = .ok output) {s : Tree} (hparse : parse source = .ok root)
    (hs : s ∈ root.nodes) (hcontainer : s.isContainer = false) (hrule : s.rule? ≠ some .fileInput) :
    s.Admitted ⟨target, options.names⟩ ∨ (options.idiomatic ∧ target.helpers.isSome) ∧
      (Tree.LookedThrough root s ∨ ∃ c, Tree.PassedOver root c ∧ s ∈ c.nodes) := by
  have hwritable := writable_of_compile (Target.marked_of_mem htarget) h hparse
  have hprogram := rule?_of_parse hparse
  cases root with
  | leaf => cases hprogram
  | node id rule span cs =>
    rcases Tree.mem_nodes_node.1 hs with rfl | ⟨c, hc, hsc⟩
    · exact absurd hprogram hrule
    · have hnode : c.isNode := by
        cases c with
        | leaf => cases hsc
        | node => rfl
      exact (hwritable c (List.mem_filter.2 ⟨hc, hnode⟩)).admitted_or hsc hcontainer

/-- Syntax that is not supported but compiles stands in a document that the idiomatic style has made a
query. It has a single child, and the query looks through it for a key, a flag, a document or an array;
or it stands in a value that the query passes over, of an entry whose key comes again or of coordinates
beside geometries. -/
theorem passed_over_of_refused {target : Target} (htarget : target ∈ Target.all) {options : Options}
    {source : String} {output : Output} (h : compile target options source = .ok output)
    {root s : Tree} (hparse : parse source = .ok root) (hs : s ∈ root.nodes) (hrefused : s.isRefused) :
    (options.idiomatic ∧ target.helpers.isSome) ∧
      (Tree.LookedThrough root s ∨ ∃ c, Tree.PassedOver root c ∧ s ∈ c.nodes) := by
  refine (admitted_or_of_compile htarget h hparse hs (Tree.isContainer_of_isRefused hrefused)
    fun hrule => ?_).resolve_left fun hadmitted => ?_
  · rw [Tree.isRefused, hrule] at hrefused
    cases hrefused
  · rw [hadmitted.1] at hrefused
    cases hrefused

/-- A query passes over the first of two entries with one key, whatever its value is. -/
theorem compile_repeated_size :
    ∃ output ∈ (compile .java {} "\x7b'$sample': \x7b'size': lambda: 1, 'size': 5\x7d\x7d").toOption,
      output.code = "sample(5)" ∧
        ∃ root ∈ (parse "\x7b'$sample': \x7b'size': lambda: 1, 'size': 5\x7d\x7d").toOption,
          ∃ s ∈ root.nodes, s.isOf .lambdaDef ∧ s.isRefused := by
  decide +kernel

/-- Syntax that is not supported can compile. -/
theorem exists_refused_of_compile :
    ∃ source output root, compile .java {} source = .ok output ∧ parse source = .ok root ∧
      ∃ s ∈ root.nodes, s.isRefused := by
  obtain ⟨output, houtput, -, root, hroot, s, hs, -, hrefused⟩ := compile_repeated_size
  exact ⟨_, output, root, eq_ok_of_mem_toOption houtput, eq_ok_of_mem_toOption hroot, s, hs, hrefused⟩

/-- The function that a sample does not look at is passed over or looked through. -/
theorem passed_over_of_refused_size :
    ∃ root ∈ (parse "\x7b'$sample': \x7b'size': lambda: 1, 'size': 5\x7d\x7d").toOption,
      ∃ s ∈ root.nodes, s.isOf .lambdaDef ∧
        (Tree.LookedThrough root s ∨ ∃ c, Tree.PassedOver root c ∧ s ∈ c.nodes) := by
  obtain ⟨output, houtput, -, root, hroot, s, hs, hrule, hrefused⟩ := compile_repeated_size
  exact ⟨root, hroot, s, hs, hrule, (passed_over_of_refused List.mem_cons_self
    (eq_ok_of_mem_toOption houtput) (eq_ok_of_mem_toOption hroot) hs hrefused).2⟩

/-! ## The two styles -/

/-- What compiles plainly compiles in the idiomatic style too, if the numbers that its queries convert
can be converted to the types that they ask for. -/
theorem isOk_compile_idiomatic {source : String} {options : Options}
    (h : (compile .java { options with idiomatic := false } source).isOk)
    (hconverts : ∀ root, parse source = .ok root → ∀ d ∈ root.nodes, d.isOf .objectLiteral →
      ∀ s, (Shape.ofTree d).Converts s → s.Convertible .java) :
    (compile .java { options with idiomatic := true } source).isOk := by
  cases hplain : compile .java { options with idiomatic := false } source with
  | error fault => rw [hplain] at h; cases h
  | ok output =>
    obtain ⟨hlength, root, hparse, -⟩ := exists_of_compile_eq_ok hplain
    have hwritable := writable_of_compile Target.java_marked hplain hparse
    have hready : ∀ s ∈ root.subtrees, Ready ⟨.java, options.names⟩ true s := fun s hs =>
      { marked := Target.java_marked
        writable := ((hwritable s hs).mono fun hqueries => nomatch hqueries.1).of_false
        converts := fun _ d hd => hconverts root hparse d (Tree.mem_nodes_of_mem_children
          (Tree.mem_children_of_mem_subtrees hs) hd) }
    obtain ⟨code, journal, hexec, -⟩ := (ends_render hparse .java (options.source source) true
      (E := fun _ => False) fun _ _ hno => hno hready).exists_ok
    have hlength' : Options.exceeded { options with idiomatic := true } source.length = none := hlength
    rw [compile_of_parse hlength' hparse]
    change Except.isOk (match exec (render .java (options.source source) true root) {} with
      | (result, journal) => result.map fun code =>
          (⟨trimmed code, journal.notes.usage.render Target.java.imports⟩ : Output)) = true
    rw [hexec]
    rfl

/-- What compiles plainly need not compile in the idiomatic style. -/
theorem exists_isOk_compile_of_not_idiomatic :
    ∃ source, (compile .java { idiomatic := false } source).isOk ∧
      ¬ (compile .java { idiomatic := true } source).isOk := by
  obtain ⟨hplain, hidiomatic⟩ := compile_large_limit
  refine ⟨_, hplain, ?_⟩
  have hfault : compile .java { idiomatic := true } "\x7b'$limit': 1e400\x7d" =
    .error (.conversion .overflow) := hidiomatic
  rw [hfault]
  nofun

/-- A small limit can be converted. -/
theorem isOk_compile_small_limit :
    (compile .java { idiomatic := false } "\x7b'$limit': 5\x7d").isOk ∧
      (compile .java { idiomatic := true } "\x7b'$limit': 5\x7d").isOk := by
  have hplain : (compile .java { idiomatic := false } "\x7b'$limit': 5\x7d").isOk ∧
      ∃ root ∈ (parse "\x7b'$limit': 5\x7d").toOption, ∀ s ∈ root.nodes,
        (s.rule?.any Rule.isNumber → s.firstToken?.map (·.text) = some "5" ∧ s.natural = .long) ∧
          ∀ value ∈ s.number?, value.write.isOk := by
    decide +kernel
  obtain ⟨hok, root, hroot, hnumbers⟩ := hplain
  refine ⟨hok, @isOk_compile_idiomatic _ {} hok fun root' hroot' d hd hof s hs => ?_⟩
  obtain rfl : root = root' := Except.ok.inj ((eq_ok_of_mem_toOption hroot).symm.trans hroot')
  have hmem := hs.collects (Tree.formed_of_parse hroot') hd hof
  have hs := Tree.mem_nodes_trans hd hmem.mem_nodes.1
  refine ⟨fun u hu hnumber token htoken => ?_, (hnumbers s hs).2⟩
  obtain ⟨htext, hnatural⟩ := (hnumbers u (Tree.mem_nodes_trans hs
    (hu.mem_nodes (Tree.isNode_of_isVisited hmem.1)))).1 hnumber
  rw [htoken, Option.map_some, Option.some.injEq] at htext
  rw [htext, hnatural]
  refine ⟨.int 5, by decide +kernel, rfl, ?_⟩
  rintro type (rfl | rfl)
  · exact ⟨"5", by decide +kernel, rfl⟩
  · exact ⟨"5.0", by decide +kernel, rfl⟩

end QueryScribe
