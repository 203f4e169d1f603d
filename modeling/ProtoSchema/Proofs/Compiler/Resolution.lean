import ProtoSchema.Proofs.Compiler.Imports

/-!
Calls of a compiler. A call succeeds exactly if every root stands for a linked file, and then gives
these files. So the files given do not depend on which other roots a call has, and cycles are found
exactly where there are some.
-/

namespace ProtoSchema

open Relation List Sources

variable {path : String} {e : CompileError}

namespace Sources

theorem mem_sortedPaths {sources : Sources} :
    path ∈ sources.sortedPaths ↔ path ∈ sources.paths := by
  rw [sortedPaths, mem_mergeSort, mem_eraseDups]

theorem mem_paths_iff {sources : Sources} :
    path ∈ sources.paths ↔ ∃ text, sources.lookup path = some text := by
  constructor
  · intro h
    obtain ⟨entry, hentry, rfl⟩ := mem_map.mp h
    rw [← Option.isSome_iff_exists, Option.isSome_iff_ne_none]
    intro hnone
    simpa using lookup_eq_none_iff.mp hnone entry hentry
  · rintro ⟨text, ht⟩
    exact mem_paths_of_lookup ht

end Sources

private theorem lookup_filterMap_pair (paths : List String) (find : String → Option LinkedFile)
    (path : String) :
    (paths.filterMap fun x => (find x).map (x, ·)).lookup path =
      if path ∈ paths then find path else none := by
  induction paths with
  | nil => rfl
  | cons x paths ih =>
    rw [filterMap_cons]
    by_cases hx : path = x
    · subst hx
      cases hf : find path with
      | some l => simp
      | none => simp [ih, hf]
    · cases hf : find x with
      | some l => simp [lookup_cons, beq_false_of_ne hx, ih, hx]
      | none => simp [ih, hx]

namespace Compiler

variable {c : Compiler} {roots library : Sources}

theorem sound_new (c : Compiler) (source : String → Option String) :
    Progress.Sound source c { compiler := c } :=
  ⟨nofun, rfl, rfl, rfl⟩

theorem waiting_sortedPaths (roots library : Sources) :
    Waiting (text? roots library) roots [] roots.sortedPaths := by
  refine ⟨nodup_nil, fun path _ => isChain_singleton path, ?_⟩
  intro path hpath
  exact ⟨path, mem_sortedPaths.mp hpath, .refl⟩

theorem ended_link (c : Compiler) (roots library : Sources) :
    Ended (text? roots library) c roots roots.sortedPaths { compiler := c }
      ((Linking.linkAll roots library [] roots.sortedPaths).run { compiler := c }) :=
  ended_linkAll _ _ _ _ _ (sound_new c _) (waiting_sortedPaths roots library)

theorem exists_ended (c : Compiler) (roots library : Sources) : ∃ result p,
    (Linking.linkAll roots library [] roots.sortedPaths).run { compiler := c } = (result, p) ∧
      Ended (text? roots library) c roots roots.sortedPaths { compiler := c } (result, p) ∧
      (c.link roots library).result = result.map fun _ =>
        roots.sortedPaths.filterMap fun path => (p.linked.lookup path).map (path, ·) :=
  ⟨_, _, rfl, ended_link c roots library, rfl⟩

/-- A call fails only at something that keeps a root from standing for a file. -/
theorem not_explained {source : String → Option String}
    (h : ∀ path ∈ roots.paths, ∃ l, Links source c path l) : ¬Explained source c roots e := by
  have hall : ∀ path, Reachable source roots path → ∃ l, Links source c path l := by
    rintro path ⟨root, hroot, hpath⟩
    obtain ⟨l, hl⟩ := h root hroot
    exact hl.of_reachable hpath
  intro he
  cases he with
  | circular hr hcycle =>
    obtain ⟨l, hl⟩ := hall _ hr
    exact hl.not_cyclic hcycle.cyclic
  | unreadable hr ht he =>
    obtain ⟨l, hl⟩ := hall _ hr
    cases hl with
    | source hread =>
      obtain ⟨text, ht', hf⟩ := hread
      cases ht.symm.trans ht'
      cases he.symm.trans hf
    | known ht' => cases ht.symm.trans ht'
  | missing hr ht hw =>
    obtain ⟨l, hl⟩ := hall _ hr
    cases hl with
    | source hread => exact hread.source_ne_none ht
    | known _ hsome hk hl => cases (hw _ hk hsome).symm.trans hl
  | unbuilt hr ht he =>
    obtain ⟨l, hl⟩ := hall _ hr
    cases hl with
    | source hread => exact hread.source_ne_none ht
    | known _ _ hk => cases he.symm.trans hk
  | rejected hr hread himports he =>
    obtain ⟨l, hl⟩ := hall _ hr
    cases hl with
    | source hread' himports' hlink =>
      obtain ⟨rfl, rfl⟩ := hread.unique hread'
      rw [map_congr_left fun q hq => (himports q hq).unique (himports' q hq)] at he
      cases he.symm.trans hlink
    | known ht => exact hread.source_ne_none ht

theorem exists_link_eq_ok_iff :
    (∃ files, (c.link roots library).result = .ok files) ↔
      ∀ path ∈ roots.paths, ∃ l, Links (text? roots library) c path l := by
  obtain ⟨result, p, _, hended, hlink⟩ := exists_ended c roots library
  rw [hlink]
  cases result with
  | error e =>
    simp only [Except.map, reduceCtorEq, exists_false, false_iff]
    intro hall
    exact not_explained hall (hended.explained e rfl)
  | ok _ =>
    simp only [Except.map, Except.ok.injEq, exists_eq', true_iff]
    intro path hpath
    obtain ⟨l, hl⟩ := Option.isSome_iff_exists.mp
      (hended.linked rfl path (mem_sortedPaths.mpr hpath))
    exact ⟨l, hended.sound.linked path l hl⟩

/-- A call that succeeds gives for each root the file that it stands for. -/
theorem lookup_of_link_eq_ok {files : Library} (h : (c.link roots library).result = .ok files)
    (hpath : path ∈ roots.paths) :
    ∃ l, files.lookup path = some l ∧ Links (text? roots library) c path l := by
  obtain ⟨result, p, _, hended, hlink⟩ := exists_ended c roots library
  rw [hlink] at h
  cases result with
  | error e => cases h
  | ok _ =>
    have hsorted := mem_sortedPaths.mpr hpath
    obtain ⟨l, hl⟩ := Option.isSome_iff_exists.mp (hended.linked rfl path hsorted)
    obtain rfl := Except.ok.inj h
    rw [lookup_filterMap_pair, if_pos hsorted]
    exact ⟨l, hl, hended.sound.linked path l hl⟩

theorem error_of_link_eq_error (h : (c.link roots library).result = .error e) :
    Explained (text? roots library) c roots e := by
  obtain ⟨result, p, _, hended, hlink⟩ := exists_ended c roots library
  rw [hlink] at h
  cases result with
  | error e' =>
    obtain rfl := Except.error.inj h
    exact hended.explained e' rfl
  | ok _ => cases h

/-! ## One call or many -/

/-- A root on its own, with the other roots in the library, has the same sources. -/
theorem text?_single {text : String} (h : roots.lookup path = some text) :
    text? [(path, text)] (roots ++ library) = text? roots library := by
  funext q
  rw [text?, lookup_append_eq, text?, lookup_cons]
  by_cases hq : q = path
  · rw [hq, beq_self_eq_true, h]
    rfl
  · rw [beq_false_of_ne hq]
    rfl

/-- Linking all roots in one call gives what linking each of them on its own gives, with the other
roots in the library. -/
theorem link_batch_eq_each (c : Compiler) (roots library : Sources) :
    ((∃ files, (c.link roots library).result = .ok files) ↔
      ∀ path text, roots.lookup path = some text →
        ∃ files, (c.link [(path, text)] (roots ++ library)).result = .ok files) ∧
    ∀ files, (c.link roots library).result = .ok files →
      ∀ path text, roots.lookup path = some text →
        ∃ single l, (c.link [(path, text)] (roots ++ library)).result = .ok single ∧
          files.lookup path = some l ∧ single.lookup path = some l := by
  have heach : ∀ path text, roots.lookup path = some text →
      ((∃ files, (c.link [(path, text)] (roots ++ library)).result = .ok files) ↔
        ∃ l, Links (text? roots library) c path l) := by
    intro path text h
    rw [exists_link_eq_ok_iff, text?_single h]
    simp [paths]
  constructor
  · rw [exists_link_eq_ok_iff]
    constructor
    · intro hall path text h
      exact (heach path text h).mpr (hall path (mem_paths_of_lookup h))
    · intro hall path hpath
      obtain ⟨text, h⟩ := mem_paths_iff.mp hpath
      exact (heach path text h).mp (hall path text h)
  · intro files hfiles path text h
    obtain ⟨l, hl, hlinks⟩ := lookup_of_link_eq_ok hfiles (mem_paths_of_lookup h)
    obtain ⟨single, hsingle⟩ := (heach path text h).mpr ⟨l, hlinks⟩
    have hpath : path ∈ paths [(path, text)] := List.mem_cons_self
    obtain ⟨k, hk, hlinks'⟩ := lookup_of_link_eq_ok hsingle hpath
    rw [text?_single h] at hlinks'
    rw [hlinks'.unique hlinks] at hk
    exact ⟨single, l, hsingle, hl, hk⟩

/-! ## Cycles -/

/-- Nothing but a cycle can keep the files that are reached from being linked: every one of them
is found and can be read, and the linker accepts it with what its imports stand for. -/
structure Unobstructed (c : Compiler) (roots library : Sources) : Prop where
  found : ∀ path, Reachable (text? roots library) roots path →
    text? roots library path = none →
      (WellKnown.text? path).isSome ∧ ∃ known l, c.known = .ok known ∧ known.lookup path = some l
  readable : ∀ path text, Reachable (text? roots library) roots path →
    text? roots library path = some text →
      ∃ file locations, parse path text = .ok (file, locations)
  accepted : ∀ path file locations dependency,
    Reachable (text? roots library) roots path →
      Reads (text? roots library) path file locations →
      (∀ q ∈ file.imports, Links (text? roots library) c q (dependency q)) →
      ∃ l, c.linker file (file.imports.map dependency) = .ok l

/-- The well-known files have no cycle to report. -/
theorem circularImport_ne_of_known (h : c.known = .error e) (path : String) (chain : List String) :
    e ≠ .circularImport path chain := by
  have hadd : ∀ (library : Library) (entry : String × String) (e : CompileError),
      WellKnown.add c.linker library entry.1 entry.2 = .error e →
        e ≠ .circularImport path chain := by
    intro library entry e he
    rw [WellKnown.add] at he
    cases hf : parse entry.1 entry.2 with
    | error pe =>
      rw [hf] at he
      cases he
      intro heq
      cases heq
    | ok file =>
      rw [hf] at he
      cases hl : library.link c.linker file.1 with
      | error le =>
        simp only [Except.mapError, bind, Except.bind, hl] at he
        cases he
        intro heq
        cases heq
      | ok l =>
        simp only [Except.mapError, bind, Except.bind, hl] at he
        cases he
  have hfold : ∀ (texts : List (String × String)) (library : Library) (e : CompileError),
      texts.foldlM (fun library entry => WellKnown.add c.linker library entry.1 entry.2)
        library = .error e → e ≠ .circularImport path chain := by
    intro texts
    induction texts with
    | nil =>
      intro library e he
      cases he
    | cons entry texts ih =>
      intro library e he
      rw [foldlM_cons] at he
      cases hnext : WellKnown.add c.linker library entry.1 entry.2 with
      | error e' =>
        simp only [hnext, bind, Except.bind] at he
        cases he
        exact hadd library entry e hnext
      | ok library' =>
        simp only [hnext, bind, Except.bind] at he
        exact ih library' e he
  rw [known] at h
  split at h
  · cases h
  · exact hfold _ _ e h

/-- Without obstructions a call fails only at a cycle. -/
theorem Unobstructed.circular (h : Unobstructed c roots library)
    (he : Explained (text? roots library) c roots e) :
    ∃ path chain, e = .circularImport path chain := by
  cases he with
  | circular hr hcycle => exact ⟨_, _, rfl⟩
  | unreadable hr ht he =>
    obtain ⟨file, locations, hf⟩ := h.readable _ _ hr ht
    cases he.symm.trans hf
  | missing hr ht hw =>
    obtain ⟨hsome, known, l, hk, hl⟩ := h.found _ hr ht
    cases (hw known hk hsome).symm.trans hl
  | unbuilt hr ht he =>
    obtain ⟨_, known, l, hk, _⟩ := h.found _ hr ht
    cases he.symm.trans hk
  | rejected hr hread himports he =>
    obtain ⟨l, hl⟩ := h.accepted _ _ _ _ hr hread himports
    cases he.symm.trans hl

/-- Cycles are found exactly. If a call succeeds, no cycle of imports can be reached from the
roots; a cycle that is reported is one; and where nothing else is wrong, a cycle that can be
reached makes the call report a cycle. That every call ends is part of the definition of
`Linking.linkAll`, whose chain of waiting files never holds a source twice. -/
theorem link_circular_exact (c : Compiler) (roots library : Sources) :
    ((∃ files, (c.link roots library).result = .ok files) →
      ∀ path, Reachable (text? roots library) roots path →
        ¬TransGen (Imports (text? roots library)) path path) ∧
    (∀ path chain, (c.link roots library).result = .error (.circularImport path chain) →
      ImportCycle (text? roots library) path chain) ∧
    (Unobstructed c roots library →
      (∃ path, Reachable (text? roots library) roots path ∧
        TransGen (Imports (text? roots library)) path path) →
      ∃ path chain, (c.link roots library).result = .error (.circularImport path chain)) := by
  have hacyclic : (∃ files, (c.link roots library).result = .ok files) →
      ∀ path, Reachable (text? roots library) roots path →
        ¬TransGen (Imports (text? roots library)) path path := by
    rintro hok path ⟨root, hroot, hpath⟩
    obtain ⟨l, hl⟩ := exists_link_eq_ok_iff.mp hok root hroot
    obtain ⟨k, hk⟩ := hl.of_reachable hpath
    exact hk.not_cyclic
  refine ⟨hacyclic, ?_, ?_⟩
  · intro path chain h
    cases error_of_link_eq_error h with
    | circular _ hcycle => exact hcycle
    | unbuilt _ _ he => exact absurd rfl (circularImport_ne_of_known he path chain)
  · rintro h ⟨path, hr, hcycle⟩
    cases hresult : (c.link roots library).result with
    | ok files => exact absurd hcycle (hacyclic ⟨files, hresult⟩ path hr)
    | error e =>
      obtain ⟨p, chain, rfl⟩ := h.circular (error_of_link_eq_error hresult)
      exact ⟨p, chain, rfl⟩

def intoLoop : Sources :=
  [("a", "import 'b';")]

def loop : Sources :=
  [("b", "import 'c';"), ("c", "import 'b';")]

def loopImports : List (String × String) :=
  [("a", "b"), ("b", "c"), ("c", "b")]

/-- The root `a` is not on the cycle that it leads to. -/
theorem link_circular_intoLoop :
    Unobstructed {} intoLoop loop ∧
      (∃ path, Reachable (text? intoLoop loop) intoLoop path ∧
        TransGen (Imports (text? intoLoop loop)) path path) ∧
      ∃ path chain, (({} : Compiler).link intoLoop loop).result =
        .error (.circularImport path chain) ∧
        ImportCycle (text? intoLoop loop) path chain := by
  let source := text? intoLoop loop
  have hreads : ∀ x ∈ loopImports, ∃ file locations,
      Reads source x.1 file locations ∧ file.imports = [x.2] := by
    have htexts : ∀ x ∈ loopImports, ((source x.1).bind fun text =>
        (parse x.1 text).toOption.map fun r => r.1.imports) = some [x.2] := by
      decide +kernel
    intro x hx
    obtain ⟨text, htext, hparse⟩ := Option.bind_eq_some_iff.mp (htexts x hx)
    obtain ⟨file, locations, hfile, honly⟩ := exists_parse_of_map hparse
    exact ⟨file, locations, ⟨text, htext, hfile⟩, honly⟩
  have himports : ∀ x ∈ loopImports, ∀ next, Imports source x.1 next ↔ next = x.2 := by
    intro x hx next
    obtain ⟨file, locations, hread, honly⟩ := hreads x hx
    constructor
    · rintro ⟨_, _, hread', hnext⟩
      obtain ⟨rfl, rfl⟩ := hread.unique hread'
      simpa [honly] using hnext
    · rintro rfl
      exact ⟨file, locations, hread, by simp [honly]⟩
  have hreach : ∀ path, Reachable source intoLoop path → ∃ x ∈ loopImports, x.1 = path := by
    rintro path ⟨root, hroot, hpath⟩
    obtain rfl : root = "a" := by simpa [paths, intoLoop] using hroot
    induction hpath with
    | refl => exact ⟨_, List.mem_cons_self, rfl⟩
    | tail _ hstep ih =>
      obtain ⟨x, hx, rfl⟩ := ih
      have hclosed : ∀ x ∈ loopImports, ∃ y ∈ loopImports, y.1 = x.2 := by decide
      exact (himports x hx _).mp hstep ▸ hclosed x hx
  have hstep : ∀ x ∈ loopImports, Imports source x.1 x.2 := fun x hx => (himports x hx _).mpr rfl
  have hcyclic : ∀ x ∈ loopImports, TransGen (Imports source) x.2 x.2 := by
    simp only [loopImports, List.forall_mem_cons] at hstep ⊢
    obtain ⟨_, hbc, hcb, _⟩ := hstep
    exact ⟨.tail (.single hbc) hcb, .tail (.single hcb) hbc, .tail (.single hbc) hcb,
      forall_mem_nil _⟩
  have hfree : Unobstructed {} intoLoop loop := by
    constructor
    · intro path hr hnone
      obtain ⟨x, hx, rfl⟩ := hreach path hr
      obtain ⟨_, _, hread, _⟩ := hreads x hx
      exact absurd hnone hread.source_ne_none
    · intro path text hr ht
      obtain ⟨x, hx, rfl⟩ := hreach path hr
      obtain ⟨file, locations, ⟨_, ht', hparse⟩, _⟩ := hreads x hx
      cases ht.symm.trans ht'
      exact ⟨file, locations, hparse⟩
    · -- what stands on the cycle is linked to nothing
      intro path file locations dependency hr hread hlinks
      obtain ⟨x, hx, rfl⟩ := hreach path hr
      obtain ⟨_, _, hread', honly⟩ := hreads x hx
      obtain ⟨rfl, rfl⟩ := hread.unique hread'
      exact absurd (hcyclic x hx) (hlinks x.2 (by simp [honly])).not_cyclic
  have hcycle : ∃ path, Reachable source intoLoop path ∧ TransGen (Imports source) path path :=
    ⟨"b", ⟨"a", List.mem_cons_self, .single (hstep ("a", "b") List.mem_cons_self)⟩,
      hcyclic ("a", "b") List.mem_cons_self⟩
  obtain ⟨path, chain, hresult⟩ := (link_circular_exact _ _ _).2.2 hfree hcycle
  exact ⟨hfree, hcycle, path, chain, hresult, (link_circular_exact _ _ _).2.1 path chain hresult⟩

end Compiler

end ProtoSchema
