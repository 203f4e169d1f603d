import ProtoSchema.Proofs.Compiler.Resolution

/-!
What a call looks for in the library. The paths that it asks for are noted in order. A path that was
asked for is either linked or waits for its imports, so it is not asked for again, and it is asked
for because a root or a text that was found before imports it. Main statement:
`Compiler.asked_once`.
-/

namespace ProtoSchema

open List Option

/-! ## The paths that are asked for -/

/-- The path is imported by a root, or by the text under one of the paths `asked`. -/
def Wanted (roots library : Sources) (asked : List String) (path : String) : Prop :=
  (∃ root ∈ roots.paths, Imports (fun q => roots.lookup q) root path) ∨
    ∃ earlier ∈ asked, Imports (fun q => library.lookup q) earlier path

/-- The library is asked for one path after the other. Each is new, no root, and wanted when its
turn comes. -/
inductive Inquiry (roots library : Sources) : List String → Prop
  | nil : Inquiry roots library []
  | snoc {asked : List String} {path : String} (h : Inquiry roots library asked)
      (hnew : path ∉ asked) (hbeyond : path ∉ roots.paths)
      (hwanted : Wanted roots library asked path) : Inquiry roots library (asked ++ [path])

variable {roots library : Sources} {chain : List String} {path : String} {p : Progress}

theorem Wanted.mono {asked more : List String} (h : Wanted roots library asked path)
    (hmore : ∀ q ∈ asked, q ∈ more) : Wanted roots library more path := by
  rcases h with hroot | ⟨earlier, hearlier, himport⟩
  · exact .inl hroot
  · exact .inr ⟨earlier, hmore earlier hearlier, himport⟩

namespace Inquiry

variable {asked : List String}

theorem nodup (h : Inquiry roots library asked) : asked.Nodup := by
  induction h with
  | nil => exact nodup_nil
  | snoc _ hnew _ _ ih =>
    refine nodup_append.mpr ⟨ih, nodup_cons.mpr ⟨not_mem_nil, nodup_nil⟩, ?_⟩
    intro x hx y hy hxy
    rw [hxy, mem_singleton.mp hy] at hx
    exact hnew hx

theorem not_mem_paths (h : Inquiry roots library asked) : ∀ path ∈ asked, path ∉ roots.paths := by
  induction h with
  | nil => exact fun _ hpath => absurd hpath not_mem_nil
  | snoc _ _ hbeyond _ ih =>
    intro path hpath
    rcases mem_append.mp hpath with hpath | hpath
    · exact ih path hpath
    · exact mem_singleton.mp hpath ▸ hbeyond

/-- Each path is wanted by a root or by what comes before it. -/
theorem wanted (h : Inquiry roots library asked) :
    ∀ before path after, asked = before ++ path :: after → Wanted roots library before path := by
  induction h with
  | nil =>
    intro before path after heq
    cases before <;> cases heq
  | @snoc asked last _ _ _ hwanted ih =>
    intro before path after heq
    rcases eq_nil_or_concat after with rfl | ⟨after, y, rfl⟩
    · obtain ⟨rfl, hlast⟩ := append_inj' heq rfl
      obtain rfl := singleton_inj.mp hlast
      exact hwanted
    · rw [concat_eq_append, ← cons_append, ← append_assoc] at heq
      exact ih before path after (append_inj_left' heq rfl)

end Inquiry

/-! ## What a run asks for -/

/-- The progress of a run while the files of `chain` wait: what was asked for is linked or waits. -/
structure Progress.Inquiring (roots library : Sources) (chain : List String) (p : Progress) :
    Prop where
  inquiry : Inquiry roots library p.asked
  settled : ∀ path ∈ p.asked, (p.linked.lookup path).isSome ∨ path ∈ chain

/-- What is known of a run once it has ended. After a failure some paths stay unsettled. -/
structure Inquired (roots library : Sources) (chain : List String)
    (outcome : Except CompileError Unit × Progress) : Prop where
  inquiry : Inquiry roots library outcome.2.asked
  settled : outcome.1 = .ok () → outcome.2.Inquiring roots library chain

theorem Inquired.failure {e : CompileError} (h : Inquiry roots library p.asked) :
    Inquired roots library chain (.error e, p) :=
  ⟨h, nofun⟩

theorem Inquired.success (h : p.Inquiring roots library chain) :
    Inquired roots library chain (.ok (), p) :=
  ⟨h.inquiry, fun _ => h⟩

namespace Progress

theorem asked_asking_of_mem (h : path ∈ roots.paths) :
    (p.asking roots path).asked = p.asked := by
  rw [asking, if_pos h]

theorem asked_asking_of_not_mem (h : path ∉ roots.paths) :
    (p.asking roots path).asked = p.asked ++ [path] := by
  rw [asking, if_neg h]

namespace Inquiring

/-- A path that is neither linked nor waited for was not asked for before. -/
theorem asking (h : p.Inquiring roots library chain) (hl : p.linked.lookup path = none)
    (hc : path ∉ chain) (hpath : path ∈ roots.paths ∨ Wanted roots library p.asked path) :
    (p.asking roots path).Inquiring roots library (path :: chain) := by
  by_cases hroot : path ∈ roots.paths
  · rw [Progress.asking, if_pos hroot]
    refine ⟨h.inquiry, fun x hx => ?_⟩
    exact (h.settled x hx).imp_right (mem_cons_of_mem path)
  · have hnew : path ∉ p.asked := by
      intro hasked
      rcases h.settled path hasked with hlinked | hwaits
      · rw [hl] at hlinked
        cases hlinked
      · exact hc hwaits
    refine ⟨?_, ?_⟩
    · rw [asked_asking_of_not_mem hroot]
      exact .snoc h.inquiry hnew hroot (hpath.resolve_left hroot)
    · intro x hx
      rw [asked_asking_of_not_mem hroot] at hx
      rw [asking_linked]
      rcases mem_append.mp hx with hx | hx
      · exact (h.settled x hx).imp_right (mem_cons_of_mem path)
      · exact .inr (mem_singleton.mp hx ▸ mem_cons_self)

theorem adding (h : p.Inquiring roots library (path :: chain)) (l : LinkedFile) :
    (p.adding path l).Inquiring roots library chain := by
  refine ⟨h.inquiry, fun x hx => ?_⟩
  by_cases heq : x = path
  · rw [heq]
    exact .inl (isSome_lookup_adding p path l)
  · rw [lookup_adding, if_neg heq, or_none]
    exact (h.settled x hx).imp_right fun hmem => (mem_cons.mp hmem).resolve_left heq

end Inquiring

end Progress

/-- What the text under a path imports is wanted once the path was asked for. -/
theorem wanted_of_parse {text x : String} {file : File} {locations : List Location}
    (ht : (roots ++ library).lookup path = some text)
    (hf : parse path text = .ok (file, locations)) (hx : x ∈ file.imports) :
    Wanted roots library (p.asking roots path).asked x := by
  rw [Sources.lookup_append_eq, Sources.text?] at ht
  by_cases hroot : path ∈ roots.paths
  · obtain ⟨text', ht'⟩ := Sources.mem_paths_iff.mp hroot
    rw [ht', some_or] at ht
    exact .inl ⟨path, hroot, file, locations, ⟨text, ht'.trans ht, hf⟩, hx⟩
  · have hnone : roots.lookup path = none := by
      rw [← not_isSome_iff_eq_none, isSome_iff_exists]
      exact fun hsome => hroot (Sources.mem_paths_iff.mpr hsome)
    rw [hnone, none_or] at ht
    rw [Progress.asked_asking_of_not_mem hroot]
    exact .inr ⟨path, mem_append_right _ mem_cons_self, file, locations, ⟨text, ht, hf⟩, hx⟩

namespace Linking

theorem carries_asked : Carries fun p q => p.asked <+: q.asked where
  refl _ := prefix_refl _
  trans h k := h.trans k
  asking p roots path := by
    by_cases hroot : path ∈ roots.paths
    · exact (Progress.asked_asking_of_mem hroot).symm ▸ prefix_refl _
    · rw [Progress.asked_asking_of_not_mem hroot]
      exact prefix_append _ _
  adding _ _ _ := prefix_refl _
  keeping _ := prefix_refl _

/-- What the visit of a path asks for, given what the run over its imports asks for. -/
theorem inquired_visited {outcome : Except CompileError Unit × Progress}
    (hp : p.Inquiring roots library chain)
    (hpath : path ∈ roots.paths ∨ Wanted roots library p.asked path)
    (himports : path ∉ chain → ∀ text, (roots ++ library).lookup path = some text →
      ∀ (file : File) (q : Progress), q.Inquiring roots library (path :: chain) →
        (∀ x ∈ file.imports, x ∈ roots.paths ∨ Wanted roots library q.asked x) →
        Inquired roots library (path :: chain)
          ((linkAll roots library (path :: chain) file.imports).run q))
    (h : Visited roots library chain path p outcome) :
    Inquired roots library chain outcome := by
  cases h with
  | cached => exact .success hp
  | circular => exact .failure hp.inquiry
  | opened hl hc h =>
    have hasking := hp.asking hl hc hpath
    have himported : ∀ {text : String} {file : File} {locations : List Location}
        {result : Except CompileError Unit} {q : Progress},
        (roots ++ library).lookup path = some text → parse path text = .ok (file, locations) →
        (linkAll roots library (path :: chain) file.imports).run (p.asking roots path) =
          (result, q) → Inquired roots library (path :: chain) (result, q) := by
      intro text file locations result q ht hf hrun
      rw [← hrun]
      exact himports hc text ht file _ hasking fun x hx => .inr (wanted_of_parse ht hf hx)
    cases h with
    | unreadable => exact .failure hasking.inquiry
    | foreign => exact .failure hasking.inquiry
    | unbuilt => exact .failure hasking.inquiry
    | missing => exact .failure hasking.inquiry
    | @known known l =>
      have hkeeping : ((p.asking roots path).keeping known).Inquiring roots library
          (path :: chain) := ⟨hasking.inquiry, hasking.settled⟩
      exact .success (hkeeping.adding l)
    | blocked ht hf hrun => exact .failure (himported ht hf hrun).inquiry
    | rejected ht hf hrun => exact .failure (himported ht hf hrun).inquiry
    | linked ht hf hrun => exact .success (((himported ht hf hrun).settled rfl).adding _)

theorem inquired_linkAll (chain paths : List String) (p : Progress)
    (hp : p.Inquiring roots library chain)
    (hpaths : ∀ path ∈ paths, path ∈ roots.paths ∨ Wanted roots library p.asked path) :
    Inquired roots library chain ((linkAll roots library chain paths).run p) := by
  induction chain, paths using linkAll.induct roots library generalizing p with
  | case1 chain =>
    rw [run_linkAll_nil]
    exact .success hp
  | case2 chain path paths ihrest ihimports =>
    have hvisit := inquired_visited hp (hpaths path mem_cons_self) ihimports
      (visited roots library chain path p)
    have hgrows := carries_asked.run_visit roots library chain path p
    rw [run_linkAll_cons]
    generalize (visit roots library chain path).run p = outcome at hvisit hgrows ⊢
    obtain ⟨result, q⟩ := outcome
    cases result with
    | error e => exact .failure hvisit.inquiry
    | ok _ =>
      refine ihrest q (hvisit.settled rfl) fun x hx => ?_
      exact (hpaths x (mem_cons_of_mem path hx)).imp_right fun hwanted =>
        hwanted.mono hgrows.subset

/-! ## What a run depends on -/

variable {other : Sources}

theorem asked_proceed_finish (outcome : Except CompileError Unit × Progress) (path : String)
    (file : File) (locations : List Location) :
    (proceed outcome fun _ q => (finish path file locations).run q).2.asked =
      outcome.2.asked := by
  obtain ⟨result, q⟩ := outcome
  cases result with
  | error e => rfl
  | ok _ =>
    rw [proceed, run_finish]
    cases q.linked.link q.compiler.linker file <;> rfl

private theorem lookup_append_congr
    (h : path ∉ roots.paths → other.lookup path = library.lookup path) :
    (roots ++ other).lookup path = (roots ++ library).lookup path := by
  rw [Sources.lookup_append_eq, Sources.lookup_append_eq, Sources.text?, Sources.text?]
  by_cases hroot : path ∈ roots.paths
  · obtain ⟨text, ht⟩ := Sources.mem_paths_iff.mp hroot
    rw [ht, some_or, some_or]
  · rw [h hroot]

theorem run_visit_congr
    (himports : path ∉ chain → ∀ text, (roots ++ library).lookup path = some text →
      ∀ (file : File) (q : Progress),
        (∀ x ∈ ((linkAll roots library (path :: chain) file.imports).run q).2.asked,
          other.lookup x = library.lookup x) →
        (linkAll roots other (path :: chain) file.imports).run q =
          (linkAll roots library (path :: chain) file.imports).run q)
    (h : ∀ x ∈ ((visit roots library chain path).run p).2.asked,
      other.lookup x = library.lookup x) :
    (visit roots other chain path).run p = (visit roots library chain path).run p := by
  have hvisited := visited roots library chain path p
  generalize hrun : (visit roots library chain path).run p = outcome at h hvisited
  cases hvisited with
  | cached hl => exact run_visit_of_linked hl
  | circular hl hc => exact run_visit_of_waiting hl hc
  | opened hl hc hopened =>
    -- a path beyond the roots has been noted before it is looked up, and the notes are kept
    have hgrows := carries_asked.of_opened
      (fun _ _ file => carries_asked.run_linkAll roots library _ file.imports _) hopened
    have hlookup : (roots ++ other).lookup path = (roots ++ library).lookup path := by
      refine lookup_append_congr fun hroot => h path (hgrows.subset ?_)
      rw [Progress.asked_asking_of_not_mem hroot]
      exact mem_append_right _ mem_cons_self
    rw [run_visit_of_new hl hc] at hrun ⊢
    rw [hlookup, ← hrun]
    cases ht : (roots ++ library).lookup path with
    | none => rfl
    | some text =>
      dsimp only
      cases hf : parse path text with
      | error e => rfl
      | ok r =>
        obtain ⟨file, locations⟩ := r
        dsimp only
        rw [himports hc text ht file]
        intro x hx
        refine h x ?_
        rw [← hrun, ht]
        dsimp only
        rw [hf]
        dsimp only
        rwa [asked_proceed_finish]

/-- A run depends on the library only at the paths that it asked for. -/
theorem run_linkAll_congr (chain paths : List String) (p : Progress)
    (h : ∀ x ∈ ((linkAll roots library chain paths).run p).2.asked,
      other.lookup x = library.lookup x) :
    (linkAll roots other chain paths).run p = (linkAll roots library chain paths).run p := by
  induction chain, paths using linkAll.induct roots library generalizing p with
  | case1 chain => rw [run_linkAll_nil, run_linkAll_nil]
  | case2 chain path paths ihrest ihimports =>
    rw [run_linkAll_cons] at h
    rw [run_linkAll_cons, run_linkAll_cons, run_visit_congr ihimports]
    · cases hvisit : (visit roots library chain path).run p with
      | mk result q =>
        rw [hvisit] at h
        cases result with
        | error e => rfl
        | ok _ => exact ihrest q h
    · intro x hx
      refine h x ?_
      cases hvisit : (visit roots library chain path).run p with
      | mk result q =>
        rw [hvisit] at hx
        cases result with
        | error e => exact hx
        | ok _ => exact (carries_asked.run_linkAll roots library chain paths q).subset hx

end Linking

namespace Compiler

theorem inquiry_link (c : Compiler) (roots library : Sources) :
    Inquiry roots library (c.link roots library).asked := by
  have hstart : ({ compiler := c } : Progress).Inquiring roots library [] :=
    ⟨.nil, fun _ hpath => absurd hpath not_mem_nil⟩
  have hpaths : ∀ path ∈ roots.sortedPaths, path ∈ roots.paths ∨ Wanted roots library [] path :=
    fun _ hpath => .inl (Sources.mem_sortedPaths.mp hpath)
  exact (Linking.inquired_linkAll [] roots.sortedPaths _ hstart hpaths).inquiry

theorem link_congr {c : Compiler} {roots library other : Sources}
    (h : ∀ path ∈ (c.link roots library).asked, other.lookup path = library.lookup path) :
    c.link roots other = c.link roots library := by
  rw [link, link, Linking.run_linkAll_congr [] roots.sortedPaths { compiler := c } h]

/-- A call asks the library for no path twice and for no root, and for each path because a root
imports it or a text that the library gave before. This holds of calls that fail as well. The paths
are all that it asks for: a library that has the same under them makes no difference. -/
theorem asked_once (c : Compiler) (roots library : Sources) :
    (c.link roots library).asked.Nodup ∧
    (∀ path ∈ (c.link roots library).asked, path ∉ roots.paths) ∧
    (∀ before path after, (c.link roots library).asked = before ++ path :: after →
      (∃ root ∈ roots.paths, Imports (fun q => roots.lookup q) root path) ∨
        ∃ earlier ∈ before, Imports (fun q => library.lookup q) earlier path) ∧
    ∀ other : Sources,
      (∀ path ∈ (c.link roots library).asked, other.lookup path = library.lookup path) →
        c.link roots other = c.link roots library := by
  have h := inquiry_link c roots library
  exact ⟨h.nodup, h.not_mem_paths, h.wanted, fun other hother => link_congr hother⟩

def chainRoots : Sources :=
  [("a", "import 'b';")]

def chainLibrary : Sources :=
  [("b", "import 'c';")]

open Linking in
theorem asked_link_chain : (({} : Compiler).link chainRoots chainLibrary).asked = ["b", "c"] := by
  obtain ⟨a, _, ha, haimports⟩ : ∃ file locations,
      parse "a" "import 'b';" = .ok (file, locations) ∧ file.imports = ["b"] :=
    exists_parse_of_map (g := fun r => r.1.imports) (by decide +kernel)
  obtain ⟨b, _, hb, hbimports⟩ : ∃ file locations,
      parse "b" "import 'c';" = .ok (file, locations) ∧ file.imports = ["c"] :=
    exists_parse_of_map (g := fun r => r.1.imports) (by decide +kernel)
  have hsorted : Sources.sortedPaths chainRoots = ["a"] := by decide +kernel
  have hta : (chainRoots ++ chainLibrary).lookup "a" = some "import 'b';" := rfl
  have htb : (chainRoots ++ chainLibrary).lookup "b" = some "import 'c';" := rfl
  have htc : (chainRoots ++ chainLibrary).lookup "c" = none := rfl
  rw [link, hsorted, run_linkAll_cons, run_visit_of_new rfl not_mem_nil, hta]
  dsimp only
  rw [ha]
  dsimp only
  rw [haimports, run_linkAll_cons, run_visit_of_new rfl (by decide), htb]
  dsimp only
  rw [hb]
  dsimp only
  rw [hbimports, run_linkAll_cons, run_visit_of_new rfl (by decide), htc]
  rfl

/-- The library is asked for `b`, which the root imports, and then for `c`, which `b` imports. -/
theorem asked_once_chain :
    (({} : Compiler).link chainRoots chainLibrary).asked = ["b", "c"] ∧
      ((∃ root ∈ chainRoots.paths, Imports (fun q => chainRoots.lookup q) root "c") ∨
        ∃ earlier ∈ ["b"], Imports (fun q => chainLibrary.lookup q) earlier "c") :=
  ⟨asked_link_chain, (asked_once {} chainRoots chainLibrary).2.2.1 ["b"] "c" [] asked_link_chain⟩

end Compiler

end ProtoSchema
