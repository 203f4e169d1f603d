import ProtoSchema.Proofs.Compiler.Coherence
import ProtoSchema.Proofs.Link.Blame

/-!
The order in which files are linked. When a file is handed to the linker, its imports have been
linked and stand under their paths, so the linker never misses one of them.
-/

namespace ProtoSchema

open Relation Option Sources

variable {path : String} {chain : List String}

namespace Linking

/-- In the run over `paths` from `p` on, the file that was read at `path` is handed to the linker,
and the progress is then `q`. The cases follow the run: this happens at the first path, in the run
over its imports, or in the run over the other paths. -/
inductive Finishes (roots library : Sources) :
    List String → List String → Progress → String → File → Progress → Prop
  | here {chain paths : List String} {p q : Progress} {path text : String} {file : File}
      {locations : List Location} (hl : p.linked.lookup path = none) (hc : path ∉ chain)
      (ht : (roots ++ library).lookup path = some text)
      (hf : parse path text = .ok (file, locations))
      (hrun : (linkAll roots library (path :: chain) file.imports).run (p.asking roots path) =
        (.ok (), q)) : Finishes roots library chain (path :: paths) p path file q
  | inside {chain paths : List String} {p q : Progress} {path text next : String}
      {file file' : File} {locations : List Location} (hl : p.linked.lookup path = none)
      (hc : path ∉ chain) (ht : (roots ++ library).lookup path = some text)
      (hf : parse path text = .ok (file, locations))
      (h : Finishes roots library (path :: chain) file.imports (p.asking roots path) next file' q) :
      Finishes roots library chain (path :: paths) p next file' q
  | later {chain paths : List String} {p q r : Progress} {path next : String} {file : File}
      (hvisit : (visit roots library chain path).run p = (.ok (), r))
      (h : Finishes roots library chain paths r next file q) :
      Finishes roots library chain (path :: paths) p next file q

variable {roots library : Sources} {c : Compiler}

variable {file : File} {paths : List String} {p q : Progress}

theorem reads_of_lookup {text : String} {locations : List Location}
    (ht : (roots ++ library).lookup path = some text)
    (hf : parse path text = .ok (file, locations)) :
    Reads (text? roots library) path file locations :=
  ⟨text, by rw [← lookup_append_eq, ht], hf⟩

theorem Finishes.reads (h : Finishes roots library chain paths p path file q) :
    ∃ locations, Reads (text? roots library) path file locations := by
  induction h with
  | here _ _ ht hf => exact ⟨_, reads_of_lookup ht hf⟩
  | inside _ _ _ _ _ ih => exact ih
  | later _ _ ih => exact ih

/-- When a file is handed to the linker, all that it imports is linked, under its own name. -/
theorem Finishes.ready (hc : c.Standard) (h : Finishes roots library chain paths p path file q)
    (hp : p.Sound (text? roots library) c)
    (hw : Waiting (text? roots library) roots chain paths) :
    ∀ x ∈ file.imports, ∃ l, q.linked.lookup x = some l ∧ l.name = x := by
  induction h with
  | @here _ _ p _ path _ _ _ _ hchain ht hf hrun =>
    have hended := ended_linkAll roots library _ _ _ (hp.asking roots path)
      (hw.inside hchain (reads_of_lookup ht hf))
    rw [hrun] at hended
    intro x hx
    obtain ⟨l, hlookup⟩ := isSome_iff_exists.mp (hended.linked rfl x hx)
    exact ⟨l, hlookup, (hended.sound.linked x l hlookup).name_eq hc⟩
  | inside _ hchain ht hf _ ih =>
    exact ih (hp.asking roots _) (hw.inside hchain (reads_of_lookup ht hf))
  | later hvisit _ ih =>
    have hended := ended_visit hp hw fun _ _ _ _ q hq hwait =>
      ended_linkAll roots library _ _ q hq hwait
    rw [hvisit] at hended
    exact ih hended.sound hw.tail

/-- A file with a source that the visit of `x` adds has been handed to the linker in it. -/
theorem Opened.exists_finishes {x : String} {outcome : Except CompileError Unit × Progress}
    (paths : List String) (hx : p.linked.lookup x = none) (hc : x ∉ chain)
    (hp : p.linked.lookup path = none) (hs : (roots ++ library).lookup path ≠ none)
    (himports : ∀ text, (roots ++ library).lookup x = some text → ∀ (file : File) (q : Progress),
      q.linked.lookup path = none →
      (((linkAll roots library (x :: chain) file.imports).run q).2.linked.lookup path).isSome →
      ∃ file' r, Finishes roots library (x :: chain) file.imports q path file' r)
    (h : Opened roots library chain x (p.asking roots x) outcome)
    (hq : (outcome.2.linked.lookup path).isSome) :
    ∃ file q, Finishes roots library chain (x :: paths) p path file q := by
  have hasked : (p.asking roots x).linked.lookup path = none := by rwa [Progress.asking_linked]
  have hsame : ∀ {q : Progress}, (q.linked.lookup path).isSome →
      q.linked = (p.asking roots x).linked → False := by
    intro q hq heq
    rw [heq, hasked] at hq
    cases hq
  have hinside : ∀ {text file locations} {r : Except CompileError Unit} {q : Progress},
      (roots ++ library).lookup x = some text → parse x text = .ok (file, locations) →
      (linkAll roots library (x :: chain) file.imports).run (p.asking roots x) = (r, q) →
      (q.linked.lookup path).isSome →
      ∃ file' q', Finishes roots library chain (x :: paths) p path file' q' := by
    intro text file locations r q ht hf hrun hq
    obtain ⟨file', q', h⟩ := himports text ht file _ hasked (by rwa [hrun])
    exact ⟨file', q', .inside hx hc ht hf h⟩
  cases h with
  | unreadable => exact (hsame hq rfl).elim
  | foreign => exact (hsame hq rfl).elim
  | unbuilt => exact (hsame hq rfl).elim
  | missing => exact (hsame hq rfl).elim
  | blocked ht hf hrun => exact hinside ht hf hrun hq
  | rejected ht hf hrun => exact hinside ht hf hrun hq
  | linked ht hf hrun =>
    by_cases heq : path = x
    · subst heq
      exact ⟨_, _, .here hx hc ht hf hrun⟩
    · rw [Progress.lookup_adding, if_neg heq, or_none] at hq
      exact hinside ht hf hrun hq
  | @known library' l ht =>
    have heq : path ≠ x := fun heq => hs (heq ▸ ht)
    rw [Progress.lookup_adding, if_neg heq, or_none] at hq
    exact (hsame hq rfl).elim

/-- A file with a source that a run adds has been handed to the linker in it. -/
theorem exists_finishes (chain paths : List String) (p : Progress)
    (hp : p.linked.lookup path = none) (hs : (roots ++ library).lookup path ≠ none)
    (hq : (((linkAll roots library chain paths).run p).2.linked.lookup path).isSome) :
    ∃ file q, Finishes roots library chain paths p path file q := by
  induction chain, paths using linkAll.induct roots library generalizing p with
  | case1 chain =>
    rw [run_linkAll_nil, hp] at hq
    cases hq
  | case2 chain x paths ihrest ihimports =>
    rw [run_linkAll_cons] at hq
    have hvisited := visited roots library chain x p
    cases hvisit : (visit roots library chain x).run p with
    | mk result r =>
    rw [hvisit] at hq hvisited
    by_cases hr : r.linked.lookup path = none
    · cases result with
      | error e =>
        rw [proceed, hr] at hq
        cases hq
      | ok _ =>
        obtain ⟨file, q, h⟩ := ihrest r hr hq
        exact ⟨file, q, .later hvisit h⟩
    · cases hvisited with
      | cached => exact absurd hp hr
      | circular => exact absurd hp hr
      | opened hx hc h =>
        exact h.exists_finishes paths hx hc hp hs (fun text ht => ihimports hc text ht)
          (isSome_iff_ne_none.mpr hr)

end Linking

namespace Compiler

variable {c : Compiler} {roots library : Sources}

/-- The standard linker is never without a dependency, and none has a name that it does not
expect. -/
theorem not_onDependencies_of_link_eq_error (hc : c.Standard) {e : LinkError}
    (h : (c.link roots library).result = .error (.link e)) : ¬e.fault.OnDependencies := by
  cases error_of_link_eq_error h with
  | unbuilt _ _ he =>
    obtain ⟨known, hk⟩ := hc.exists_known
    cases he.symm.trans hk
  | rejected _ _ himports he =>
    rw [hc.linker] at he
    exact not_onDependencies_of_link (Links.map_name_map hc himports) he

/-- Each root that a call links has been handed to the linker in it. -/
theorem exists_finishes_of_link {files : Library} (h : (c.link roots library).result = .ok files)
    (hpath : path ∈ roots.paths) : ∃ file q,
      Linking.Finishes roots library [] roots.sortedPaths { compiler := c } path file q := by
  obtain ⟨result, q, hrun, hended, hlink⟩ := exists_ended c roots library
  rw [hlink] at h
  cases result with
  | error e => cases h
  | ok _ =>
    refine Linking.exists_finishes _ _ _ rfl ?_ ?_
    · obtain ⟨text, ht⟩ := mem_paths_iff.mp hpath
      rw [lookup_append_eq, text?, ht]
      exact some_ne_none text
    · rw [hrun]
      exact hended.linked rfl path (mem_sortedPaths.mpr hpath)

/-- Imports are linked before the file that imports them. Whenever a call hands a file to the
linker, every import of the file is linked under its own name. So no call fails for a dependency
that is missing or has another name. A call that succeeds has handed each root to the linker, gives
files for the roots only, and every file in its graph has one dependency for each import, in order
and under its name. -/
theorem imports_linked_first (c : Compiler) (hc : c.Standard) (roots library : Sources) :
    (∀ path file q,
      Linking.Finishes roots library [] roots.sortedPaths { compiler := c } path file q →
      (∃ locations, Reads (text? roots library) path file locations) ∧
      ∀ x ∈ file.imports, ∃ l, q.linked.lookup x = some l ∧ l.name = x) ∧
    (∀ e, (c.link roots library).result = .error (.link e) → ¬e.fault.OnDependencies) ∧
    ∀ files, (c.link roots library).result = .ok files →
      (∀ path ∈ roots.paths, ∃ file q,
        Linking.Finishes roots library [] roots.sortedPaths { compiler := c } path file q) ∧
      files.map Prod.fst = roots.sortedPaths ∧
      ∀ l, Occurs files l → l.dependencies.map LinkedFile.name = l.file.imports := by
  refine ⟨?_, fun e he => not_onDependencies_of_link_eq_error hc he, ?_⟩
  · intro path file q h
    exact ⟨h.reads, h.ready hc (sound_new c _) (waiting_sortedPaths roots library)⟩
  · intro files h
    refine ⟨fun path hpath => exists_finishes_of_link h hpath, keys_of_link_eq_ok h, ?_⟩
    exact fun l hl => (present_of_occurs hc h hl).map_name_eq hc

def importing : Sources :=
  [("a", "import 'b';")]

/-- The root `a` is handed to the linker once `b` is linked. -/
theorem imports_linked_first_importing : ∃ files file q l,
    (({} : Compiler).link importing [("b", "")]).result = .ok files ∧
      files.map Prod.fst = ["a"] ∧
      Linking.Finishes importing [("b", "")] [] ["a"] { compiler := {} } "a" file q ∧
      file.imports = ["b"] ∧ q.linked.lookup "b" = some l ∧ l.name = "b" := by
  let source := text? importing [("b", "")]
  obtain ⟨b, hb, _⟩ := Links.of_imports_only source .new "b" [] (fun q => ⟨{ name := q }, [], []⟩)
    rfl (by decide +kernel) nofun
  obtain ⟨a, ha, _⟩ := Links.of_imports_only source .new "a" ["b"] (fun _ => b) rfl
    (by decide +kernel) (List.forall_mem_singleton.mpr hb)
  have hpaths : ∀ path ∈ paths importing, path = "a" := by
    simp [paths, importing]
  have hsorted : sortedPaths importing = ["a"] := by decide +kernel
  obtain ⟨files, hfiles⟩ := exists_link_eq_ok_iff.mpr fun path hpath => ⟨a, hpaths path hpath ▸ ha⟩
  obtain ⟨hready, _, hlinked⟩ := imports_linked_first {} .new importing [("b", "")]
  obtain ⟨hfinishes, hkeys, _⟩ := hlinked files hfiles
  obtain ⟨file, q, h⟩ := hfinishes "a" List.mem_cons_self
  obtain ⟨⟨locations, hread⟩, himports⟩ := hready "a" file q h
  obtain ⟨_, _, hparse, honly⟩ : ∃ f locations, parse "a" "import 'b';" = .ok (f, locations) ∧
      f.imports = ["b"] := exists_parse_of_map (g := fun r => r.1.imports) (by decide +kernel)
  obtain ⟨rfl, _⟩ := hread.unique ⟨_, rfl, hparse⟩
  obtain ⟨l, hl, hname⟩ := himports "b" (honly ▸ List.mem_cons_self)
  rw [hsorted] at hkeys h
  exact ⟨files, _, q, l, hfiles, hkeys, h, honly, hl, hname⟩

end Compiler

end ProtoSchema
