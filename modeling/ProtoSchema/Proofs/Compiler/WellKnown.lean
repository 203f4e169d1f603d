import ProtoSchema.Compiler
import ProtoSchema.Proofs.Link.Linked
import ProtoSchema.Proofs.RoundTrip

/-!
The library of the well-known files. A library that is built file by file is closed: each file
stands under its own name, and its dependencies are what stands under the names that it imports.
-/

namespace ProtoSchema

variable {dependencies : List LinkedFile} {path : String} {library' : Library}

theorem kept_of_link {file : File} {l : LinkedFile} (h : link file dependencies = .ok l) :
    l.name = file.name ∧ l.file.imports = file.imports ∧ l.dependencies = dependencies := by
  obtain ⟨hfile, hdependencies⟩ := linksTo_of_link h
  have hrest := hfile.rest
  refine ⟨?_, ?_, hdependencies⟩
  · rw [LinkedFile.name, hrest]
  · rw [hrest]

/-- A linked file has a dependency for each import, of the same name and in the same order. -/
theorem map_name_of_link {file : File} {l : LinkedFile} (h : link file dependencies = .ok l) :
    l.dependencies.map LinkedFile.name = l.file.imports := by
  have hlinkable := linkable_of_link h
  obtain ⟨_, himports, hdependencies⟩ := kept_of_link h
  rw [hdependencies, himports]
  exact hlinkable.imports

theorem name_of_parse {source : String} {file : File} {locations : List Location}
    (h : parse path source = .ok (file, locations)) : file.name = path :=
  (written_of_parse h).name

/-! ## Closed libraries -/

structure Library.Holds (library : Library) (path : String) (l : LinkedFile) : Prop where
  name : l.name = path
  imports : l.dependencies.map LinkedFile.name = l.file.imports
  dependencies : ∀ d ∈ l.dependencies, library.lookup d.name = some d

/-- Every file stands under its name and depends on files of the library only. -/
def Library.Closed (library : Library) : Prop :=
  ∀ path l, library.lookup path = some l → library.Holds path l

namespace Library

variable {library : Library} {file : File} {l : LinkedFile}

private theorem lookup_append_of_some {q : String} {k : LinkedFile}
    (h : library.lookup q = some k) :
    (library ++ [(path, l)]).lookup q = some k := by
  rw [List.lookup_append, h]
  rfl

theorem Holds.append {q : String} {k : LinkedFile} (h : library.Holds q k) :
    (library ++ [(path, l)]).Holds q k :=
  ⟨h.name, h.imports, fun d hd => lookup_append_of_some (h.dependencies d hd)⟩

/-- The dependencies of a file are found under its imports. -/
theorem lookup_of_dependencies (h : library.dependencies file = .ok dependencies) :
    ∀ d ∈ dependencies, ∃ path, library.lookup path = some d := by
  rw [Library.dependencies, mapM_eq_ok_iff] at h
  intro d hd
  obtain ⟨path, _, hpath⟩ := exists_mem_of_forall₂ h hd
  refine ⟨path, ?_⟩
  cases hlookup : library.lookup path with
  | none =>
    rw [hlookup] at hpath
    cases hpath
  | some k =>
    rw [hlookup] at hpath
    exact congrArg some (Except.ok.inj hpath)

/-- A file that is linked against a closed library depends on files of it. -/
theorem Closed.holds_of_link (h : library.Closed)
    (hl : library.link ProtoSchema.link file = .ok l) : library.Holds file.name l := by
  rw [Library.link, bind_eq_ok_iff] at hl
  obtain ⟨dependencies, hfound, hlink⟩ := hl
  obtain ⟨hname, _, hkept⟩ := kept_of_link hlink
  refine ⟨hname, map_name_of_link hlink, ?_⟩
  rw [hkept]
  intro d hd
  obtain ⟨path, hpath⟩ := lookup_of_dependencies hfound d hd
  rwa [(h path d hpath).name]

end Library

namespace WellKnown

theorem add_eq_ok_iff {linker : Linker} {library : Library} {text : String} :
    add linker library path text = .ok library' ↔
      ∃ file locations l, parse path text = .ok (file, locations) ∧
        library.link linker file = .ok l ∧ library' = library ++ [(path, l)] := by
  rw [add]
  cases parse path text with
  | error e => simp [Except.mapError, bind, Except.bind]
  | ok r =>
    obtain ⟨file, locations⟩ := r
    cases hlink : library.link linker file with
    | error e => simp [Except.mapError, bind, Except.bind, hlink]
    | ok l => simp [Except.mapError, bind, Except.bind, hlink, pure, Except.pure, eq_comm]

theorem closed_add {library : Library} {text : String} (h : library.Closed)
    (hadd : add link library path text = .ok library') : library'.Closed := by
  obtain ⟨file, locations, l, hparse, hlink, rfl⟩ := add_eq_ok_iff.mp hadd
  have hnew := h.holds_of_link hlink
  rw [name_of_parse hparse] at hnew
  intro q k hk
  rw [List.lookup_append] at hk
  rcases Option.or_eq_some_iff.mp hk with hk | ⟨_, hk⟩
  · exact (h q k hk).append
  · rw [List.lookup_cons] at hk
    split at hk
    · next hq =>
      cases hk
      rw [eq_of_beq hq]
      exact hnew.append
    · cases hk

theorem closed_foldlM {texts : List (String × String)} {library : Library} (h : library.Closed)
    (hfold : texts.foldlM (fun library (path, text) => add link library path text) library =
      .ok library') : library'.Closed := by
  induction texts generalizing library with
  | nil =>
    cases hfold
    exact h
  | cons entry texts ih =>
    rw [List.foldlM_cons, bind_eq_ok_iff] at hfold
    obtain ⟨next, hadd, hfold⟩ := hfold
    exact ih (closed_add h hadd) hfold

theorem closed_library {known : Library} (h : library link = .ok known) : known.Closed :=
  closed_foldlM (fun _ _ hnil => absurd hnil (by simp)) h

end WellKnown

end ProtoSchema
