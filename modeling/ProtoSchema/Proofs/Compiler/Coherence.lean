import ProtoSchema.Proofs.Compiler.Bundled
import ProtoSchema.Proofs.Compiler.Resolution
import ProtoSchema.Proofs.Link.Reach

/-!
Which linked files occur in what a call gives. A file is there because its path stands for it, or
because a well-known file that is in use was linked against it. Both may happen for one path: a
source can take the place of a well-known file that other well-known files still depend on. Apart
from that, names tell the files of a call apart.
-/

namespace ProtoSchema

open Relation Sources

variable {known : Library} {path : String}

/-- A compiler with the standard linker, new or after any number of calls. -/
structure Compiler.Standard (c : Compiler) : Prop where
  linker : c.linker = ProtoSchema.link
  known : c.known = WellKnown.library ProtoSchema.link

namespace Compiler.Standard

variable {c : Compiler}

theorem new : ({} : Compiler).Standard :=
  ⟨rfl, rfl⟩

theorem exists_known (h : c.Standard) : ∃ known, c.known = .ok known := by
  obtain ⟨known, hknown, _⟩ := WellKnown.exists_library
  exact ⟨known, h.known.trans hknown⟩

theorem closed (h : c.Standard) (hk : c.known = .ok known) : known.Closed :=
  WellKnown.closed_library (h.known.symm.trans hk)

end Compiler.Standard

/-! ## Where files come from -/

section Origins

variable {source : String → Option String} {c : Compiler} {l : LinkedFile}

/-- A path without a source stands for the well-known file. -/
theorem Links.eq_of_lookup (h : Links source c path l) {k : LinkedFile} (hk : c.known = .ok known)
    (hlookup : known.lookup path = some k) (htext : source path = none) : l = k := by
  cases h with
  | source hread => exact absurd htext hread.source_ne_none
  | known _ _ hk' hl =>
    cases hk.symm.trans hk'
    exact Option.some.inj (hl.symm.trans hlookup)

/-- How a file comes to be in the graph of a call: its name stands for it, or a well-known file that
is in use depends on it. -/
inductive Present (source : String → Option String) (c : Compiler) (roots : Sources) :
    LinkedFile → Prop
  | linked {l : LinkedFile} (hr : Reachable source roots l.name) (hl : Links source c l.name l) :
      Present source c roots l
  | carried {known : Library} {taken : String} {b l : LinkedFile} (hk : c.known = .ok known)
      (hr : Reachable source roots taken) (ht : source taken = none)
      (hb : known.lookup taken = some b) (hpath : TransGen LinkedFile.Imports b l)
      (hl : known.lookup l.name = some l) : Present source c roots l

/-- A path with a source stands for a file of its name. -/
theorem Links.name_eq_or (hlinker : c.linker = ProtoSchema.link) (h : Links source c path l) :
    l.name = path ∨
      source path = none ∧ ∃ known, c.known = .ok known ∧ known.lookup path = some l := by
  cases h with
  | source hread _ hlink =>
    obtain ⟨text, _, hparse⟩ := hread
    rw [hlinker] at hlink
    exact .inl ((kept_of_link hlink).1.trans (name_of_parse hparse))
  | known htext _ hk hl => exact .inr ⟨htext, _, hk, hl⟩

variable (hc : c.Standard)
include hc

theorem Links.name_eq (h : Links source c path l) : l.name = path := by
  rcases h.name_eq_or hc.linker with hname | ⟨_, _, hk, hl⟩
  · exact hname
  · exact (hc.closed hk path l hl).name

theorem Links.map_name_map {paths : List String} {dependency : String → LinkedFile}
    (h : ∀ q ∈ paths, Links source c q (dependency q)) :
    (paths.map dependency).map LinkedFile.name = paths := by
  rw [List.map_map]
  exact (List.map_congr_left fun q hq => (h q hq).name_eq hc).trans (List.map_id _)

/-- A file is linked against what its imports stand for, unless it is a well-known one. -/
theorem Links.dependency (h : Links source c path l) :
    (∀ d ∈ l.dependencies, Imports source path d.name ∧ Links source c d.name d) ∨
      source path = none ∧ ∃ known, c.known = .ok known ∧ known.lookup path = some l := by
  cases h with
  | source hread himports hlink =>
    rw [hc.linker] at hlink
    refine .inl fun d hd => ?_
    have hd' := hd
    rw [(kept_of_link hlink).2.2] at hd'
    obtain ⟨q, hq, rfl⟩ := List.mem_map.mp hd'
    have hname := (himports q hq).name_eq hc
    rw [hname]
    exact ⟨⟨_, _, hread, hq⟩, himports q hq⟩
  | known htext _ hk hl => exact .inr ⟨htext, _, hk, hl⟩

theorem Links.map_name_eq (h : Links source c path l) :
    l.dependencies.map LinkedFile.name = l.file.imports := by
  cases h with
  | source _ _ hlink =>
    rw [hc.linker] at hlink
    have hnames := map_name_of_link hlink
    exact hnames
  | known _ _ hk hl => exact (hc.closed hk path l hl).imports

namespace Present

variable {roots : Sources} {d : LinkedFile} (h : Present source c roots l)
include h

theorem step (hd : l.Imports d) : Present source c roots d := by
  cases h with
  | linked hr hl =>
    rcases hl.dependency hc with hall | ⟨htext, known, hk, hlookup⟩
    · obtain ⟨himport, hlinks⟩ := hall d hd
      obtain ⟨root, hroot, hpath⟩ := hr
      exact .linked ⟨root, hroot, hpath.tail himport⟩ hlinks
    · have hclosed := (hc.closed hk l.name l hlookup).dependencies d hd
      exact .carried hk hr htext hlookup (.single hd) hclosed
  | carried hk hr ht hb hpath hl =>
    exact .carried hk hr ht hb (hpath.tail hd) ((hc.closed hk _ l hl).dependencies d hd)

theorem reached (hpath : ReflTransGen LinkedFile.Imports l d) : Present source c roots d := by
  induction hpath with
  | refl => exact h
  | tail _ hstep ih => exact ih.step hc hstep

theorem map_name_eq : l.dependencies.map LinkedFile.name = l.file.imports := by
  cases h with
  | linked _ hl => exact hl.map_name_eq hc
  | carried hk _ _ _ _ hl => exact (hc.closed hk _ l hl).imports

end Present

end Origins

namespace Compiler

/-- The file is one of those given by a call, or such a file depends on it over any number of
steps. -/
def Occurs (files : Library) (l : LinkedFile) : Prop :=
  ∃ path f, files.lookup path = some f ∧ ReflTransGen LinkedFile.Imports f l

variable {c : Compiler} {roots library : Sources} {files : Library}

variable (hc : c.Standard) (h : (c.link roots library).result = .ok files)

include h in
/-- The files that a call gives stand under the roots' paths, each path once and in order. -/
theorem keys_of_link_eq_ok : files.map Prod.fst = roots.sortedPaths := by
  obtain ⟨result, p, _, hended, hlink⟩ := exists_ended c roots library
  rw [hlink] at h
  cases result with
  | error e => cases h
  | ok _ =>
    obtain rfl := Except.ok.inj h
    have hlinked := hended.linked rfl
    generalize roots.sortedPaths = paths at hlinked
    induction paths with
    | nil => rfl
    | cons path paths ih =>
      obtain ⟨hpath, hpaths⟩ := List.forall_mem_cons.mp hlinked
      obtain ⟨l, hl⟩ := Option.isSome_iff_exists.mp hpath
      simp [hl, ih hpaths]

include h in
theorem mem_paths_of_lookup {f : LinkedFile} (hf : files.lookup path = some f) :
    path ∈ roots.paths := by
  rw [← mem_sortedPaths, ← keys_of_link_eq_ok h, List.mem_map]
  obtain ⟨before, after, hfiles, _⟩ := List.lookup_eq_some_iff.mp hf
  exact ⟨(path, f), by rw [hfiles]; simp, rfl⟩

include hc h in
theorem present_of_occurs {l : LinkedFile} (hl : Occurs files l) :
    Present (text? roots library) c roots l := by
  obtain ⟨path, f, hf, hpath⟩ := hl
  have hroot := mem_paths_of_lookup h hf
  obtain ⟨f', hf', hlinks⟩ := lookup_of_link_eq_ok h hroot
  cases hf.symm.trans hf'
  have hname := hlinks.name_eq hc
  refine Present.reached hc (.linked ?_ ?_) hpath
  · exact ⟨path, hroot, by rw [hname]⟩
  · rwa [hname]

include h in
/-- What a root stands for occurs with all that it depends on. -/
theorem occurs_of_links (hpath : path ∈ roots.paths) {f l : LinkedFile}
    (hf : Links (text? roots library) c path f)
    (hl : ReflTransGen LinkedFile.Imports f l) : Occurs files l := by
  obtain ⟨f', hlookup, hf'⟩ := lookup_of_link_eq_ok h hpath
  cases hf.unique hf'
  exact ⟨path, f, hlookup, hl⟩

/-! ## One file of each name -/

/-- A source takes the place of a well-known file on which another well-known file depends, and the
latter is in use. -/
def Divided (c : Compiler) (roots library : Sources) (path : String) : Prop :=
  text? roots library path ≠ none ∧
    ∃ known taken b l, c.known = .ok known ∧ Reachable (text? roots library) roots taken ∧
      text? roots library taken = none ∧ known.lookup taken = some b ∧
      TransGen LinkedFile.Imports b l ∧ l.name = path

/-- What a path stands for, beside a file of that name on which a well-known file depends. -/
theorem eq_or_divided {taken : String} {b l k : LinkedFile} (hname : l.name = k.name)
    (hl : Links (text? roots library) c l.name l) (hk : c.known = .ok known)
    (hr : Reachable (text? roots library) roots taken)
    (ht : text? roots library taken = none) (hb : known.lookup taken = some b)
    (hpath : TransGen LinkedFile.Imports b k) (hlookup : known.lookup k.name = some k) :
    l = k ∨ Divided c roots library l.name := by
  by_cases htext : text? roots library l.name = none
  · rw [← hname] at hlookup
    exact .inl (hl.eq_of_lookup hk hlookup htext)
  · exact .inr ⟨htext, known, taken, b, k, hk, hr, ht, hb, hpath, hname.symm⟩

/-- In what a call gives, one path denotes one linked file, with the exception of paths that are
divided between a source and the well-known files. -/
theorem eq_of_name_eq_of_link (c : Compiler) (hc : c.Standard) (roots library : Sources)
    (files : Library) (h : (c.link roots library).result = .ok files) (x y : LinkedFile)
    (hx : Occurs files x) (hy : Occurs files y) (hname : x.name = y.name) :
    x = y ∨ Divided c roots library x.name := by
  cases present_of_occurs hc h hx with
  | linked _ hlx =>
    cases present_of_occurs hc h hy with
    | linked _ hly =>
      rw [hname] at hlx
      exact .inl (hlx.unique hly)
    | carried hk hr ht hb hpath hly => exact eq_or_divided hname hlx hk hr ht hb hpath hly
  | carried hk hr ht hb hpath hlx =>
    cases present_of_occurs hc h hy with
    | linked _ hly =>
      rcases eq_or_divided hname.symm hly hk hr ht hb hpath hlx with heq | hdivided
      · exact .inl heq.symm
      · exact .inr (hname ▸ hdivided)
    | carried hk' _ _ _ _ hly =>
      cases hk.symm.trans hk'
      rw [hname] at hlx
      exact .inl (Option.some.inj (hlx.symm.trans hly))

end Compiler

/-! ## Files that only import -/

theorem link_imports {imports : List String} {dependencies : List LinkedFile}
    (h : dependencies.map LinkedFile.name = imports) :
    link { name := path, imports } dependencies =
      .ok ⟨{ name := path, imports }, dependencies, []⟩ := by
  rw [link_eq_ok_iff, File.linked, LinkFault.checkDependencies_eq_ok_iff.mpr h]
  rfl

/-- A file that only imports is linked once its imports are. -/
theorem Links.of_imports_only (source : String → Option String) {c : Compiler} (hc : c.Standard)
    (path : String) {text : String} (imports : List String) (dependency : String → LinkedFile)
    (ht : source path = some text)
    (hf : (parse path text).toOption.map Prod.fst = some { name := path, imports })
    (himports : ∀ q ∈ imports, Links source c q (dependency q)) :
    ∃ l, Links source c path l ∧ l.dependencies = imports.map dependency := by
  obtain ⟨_, locations, hparse, rfl⟩ := exists_parse_of_map hf
  have hlink : c.linker { name := path, imports } (imports.map dependency) =
      .ok ⟨{ name := path, imports }, imports.map dependency, []⟩ := by
    rw [hc.linker]
    exact link_imports (Links.map_name_map hc himports)
  exact ⟨_, .source ⟨text, ht, hparse⟩ himports hlink, rfl⟩

namespace Compiler

/-- Of the well-known files, `type.proto` depends on `any.proto`, where `Any` is declared. -/
theorem exists_type_over_any : ∃ known b k, WellKnown.library ProtoSchema.link = .ok known ∧
    known.lookup "google/protobuf/type.proto" = some b ∧ k ∈ b.dependencies ∧
    k.name = "google/protobuf/any.proto" ∧ k.file.messages.map Message.name = ["Any"] := by
  obtain ⟨known, hknown, hhas⟩ := WellKnown.exists_library
  obtain ⟨b, hb, hany⟩ := (Option.any_eq_true _ _).mp hhas
  obtain ⟨k, hk, hfits⟩ := List.any_eq_true.mp hany
  rw [Bool.and_eq_true, decide_eq_true_eq, decide_eq_true_eq] at hfits
  exact ⟨known, b, k, hknown, hb, hk, hfits⟩

def sharing : Sources :=
  [("a", "import 'google/protobuf/type.proto';import 'google/protobuf/any.proto';")]

/-- The file `any.proto` that a root imports is the one that `type.proto` depends on. -/
theorem eq_of_name_eq_of_link_sharing : ∃ files x y,
    (({} : Compiler).link sharing []).result = .ok files ∧ Occurs files x ∧ Occurs files y ∧
      x.name = y.name ∧ (x = y ∨ Divided {} sharing [] x.name) := by
  obtain ⟨known, b, k, hknown, hb, hk, hname, _⟩ := exists_type_over_any
  have hlookup := (WellKnown.closed_library hknown _ b hb).dependencies k hk
  rw [hname] at hlookup
  have htype : Links (text? sharing []) {} "google/protobuf/type.proto" b :=
    .known rfl (by decide +kernel) hknown hb
  have hany : Links (text? sharing []) {} "google/protobuf/any.proto" k :=
    .known rfl (by decide +kernel) hknown hlookup
  obtain ⟨l, hl, hdependencies⟩ := Links.of_imports_only (text? sharing []) .new "a"
    ["google/protobuf/type.proto", "google/protobuf/any.proto"]
    (fun q => if q = "google/protobuf/type.proto" then b else k) rfl (by decide +kernel)
    (List.forall_mem_cons.mpr ⟨htype, List.forall_mem_singleton.mpr hany⟩)
  have hpaths : ∀ path ∈ paths sharing, path = "a" := by simp [paths, sharing]
  have hroot : "a" ∈ paths sharing := List.mem_cons_self
  obtain ⟨files, hfiles⟩ := exists_link_eq_ok_iff.mpr fun path hpath => ⟨l, hpaths path hpath ▸ hl⟩
  have hdirect : l.Imports k := by simp [LinkedFile.Imports, hdependencies]
  have hover : l.Imports b := by simp [LinkedFile.Imports, hdependencies]
  have hx := occurs_of_links hfiles hroot hl (.single hdirect)
  have hy := occurs_of_links hfiles hroot hl ((ReflTransGen.single hover).tail hk)
  exact ⟨files, k, k, hfiles, hx, hy, rfl,
    eq_of_name_eq_of_link _ .new _ _ _ hfiles k k hx hy rfl⟩

def dividingRoots : Sources :=
  [("a", "import 'google/protobuf/type.proto';import 'b';")]

def dividingLibrary : Sources :=
  [("b", "import 'google/protobuf/any.proto';"), ("google/protobuf/any.proto", "message M\x7b\x7d")]

/-- Where a source replaces `any.proto`, `type.proto` still depends on the well-known one, and both
occur in what a call gives. -/
theorem exists_name_eq_file_ne : ∃ files x y,
    (({} : Compiler).link dividingRoots dividingLibrary).result = .ok files ∧
      Occurs files x ∧ Occurs files y ∧ x.name = y.name ∧ x.file ≠ y.file := by
  obtain ⟨known, b, k, hknown, hb, hk, hname, hmessages⟩ := exists_type_over_any
  let source := text? dividingRoots dividingLibrary
  have htype : Links source {} "google/protobuf/type.proto" b :=
    .known rfl (by decide +kernel) hknown hb
  obtain ⟨m, hany, hm⟩ : ∃ m, Links source {} "google/protobuf/any.proto" m ∧
      m.file.messages.map Message.name = ["M"] := by
    let file : File := { name := "google/protobuf/any.proto", messages := [{ name := "M" }] }
    obtain ⟨_, _, hparse, rfl⟩ : ∃ f locations,
        parse "google/protobuf/any.proto" "message M\x7b\x7d" = .ok (f, locations) ∧ f = file :=
      exists_parse_of_map (g := Prod.fst) (by decide +kernel)
    have hread : Reads source "google/protobuf/any.proto" _ _ := ⟨_, rfl, hparse⟩
    have hlink : (ProtoSchema.link file []).toOption.map (fun m => m.file.messages.map Message.name)
        = some ["M"] := by decide +kernel
    obtain ⟨m, hm, hnames⟩ := Option.map_eq_some_iff.mp hlink
    have hnone : ∀ q ∈ file.imports, Links source {} q b := nofun
    exact ⟨_, .source hread hnone (toOption_eq_some_iff.mp hm), hnames⟩
  obtain ⟨f, hf, hfdeps⟩ := Links.of_imports_only source .new "b" ["google/protobuf/any.proto"]
    (fun _ => m) rfl (by decide +kernel) (List.forall_mem_singleton.mpr hany)
  obtain ⟨l, hl, hldeps⟩ := Links.of_imports_only source .new "a"
    ["google/protobuf/type.proto", "b"] (fun q => if q = "b" then f else b) rfl (by decide +kernel)
    (List.forall_mem_cons.mpr ⟨htype, List.forall_mem_singleton.mpr hf⟩)
  have hpaths : ∀ path ∈ paths dividingRoots, path = "a" := by
    simp [paths, dividingRoots]
  have hroot : "a" ∈ paths dividingRoots := List.mem_cons_self
  obtain ⟨files, hfiles⟩ := exists_link_eq_ok_iff.mpr fun path hpath => ⟨l, hpaths path hpath ▸ hl⟩
  have hlb : l.Imports b := by simp [LinkedFile.Imports, hldeps]
  have hlf : l.Imports f := by simp [LinkedFile.Imports, hldeps]
  have hfm : f.Imports m := by simp [LinkedFile.Imports, hfdeps]
  refine ⟨files, k, m, hfiles, occurs_of_links hfiles hroot hl ((ReflTransGen.single hlb).tail hk),
    occurs_of_links hfiles hroot hl ((ReflTransGen.single hlf).tail hfm), ?_, ?_⟩
  · rw [hname, hany.name_eq .new]
  · intro heq
    rw [heq, hm] at hmessages
    exact absurd hmessages (by decide)

end Compiler

end ProtoSchema
