import ProtoSchema.Proofs.Link.Reach

/-!
The files that are visible over some dependencies are their closure under public imports.

The search goes into a file before it is done with the files that led to it, so in the middle of it
some files are seen whose public imports are not. `Explores` says what a stretch of the search adds
to any list of files that are seen already, and stretches can be put together. Main statement:
`visible_eq_public_closure`.
-/

namespace ProtoSchema.LinkedFile

open Relation List

def PublicImport (f g : LinkedFile) : Prop :=
  ∃ i ∈ f.file.publicImports, f.dependencies[i]? = some g

theorem passesOn_eq_publicImport : PassesOn = PublicImport := by
  funext f g
  exact propext mem_filterMap

/-- Names tell apart the files that can be reached from `files`, these included. -/
def Distinguished (files : List LinkedFile) : Prop :=
  ∀ g h, (∃ d ∈ files, ReflTransGen Imports d g) → (∃ d ∈ files, ReflTransGen Imports d h) →
    g.name = h.name → g = h

/-! ## Stretches of the search -/

/-- Seeing `files` turns `seen` into `after`. What was seen stays, no name comes twice, each of the
files is there by its name, and so is what the new ones import publicly. -/
structure Explores (files seen after : List LinkedFile) : Prop where
  kept : ∀ g ∈ seen, g ∈ after
  distinct : (seen.map name).Nodup → (after.map name).Nodup
  found : ∀ f ∈ files, NameIn after f.name
  closed : ∀ g ∈ after, g ∉ seen → ∀ d, g.PassesOn d → NameIn after d.name

namespace Explores

variable {files seen after : List LinkedFile} {f : LinkedFile}

theorem nothing (seen : List LinkedFile) : Explores [] seen seen where
  kept _ hg := hg
  distinct h := h
  found _ hf := absurd hf not_mem_nil
  closed _ hg hnew := absurd hg hnew

/-- A file whose name is taken changes nothing. -/
theorem again (h : NameIn seen f.name) : Explores [f] seen seen where
  kept _ hg := hg
  distinct h := h
  found _ hg := mem_singleton.mp hg ▸ h
  closed _ hg hnew := absurd hg hnew

theorem cons {middle : List LinkedFile} (h : Explores files seen middle)
    (hf : Explores [f] middle after) : Explores (f :: files) seen after where
  kept g hg := hf.kept g (h.kept g hg)
  distinct hseen := hf.distinct (h.distinct hseen)
  found := forall_mem_cons.mpr ⟨hf.found f mem_cons_self, fun g hg => (h.found g hg).mono hf.kept⟩
  closed := by
    intro g hg hnew d hd
    by_cases hmiddle : g ∈ middle
    · exact (h.closed g hmiddle hnew d hd).mono hf.kept
    · exact hf.closed g hg hmiddle d hd

/-- A new file is seen once all that it passes on is. -/
theorem enter (hf : ¬NameIn seen f.name) (h : Explores f.publicDependencies (seen ++ [f]) after) :
    Explores [f] seen after where
  kept g hg := h.kept g (mem_append_left _ hg)
  distinct hseen := h.distinct (nodup_names_concat hseen hf)
  found g hg := ⟨g, h.kept g (mem_append_right _ hg), rfl⟩
  closed := by
    intro g hg hnew d hd
    by_cases hstart : g ∈ seen ++ [f]
    · rcases mem_append.mp hstart with hseen | hself
      · exact absurd hseen hnew
      · rw [mem_singleton.mp hself] at hd
        exact h.found d hd
    · exact h.closed g hg hstart d hd

end Explores

theorem explores_foldr {ds seen : List LinkedFile}
    (step : ∀ d ∈ ds, ∀ seen, Explores [d] seen (see seen d)) :
    Explores ds seen (ds.foldr (fun d seen => see seen d) seen) := by
  induction ds with
  | nil => exact .nothing seen
  | cons d ds ih =>
    have hrest := ih fun e he => step e (mem_cons_of_mem d he)
    exact hrest.cons (step d mem_cons_self _)

theorem explores_see (seen : List LinkedFile) (f : LinkedFile) :
    Explores [f] seen (see seen f) := by
  rw [see]
  split
  · next h => exact .again (nameIn_iff_any.mpr h)
  · next h =>
    rw [foldr_attach (f := fun d seen => see seen d)]
    exact .enter (fun hname => h (nameIn_iff_any.mp hname))
      (explores_foldr fun d hd seen => explores_see seen d)
termination_by sizeOf f
decreasing_by exact sizeOf_lt_of_mem (mem_dependencies_of_mem_public hd)

theorem explores_visible (dependencies : List LinkedFile) :
    Explores dependencies [] (visible dependencies) := by
  have h : Explores dependencies.reverse []
      (dependencies.reverse.foldr (fun d seen => see seen d) []) :=
    explores_foldr fun d _ seen => explores_see seen d
  rw [foldr_reverse] at h
  exact ⟨h.kept, h.distinct, fun f hf => h.found f (mem_reverse.mpr hf), h.closed⟩

/-! ## The public closure -/

/-- Where names tell the files apart, every file that an importer sees is found. -/
theorem mem_visible {dependencies : List LinkedFile} (h : Distinguished dependencies)
    {g : LinkedFile} (hg : Sees dependencies g) : g ∈ visible dependencies := by
  have hexplores := explores_visible dependencies
  have hreached : ∀ k, Sees dependencies k → ∃ d ∈ dependencies, ReflTransGen Imports d k := by
    rintro k ⟨d, hd, hpath⟩
    exact ⟨d, hd, hpath.lift id fun _ _ => PassesOn.imports⟩
  -- the search may stop at a file of the same name, which is the same file here
  have hnamed : ∀ k, Sees dependencies k → NameIn (visible dependencies) k.name →
      k ∈ visible dependencies := by
    rintro k hk ⟨r, hr, hname⟩
    have hsame := h r k (hreached r (sees_of_mem_visible hr)) (hreached k hk) hname
    exact hsame ▸ hr
  obtain ⟨d, hd, hpath⟩ := hg
  induction hpath with
  | refl => exact hnamed d ⟨d, hd, .refl⟩ (hexplores.found d hd)
  | tail hpath hstep ih =>
    exact hnamed _ ⟨d, hd, hpath.tail hstep⟩ (hexplores.closed _ ih not_mem_nil _ hstep)

/-- Visibility is the public closure: the visible files are the dependencies and what can be reached
from them over public imports alone, each of these once. -/
theorem visible_eq_public_closure (dependencies : List LinkedFile)
    (h : Distinguished dependencies) :
    (visible dependencies).Nodup ∧
      ∀ g, g ∈ visible dependencies ↔ ∃ d ∈ dependencies, ReflTransGen PublicImport d g := by
  refine ⟨((explores_visible dependencies).distinct List.nodup_nil).of_map, fun g => ?_⟩
  rw [← passesOn_eq_publicImport]
  exact ⟨sees_of_mem_visible, mem_visible h⟩

/-- Names tell the files apart that are reached if they do so in a list that is closed under
imports. -/
theorem distinguished_of_closed {files : List LinkedFile} (all : List LinkedFile)
    (hfiles : ∀ f ∈ files, f ∈ all) (hclosed : ∀ g ∈ all, ∀ d ∈ g.dependencies, d ∈ all)
    (hnames : (all.map name).Nodup) :
    Distinguished files := by
  have hreached : ∀ g, (∃ d ∈ files, ReflTransGen Imports d g) → g ∈ all := by
    rintro g ⟨d, hd, hpath⟩
    induction hpath with
    | refl => exact hfiles d hd
    | tail _ hstep ih => exact hclosed _ ih _ hstep
  intro g h hg hh hname
  exact inj_on_of_nodup_map hnames (hreached g hg) (hreached h hh) hname

theorem Distinguished.coherent {files : List LinkedFile} {f : LinkedFile} (h : Distinguished files)
    (hf : f ∈ files) : f.Coherent :=
  fun g k hg hk => h g k ⟨f, hf, hg⟩ ⟨f, hf, hk⟩

def importing (name : String) (dependencies : List LinkedFile) (publicImports : List Nat) :
    LinkedFile :=
  ⟨{ name, imports := dependencies.map LinkedFile.name, publicImports }, dependencies, []⟩

def diamond : List LinkedFile :=
  [importing "a" [importing "d" [] [], importing "c" [] []] [1],
    importing "b" [importing "c" [] []] [0]]

theorem visible_eq_public_closure_diamond :
    Distinguished diamond ∧ (visible diamond).Nodup ∧
      ∀ g, g ∈ visible diamond ↔ ∃ d ∈ diamond, ReflTransGen PublicImport d g := by
  have h : Distinguished diamond := by
    refine distinguished_of_closed (diamond ++ [importing "c" [] [], importing "d" [] []]) ?_ ?_ ?_
    · exact fun f hf => List.mem_append_left _ hf
    · simp [diamond, importing]
    · decide
  exact ⟨h, visible_eq_public_closure diamond h⟩

example : (visible diamond).map name = ["a", "c", "b"] := by
  decide +kernel

end ProtoSchema.LinkedFile
