import Mathlib.Data.List.Nodup
import Mathlib.Logic.Relation
import ProtoSchema.LinkedFile

/-!
The files that can be reached over imports, and those that a file sees: its dependencies and, over
any number of steps, what they import publicly.
-/

namespace ProtoSchema.LinkedFile

open Relation List

def Imports (f g : LinkedFile) : Prop :=
  g ∈ f.dependencies

/-- The second file is a dependency that importers of the first see as well. -/
def PassesOn (f g : LinkedFile) : Prop :=
  g ∈ f.publicDependencies

def Sees (dependencies : List LinkedFile) (g : LinkedFile) : Prop :=
  ∃ d ∈ dependencies, ReflTransGen PassesOn d g

variable {f g : LinkedFile} {files : List LinkedFile}

theorem PassesOn.imports (h : f.PassesOn g) : f.Imports g :=
  mem_dependencies_of_mem_public h

theorem Sees.reached (h : Sees f.dependencies g) : TransGen Imports f g := by
  obtain ⟨d, hd, hpath⟩ := h
  have himport : f.Imports d := hd
  exact TransGen.head' himport (hpath.lift id fun _ _ => PassesOn.imports)

/-! ## What is visible -/

private theorem mem_foldr_see {ds seen : List LinkedFile}
    (step : ∀ d ∈ ds, ∀ seen, g ∈ see seen d → g ∈ seen ∨ ReflTransGen PassesOn d g)
    (h : g ∈ ds.foldr (fun d seen => see seen d) seen) :
    g ∈ seen ∨ ∃ d ∈ ds, ReflTransGen PassesOn d g := by
  induction ds with
  | nil => exact .inl h
  | cons d ds ih =>
    rcases step d mem_cons_self _ h with h | hpath
    · rcases ih (fun e he => step e (mem_cons_of_mem d he)) h with h | ⟨e, he, hpath⟩
      · exact .inl h
      · exact .inr ⟨e, mem_cons_of_mem d he, hpath⟩
    · exact .inr ⟨d, mem_cons_self, hpath⟩

theorem mem_see {seen : List LinkedFile} {f g : LinkedFile} (h : g ∈ see seen f) :
    g ∈ seen ∨ ReflTransGen PassesOn f g := by
  rw [see] at h
  split at h
  · exact .inl h
  · rw [foldr_attach (f := fun d seen => see seen d)] at h
    rcases mem_foldr_see (fun d hd seen hg => mem_see hg) h with h | ⟨d, hd, hpath⟩
    · rcases mem_append.mp h with h | h
      · exact .inl h
      · obtain rfl := mem_singleton.mp h
        exact .inr .refl
    · exact .inr (.head hd hpath)
termination_by sizeOf f
decreasing_by exact sizeOf_lt_of_mem (mem_dependencies_of_mem_public hd)

theorem sees_of_mem_visible {dependencies : List LinkedFile} (h : g ∈ visible dependencies) :
    Sees dependencies g := by
  have hfold : ∀ ds seen, g ∈ ds.foldl see seen → g ∈ seen ∨ Sees ds g := by
    intro ds
    induction ds with
    | nil =>
      intro seen hg
      exact .inl hg
    | cons d ds ih =>
      intro seen hg
      rcases ih _ hg with hg | ⟨e, he, hpath⟩
      · rcases mem_see hg with hg | hpath
        · exact .inl hg
        · exact .inr ⟨d, mem_cons_self, hpath⟩
      · exact .inr ⟨e, mem_cons_of_mem d he, hpath⟩
  rcases hfold dependencies [] h with hnil | hsees
  · cases hnil
  · exact hsees

/-! ## What is reached -/

/-- There is one file of each name among this one and those that it reaches. -/
def Coherent (f : LinkedFile) : Prop :=
  ∀ g h, ReflTransGen Imports f g → ReflTransGen Imports f h → g.name = h.name → g = h

theorem mem_reach {found queue : List LinkedFile} (hfound : ∀ h ∈ found, TransGen Imports f h)
    (hqueue : ∀ h ∈ queue, TransGen Imports f h) (hg : g ∈ reach found queue) :
    TransGen Imports f g := by
  fun_induction reach found queue with
  | case1 found => exact hfound g hg
  | case2 found q queue _ ih =>
    exact ih hfound (fun h hh => hqueue h (mem_cons_of_mem q hh)) hg
  | case3 found q queue _ ih =>
    have hq := hqueue q mem_cons_self
    apply ih _ _ hg
    · intro h hh
      rcases mem_append.mp hh with hh | hh
      · exact hfound h hh
      · exact mem_singleton.mp hh ▸ hq
    · intro h hh
      rcases mem_append.mp hh with hh | hh
      · exact hqueue h (mem_cons_of_mem q hh)
      · exact hq.tail hh

theorem reached_of_mem_transitiveDependencies (h : g ∈ f.transitiveDependencies) :
    TransGen Imports f g := by
  apply mem_reach _ _ h
  · simp
  · intro d hd
    exact .single hd

def NameIn (files : List LinkedFile) (name : String) : Prop :=
  ∃ g ∈ files, g.name = name

theorem NameIn.mono {more : List LinkedFile} {name : String} (h : NameIn files name)
    (hmore : ∀ g ∈ files, g ∈ more) : NameIn more name := by
  obtain ⟨g, hg, hname⟩ := h
  exact ⟨g, hmore g hg, hname⟩

theorem nameIn_iff_any {name : String} :
    NameIn files name ↔ (files.any fun g => g.name = name) = true := by
  simp [NameIn]

theorem nodup_names_concat (h : (files.map name).Nodup) (hf : ¬NameIn files f.name) :
    ((files ++ [f]).map name).Nodup := by
  rw [map_append, map_singleton]
  refine nodup_append.mpr ⟨h, nodup_singleton (name f), ?_⟩
  intro x hx y hy hxy
  obtain ⟨g, hg, rfl⟩ := mem_map.mp hx
  exact hf ⟨g, hg, hxy.trans (mem_singleton.mp hy)⟩

/-- A search ends with a file of each name that was found, waits, or is imported by one of these. -/
theorem reach_closed {found queue : List LinkedFile}
    (h : ∀ g ∈ found, ∀ d ∈ g.dependencies, NameIn (found ++ queue) d.name) :
    (∀ g ∈ found ++ queue, NameIn (reach found queue) g.name) ∧
      ∀ g ∈ reach found queue, ∀ d ∈ g.dependencies, NameIn (reach found queue) d.name := by
  fun_induction reach found queue with
  | case1 found =>
    rw [append_nil] at *
    exact ⟨fun g hg => ⟨g, hg, rfl⟩, h⟩
  | case2 found q queue hq ih =>
    obtain ⟨r, hr, hname⟩ : NameIn found q.name := nameIn_iff_any.mpr hq
    -- The file that waits is left out for one of its name.
    have hsame : ∀ name, NameIn (found ++ q :: queue) name → NameIn (found ++ queue) name := by
      rintro name ⟨g, hg, rfl⟩
      rcases mem_append.mp hg with hg | hg
      · exact ⟨g, mem_append_left _ hg, rfl⟩
      · rcases mem_cons.mp hg with rfl | hg
        · exact ⟨r, mem_append_left _ hr, hname⟩
        · exact ⟨g, mem_append_right _ hg, rfl⟩
    obtain ⟨hall, hclosed⟩ := ih fun g hg d hd => hsame _ (h g hg d hd)
    refine ⟨fun g hg => ?_, hclosed⟩
    obtain ⟨g', hg', heq⟩ := hsame g.name ⟨g, hg, rfl⟩
    exact heq ▸ hall g' hg'
  | case3 found q queue _ ih =>
    have hmore : ∀ g ∈ found ++ q :: queue, g ∈ found ++ [q] ++ (queue ++ q.dependencies) := by
      intro g hg
      rw [← append_assoc, append_assoc found, singleton_append]
      exact mem_append_left _ hg
    have hnext : ∀ g ∈ found ++ [q], ∀ d ∈ g.dependencies,
        NameIn (found ++ [q] ++ (queue ++ q.dependencies)) d.name := by
      intro g hg d hd
      rcases mem_append.mp hg with hg | hg
      · obtain ⟨r, hr, hname⟩ := h g hg d hd
        exact ⟨r, hmore r hr, hname⟩
      · obtain rfl := mem_singleton.mp hg
        exact ⟨d, mem_append_right _ (mem_append_right _ hd), rfl⟩
    obtain ⟨hall, hclosed⟩ := ih hnext
    exact ⟨fun g hg => hall g (hmore g hg), hclosed⟩

/-- Where names tell the files apart, every file that is reached is found. -/
theorem mem_transitiveDependencies (hf : f.Coherent) (hg : TransGen Imports f g) :
    g ∈ f.transitiveDependencies := by
  obtain ⟨hall, hclosed⟩ := @reach_closed [] f.dependencies (by simp)
  have hnamed : ∀ d, TransGen Imports f d → NameIn f.transitiveDependencies d.name →
      d ∈ f.transitiveDependencies := by
    rintro d hd ⟨r, hr, hname⟩
    have hreached := reached_of_mem_transitiveDependencies hr
    exact hf r d hreached.to_reflTransGen hd.to_reflTransGen hname ▸ hr
  induction hg with
  | single hd => exact hnamed _ (.single hd) (hall _ hd)
  | tail hpath hd ih => exact hnamed _ (hpath.tail hd) (hclosed _ ih _ hd)

end ProtoSchema.LinkedFile
