/-!
Texts under the paths by which they are imported.
-/

namespace ProtoSchema

abbrev Sources :=
  List (String × String)

namespace Sources

def paths (sources : Sources) : List String :=
  sources.map Prod.fst

/-- Each path once, in order. -/
def sortedPaths (sources : Sources) : List String :=
  sources.paths.eraseDups.mergeSort

/-- How many texts there are apart from those under the paths of `chain`. -/
def countOutside (sources : Sources) (chain : List String) : Nat :=
  (sources.paths.filter (· ∉ chain)).length

theorem mem_paths_of_lookup {sources : Sources} {path text : String}
    (h : sources.lookup path = some text) : path ∈ sources.paths := by
  induction sources with
  | nil => simp at h
  | cons entry sources ih =>
    obtain ⟨p, t⟩ := entry
    rw [List.lookup_cons] at h
    by_cases hp : path = p
    · exact List.mem_map.mpr ⟨(p, t), List.mem_cons_self, hp.symm⟩
    · have hne : (path == p) = false := beq_eq_false_iff_ne.mpr hp
      rw [hne] at h
      exact List.mem_cons_of_mem _ (ih h)

/-- A text leaves fewer others when its path joins the chain. -/
theorem countOutside_lt {sources : Sources} {path text : String} {chain : List String}
    (h : sources.lookup path = some text) (hc : path ∉ chain) :
    sources.countOutside (path :: chain) < sources.countOutside chain := by
  have hsplit : sources.paths.filter (· ∉ path :: chain) =
      (sources.paths.filter (· ∉ chain)).filter (· ≠ path) := by
    rw [List.filter_filter]
    refine List.filter_congr fun p _ => ?_
    simp [List.mem_cons, not_or]
  rw [countOutside, countOutside, hsplit]
  refine List.length_filter_lt_length_iff_exists.mpr ⟨path, ?_, by simp⟩
  exact List.mem_filter.mpr ⟨mem_paths_of_lookup h, by simpa using hc⟩

end Sources

end ProtoSchema
