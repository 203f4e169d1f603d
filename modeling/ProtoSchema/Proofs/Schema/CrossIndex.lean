import Mathlib.Data.List.Induction
import Mathlib.Data.List.Nodup
import Mathlib.Data.List.Perm.Subperm
import ProtoSchema.Proofs.Schema.Group

/-!
The two ways in which a message says which field is in which oneof. They agree in every message
whose fields were declared in groups and whose optional fields then got oneofs of their own. Main
statement: `crossIndexed_withSyntheticOneofs`.
-/

namespace ProtoSchema

open List

variable {i : Nat} {m : Message}

/-- A list of fields and a list of oneofs point at each other, and the members of each oneof stand
side by side. -/
structure Paired (fields : List Field) (oneofs : List Oneof) : Prop where
  mem_iff : ∀ (i : Nat) (f : Field), fields[i]? = some f → ∀ k : Nat,
    f.oneofIndex = some k ↔ ∃ o, oneofs[k]? = some o ∧ i ∈ o.fields
  run : ∀ o ∈ oneofs, ∃ start n, o.fields = List.range' start n ∧ start + n ≤ fields.length

namespace Message

/-- The oneofs `made` for single fields come behind the `declared` ones. Their members are the
fields that are marked optional, and their names are not used for anything else. -/
structure Furnishes (m : Message) (declared made : List Oneof) : Prop where
  oneofs : m.oneofs = declared ++ made
  optional_iff : ∀ (i : Nat) (f : Field), m.fields[i]? = some f →
    (f.proto3Optional = true ↔ ∃ o ∈ made, i ∈ o.fields)
  single : ∀ o ∈ made, ∃ i, o.fields = [i]
  nodup : (made.map Oneof.name).Nodup
  ne_declared : ∀ o ∈ made, ∀ d ∈ declared, o.name ≠ d.name
  ne_field : ∀ o ∈ made, ∀ f ∈ m.fields, o.name ≠ f.name

structure CrossIndexed (m : Message) : Prop where
  paired : Paired m.fields m.oneofs
  furnished : ∃ declared made, m.Furnishes declared made

end Message

namespace Paired

variable {fields : List Field} {oneofs : List Oneof}

variable {o : Oneof} {f : Field}

theorem lt_length (h : Paired fields oneofs) (ho : o ∈ oneofs) (hi : i ∈ o.fields) :
    i < fields.length := by
  obtain ⟨start, n, hrun, hle⟩ := h.run o ho
  rw [hrun, mem_range'_1] at hi
  omega

theorem nil : Paired [] [] :=
  ⟨fun _ _ hf => by simp at hf, fun _ ho => by simp at ho⟩

/-- A field of its own is in no oneof. -/
theorem concat (h : Paired fields oneofs) (hf : f.oneofIndex = none) :
    Paired (fields ++ [f]) oneofs := by
  refine ⟨fun i g hg k => ?_, fun o ho => ?_⟩
  · rcases Nat.lt_or_ge i fields.length with hlt | hge
    · rw [getElem?_append_left hlt] at hg
      exact h.mem_iff i g hg k
    · rw [getElem?_append_right hge, getElem?_singleton] at hg
      split at hg
      · cases hg
        rw [hf]
        refine ⟨fun hk => by simp at hk, fun ⟨o, ho, hi⟩ => ?_⟩
        have hlt := h.lt_length (mem_of_getElem? ho) hi
        omega
      · cases hg
  · obtain ⟨start, n, hrun, hle⟩ := h.run o ho
    exact ⟨start, n, hrun, by simp only [length_append]; omega⟩

/-- Where a field is a member once there is a further oneof. -/
theorem exists_mem_concat_iff {k : Nat} :
    (∃ o', (oneofs ++ [o])[k]? = some o' ∧ i ∈ o'.fields) ↔
      (∃ o', oneofs[k]? = some o' ∧ i ∈ o'.fields) ∨ oneofs.length = k ∧ i ∈ o.fields := by
  rcases Nat.lt_trichotomy k oneofs.length with hlt | rfl | hgt
  · have hne : oneofs.length ≠ k := by omega
    simp [getElem?_append_left hlt, hne]
  · simp
  · have hnone : (oneofs ++ [o])[k]? = none := by
      rw [getElem?_eq_none_iff, length_append, length_singleton]
      omega
    have hne : oneofs.length ≠ k := by omega
    simp [hnone, getElem?_eq_none (Nat.le_of_lt hgt), hne]

/-- A oneof comes with its members, behind all fields. -/
theorem append (h : Paired fields oneofs) {members : List Field}
    (ho : o.fields = List.range' fields.length members.length)
    (hmembers : ∀ f ∈ members, f.oneofIndex = some oneofs.length) :
    Paired (fields ++ members) (oneofs ++ [o]) := by
  refine ⟨fun i f hf k => ?_, fun o' ho' => ?_⟩
  · rw [exists_mem_concat_iff, ho, mem_range'_1]
    rcases Nat.lt_or_ge i fields.length with hlt | hge
    · rw [getElem?_append_left hlt] at hf
      rw [h.mem_iff i f hf k, or_iff_left]
      omega
    · rw [getElem?_append_right hge] at hf
      have hlt := (List.getElem?_eq_some_iff.mp hf).1
      have hnew : ¬∃ o', oneofs[k]? = some o' ∧ i ∈ o'.fields := by
        rintro ⟨o', ho', hi⟩
        have hin := h.lt_length (mem_of_getElem? ho') hi
        omega
      rw [hmembers f (mem_of_getElem? hf), or_iff_right hnew, Option.some.injEq]
      omega
  · rcases mem_append.mp ho' with hmem | hmem
    · obtain ⟨start, n, hrun, hle⟩ := h.run o' hmem
      exact ⟨start, n, hrun, by simp only [length_append]; omega⟩
    · rw [mem_singleton.mp hmem]
      exact ⟨fields.length, members.length, ho, by simp⟩

/-- A field that is in no oneof gets one of its own. -/
theorem modify (h : Paired fields oneofs) (hf : fields[i]? = some f) (hfree : f.oneofIndex = none)
    (ho : o.fields = [i]) :
    Paired (fields.modify i fun f => { f with oneofIndex := some oneofs.length })
      (oneofs ++ [o]) := by
  refine ⟨fun j g hg k => ?_, fun o' ho' => ?_⟩
  · rw [exists_mem_concat_iff, ho, mem_singleton]
    by_cases hij : i = j
    · subst hij
      rw [getElem?_modify_eq, hf] at hg
      cases hg
      have hold : ¬∃ o', oneofs[k]? = some o' ∧ i ∈ o'.fields := by
        rw [← h.mem_iff i f hf k, hfree]
        simp
      rw [or_iff_right hold]
      simp
    · rw [getElem?_modify_ne _ _ hij] at hg
      rw [h.mem_iff j g hg k, or_iff_left]
      exact fun heq => hij heq.2.symm
  · rw [length_modify]
    rcases mem_append.mp ho' with hmem | hmem
    · exact h.run o' hmem
    · rw [mem_singleton.mp hmem]
      exact ⟨i, 1, ho, (List.getElem?_eq_some_iff.mp hf).1⟩

end Paired

/-! ## Groups -/

namespace FieldGroup

def Plain : FieldGroup → Prop
  | single _ => True
  | oneof _ _ members => ∀ f ∈ members, f.proto3Optional = false

theorem paired_place {placed : List Field × List Oneof} (h : Paired placed.1 placed.2)
    (g : FieldGroup) : Paired (g.place placed).1 (g.place placed).2 := by
  cases g with
  | single f => exact h.concat rfl
  | oneof name options members =>
    refine h.append (by simp) fun f hf => ?_
    obtain ⟨f, _, rfl⟩ := mem_map.mp hf
    rfl

theorem paired_placeAll (gs : List FieldGroup) : Paired (placeAll gs).1 (placeAll gs).2 := by
  induction gs using List.reverseRecOn with
  | nil => exact .nil
  | append_singleton gs g ih =>
    rw [placeAll_concat]
    exact paired_place ih g

/-- A field that is marked optional is declared by itself. -/
theorem oneofIndex_placeAll {gs : List FieldGroup} (h : ∀ g ∈ gs, g.Plain) {f : Field}
    (hf : f ∈ (placeAll gs).1) (hmarked : f.proto3Optional = true) : f.oneofIndex = none := by
  induction gs using List.reverseRecOn with
  | nil => cases hf
  | append_singleton gs g ih =>
    rw [placeAll_concat] at hf
    have hold : f ∈ (placeAll gs).1 → f.oneofIndex = none := ih fun g hg => h g (by simp [hg])
    cases g with
    | single g =>
      rcases mem_append.mp hf with hf | hf
      · exact hold hf
      · rw [mem_singleton.mp hf]
        rfl
    | oneof name options members =>
      rcases mem_append.mp hf with hf | hf
      · exact hold hf
      · obtain ⟨f₀, hf₀, rfl⟩ := mem_map.mp hf
        have hplain : (oneof name options members).Plain := h _ (by simp)
        exact absurd hmarked (by simp [hplain f₀ hf₀])

end FieldGroup

namespace Message

def FromGroups (m : Message) (gs : List FieldGroup) : Prop :=
  (m.fields, m.oneofs) = FieldGroup.placeAll gs ∧ ∀ g ∈ gs, g.Plain

/-! ## Names that are not taken -/

private theorem nodup_candidates (base : List Char) (n : Nat) :
    ((List.range n).map fun k => String.ofList (List.replicate k 'X' ++ base)).Nodup := by
  refine List.Nodup.map (fun k l h => ?_) nodup_range
  have hlength := congrArg List.length (String.ofList_injective h)
  simp only [length_append, length_replicate] at hlength
  omega

/-- There are more candidates than names that are taken. -/
theorem freshName_notMem (taken : List String) (base : String) : freshName taken base ∉ taken := by
  unfold freshName
  dsimp only
  cases hfind : ((List.range (taken.length + 1)).map fun k =>
      String.ofList (List.replicate k 'X' ++ base.toList)).find?
        fun name => !taken.contains name with
  | some name =>
    have hfree := find?_some hfind
    rw [Option.getD_some]
    simpa using hfree
  | none =>
    exfalso
    have hall : ((List.range (taken.length + 1)).map fun k =>
        String.ofList (List.replicate k 'X' ++ base.toList)) ⊆ taken := by
      intro name hname
      have hnot := find?_eq_none.mp hfind name hname
      simpa using hnot
    have hle := (subperm_of_subset (nodup_candidates base.toList _) hall).length_le
    simp only [length_map, length_range] at hle
    omega

/-! ## Oneofs for optional fields -/

/-- On the way to `CrossIndexed`: the fields with the indexes `waiting` have no oneof yet. -/
structure Furnishing (m : Message) (declared made : List Oneof) (waiting : List Nat) : Prop where
  paired : Paired m.fields m.oneofs
  oneofs : m.oneofs = declared ++ made
  optional_iff : ∀ (i : Nat) (f : Field), m.fields[i]? = some f →
    (f.proto3Optional = true ↔ i ∈ waiting ∨ ∃ o ∈ made, i ∈ o.fields)
  waiting : ∀ i ∈ waiting, ∃ f, m.fields[i]? = some f ∧ f.oneofIndex = none
  single : ∀ o ∈ made, ∃ i, o.fields = [i]
  nodup : (made.map Oneof.name).Nodup
  ne_declared : ∀ o ∈ made, ∀ d ∈ declared, o.name ≠ d.name
  ne_field : ∀ o ∈ made, ∀ f ∈ m.fields, o.name ≠ f.name

/-- A field gets a oneof of its own, with a name that is not taken. -/
theorem exists_addSyntheticOneof {f : Field} (hf : m.fields[i]? = some f) :
    ∃ o : Oneof, o.fields = [i] ∧ o.name ∉ m.oneofs.map Oneof.name ∧
      o.name ∉ m.fields.map Field.name ∧ m.addSyntheticOneof i =
        { m with
          fields := m.fields.modify i fun f => { f with oneofIndex := some m.oneofs.length }
          oneofs := m.oneofs ++ [o] } := by
  let taken := m.oneofs.map Oneof.name ++ m.fields.map Field.name
  have hfresh := freshName_notMem taken ("_" ++ f.name)
  refine ⟨{ name := freshName taken ("_" ++ f.name), fields := [i] }, rfl, ?_, ?_, ?_⟩
  · exact fun hmem => hfresh (mem_append_left _ hmem)
  · exact fun hmem => hfresh (mem_append_right _ hmem)
  · simp only [addSyntheticOneof, hf, taken]

/-- Nothing but the places of fields changes. -/
theorem exists_of_getElem?_addSyntheticOneof {j : Nat} {g : Field}
    (hg : (m.addSyntheticOneof i).fields[j]? = some g) :
    ∃ g₀, m.fields[j]? = some g₀ ∧ g.name = g₀.name ∧ g.proto3Optional = g₀.proto3Optional := by
  have hsame := congrArg (·[j]?) (m.furnished_addSyntheticOneof i).unplaced
  simp only [getElem?_map, hg, Option.map_some] at hsame
  obtain ⟨g₀, hg₀, heq⟩ := Option.map_eq_some_iff.mp hsame.symm
  exact ⟨g₀, hg₀, (congrArg Field.name heq.symm :), (congrArg Field.proto3Optional heq.symm :)⟩

variable {declared made : List Oneof} {waiting : List Nat}

/-- The first of the fields that wait gets its oneof. -/
theorem Furnishing.step (h : m.Furnishing declared made (i :: waiting)) (hi : i ∉ waiting) :
    ∃ o, (m.addSyntheticOneof i).Furnishing declared (made ++ [o]) waiting := by
  obtain ⟨f, hf, hfree⟩ := h.waiting i (by simp)
  obtain ⟨o, ho, hnames, hfields, hadded⟩ := exists_addSyntheticOneof hf
  have honeofs : (m.addSyntheticOneof i).oneofs = m.oneofs ++ [o] := by rw [hadded]
  refine ⟨o, ?_⟩
  constructor
  case paired =>
    rw [hadded]
    exact h.paired.modify hf hfree ho
  case oneofs => rw [honeofs, h.oneofs, append_assoc]
  case optional_iff =>
    intro j g hg
    obtain ⟨g₀, hg₀, _, hmarked⟩ := exists_of_getElem?_addSyntheticOneof hg
    have hnew : (∃ o' ∈ made ++ [o], j ∈ o'.fields) ↔ (∃ o' ∈ made, j ∈ o'.fields) ∨ j = i := by
      simp only [mem_append, mem_singleton, or_and_right, exists_or, exists_eq_left, ho]
    rw [hmarked, h.optional_iff j g₀ hg₀, hnew, mem_cons, or_assoc, or_comm (a := j = i), or_assoc]
  case waiting =>
    intro j hj
    have hne : j ≠ i := fun heq => hi (heq ▸ hj)
    obtain ⟨g₀, hg₀, hnone⟩ := h.waiting j (by simp [hj])
    refine ⟨g₀, ?_, hnone⟩
    rw [(m.furnished_addSyntheticOneof i).others j (by simpa using hne), hg₀]
  case single =>
    rw [forall_mem_append, forall_mem_singleton]
    exact ⟨h.single, i, ho⟩
  case nodup =>
    rw [map_append, map_singleton]
    refine List.Nodup.append h.nodup (nodup_singleton _) ?_
    simp only [disjoint_singleton]
    intro hmem
    rw [h.oneofs, map_append] at hnames
    exact hnames (mem_append_right _ hmem)
  case ne_declared =>
    rw [forall_mem_append, forall_mem_singleton]
    refine ⟨h.ne_declared, fun d hd heq => hnames ?_⟩
    rw [heq, h.oneofs]
    exact mem_map_of_mem (mem_append_left _ hd)
  case ne_field =>
    rw [forall_mem_append, forall_mem_singleton]
    have hsame : ∀ g ∈ (m.addSyntheticOneof i).fields, ∃ g₀ ∈ m.fields, g.name = g₀.name := by
      intro g hg
      obtain ⟨j, hj⟩ := mem_iff_getElem?.mp hg
      obtain ⟨g₀, hg₀, hname, _⟩ := exists_of_getElem?_addSyntheticOneof hj
      exact ⟨g₀, mem_of_getElem? hg₀, hname⟩
    refine ⟨fun o' ho' g hg => ?_, fun g hg heq => ?_⟩
    · obtain ⟨g₀, hg₀, hname⟩ := hsame g hg
      exact hname ▸ h.ne_field o' ho' g₀ hg₀
    · obtain ⟨g₀, hg₀, hname⟩ := hsame g hg
      rw [heq, hname] at hfields
      exact hfields (mem_map_of_mem hg₀)

theorem Furnishing.foldl (h : m.Furnishing declared made waiting) (hnodup : waiting.Nodup) :
    ∃ made', (waiting.foldl addSyntheticOneof m).Furnishing declared made' [] := by
  induction waiting generalizing m made with
  | nil => exact ⟨made, h⟩
  | cons i waiting ih =>
    obtain ⟨hi, hrest⟩ := nodup_cons.mp hnodup
    obtain ⟨o, ho⟩ := h.step hi
    exact ih ho hrest

theorem mem_optionalIndexes_iff :
    i ∈ m.optionalIndexes ↔ ∃ f, m.fields[i]? = some f ∧ f.proto3Optional = true := by
  unfold optionalIndexes
  rw [mem_filter, mem_range]
  constructor
  · rintro ⟨hlt, hmarked⟩
    refine ⟨m.fields[i], getElem?_eq_getElem hlt, ?_⟩
    simpa [getElem?_eq_getElem hlt] using hmarked
  · rintro ⟨f, hf, hmarked⟩
    exact ⟨(List.getElem?_eq_some_iff.mp hf).1, by simp [hf, hmarked]⟩

/-- What a message says about its oneofs agrees once its optional fields have got theirs. -/
theorem crossIndexed_withSyntheticOneofs {gs : List FieldGroup} (h : m.FromGroups gs) :
    m.withSyntheticOneofs.CrossIndexed ∧
      ∃ made, m.withSyntheticOneofs.Furnishes m.oneofs made := by
  obtain ⟨hplaced, hplain⟩ := h
  have hfields : m.fields = (FieldGroup.placeAll gs).1 := congrArg Prod.fst hplaced
  have honeofs : m.oneofs = (FieldGroup.placeAll gs).2 := congrArg Prod.snd hplaced
  have hstart : m.Furnishing m.oneofs [] m.optionalIndexes := by
    refine ⟨?_, by simp, fun i f hf => ?_, fun i hi => ?_, by simp, by simp, by simp, by simp⟩
    · rw [hfields, honeofs]
      exact FieldGroup.paired_placeAll gs
    · simp [mem_optionalIndexes_iff, hf]
    · obtain ⟨f, hf, hmarked⟩ := mem_optionalIndexes_iff.mp hi
      refine ⟨f, hf, FieldGroup.oneofIndex_placeAll hplain ?_ hmarked⟩
      rw [← hfields]
      exact mem_of_getElem? hf
  obtain ⟨made, hdone⟩ := hstart.foldl (nodup_range.filter _)
  have hmade : m.withSyntheticOneofs.Furnishes m.oneofs made :=
    ⟨hdone.oneofs, fun i f hf => by simpa using hdone.optional_iff i f hf, hdone.single,
      hdone.nodup, hdone.ne_declared, hdone.ne_field⟩
  exact ⟨⟨hdone.paired, _, _, hmade⟩, made, hmade⟩

end Message

end ProtoSchema
