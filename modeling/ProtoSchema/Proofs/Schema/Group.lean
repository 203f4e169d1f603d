import ProtoSchema.Schema.Oneof
import ProtoSchema.Schema.Print

/-!
The fields of a message in the groups they are declared in. A group is a field of its own, or a
oneof with its members. Fields are printed group by group, and a oneof that was made for a field
marked optional is not printed.
-/

namespace ProtoSchema

open List

def Field.unplaced (f : Field) : Field :=
  { f with oneofIndex := none }

/-- A declaration among the fields of a message. -/
inductive FieldGroup where
  | single (f : Field)
  | oneof (name : String) (options : Options) (members : List Field)

namespace FieldGroup

def fields : FieldGroup → List Field
  | single f => [f]
  | oneof _ _ members => members

def place (placed : List Field × List Oneof) : FieldGroup → List Field × List Oneof
  | single f => (placed.1 ++ [f.unplaced], placed.2)
  | oneof name options members =>
    (placed.1 ++ members.map fun f => { f with oneofIndex := some placed.2.length },
      placed.2 ++ [⟨name, List.range' placed.1.length members.length, options⟩])

def placeAll (gs : List FieldGroup) : List Field × List Oneof :=
  gs.foldl place ([], [])

def lines (nested : List Message) (dialect : Dialect) : FieldGroup → List Line
  | single f => [f.line nested dialect false]
  | oneof name options members =>
    Line.block ("oneof " ++ name ++ " \x7b")
      (Options.lines options ++ members.map fun f => f.line nested dialect true) "\x7d"

def oneof? (start : Nat) : FieldGroup → Option Oneof
  | single _ => none
  | oneof name options members => some ⟨name, List.range' start members.length, options⟩

def Proper : FieldGroup → Prop
  | single _ => True
  | oneof _ _ members => members ≠ [] ∧ ∀ f ∈ members, f.proto3Optional = false

theorem Proper.fields_ne_nil {g : FieldGroup} (h : g.Proper) : g.fields ≠ [] := by
  cases g with
  | single => simp [fields]
  | oneof => exact h.1

theorem map_unplaced_place (placed : List Field × List Oneof) (g : FieldGroup) :
    (g.place placed).1.map Field.unplaced =
      placed.1.map Field.unplaced ++ g.fields.map Field.unplaced := by
  cases g <;> simp [place, fields, Field.unplaced]

variable (gs : List FieldGroup)

private theorem map_unplaced_foldl (placed : List Field × List Oneof) :
    (gs.foldl place placed).1.map Field.unplaced =
      placed.1.map Field.unplaced ++ (gs.flatMap fields).map Field.unplaced := by
  induction gs generalizing placed with
  | nil => simp
  | cons g gs ih => simp [ih, map_unplaced_place]

private theorem prefix_foldl (placed : List Field × List Oneof) :
    placed.1 <+: (gs.foldl place placed).1 ∧ placed.2 <+: (gs.foldl place placed).2 := by
  induction gs generalizing placed with
  | nil => exact ⟨prefix_rfl, prefix_rfl⟩
  | cons g gs ih =>
    obtain ⟨hfields, honeofs⟩ := ih (g.place placed)
    cases g with
    | single f => exact ⟨(prefix_append _ _).trans hfields, honeofs⟩
    | oneof name options members =>
      exact ⟨(prefix_append _ _).trans hfields, (prefix_append _ _).trans honeofs⟩

theorem map_unplaced_placeAll :
    (placeAll gs).1.map Field.unplaced = (gs.flatMap fields).map Field.unplaced :=
  map_unplaced_foldl gs ([], [])

/-- Fields that are those of groups, their places apart, come from one group each. -/
theorem exists_mem_of_map_unplaced {fs : List Field} {gs : List FieldGroup} {f : Field}
    (h : fs.map Field.unplaced = (gs.flatMap fields).map Field.unplaced) (hf : f ∈ fs) :
    ∃ g ∈ gs, ∃ f₀ ∈ g.fields, f₀.unplaced = f.unplaced := by
  have hmem : f.unplaced ∈ (gs.flatMap fields).map Field.unplaced := by
    rw [← h]
    exact mem_map_of_mem hf
  obtain ⟨f₀, hf₀, hsame⟩ := mem_map.mp hmem
  obtain ⟨g, hg, hf₀⟩ := mem_flatMap.mp hf₀
  exact ⟨g, hg, f₀, hf₀, hsame⟩

theorem length_placeAll : (placeAll gs).1.length = (gs.flatMap fields).length := by
  simpa using congrArg List.length (map_unplaced_placeAll gs)

theorem placeAll_concat (g : FieldGroup) : placeAll (gs ++ [g]) = g.place (placeAll gs) := by
  simp [placeAll]

/-- The fields and oneofs up to a group stay where they are when more groups follow. -/
theorem prefix_placeAll (pre post : List FieldGroup) :
    (placeAll pre).1 <+: (placeAll (pre ++ post)).1 ∧
      (placeAll pre).2 <+: (placeAll (pre ++ post)).2 := by
  rw [placeAll, placeAll, foldl_append]
  exact prefix_foldl post _

end FieldGroup

namespace Message

def addGroup (m : Message) (g : FieldGroup) : Message :=
  { m with
    fields := (g.place (m.fields, m.oneofs)).1
    oneofs := (g.place (m.fields, m.oneofs)).2 }

theorem modify_length_concat {α : Type} (xs : List α) (x : α) (change : α → α) :
    (xs ++ [x]).modify xs.length change = xs ++ [change x] := by
  induction xs with
  | nil => rfl
  | cons y xs ih => exact congrArg (y :: ·) ih

variable (m : Message) (name : String) (options : Options) (members : List Field)

theorem addField_some (f : Field) :
    (m.addGroup (.oneof name options members)).addField (some m.oneofs.length) f none =
      m.addGroup (.oneof name options (members ++ [f])) := by
  simp [addGroup, FieldGroup.place, addField, modify_length_concat, range'_concat]

theorem modify_oneofs_addGroup (t : Setting) :
    (m.addGroup (.oneof name options members)).oneofs.modify m.oneofs.length
        (fun o => { o with options := o.options ++ [t] }) =
      (m.addGroup (.oneof name (options ++ [t]) members)).oneofs := by
  simp [addGroup, FieldGroup.place, modify_length_concat]

end Message

/-! ## Oneofs made for optional fields -/

namespace Message

/-- `m'` is `m` with further oneofs for the fields with the given indexes. -/
structure Furnished (m m' : Message) (indexes : List Nat) : Prop where
  same : m' = { m with fields := m'.fields, oneofs := m'.oneofs }
  unplaced : m'.fields.map Field.unplaced = m.fields.map Field.unplaced
  others : ∀ i ∉ indexes, m'.fields[i]? = m.fields[i]?
  oneofs : m.oneofs <+: m'.oneofs

theorem furnished_addSyntheticOneof (m : Message) (index : Nat) :
    m.Furnished (m.addSyntheticOneof index) [index] := by
  unfold addSyntheticOneof
  split
  · exact ⟨by cases m; rfl, rfl, fun _ _ => rfl, prefix_rfl⟩
  · next f hf =>
    refine ⟨rfl, ?_, fun i hi => ?_, prefix_append _ _⟩
    · refine ext_getElem? fun i => ?_
      simp only [getElem?_map, getElem?_modify]
      split
      · cases m.fields[i]? <;> rfl
      · simp
    · have hne : index ≠ i := fun h => hi (by simp [h])
      simp [hne]

theorem Furnished.trans {m m' m'' : Message} {indexes indexes' : List Nat}
    (h : m.Furnished m' indexes) (k : m'.Furnished m'' indexes') :
    m.Furnished m'' (indexes ++ indexes') := by
  refine ⟨?_, k.unplaced.trans h.unplaced, fun i hi => ?_, h.oneofs.trans k.oneofs⟩
  · rw [k.same, h.same]
  · obtain ⟨hi, hi'⟩ : i ∉ indexes ∧ i ∉ indexes' := by simpa using hi
    rw [k.others i hi', h.others i hi]

theorem furnished_foldl (indexes : List Nat) (m : Message) :
    m.Furnished (indexes.foldl addSyntheticOneof m) indexes := by
  induction indexes generalizing m with
  | nil => exact ⟨by cases m; rfl, rfl, fun _ _ => rfl, prefix_rfl⟩
  | cons i is ih => exact (m.furnished_addSyntheticOneof i).trans (ih _)

theorem furnished_withSyntheticOneofs (m : Message) :
    m.Furnished m.withSyntheticOneofs m.optionalIndexes :=
  furnished_foldl m.optionalIndexes m

section Kept

variable (m : Message)

@[simp]
theorem name_withSyntheticOneofs : m.withSyntheticOneofs.name = m.name :=
  (congrArg name m.furnished_withSyntheticOneofs.same :)

@[simp]
theorem nested_withSyntheticOneofs : m.withSyntheticOneofs.nested = m.nested :=
  (congrArg nested m.furnished_withSyntheticOneofs.same :)

@[simp]
theorem options_withSyntheticOneofs : m.withSyntheticOneofs.options = m.options :=
  (congrArg options m.furnished_withSyntheticOneofs.same :)

@[simp]
theorem enums_withSyntheticOneofs : m.withSyntheticOneofs.enums = m.enums :=
  (congrArg enums m.furnished_withSyntheticOneofs.same :)

@[simp]
theorem extensions_withSyntheticOneofs : m.withSyntheticOneofs.extensions = m.extensions :=
  (congrArg extensions m.furnished_withSyntheticOneofs.same :)

@[simp]
theorem extensionRanges_withSyntheticOneofs :
    m.withSyntheticOneofs.extensionRanges = m.extensionRanges :=
  (congrArg extensionRanges m.furnished_withSyntheticOneofs.same :)

@[simp]
theorem tailLines_withSyntheticOneofs (dialect : Dialect) :
    m.withSyntheticOneofs.tailLines dialect = m.tailLines dialect :=
  (congrArg (tailLines · dialect) m.furnished_withSyntheticOneofs.same :)

end Kept

/-! ## Printing -/

/-- The fields and the oneofs of the message come from the groups. Only fields marked optional may
stand in other oneofs. -/
structure Grouped (m : Message) (gs : List FieldGroup) : Prop where
  unplaced : m.fields.map Field.unplaced = (gs.flatMap FieldGroup.fields).map Field.unplaced
  kept : ∀ (i : Nat) (f : Field), (FieldGroup.placeAll gs).1[i]? = some f →
    f.proto3Optional = false → m.fields[i]? = some f
  oneofs : (FieldGroup.placeAll gs).2 <+: m.oneofs

theorem grouped_withSyntheticOneofs {m : Message} {gs : List FieldGroup}
    (hfields : m.fields = (FieldGroup.placeAll gs).1)
    (honeofs : m.oneofs = (FieldGroup.placeAll gs).2) : m.withSyntheticOneofs.Grouped gs := by
  have h := m.furnished_withSyntheticOneofs
  refine ⟨?_, fun i f hf hno => ?_, honeofs ▸ h.oneofs⟩
  · rw [h.unplaced, hfields]
    exact FieldGroup.map_unplaced_placeAll gs
  · rw [← hfields] at hf
    rw [h.others i ?_, hf]
    simp [optionalIndexes, hf, hno]

theorem getElem?_of_append_cons {α : Type} {xs ys zs : List α} {x : α} (h : xs ++ x :: ys <+: zs) :
    zs[xs.length]? = some x := by
  obtain ⟨rest, rfl⟩ := h
  simp

private theorem filterMap_range' {α : Type} (get : Nat → Option α) (xs : List α) (start : Nat)
    (h : ∀ i < xs.length, get (start + i) = xs[i]?) :
    (List.range' start xs.length).filterMap get = xs := by
  induction xs generalizing start with
  | nil => rfl
  | cons x xs ih =>
    have hfirst : get start = some x := h 0 (by simp)
    rw [length_cons, range'_succ, filterMap_cons, hfirst]
    refine congrArg (x :: ·) (ih (start + 1) fun i hi => ?_)
    rw [Nat.add_assoc, Nat.add_comm 1 i]
    exact h (i + 1) (by simpa using hi)

private theorem foldl_max_range' (start n : Nat) :
    (List.range' start (n + 1)).foldl max start = start + n := by
  induction n with
  | zero => simp
  | succ n ih =>
    rw [range'_concat, foldl_append, ih]
    simp

namespace Grouped

variable {m : Message} {pre post mid : List FieldGroup} {g : FieldGroup} {dialect : Dialect}

section One

variable (h : m.Grouped (pre ++ g :: post))
include h

theorem getElem?_unplaced {i : Nat} (hi : i < g.fields.length) :
    (m.fields.map Field.unplaced)[(pre.flatMap FieldGroup.fields).length + i]? =
      g.fields[i]?.map Field.unplaced := by
  rw [h.unplaced, flatMap_append, flatMap_cons, getElem?_map]
  rw [getElem?_append_right (by omega), Nat.add_sub_cancel_left, getElem?_append_left hi]

/-- The first field of a group is written in the oneof of the group. -/
theorem exists_first (hg : g.Proper) :
    ∃ f, m.fields[(pre.flatMap FieldGroup.fields).length]? = some f ∧
      m.writtenOneof? f = g.oneof? (pre.flatMap FieldGroup.fields).length := by
  obtain ⟨hfields, honeofs⟩ : (g.place (FieldGroup.placeAll pre)).1 <+: _ ∧
      (g.place (FieldGroup.placeAll pre)).2 <+: _ := by
    have hat := FieldGroup.prefix_placeAll (pre ++ [g]) post
    rwa [append_assoc, singleton_append, FieldGroup.placeAll_concat] at hat
  have hfirst := h.getElem?_unplaced (length_pos_iff.mpr hg.fields_ne_nil)
  rw [Nat.add_zero, getElem?_map] at hfirst
  rw [← FieldGroup.length_placeAll] at hfirst ⊢
  cases g with
  | single f =>
    obtain ⟨f', hf', hsame⟩ := Option.map_eq_some_iff.mp hfirst
    refine ⟨f', hf', ?_⟩
    have hoptional : f'.proto3Optional = f.proto3Optional :=
      (congrArg Field.proto3Optional hsame :)
    cases hmarked : f.proto3Optional with
    | true => simp [writtenOneof?, FieldGroup.oneof?, hoptional, hmarked]
    | false =>
      have hkept := h.kept _ _ (getElem?_of_append_cons hfields) hmarked
      rw [hf'] at hkept
      rw [Option.some.inj hkept]
      simp [writtenOneof?, FieldGroup.oneof?, Field.unplaced, hmarked]
  | oneof name options members =>
    obtain ⟨hne, hmarked⟩ := hg
    obtain ⟨f, rest, rfl⟩ := exists_cons_of_ne_nil hne
    have hf := hmarked f (by simp)
    refine ⟨_, h.kept _ _ (getElem?_of_append_cons hfields) hf, ?_⟩
    simp only [writtenOneof?, hf, Bool.false_eq_true, if_false, Option.bind_some]
    exact getElem?_of_append_cons (honeofs.trans h.oneofs)

theorem filterMap_range (inOneof : Bool) :
    ((List.range' (pre.flatMap FieldGroup.fields).length g.fields.length).filterMap fun i =>
      m.fields[i]?.map fun f => f.line m.nested dialect inOneof) =
      g.fields.map fun f => f.line m.nested dialect inOneof := by
  have hat : ∀ i < (g.fields.map fun f => f.line m.nested dialect inOneof).length,
      m.fields[(pre.flatMap FieldGroup.fields).length + i]?.map
        (fun f => f.line m.nested dialect inOneof) =
        (g.fields.map fun f => f.line m.nested dialect inOneof)[i]? := by
    intro i hi
    have hfield := h.getElem?_unplaced (by simpa using hi)
    rw [getElem?_map] at hfield
    have hline := congrArg (Option.map fun f : Field => f.line m.nested dialect inOneof) hfield
    rw [Option.map_map, Option.map_map] at hline
    rw [getElem?_map]
    exact hline
  have hall := filterMap_range'
    (fun i => m.fields[i]?.map fun f => f.line m.nested dialect inOneof) _ _ hat
  rwa [length_map] at hall

theorem groupLines_eq (hg : g.Proper) :
    m.groupLines dialect (pre.flatMap FieldGroup.fields).length = g.lines m.nested dialect := by
  obtain ⟨f, hf, hwritten⟩ := h.exists_first hg
  simp only [groupLines, hf, hwritten]
  cases g with
  | single f₀ =>
    have hfirst := h.getElem?_unplaced (i := 0) (by simp [FieldGroup.fields])
    rw [Nat.add_zero, getElem?_map, hf] at hfirst
    have hsame : f.unplaced = f₀.unplaced := Option.some.inj hfirst
    exact (congrArg (fun f : Field => [f.line m.nested dialect false]) hsame :)
  | oneof name options members =>
    simp only [FieldGroup.oneof?, oneofLines, FieldGroup.lines]
    exact congrArg (fun lines => Line.block _ (_ ++ lines) _) (h.filterMap_range true)

theorem groupEnd_eq (hg : g.Proper) : m.groupEnd (pre.flatMap FieldGroup.fields).length =
      ((pre ++ [g]).flatMap FieldGroup.fields).length := by
  obtain ⟨f, hf, hwritten⟩ := h.exists_first hg
  simp only [groupEnd, hf, Option.bind_some, hwritten]
  cases g with
  | single => simp [FieldGroup.oneof?, FieldGroup.fields]
  | oneof name options members =>
    obtain ⟨n, hn⟩ := Nat.exists_eq_succ_of_ne_zero (mt length_eq_zero_iff.mp hg.1)
    simp only [FieldGroup.oneof?, hn, foldl_max_range']
    simp [FieldGroup.fields, hn, Nat.add_assoc]

end One

/-- Whole groups are printed one behind the other. -/
theorem groupsUpTo_eq (h : m.Grouped (pre ++ mid ++ post)) (hmid : ∀ g ∈ mid, g.Proper) :
    m.groupsUpTo dialect ((pre ++ mid).flatMap FieldGroup.fields).length
      (pre.flatMap FieldGroup.fields).length =
    (mid.flatMap (FieldGroup.lines m.nested dialect),
      ((pre ++ mid).flatMap FieldGroup.fields).length) := by
  induction mid generalizing pre with
  | nil =>
    rw [groupsUpTo]
    simp
  | cons g mid ih =>
    have hg := hmid g (by simp)
    have hlt : (pre.flatMap FieldGroup.fields).length <
        ((pre ++ g :: mid).flatMap FieldGroup.fields).length := by
      have := length_pos_iff.mpr hg.fields_ne_nil
      simp only [flatMap_append, flatMap_cons, length_append]
      omega
    have hgroups : m.Grouped (pre ++ g :: (mid ++ post)) := by simpa using h
    have hrest := @ih (pre ++ [g]) (by simpa using h) fun g' hg' => hmid g' (by simp [hg'])
    rw [append_assoc, singleton_append] at hrest
    rw [groupsUpTo, if_pos hlt, hgroups.groupEnd_eq hg, hrest, hgroups.groupLines_eq hg]
    rfl

end Grouped

end Message

end ProtoSchema
