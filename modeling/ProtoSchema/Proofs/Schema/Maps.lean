import Mathlib.Data.List.Forall2
import Mathlib.Data.List.Nodup
import Mathlib.Data.List.TakeWhile
import ProtoSchema.Schema.Map
import ProtoSchema.Schema.Print

/-!
Map fields and their pair types in a message. Where every pair type was made for a map field of its
own, printing finds the two for each other.
-/

namespace ProtoSchema

open List

/-- The field is a map, and the message is the pair type made for it. -/
structure Field.DeclaresMap (f : Field) (entry : Message) : Prop where
  label : f.label = .repeated
  typeName : f.typeName = some (mapEntryName f.name)
  entry : ∃ key value, entry = mapEntry (mapEntryName f.name) key value

namespace Message

def pairTypes (m : Message) : List Message :=
  m.nested.filter isMapEntry

/-- The pair types are those made for map fields, in the order of the fields; no other message is
marked as one. They have different names, and no repeated field but the map field itself has a
type that ends in such a name. -/
structure OwnMaps (m : Message) : Prop where
  made : ∃ owners, List.Sublist owners m.fields ∧ List.Forall₂ Field.DeclaresMap owners m.pairTypes
  distinct : (m.pairTypes.map name).Nodup
  unshared : ∀ e ∈ m.pairTypes, m.fields.countP (fun f => f.ownsEntry e) ≤ 1

end Message

/-! ## The names of pair types -/

private theorem upperAscii_ne_dot {c : Char} (h : c ≠ '.') : upperAscii c ≠ '.' := by
  have hletters : ∀ n < 123, 97 ≤ n → Char.ofNat (n - 32) ≠ '.' := by decide
  unfold upperAscii
  split
  · next hc =>
    simp only [Bool.and_eq_true, decide_eq_true_eq] at hc
    exact hletters c.toNat (Nat.lt_succ_of_le hc.2) hc.1
  · exact h

private theorem dot_notMem_camelChars {cs : List Char} (h : '.' ∉ cs) (capital : Bool) :
    '.' ∉ camelChars capital cs := by
  fun_induction camelChars capital cs with
  | case1 => simp
  | case2 _ cs ih => exact ih (by simpa using h)
  | case3 capital c cs _ ih =>
    obtain ⟨hc, hcs⟩ : '.' ≠ c ∧ '.' ∉ cs := by simpa using h
    simp only [mem_cons, not_or]
    refine ⟨?_, ih hcs⟩
    split
    · exact (upperAscii_ne_dot hc.symm).symm
    · exact hc

theorem Name.last_eq_self {name : String} (h : '.' ∉ name.toList) : last name = name := by
  have hall : name.toList.reverse.takeWhile (· ≠ '.') = name.toList.reverse := by
    refine takeWhile_eq_self_iff.mpr fun c hc => ?_
    simp only [ne_eq, decide_not, Bool.not_eq_true', decide_eq_false_iff_not]
    rintro rfl
    exact h (mem_reverse.mp hc)
  rw [last, hall, reverse_reverse, String.ofList_toList]

theorem dot_notMem_mapEntryName {name : String} (h : '.' ∉ name.toList) :
    '.' ∉ (mapEntryName name).toList := by
  rw [mapEntryName, String.toList_append, String.toList_ofList, mem_append, not_or]
  exact ⟨dot_notMem_camelChars h true, by decide⟩

theorem last_mapEntryName {name : String} (h : '.' ∉ name.toList) :
    Name.last (mapEntryName name) = mapEntryName name :=
  Name.last_eq_self (dot_notMem_mapEntryName h)

theorem Field.DeclaresMap.ownsEntry {f : Field} {entry : Message} (h : f.DeclaresMap entry)
    (hname : '.' ∉ f.name.toList) : f.ownsEntry entry = true := by
  obtain ⟨key, value, rfl⟩ := h.entry
  simp [Field.ownsEntry, isRepeated, h.label, h.typeName, last_mapEntryName hname, mapEntry]

/-! ## Finding each other -/

section Lists

variable {α β : Type}

variable {p : α → Bool} {xs : List α} {x : α} {find : α → Option β} {ys : List β} {R : α → β → Prop}

private theorem eq_of_countP_le_one {y : α} (h : xs.countP p ≤ 1) (hx : x ∈ xs) (hpx : p x = true)
    (hy : y ∈ xs) (hpy : p y = true) : x = y := by
  rw [countP_eq_length_filter] at h
  have hfx : x ∈ xs.filter p := mem_filter.mpr ⟨hx, hpx⟩
  have hfy : y ∈ xs.filter p := mem_filter.mpr ⟨hy, hpy⟩
  match hlist : xs.filter p, h with
  | [], _ => simp [hlist] at hfx
  | [z], _ =>
    rw [hlist] at hfx hfy
    rw [mem_singleton.mp hfx, mem_singleton.mp hfy]

private theorem findIdx?_of_countP_le_one {ys : List α} (h : (xs ++ x :: ys).countP p ≤ 1)
    (hx : p x = true) :
    (xs ++ x :: ys).findIdx? p = some xs.length := by
  have hnone : xs.countP p = 0 := by
    rw [countP_append, countP_cons_of_pos hx] at h
    omega
  have hxs : xs.findIdx? p = none :=
    findIdx?_eq_none_iff.mpr fun y hy => by simpa using countP_eq_zero.mp hnone y hy
  simp [findIdx?_append, hxs, findIdx?_cons, hx]

/-- A partial function finds nothing outside a sublist that has as many members of each kind. -/
theorem filterMap_eq_of_sublist (kind : β → α → Bool) {ys : List α} (h : xs.Sublist ys)
    (hcount : ∀ y ∈ ys, ∀ b, find y = some b →
      kind b y = true ∧ ys.countP (kind b) ≤ xs.countP (kind b)) :
    ys.filterMap find = xs.filterMap find := by
  induction h with
  | slnil => rfl
  | @cons xs ys y h ih =>
    have hnone : find y = none := by
      cases hy : find y with
      | none => rfl
      | some b =>
        obtain ⟨hkind, hle⟩ := hcount y (by simp) b hy
        have hsub := h.countP_le (p := kind b)
        rw [countP_cons_of_pos hkind] at hle
        omega
    rw [filterMap_cons_none hnone]
    refine ih fun z hz b hb => ?_
    obtain ⟨hkind, hle⟩ := hcount z (by simp [hz]) b hb
    have hmore := (sublist_cons_self y ys).countP_le (p := kind b)
    exact ⟨hkind, by omega⟩
  | @cons_cons xs ys y h ih =>
    have hrest : ys.filterMap find = xs.filterMap find := by
      refine ih fun z hz b hb => ?_
      obtain ⟨hkind, hle⟩ := hcount z (by simp [hz]) b hb
      simp only [countP_cons] at hle
      exact ⟨hkind, by omega⟩
    rw [filterMap_cons, filterMap_cons, hrest]

private theorem filterMap_eq_of_forall₂ (h : List.Forall₂ R xs ys)
    (hfind : ∀ x ∈ xs, ∀ y ∈ ys, R x y → find x = some y) : xs.filterMap find = ys := by
  induction h with
  | nil => rfl
  | @cons x y xs ys hxy _ ih =>
    rw [filterMap_cons_some (hfind x (by simp) y (by simp) hxy)]
    rw [ih fun x' hx' y' hy' => hfind x' (by simp [hx']) y' (by simp [hy'])]

theorem exists_mem_of_forall₂ (h : List.Forall₂ R xs ys) {y : β} (hy : y ∈ ys) :
    ∃ x ∈ xs, R x y := by
  induction h with
  | nil => simp at hy
  | @cons x z xs ys hxz _ ih =>
    rcases mem_cons.mp hy with rfl | hy
    · exact ⟨x, by simp, hxz⟩
    · obtain ⟨x', hx', hxy⟩ := ih hy
      exact ⟨x', by simp [hx'], hxy⟩

end Lists

namespace Message.OwnMaps

variable {m : Message} {f : Field} {e : Message}

theorem mem_pairTypes : e ∈ m.pairTypes ↔ e ∈ m.nested ∧ e.isMapEntry = true :=
  mem_filter

theorem entryIn?_eq_find? (m : Message) (f : Field) :
    f.entryIn? m.nested = m.pairTypes.find? fun e => f.ownsEntry e := by
  simp [pairTypes, find?_filter, Field.entryIn?]

theorem mem_of_entryIn? (h : f.entryIn? m.nested = some e) :
    e ∈ m.pairTypes ∧ f.ownsEntry e = true := by
  rw [entryIn?_eq_find?] at h
  exact ⟨mem_of_find?_eq_some h, find?_some h⟩

theorem name_eq_of_ownsEntry {e' : Message} (h : f.ownsEntry e = true)
    (h' : f.ownsEntry e' = true) : e.name = e'.name := by
  simp only [Field.ownsEntry, Bool.and_eq_true, beq_iff_eq] at h h'
  exact Option.some.inj (h.2.symm.trans h'.2)

theorem entryIn?_eq_some (h : m.OwnMaps) (he : e ∈ m.pairTypes) (hf : f.ownsEntry e = true) :
    f.entryIn? m.nested = some e := by
  obtain ⟨e', hfind⟩ := Option.isSome_iff_exists.mp
    (find?_isSome.mpr ⟨e, he, hf⟩ : (m.pairTypes.find? fun e => f.ownsEntry e).isSome)
  have hname := name_eq_of_ownsEntry (find?_some hfind) hf
  have hsame := inj_on_of_nodup_map h.distinct (mem_of_find?_eq_some hfind) he hname
  rw [entryIn?_eq_find?, hfind, hsame]

/-- The map field of a pair type. -/
theorem exists_owner (h : m.OwnMaps) (he : e ∈ m.pairTypes) : ∃ f ∈ m.fields, f.DeclaresMap e := by
  obtain ⟨owners, hsub, hmade⟩ := h.made
  obtain ⟨f, hf, hfe⟩ := exists_mem_of_forall₂ hmade he
  exact ⟨f, hsub.subset hf, hfe⟩

section Found

variable (h : m.OwnMaps) (hnames : ∀ f ∈ m.fields, '.' ∉ f.name.toList)
include h hnames

/-- A field that is printed as a map is one. -/
theorem declaresMap_of_entryIn? (hf : f ∈ m.fields) (hentry : f.entryIn? m.nested = some e) :
    f.DeclaresMap e := by
  obtain ⟨he, howns⟩ := mem_of_entryIn? hentry
  obtain ⟨g, hg, hmade⟩ := h.exists_owner he
  have hsame : f = g := eq_of_countP_le_one (p := fun f => f.ownsEntry e) (h.unshared e he)
    hf howns hg (hmade.ownsEntry (hnames g hg))
  exact hsame ▸ hmade

/-- The fields that are printed as maps have the pair types of the message, in their order. -/
theorem filterMap_entryIn? : m.fields.filterMap (fun f => f.entryIn? m.nested) = m.pairTypes := by
  obtain ⟨owners, hsub, hmade⟩ := h.made
  have hfound : owners.filterMap (fun f => f.entryIn? m.nested) = m.pairTypes :=
    filterMap_eq_of_forall₂ hmade fun f hf e he hfe =>
      h.entryIn?_eq_some he (hfe.ownsEntry (hnames f (hsub.subset hf)))
  rw [← hfound]
  refine filterMap_eq_of_sublist (fun e f => f.ownsEntry e) hsub fun f hf e hentry => ?_
  obtain ⟨he, howns⟩ := mem_of_entryIn? hentry
  obtain ⟨g, hg, hge⟩ := exists_mem_of_forall₂ hmade he
  have hpos : 0 < owners.countP fun f => f.ownsEntry e :=
    countP_pos_iff.mpr ⟨g, hg, hge.ownsEntry (hnames g (hsub.subset hg))⟩
  have hone := h.unshared e he
  exact ⟨howns, by omega⟩

end Found

/-- A pair type is placed where the only field that can be its map field stands. -/
theorem entryOwner?_eq (h : m.OwnMaps) (he : e ∈ m.pairTypes) {xs ys : List Field}
    (hfields : m.fields = xs ++ f :: ys) (hf : f.ownsEntry e = true) :
    m.entryOwner? e = some xs.length := by
  have hone := h.unshared e he
  rw [hfields] at hone
  rw [entryOwner?, hfields]
  exact findIdx?_of_countP_le_one hone hf

end Message.OwnMaps

end ProtoSchema
