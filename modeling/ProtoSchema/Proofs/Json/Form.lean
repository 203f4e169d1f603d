import ProtoSchema.Proofs.Grammar.File
import ProtoSchema.Proofs.Json.Text
import ProtoSchema.Schema.JsonForm

/-!
The JSON form keeps every part of a file: each is written as a legible value, from which it is read
back.
-/

namespace ProtoSchema

open List Option

variable {members : List (String × Json)} {m : Message}

namespace Json

/-! ## Values -/

private theorem int?_of_mem {least bound n : Int} (hlow : least ≤ n) (hhigh : n < bound) :
    int? least bound (.int n) = some n := by
  rw [int?, if_pos ⟨hlow, hhigh⟩]

private theorem index?_int {n : Nat} (h : n < 2 ^ 64) : index? (.int n) = some n := by
  have hpow : Int.pow 2 64 = 18446744073709551616 := by decide
  rw [index?, hpow, int?_of_mem (by omega) (by omega), map_some, Int.toNat_natCast]

/-! ## Heights -/

variable {j : Json} {items : List Json}

private theorem height_le_heightItems (h : j ∈ items) : j.height ≤ heightItems items := by
  induction items with
  | nil => simp at h
  | cons i items ih =>
    rw [heightItems]
    rcases mem_cons.mp h with rfl | h
    · exact Nat.le_max_left _ _
    · exact Nat.le_trans (ih h) (Nat.le_max_right _ _)

private theorem heightMembers_eq (members : List (String × Json)) :
    heightMembers members = heightItems (members.map Prod.snd) := by
  induction members with
  | nil => rfl
  | cons m members ih => rw [heightMembers, ih, map_cons, heightItems]

private theorem height_lt_array (h : j ∈ items) : j.height < (Json.array items).height := by
  rw [height]
  exact Nat.lt_succ_of_le (height_le_heightItems h)

private theorem height_lt_object {k : String} (h : (k, j) ∈ members) :
    j.height < (Json.object members).height := by
  rw [height, heightMembers_eq]
  exact Nat.lt_succ_of_le (height_le_heightItems (mem_map_of_mem h))

end Json

open Json

namespace Form

structure Kept (f : Form α) (a : α) : Prop where
  legible : (f.write a).Legible
  read_write : f.read (f.write a) = some a

@[simp]
theorem kept_string (s : String) : string.Kept s :=
  ⟨.string s, rfl⟩

@[simp]
theorem kept_bool (b : Bool) : bool.Kept b :=
  ⟨.bool b, rfl⟩

@[simp]
theorem kept_int32 (n : Int32) : int32.Kept n := by
  have hlow := n.le_toInt
  have hhigh := n.toInt_lt
  have hread : int? (-Int.pow 2 31) (Int.pow 2 31) (.int n.toInt) = some n.toInt :=
    int?_of_mem hlow hhigh
  constructor
  · exact .int ⟨by omega, by omega⟩
  · simp only [int32, int32?, hread, map_some, Int32.ofInt_toInt]

theorem kept_int64 (n : Int64) : Kept ⟨fun n => .int n.toInt, int64?⟩ n := by
  have hlow := n.le_toInt
  have hhigh := n.toInt_lt
  have hread : int? (-Int.pow 2 63) (Int.pow 2 63) (.int n.toInt) = some n.toInt :=
    int?_of_mem hlow hhigh
  constructor
  · exact .int ⟨by omega, by omega⟩
  · simp only [int64?, hread, map_some, Int64.ofInt_toInt]

theorem kept_index {n : Nat} (h : n < 2 ^ 64) : index.Kept n := by
  constructor
  · exact .int ⟨by omega, by omega⟩
  · simp only [index, index?_int h]

theorem kept_uint64 (n : UInt64) : Kept ⟨fun n => .int n.toNat, uint64?⟩ n := by
  have hn := n.toNat_lt
  constructor
  · exact .int ⟨by omega, by omega⟩
  · simp only [uint64?, index?_int hn, map_some, UInt64.ofNat_toNat]

theorem kept_keyword {word : α → String} {ofWord? : String → Option α} {a : α}
    (h : ofWord? (word a) = some a) : (keyword word ofWord?).Kept a :=
  ⟨.string (word a), h⟩

theorem kept_double {d : Double} (h : ∀ negative magnitude, d = .finite negative magnitude →
    ReadsBack d) : Kept ⟨Double.toJson, double?⟩ d := by
  cases d with
  | finite negative magnitude => exact ⟨.double (h negative magnitude rfl), rfl⟩
  | infinite negative =>
    refine ⟨.string _, ?_⟩
    cases negative <;> decide +kernel
  | nan => exact ⟨.string _, by decide +kernel⟩

variable {f : Form α}

theorem kept_list {as : List α} (h : ∀ a ∈ as, f.Kept a) : (list f).Kept as := by
  constructor
  · refine .array fun j hj => ?_
    obtain ⟨a, ha, rfl⟩ := mem_map.mp hj
    exact (h a ha).legible
  · simp only [list, list?]
    induction as with
    | nil => rfl
    | cons a as ih =>
      have has := ih fun b hb => h b (mem_cons_of_mem a hb)
      simp [(h a mem_cons_self).read_write, has]

theorem kept_indexes {ns : List Nat} (h : ∀ n ∈ ns, n < 2 ^ 64) : (list index).Kept ns :=
  kept_list fun n hn => kept_index (h n hn)

@[simp]
theorem kept_strings (ss : List String) : strings.Kept ss :=
  kept_list fun s _ => kept_string s

theorem kept_nullable {o : Option α} (h : ∀ a ∈ o, f.Kept a) (hnull : f.read .null = none) :
    (nullable f).Kept o := by
  cases o with
  | none => exact ⟨.null, rfl⟩
  | some a =>
    obtain ⟨hlegible, hread⟩ := h a rfl
    refine ⟨hlegible, ?_⟩
    simp only [nullable, Json.nullable]
    -- what is read as something is not `null`
    split
    · next heq =>
      rw [heq, hnull] at hread
      cases hread
    · rw [hread, map_some]

@[simp]
theorem kept_nullableString (o : Option String) : (nullable string).Kept o :=
  kept_nullable (fun s _ => kept_string s) rfl

private theorem lookup_eq_some {ms : List (Member ρ)} (hkeys : (ms.map Member.key).Nodup)
    (value : Member ρ → Json) {m : Member ρ} (h : m ∈ ms) :
    (ms.map fun m => (m.key, value m)).lookup m.key = some (value m) := by
  induction ms with
  | nil => simp at h
  | cons n ms ih =>
    rw [map_cons, nodup_cons] at hkeys
    rcases mem_cons.mp h with rfl | h
    · exact lookup_cons_self
    · have hne : m.key ≠ n.key := fun heq => hkeys.1 (heq ▸ mem_map_of_mem h)
      rw [map_cons, lookup_cons, beq_false_of_ne hne]
      exact ih hkeys.2 h

private theorem foldlM_eq_some {α : Type _} {f : σ → α → Option σ} {g : σ → α → σ} {as : List α}
    (h : ∀ a ∈ as, ∀ s, f s a = some (g s a)) (s : σ) : as.foldlM f s = some (as.foldl g s) := by
  induction as generalizing s with
  | nil => rfl
  | cons a as ih =>
    rw [foldlM_cons, h a mem_cons_self s]
    exact ih (fun b hb => h b (mem_cons_of_mem a hb)) (g s a)

/-- A record is kept if its members are, and if setting them all makes it. -/
theorem kept_record {init r : ρ} {ms : List (Member ρ)} (hkeys : (ms.map Member.key).Nodup)
    (hms : ∀ m ∈ ms, m.form.Kept (m.get r))
    (hr : ms.foldl (fun s m => m.set s (m.get r)) init = r) : (record init ms).Kept r := by
  constructor
  · exact .object (forall_mem_map.mpr fun m hm => (hms m hm).legible)
  · simp only [record, record?, bind_eq_bind, bind_some]
    conv_rhs => rw [← hr]
    refine foldlM_eq_some (fun m hm s => ?_) init
    rw [lookup_eq_some hkeys _ hm, getD_some, (hms m hm).read_write, map_some]

end Form

open Form

def Setting.finite? (s : Setting) : Option Double :=
  match s.value with
  | .float (.finite negative magnitude) => some (.finite negative magnitude)
  | _ => none

def Setting.ReadsBack (s : Setting) : Prop :=
  ∀ d ∈ s.finite?, Json.ReadsBack d

namespace OptionValue

theorem kept {v : OptionValue} (h : ∀ negative magnitude,
    v = .float (.finite negative magnitude) → Json.ReadsBack (.finite negative magnitude)) :
    Kept ⟨toJson, ofJson?⟩ v := by
  have hmember : ∀ {key : String} {j : Json}, j.Legible → (Json.object [(key, j)]).Legible :=
    fun hj => .object (forall_mem_singleton.mpr hj)
  cases v with
  | identifier name => exact ⟨hmember (.string name), rfl⟩
  | uint value =>
    obtain ⟨hlegible, hread⟩ := kept_uint64 value
    exact ⟨hmember hlegible, by simpa [toJson, ofJson?] using hread⟩
  | int value =>
    obtain ⟨hlegible, hread⟩ := kept_int64 value
    exact ⟨hmember hlegible, by simpa [toJson, ofJson?] using hread⟩
  | float value =>
    have hvalue : Kept ⟨Double.toJson, double?⟩ value := by
      apply kept_double
      rintro negative magnitude rfl
      exact h negative magnitude rfl
    exact ⟨hmember hvalue.legible, by simpa [toJson, ofJson?] using hvalue.read_write⟩
  | string value => exact ⟨hmember (.string value), rfl⟩
  | aggregate text => exact ⟨hmember (.string text), rfl⟩

end OptionValue

theorem Setting.kept {s : Setting} (h : s.ReadsBack) : Setting.form.Kept s := by
  have hvalue : Kept ⟨OptionValue.toJson, OptionValue.ofJson?⟩ s.value :=
    OptionValue.kept fun negative magnitude hv => h _ (by rw [finite?, hv]; rfl)
  exact kept_record (by decide) (by simp [hvalue]) rfl

theorem Options.kept {options : Options} (h : ∀ s ∈ options, s.ReadsBack) :
    Options.form.Kept options :=
  kept_list fun s hs => Setting.kept (h s hs)

def Field.indexes (f : Field) : List Nat :=
  f.oneofIndex.toList

theorem Field.kept {f : Field} (hindexes : ∀ n ∈ f.indexes, n < 2 ^ 64)
    (hsettings : ∀ s ∈ f.options, s.ReadsBack) : Field.form.Kept f := by
  have hlabel : (keyword Label.keyword Label.ofKeyword?).Kept f.label :=
    kept_keyword (by cases f.label <;> decide +kernel)
  have htype : (nullable (keyword FieldType.name FieldType.ofName?)).Kept f.type :=
    kept_nullable (fun t _ => kept_keyword (by cases t <;> decide +kernel)) rfl
  have honeof := kept_nullable (fun n hn => kept_index (hindexes n (mem_toList.mpr hn))) rfl
  exact kept_record (by decide) (by simp [hlabel, htype, honeof, Options.kept hsettings]) rfl

theorem Oneof.kept {o : Oneof} (hindexes : ∀ n ∈ o.fields, n < 2 ^ 64)
    (hsettings : ∀ s ∈ o.options, s.ReadsBack) : Oneof.form.Kept o :=
  kept_record (by decide) (by simp [kept_indexes hindexes, Options.kept hsettings]) rfl

theorem ExtensionRange.kept {r : ExtensionRange} (hsettings : ∀ s ∈ r.options, s.ReadsBack) :
    ExtensionRange.form.Kept r :=
  kept_record (by decide) (by simp [Options.kept hsettings]) rfl

theorem ReservedRange.kept (r : ReservedRange) : ReservedRange.form.Kept r :=
  kept_record (by decide) (by simp) rfl

theorem EnumValue.kept {v : EnumValue} (hsettings : ∀ s ∈ v.options, s.ReadsBack) :
    EnumValue.form.Kept v :=
  kept_record (by decide) (by simp [Options.kept hsettings]) rfl

theorem Enum.kept {e : Enum} (hsettings : ∀ s ∈ e.settings, s.ReadsBack) : Enum.form.Kept e := by
  simp only [Enum.settings, forall_mem_append, forall_mem_flatMap] at hsettings
  have hvalues := kept_list fun v hv => EnumValue.kept (hsettings.2 v hv)
  have hranges := kept_list fun r (_ : r ∈ e.reservedRanges) => ReservedRange.kept r
  exact kept_record (by decide) (by simp [hvalues, hranges, Options.kept hsettings.1]) rfl

theorem Method.kept {m : Method} (hsettings : ∀ s ∈ m.options, s.ReadsBack) :
    Method.form.Kept m :=
  kept_record (by decide) (by simp [Options.kept hsettings]) rfl

theorem Service.kept {s : Service} (hsettings : ∀ t ∈ s.settings, t.ReadsBack) :
    Service.form.Kept s := by
  simp only [Service.settings, forall_mem_append, forall_mem_flatMap] at hsettings
  have hmethods := kept_list fun m hm => Method.kept (hsettings.2 m hm)
  exact kept_record (by decide) (by simp [hmethods, Options.kept hsettings.1]) rfl

/-! ## Messages -/

/-- All places of fields and oneofs that are noted in a message outside the messages nested in
it. -/
def Message.indexes (m : Message) : List Nat :=
  (m.fields ++ m.extensions).flatMap Field.indexes ++ m.oneofs.flatMap Oneof.fields

/-- The numbers in a message outside the messages nested in it can be read back. -/
structure Message.OwnLegible (m : Message) : Prop where
  indexes : ∀ n ∈ m.indexes, n < 2 ^ 64
  settings : ∀ s ∈ m.settings, s.ReadsBack

namespace Message

private theorem listToJson_eq_map (ms : List Message) : listToJson ms = ms.map toJson := by
  induction ms with
  | nil => rfl
  | cons m ms ih => rw [listToJson, ih, map_cons]

private theorem toJson_eq (m : Message) (read : Json → Option Message) :
    m.toJson = (formOver (list ⟨toJson, read⟩)).write m := by
  cases m
  rw [toJson, listToJson_eq_map]
  rfl

private theorem height_lt_of_nested {n : Message} (h : n ∈ m.nested) :
    n.toJson.height < m.toJson.height := by
  have hitem : n.toJson.height < (Json.array (m.nested.map toJson)).height :=
    height_lt_array (mem_map_of_mem h)
  rw [toJson_eq m fun _ => none]
  exact lt_trans hitem (height_lt_object (k := "nested_messages") (by simp [list]))

theorem height_pos (m : Message) : 0 < m.toJson.height := by
  rw [toJson_eq m fun _ => none]
  exact Nat.succ_pos _

/-- The parts of a message are kept if the messages nested in it are. -/
theorem kept_of_nested (h : m.OwnLegible) {nestedForm : Form (List Message)}
    (hnested : nestedForm.Kept m.nested) : (formOver nestedForm).Kept m := by
  have hindexes := h.indexes
  have hsettings := h.settings
  simp only [indexes, forall_mem_append, forall_mem_flatMap] at hindexes
  simp only [settings, forall_mem_append, forall_mem_flatMap] at hsettings
  obtain ⟨⟨hfieldIndexes, hextensionIndexes⟩, honeofIndexes⟩ := hindexes
  obtain ⟨⟨⟨⟨hoptions, hfieldSettings, hextensionSettings⟩, honeofSettings⟩, hrangeSettings⟩,
    henumSettings⟩ := hsettings
  have hfields := kept_list fun f hf => Field.kept (hfieldIndexes f hf) (hfieldSettings f hf)
  have hextensions :=
    kept_list fun f hf => Field.kept (hextensionIndexes f hf) (hextensionSettings f hf)
  have henums := kept_list fun e he => Enum.kept (henumSettings e he)
  have honeofs := kept_list fun o ho => Oneof.kept (honeofIndexes o ho) (honeofSettings o ho)
  have hranges := kept_list fun r hr => ExtensionRange.kept (hrangeSettings r hr)
  have hreserved := kept_list fun r (_ : r ∈ m.reservedRanges) => ReservedRange.kept r
  refine kept_record (by simp) ?_ (by cases m; rfl)
  simp [hfields, hextensions, hnested, henums, honeofs, hranges, hreserved, Options.kept hoptions]

theorem keptWithin (h : ∀ n ∈ m.within, n.OwnLegible) {height : Nat}
    (hheight : m.toJson.height ≤ height) : Kept ⟨toJson, ofJsonWithin? height⟩ m := by
  -- a nested message is lower than the one around it
  induction height generalizing m with
  | zero => exact absurd hheight (Nat.not_le.mpr m.height_pos)
  | succ height ih =>
    have hnested : (list ⟨toJson, ofJsonWithin? height⟩).Kept m.nested := by
      refine kept_list fun n hn => ih (fun k hk => h k (mem_within_of_nested hn hk)) ?_
      have hlt := height_lt_of_nested hn
      omega
    obtain ⟨hlegible, hread⟩ := kept_of_nested (h m (mem_within_self m)) hnested
    rw [← toJson_eq] at hlegible hread
    exact ⟨hlegible, hread⟩

theorem kept (h : ∀ n ∈ m.within, n.OwnLegible) : Message.form.Kept m := by
  obtain ⟨hlegible, hread⟩ := keptWithin h (Nat.le_refl m.toJson.height)
  exact ⟨hlegible, hread⟩

end Message

/-! ## Files -/

namespace File

def indexes (file : File) : List Nat :=
  file.publicImports ++ file.weakImports ++ file.allMessages.flatMap Message.indexes ++
    file.extensions.flatMap Field.indexes

def doubles (file : File) : List Double :=
  file.settings.filterMap Setting.finite?

structure Legible (file : File) : Prop where
  indexes : ∀ n ∈ file.indexes, n < 2 ^ 64
  doubles : ∀ d ∈ file.doubles, ReadsBack d

theorem kept {file : File} (h : file.Legible) : Kept ⟨toJson, ofJson?⟩ file := by
  have hindexes := h.indexes
  have hsettings : ∀ s ∈ file.settings, s.ReadsBack := forall_mem_filterMap.mp h.doubles
  simp only [indexes, forall_mem_append, forall_mem_flatMap] at hindexes
  simp only [settings, forall_mem_append, forall_mem_flatMap] at hsettings
  obtain ⟨⟨⟨hpublic, hweak⟩, hmessageIndexes⟩, hextensionIndexes⟩ := hindexes
  obtain ⟨⟨⟨⟨hoptions, hmessageSettings⟩, henumSettings⟩, hserviceSettings⟩,
    hextensionSettings⟩ := hsettings
  have hdialect : (keyword Dialect.keyword Dialect.ofKeyword?).Kept file.dialect :=
    kept_keyword (by cases file.dialect <;> decide +kernel)
  have hmessages : (list Message.form).Kept file.messages := by
    refine kept_list fun m hm => Message.kept fun n hn => ?_
    have hall : n ∈ file.allMessages := mem_flatMap.mpr ⟨m, hm, hn⟩
    exact ⟨hmessageIndexes n hall, hmessageSettings n hall⟩
  have henums := kept_list fun e he => Enum.kept (henumSettings e he)
  have hservices := kept_list fun s hs => Service.kept (hserviceSettings s hs)
  have hextensions :=
    kept_list fun f hf => Field.kept (hextensionIndexes f hf) (hextensionSettings f hf)
  refine kept_record (by decide) ?_ rfl
  simp [hdialect, kept_indexes hpublic, kept_indexes hweak, hmessages, henums, hservices,
    hextensions, Options.kept hoptions]

end File

end ProtoSchema
