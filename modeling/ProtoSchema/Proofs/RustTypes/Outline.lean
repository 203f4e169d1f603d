import ProtoSchema.Generate.RustTypes
import ProtoSchema.Proofs.Link.Printed
import ProtoSchema.Proofs.PairTypes

/-!
What the Rust types of a file declare: an outline with the types of each declaration once, in the
modules of the messages around it, in which the shape of a field tells where the field is.
-/

namespace ProtoSchema.RustTypes

open List

variable {ctx : Context} {modules : List String} {m : Message} {f : Field} {i : Nat}

/-! ## Declarations and types in their modules -/

mutual

def located (modules : List String) (scope : String) : Message → List (List String × Declared)
  | m@⟨name, _, _, nested, enums, _, _, _, _, _⟩ =>
    let inner := modules ++ [Identifier.moduleName name]
    (modules, ⟨Name.qualify scope name, .message m⟩) ::
      (locatedIn inner (Name.qualify scope name) nested ++
        enums.map fun e => (inner, e.declared (Name.qualify scope name)))

def locatedIn (modules : List String) (scope : String) :
    List Message → List (List String × Declared)
  | [] => []
  | m :: ms => located modules scope m ++ locatedIn modules scope ms

end

def declarations (file : File) : List (List String × Declared) :=
  locatedIn [] file.scope file.messages ++
    (file.enums.map (fun e => ([], e.declared file.scope)) ++
      file.services.map fun s => ([], ⟨Name.qualify file.scope s.name, .service s⟩))

mutual

def Item.types (modules : List String) : Item → List (List String × TypeDecl)
  | .type t => [(modules, t)]
  | .module message items => typesAll (modules ++ [Identifier.moduleName message]) items

def typesAll (modules : List String) : List Item → List (List String × TypeDecl)
  | [] => []
  | x :: xs => x.types modules ++ typesAll modules xs

end

/-- The types of a declaration: none for the pair type of a map, and for any other message a struct
and, in its module, an enum for each declared oneof. -/
def declaredTypes (ctx : Context) : List String × Declared → List (List String × TypeDecl)
  | (modules, ⟨fullName, .message m⟩) =>
    if m.isMapEntry then []
    else (modules, structDecl ctx fullName m) :: (declaredOneofs m).map fun x =>
      (modules ++ [Identifier.moduleName m.name], oneofDecl ctx m x.1 x.2)
  | (modules, ⟨fullName, .enum e⟩) => [(modules, enumDecl fullName e)]
  | (modules, ⟨fullName, .service s⟩) => [(modules, serviceDecl fullName s)]

def Flat (m : Message) : Prop :=
  m.isMapEntry = true → m.nested = [] ∧ m.enums = []

mutual

theorem located_map_snd (modules : List String) (scope : String) : ∀ m : Message,
    (located modules scope m).map Prod.snd = m.declared scope
  | ⟨_, _, _, nested, _, _, _, _, _, _⟩ => by
    rw [located, Message.declared, map_cons, map_append, map_map, locatedIn_map_snd _ _ nested]
    rfl

theorem locatedIn_map_snd (modules : List String) (scope : String) : ∀ ms : List Message,
    (locatedIn modules scope ms).map Prod.snd = Message.declaredIn scope ms
  | [] => rfl
  | m :: ms => by
    rw [locatedIn, Message.declaredIn, map_append, located_map_snd modules scope m,
      locatedIn_map_snd modules scope ms]

end

theorem declarations_map_snd (file : File) : (declarations file).map Prod.snd = file.declared := by
  simp [declarations, File.declared, locatedIn_map_snd, Function.comp_def]

private theorem typesAll_append (xs ys : List Item) :
    typesAll modules (xs ++ ys) = typesAll modules xs ++ typesAll modules ys := by
  induction xs with
  | nil => rfl
  | cons x xs ih => rw [cons_append, typesAll, typesAll, ih, append_assoc]

private theorem typesAll_map {α : Type} (xs : List α) (g : α → TypeDecl) :
    typesAll modules (xs.map fun x => .type (g x)) = xs.map fun x => (modules, g x) := by
  induction xs with
  | nil => rfl
  | cons x xs ih => rw [map_cons, typesAll, ih, map_cons, Item.types, singleton_append]

def inner (ctx : Context) (fullName : String) (m : Message) : List Item :=
  nestedItems ctx fullName m.nested ++
    m.enums.map (fun e => .type (enumDecl (Name.qualify fullName e.name) e)) ++
    (declaredOneofs m).map fun (i, o) => .type (oneofDecl ctx m i o)

theorem messageItems_eq (scope : String) (m : Message) :
    messageItems ctx scope m =
      .type (structDecl ctx (Name.qualify scope m.name) m) ::
        if opensModule m then
          [.module m.name (inner ctx (Name.qualify scope m.name) m)]
        else [] := by
  cases m
  rfl

theorem nestedItems_eq (scope : String) (ms : List Message) :
    nestedItems ctx scope ms =
      (ms.filter fun m => !m.isMapEntry).flatMap (messageItems ctx scope) := by
  induction ms with
  | nil => rfl
  | cons m ms ih => cases h : m.isMapEntry <;> simp [nestedItems, h, ih]

/-- Where no module is opened, nothing would stand in it. -/
theorem inner_eq_nil (h : opensModule m = false) (fullName : String) :
    inner ctx fullName m = [] := by
  simp only [opensModule, Bool.or_eq_false_iff, any_eq_false, Bool.not_eq_false',
    List.isEmpty_iff] at h
  obtain ⟨⟨hnested, henums⟩, honeofs⟩ := h
  rw [inner, nestedItems_eq, List.filter_eq_nil_iff.mpr hnested, henums, honeofs]
  rfl

theorem typesAll_messageItems (scope : String) (m : Message) :
    typesAll modules (messageItems ctx scope m) =
      (modules, structDecl ctx (Name.qualify scope m.name) m) ::
        typesAll (modules ++ [Identifier.moduleName m.name])
          (inner ctx (Name.qualify scope m.name) m) := by
  cases hopens : opensModule m with
  | false => simp [messageItems_eq, hopens, inner_eq_nil hopens, typesAll, Item.types]
  | true => simp [messageItems_eq, hopens, typesAll, Item.types]

mutual

theorem types_messageItems (modules : List String) (scope : String) : ∀ m : Message,
    m.isMapEntry = false → (∀ n ∈ m.within, Flat n) →
    (typesAll modules (messageItems ctx scope m)).Perm
      ((located modules scope m).flatMap (declaredTypes ctx))
  | ⟨name, _, _, nested, enums, _, _, _, _, _⟩, hentry, hflat => by
    have hnested := types_nestedItems (modules ++ [Identifier.moduleName name])
      (Name.qualify scope name) nested fun n hn k hk => hflat k (Message.mem_within_of_nested hn hk)
    rw [typesAll_messageItems, inner, typesAll_append, typesAll_append, typesAll_map, typesAll_map,
      located, flatMap_cons, declaredTypes, hentry, flatMap_append, flatMap_map]
    simp only [declaredTypes, Enum.declared, ← map_eq_flatMap]
    exact .cons _ ((hnested.append_right _).append_right _ |>.trans perm_append_comm)

theorem types_nestedItems (modules : List String) (scope : String) : ∀ ms : List Message,
    (∀ m ∈ ms, ∀ n ∈ m.within, Flat n) →
    (typesAll modules (nestedItems ctx scope ms)).Perm
      ((locatedIn modules scope ms).flatMap (declaredTypes ctx))
  | [], _ => .nil
  | m :: ms, hflat => by
    obtain ⟨hm, hms⟩ := forall_mem_cons.mp hflat
    have hrest := types_nestedItems modules scope ms hms
    rw [nestedItems, locatedIn, flatMap_append]
    split_ifs with hentry
    · obtain ⟨hnested, henums⟩ := hm m m.mem_within_self hentry
      have hnone : (located modules scope m).flatMap (declaredTypes ctx) = [] := by
        cases m
        cases hnested
        cases henums
        simp [located, locatedIn, declaredTypes, hentry]
      rwa [hnone]
    · rw [typesAll_append]
      exact (types_messageItems modules scope m (Bool.eq_false_iff.mpr hentry) hm).append hrest

end

theorem types_outline (hflat : ∀ m ∈ ctx.file.file.allMessages, Flat m)
    (htop : ∀ m ∈ ctx.file.file.messages, m.isMapEntry = false) :
    (typesAll [] (outline ctx)).Perm
      ((declarations ctx.file.file).flatMap (declaredTypes ctx)) := by
  have hmessages := @types_nestedItems ctx [] ctx.package ctx.file.file.messages
    fun m hm n hn => hflat n (mem_flatMap.mpr ⟨m, hm, hn⟩)
  have hall : ctx.file.file.messages.filter (fun m => !m.isMapEntry) = ctx.file.file.messages :=
    filter_eq_self.mpr fun m hm => by rw [htop m hm]; rfl
  rw [nestedItems_eq, hall] at hmessages
  rw [outline, typesAll_append, typesAll_append, typesAll_map, typesAll_map, declarations,
    flatMap_append, flatMap_append, flatMap_map, flatMap_map, append_assoc]
  refine hmessages.append (List.Perm.of_eq ?_)
  simp only [declaredTypes, Enum.declared, ← map_eq_flatMap]
  rfl

/-! ## Fields and oneofs -/

/-- The declared oneof that a field of the message is in. -/
def ownOneof? (m : Message) (f : Field) : Option Nat :=
  f.oneofIndex.filter fun i => !m.isMade i

/-- The oneofs with their indexes, but for those made for a field that is marked optional. -/
def ownOneofs (m : Message) : List (Nat × Oneof) :=
  (m.oneofs.mapIdx fun i o => (i, o)).filter fun x => !m.isMade x.1

/-- The shape of a field tells the declared oneof that it is in. -/
structure Apportions (m : Message) : Prop where
  oneofs : declaredOneofs m = ownOneofs m
  own : ∀ f ∈ m.fields, (f.oneofIndex.filter fun _ => !f.proto3Optional) = ownOneof? m f
  covers : ∀ f ∈ m.fields, ∀ i, ownOneof? m f = some i → i ∈ (ownOneofs m).map Prod.fst

def places (m : Message) : List (Option Nat × Bool) :=
  m.fields.map fun f => (f.oneofIndex, f.proto3Optional)

/-- Which oneofs were made for fields that are marked optional can be seen from their members and
from the fields alike. -/
structure Settled (places : List (Option Nat × Bool)) (oneofs : List Oneof) : Prop where
  made : ∀ i o, oneofs[i]? = some o →
    ((∃ j k, o.fields = [j] ∧ places[j]? = some (k, true)) ↔ (some i, true) ∈ places)
  marked : ∀ i b, (some i, b) ∈ places → (b = true ↔ (some i, true) ∈ places)
  inRange : ∀ i b, (some i, b) ∈ places → i < oneofs.length

private theorem isMade_iff : m.isMade i = true ↔ (some i, true) ∈ places m := by
  simp [Message.isMade, places, and_comm]

theorem isSynthetic_iff {o : Oneof} : isSynthetic m o = true ↔
    ∃ j k, o.fields = [j] ∧ (places m)[j]? = some (k, true) := by
  unfold isSynthetic
  split
  · next j hj => simp [places, hj, Option.any_eq_true]
  · next h =>
    refine ⟨fun hfalse => absurd hfalse Bool.false_ne_true, ?_⟩
    rintro ⟨j, _, hj, _⟩
    exact absurd hj (h j)

theorem mem_places_iff {k : Option Nat} {b : Bool} : (k, b) ∈ places m ↔
    ∃ (j : Nat) (f : Field), m.fields[j]? = some f ∧ f.oneofIndex = k ∧ f.proto3Optional = b := by
  simp [mem_iff_getElem?, places]

theorem settled_of_crossIndexed (h : m.CrossIndexed) : Settled (places m) m.oneofs := by
  obtain ⟨hpaired, declared, made, hfurnished⟩ := h
  -- the oneofs made for single fields come behind the declared ones
  have hmarked : ∀ {j : Nat} {f : Field} {i : Nat}, m.fields[j]? = some f → f.oneofIndex = some i →
      (f.proto3Optional = true ↔ declared.length ≤ i) := by
    intro j f i hj hi
    rw [hfurnished.optional_iff j f hj]
    constructor
    · rintro ⟨o, ho, hmem⟩
      obtain ⟨k, hk⟩ := mem_iff_getElem?.mp ho
      have hindex := (hpaired.mem_iff j f hj (declared.length + k)).mpr
        ⟨o, by simpa [hfurnished.oneofs, getElem?_append_right] using hk, hmem⟩
      have heq : declared.length + k = i := Option.some.inj (hindex.symm.trans hi)
      omega
    · intro hle
      obtain ⟨o, ho, hmem⟩ := (hpaired.mem_iff j f hj i).mp hi
      rw [hfurnished.oneofs, getElem?_append_right hle] at ho
      exact ⟨o, mem_of_getElem? ho, hmem⟩
  refine ⟨fun i o ho => ⟨?_, fun hmade => ?_⟩, fun i b hb => ⟨?_, fun hmade => ?_⟩,
    fun i b hb => ?_⟩
  · rintro ⟨j, k, hfields, hj⟩
    obtain ⟨f, hf, rfl, hoptional⟩ : ∃ f, m.fields[j]? = some f ∧ f.oneofIndex = k ∧
        f.proto3Optional = true := by simpa [places] using hj
    have hi := (hpaired.mem_iff j f hf i).mpr ⟨o, ho, by rw [hfields]; exact mem_singleton_self j⟩
    exact mem_places_iff.mpr ⟨j, f, hf, hi, hoptional⟩
  · obtain ⟨j, f, hj, hi, hoptional⟩ := mem_places_iff.mp hmade
    obtain ⟨o', ho', hmem⟩ := (hpaired.mem_iff j f hj i).mp hi
    obtain rfl : o = o' := Option.some.inj (ho.symm.trans ho')
    rw [hfurnished.oneofs, getElem?_append_right ((hmarked hj hi).mp hoptional)] at ho
    obtain ⟨only, honly⟩ := hfurnished.single o (mem_of_getElem? ho)
    obtain rfl : j = only := by simpa [honly] using hmem
    exact ⟨j, f.oneofIndex, honly, by simp [places, hj, hoptional]⟩
  · rintro rfl
    exact hb
  · obtain ⟨j, f, hj, hi, rfl⟩ := mem_places_iff.mp hb
    obtain ⟨_, _, hj', hi', hoptional⟩ := mem_places_iff.mp hmade
    exact (hmarked hj hi).mpr ((hmarked hj' hi').mp hoptional)
  · obtain ⟨j, f, hj, hi, _⟩ := mem_places_iff.mp hb
    obtain ⟨o, ho, _⟩ := (hpaired.mem_iff j f hj i).mp hi
    exact (List.getElem?_eq_some_iff.mp ho).1

theorem Settled.apportions (h : Settled (places m) m.oneofs) : Apportions m := by
  refine ⟨filter_congr fun x hx => congrArg not ?_, fun f hf => ?_, fun f hf i hi => ?_⟩
  · obtain ⟨i, hi, rfl⟩ := mem_mapIdx.mp hx
    rw [Bool.eq_iff_iff, isSynthetic_iff, isMade_iff]
    exact h.made i _ (getElem?_eq_getElem hi)
  · cases hi : f.oneofIndex with
    | none => simp [ownOneof?, hi]
    | some i =>
      have hmade : m.isMade i = f.proto3Optional := by
        rw [Bool.eq_iff_iff, isMade_iff, h.marked i f.proto3Optional]
        exact mem_map.mpr ⟨f, hf, by rw [hi]⟩
      simp [ownOneof?, hi, Option.filter, hmade]
  · obtain ⟨hindex, hmade⟩ := Option.filter_eq_some_iff.mp hi
    have hlt := h.inRange i f.proto3Optional (mem_map.mpr ⟨f, hf, by rw [hindex]⟩)
    exact mem_map.mpr ⟨(i, m.oneofs[i]), mem_filter.mpr ⟨mem_mapIdx.mpr ⟨i, hlt, rfl⟩, hmade⟩, rfl⟩

/-! ## Files that were read and linked -/

section Linked

variable {path source : String} {file : File} {locations : List Location}
  {dependencies : List LinkedFile} {l : LinkedFile}

variable (hparse : parse path source = .ok (file, locations))
include hparse

theorem apportions_of_link (hlink : link file dependencies = .ok l) {n : Message}
    (hn : n ∈ l.file.allMessages) : Apportions n := by
  obtain ⟨_, _, hn⟩ := File.exists_holds_of_mem_allMessages hn
  obtain ⟨m, hm, _, h⟩ := exists_source hparse hlink hn
  obtain ⟨rfl, _⟩ := readFile_of_parse hparse
  have hsettled := settled_of_crossIndexed
    ((indexed_readInto (File.indexed_new path) source).1 m hm.mem_allMessages)
  have hplaces : places m = places n := map_eq_of_forall₂ h.fields fun f _ g hfg => by
    rw [Field.eq_of_link hfg]
  have honeofs : n.oneofs = m.oneofs := by rw [h.rest]
  exact Settled.apportions (honeofs ▸ hplaces ▸ hsettled)

variable (hmarked : file.NoneMarked locations)
include hmarked

/-- What is marked as a pair type was made for a map field. -/
theorem exists_eq_mapEntry {q : List Edge} (hq : (Item.file file).walk q = some (.message m))
    (hm : m.isMapEntry = true) : ∃ q' k name key value,
      q = q' ++ [(Location.messageNested, k)] ∧ m = mapEntry name key value := by
  obtain ⟨rfl, rfl⟩ := readFile_of_parse hparse
  obtain ⟨i, j, es, hlocations, hnoted⟩ := exists_noted_readFile path source
  have hne : q ≠ [] := by
    rintro rfl
    cases hq
  rcases hnoted.complete q _ hne hq trivial with hmem | ⟨p, hp, r, rfl⟩
  · obtain ⟨a, ha, rfl⟩ := mem_map.mp hmem
    have hunmarked := hmarked (a.location []) (hlocations ▸ mem_map_of_mem ha) a.path m rfl hq
    rw [hm] at hunmarked
    cases hunmarked
  · obtain ⟨a, ha, hmade⟩ := mem_madePaths.mp hp
    obtain ⟨q', _, k, _, n, _, rfl, _, hn, hmap, _⟩ := hnoted.declaresMap ha hmade
    obtain ⟨key, value, rfl⟩ := hmap.entry
    rw [Item.walk_append, hn, Option.bind_some] at hq
    obtain rfl := Item.eq_nil_of_walk_mapEntry hq
    cases hq
    exact ⟨q', k, _, key, value, append_nil _, rfl⟩

variable (hlink : link file dependencies = .ok l) {n : Message}
include hlink

theorem flat_of_link (hn : n ∈ l.file.allMessages) : Flat n := by
  intro hentry
  obtain ⟨_, _, hn⟩ := File.exists_holds_of_mem_allMessages hn
  obtain ⟨m, hm, _, h⟩ := exists_source hparse hlink hn
  obtain ⟨q, hq⟩ := File.exists_walk_of_mem_allMessages hm.mem_allMessages
  obtain ⟨_, _, _, _, _, _, rfl⟩ := exists_eq_mapEntry hparse hmarked hq (h.isMapEntry_eq ▸ hentry)
  exact ⟨forall₂_nil_left_iff.mp h.nested, by rw [h.rest]; rfl⟩

theorem isMapEntry_eq_false_of_link (hn : n ∈ l.file.messages) : n.isMapEntry = false := by
  obtain ⟨m, hm, h⟩ := exists_mem_of_forall₂ (partsLinkTo_of_link hlink).messages hn
  rw [Message.isMapEntry_of_link h, Bool.eq_false_iff]
  intro hentry
  obtain ⟨i, hi⟩ := mem_iff_getElem?.mp hm
  have hwalk : (Item.file file).walk [(Location.fileMessage, i)] = some (.message m) := by
    simp [Item.walk_cons, Item.children, hi]
  obtain ⟨q, k, _, _, _, hq, _⟩ := exists_eq_mapEntry hparse hmarked hwalk hentry
  have hlast : (Location.fileMessage, i) = (Location.messageNested, k) := by
    simpa using congrArg List.getLast? hq
  have htag : Location.fileMessage = Location.messageNested := congrArg Prod.fst hlast
  exact absurd htag (by decide)

end Linked

def shown (ctx : Context) : List (List String × String × List String) :=
  (typesAll [] (outline ctx)).map fun x => (x.1, x.2.name.text, x.2.members.map fun m =>
    m.name.text ++ String.join (m.rest.map (Part.write ctx.package x.1.length)))

end ProtoSchema.RustTypes
