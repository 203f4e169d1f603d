import ProtoSchema.Proofs.PairTypes

/-!
Map fields from the text to their shapes. The pair type of a map field is made under a name of its
own when the field is read, is found again by that name when the file is linked, and once more
through its full name when the shape of the field is asked for. Main statement: what is found in the
end is the pair type that was made for this very field.
-/

namespace ProtoSchema

open List Option Item

def Scope.shape? (scope : Scope) (place : String) (ref : TypeRef) : Option Shape :=
  match ref.type with
  | some .string => some .string
  | some type => some (.primitive type)
  | none => (ref.typeName.bind (scope.resolve? place)).bind fun d =>
    match d.kind with
    | .message => some (.message ("." ++ d.fullName))
    | .enum => some (.enum ("." ++ d.fullName))
    | .service => none

/-- The field with the index `k` of a message is a map from and to the given types, and its pair
type is nested next to it with the index `j`. -/
def LinkedFile.HasMap (l : LinkedFile) (scope : Scope) (place : List Step) (k j : Nat)
    (types : TypeRef × TypeRef) : Prop :=
  ∃ fullName m f e key value, l.file.Holds place ⟨fullName, .message m⟩ ∧
    m.fields[k]? = some f ∧ m.nested[j]? = some e ∧ e.name = mapEntryName f.name ∧
    f.typeName = some ("." ++ Name.qualify fullName e.name) ∧ l.mapEntry? f = some e ∧
    scope.shape? (Name.qualify fullName e.name) types.1 = some key ∧
    scope.shape? (Name.qualify fullName e.name) types.2 = some value ∧ l.shape f = .map key value

/-- Each field that is written as a map has the shape of a map of the types that are written, by the
pair type that was made for it when it was read. -/
def LinkedFile.KeepsMaps (l : LinkedFile) (source : String) (file : File)
    (locations : List Location) : Prop :=
  ∃ es, locations = es.map (Entry.location []) ∧ LocationTable source file es ∧
    ∀ a ∈ es, ∀ f types, (Item.file file).walk a.path = some (.field f) →
      mapWritten? (behindLabel ((tokensOf source).drop a.first)) = some types →
      ∃ is k j, a.path = messagePath is ++ [(Location.messageField, k)] ∧
        a.made = some (messagePath is ++ [(Location.messageNested, j)]) ∧
        l.HasMap (file.names l.dependencies) (is.map Step.message) k j types

theorem Field.TypeGiven.shape?_of_link {scope : Scope} {place : String} {f g : Field}
    (hgiven : f.TypeGiven) (h : f.link scope place = .ok g) :
    scope.shape? place f.typeRef = some (.of g) := by
  rcases hgiven.link_cases h with ⟨type, hscalar, href, rfl⟩ | ⟨name, d, t, href, hd, hkind, rfl⟩
  · rw [href, Scope.shape?, Shape.of, (TypeRef.mk.inj href).1]
    cases type with
    | message => exact absurd hscalar (by decide)
    | enum => exact absurd hscalar (by decide)
    | _ => rfl
  · simp only [href, Scope.shape?, bind_some, hd, Shape.of, getD_some]
    cases hk : d.kind with
    | message =>
      rw [hk] at hkind
      cases hkind
      rfl
    | enum =>
      rw [hk] at hkind
      cases hkind
      rfl
    | service =>
      rw [hk] at hkind
      cases hkind

section Files

variable {path source : String} {file : File} {locations : List Location}
  {dependencies : List LinkedFile} {l : LinkedFile} {place : List Step} {fullName : String}
  {m₀ e₀ : Message} {f₀ : Field}

/-- A map field has the shape that its types have where its pair type stands. -/
theorem hasMap_of_declaresMap (hparse : parse path source = .ok (file, locations))
    (hlink : link file dependencies = .ok l) (hm₀ : file.Holds place ⟨fullName, .message m₀⟩)
    {k j : Nat} {name : String} {types : TypeRef × TypeRef} (hf₀ : m₀.fields[k]? = some f₀)
    (he₀ : m₀.nested[j]? = some (mapEntry name types.1 types.2))
    (hmap : f₀.DeclaresMap (mapEntry name types.1 types.2)) :
    l.HasMap (file.names dependencies) place k j types := by
  obtain ⟨_, hm, hlinked⟩ := (linksTo_of_link hlink).1.exists_holds_right hm₀
  cases hlinked with
  | @message _ _ m hlinks =>
  obtain ⟨f, hf, hlinkf⟩ := exists_getElem?_of_forall₂ hlinks.fields hf₀
  obtain ⟨e, he, hlinke⟩ := exists_getElem?_of_forall₂ hlinks.nested he₀
  have hgiven := (written_of_parse hparse).given hm₀
  have hmemf := mem_of_getElem? hf₀
  have hmeme := mem_of_getElem? he₀
  have hsame := Field.eq_of_link hlinkf
  -- the field is linked to the pair type next to it
  obtain ⟨raw, inner, gs, hraw, heq⟩ := hgiven.exists_declared hmeme
  have hplace : fullName ≠ "" := hm₀.fullName_ne_empty (by simpa [heq] using hraw.name.ne_empty)
  obtain ⟨htype, htypeName⟩ := type_of_declaresMap hlink hm₀ hplace
    (hraw.dot_notMem_names f₀ (heq ▸ hmemf)) hmeme hmap (hgiven.typesGiven.1 f₀ hmemf) hlinkf
  -- the pair type keeps its form
  obtain ⟨hfields, _, _, hrest⟩ := Message.linksTo_of_link hlinke
  obtain ⟨key, fs, hkey, hfs, hcons⟩ := forall₂_cons_left_iff.mp hfields
  obtain ⟨value, gs, hvalue, hgs, rfl⟩ := forall₂_cons_left_iff.mp hfs
  obtain rfl := forall₂_nil_left_iff.mp hgs
  have hname : e.name = name := by rw [hrest]; rfl
  have hentry : e.isMapEntry = true := by rw [Message.isMapEntry_of_link hlinke]; rfl
  have hrepeated : f.isRepeated = true := by rw [hsame, Field.isRepeated, hmap.label]; rfl
  have hnone := hgiven.oneofIndex_eq_none hmemf hmap.label
  have honeof : f.oneofIndex = none := (congrArg Field.oneofIndex hsame).trans hnone
  obtain ⟨_, hpair⟩ := hm.nested (mem_of_getElem? he)
  have hfind := find?_of_holds hlink hpair
  have htypeName : f.typeName = some ("." ++ Name.qualify fullName e.name) := hname ▸ htypeName
  have hfound : l.mapEntry? f = some e := by
    simp [LinkedFile.mapEntry?, htype, hrepeated, htypeName, hfind, Declaration.message?, hentry]
  have hgivene := (hgiven.nested hmeme).typesGiven.1
  refine ⟨fullName, m, f, e, .of key, .of value, hm, hf, he, ?_, htypeName, hfound, ?_, ?_, ?_⟩
  · obtain ⟨_, _, heq⟩ := hmap.entry
    rw [hname, hsame, show name = mapEntryName f₀.name from congrArg Message.name heq]
  · rw [hname]
    exact (hgivene _ mem_cons_self).shape?_of_link hkey
  · rw [hname]
    exact (hgivene _ (mem_cons_of_mem _ mem_cons_self)).shape?_of_link hvalue
  · simp [LinkedFile.shape, honeof, hrepeated, hfound, hcons]

/-- A field that is written as a map has its pair type next to it. -/
theorem Covers.exists_mapEntry {i j : Nat} {es : List Entry}
    (h : Noted (ReadAt (tokensOf source) file.dialect) (.file file) i j es) {a : Entry}
    (ha : a ∈ es)
    {f : Field} (hf : (Item.file file).walk a.path = some (.field f)) {types : TypeRef × TypeRef}
    (hwritten : mapWritten? (behindLabel ((tokensOf source).drop a.first)) = some types) :
    ∃ q k n name m g, a.path = q ++ [(Location.messageField, k)] ∧
      a.made = some (q ++ [(Location.messageNested, n)]) ∧
      (Item.file file).walk q = some (.message m) ∧ m.fields[k]? = some g ∧
      m.nested[n]? = some (mapEntry name types.1 types.2) ∧
      g.DeclaresMap (mapEntry name types.1 types.2) := by
  have hbegins := ite_none_right_eq_some.mp hwritten
  obtain ⟨p, hp⟩ :=
    isSome_iff_exists.mp ((h.locationTable.made_iff a ha).mpr ⟨⟨f, hf⟩, hbegins.1⟩)
  obtain ⟨q, k, n, f', e, hpath, rfl, hf', he, hmap, name, hentry⟩ := h.declaresMap ha hp
  rw [hwritten, map_some, Option.some.injEq] at hentry
  subst hentry
  rw [hpath, walk_append] at hf'
  rw [walk_append] at he
  obtain ⟨y, hy, hwalk⟩ := bind_eq_some_iff.mp he
  rw [hy, bind_some] at hf'
  refine ⟨q, k, n, name, ?_⟩
  cases y with
  | message m =>
    obtain ⟨e', _, he', hwalk⟩ := exists_nested_of_walk hwalk
    cases hwalk
    obtain ⟨g, hg, rfl⟩ : ∃ g, m.fields[k]? = some g ∧ g.unplaced = f' := by
      simpa [walk_cons, Item.children, Location.messageField] using hf'
    exact ⟨m, g, hpath, hp, hy, hg, he', hmap.congr rfl⟩
  | file =>
    obtain ⟨_, _, _, heq, _⟩ := exists_message_of_walk hwalk
    have htag : Location.messageNested = Location.fileMessage :=
      congrArg Prod.fst (List.cons.inj heq).1
    exact absurd htag (by decide)
  | _ => exact (isScope_of_walk hwalk).elim

end Files

/-- Map fields keep their shape from the text on, and a field has the shape of a map only if its
type is marked as a pair type and has two fields. -/
theorem keepsMaps_of_link {path source : String} {file : File} {locations : List Location}
    {dependencies : List LinkedFile} {l : LinkedFile}
    (hparse : parse path source = .ok (file, locations))
    (hlink : link file dependencies = .ok l) :
    l.KeepsMaps source file locations ∧ ∀ f key value, l.shape f = .map key value →
      ∃ typeName g name e, f.typeName = some typeName ∧
        l.find? typeName = some (g, ⟨name, .message e⟩) ∧ e.isMapEntry = true ∧
        e.fields.length = 2 := by
  constructor
  · obtain ⟨hfile, hlocations⟩ := readFile_of_parse hparse
    obtain ⟨i, j, es, hes, hnoted⟩ := exists_noted_readFile path source
    rw [hfile] at hnoted
    refine ⟨es, hlocations.symm.trans hes, hnoted.locationTable, ?_⟩
    rw [(linksTo_of_link hlink).2]
    intro a ha f types hf hwritten
    obtain ⟨q, k, n, name, m, g, hpath, hmade, hq, hg, hn, hmap⟩ :=
      hnoted.exists_mapEntry ha hf hwritten
    obtain ⟨is, fullName, rfl, hm⟩ := File.exists_holds_of_walk hq
    exact ⟨is, k, n, hpath, hmade, hasMap_of_declaresMap hparse hlink hm hg hn hmap⟩
  · intro f key value hshape
    unfold LinkedFile.shape at hshape
    split at hshape
    · cases hshape
    · split at hshape
      · split at hshape
        · next hfields =>
          obtain ⟨e, hfound, hfields⟩ := Option.map_eq_some_iff.mp hfields
          obtain ⟨_, _, hentry, typeName, g, _, name, htypeName, _, _, _, hfind⟩ :=
            LinkedFile.mapEntry?_eq_some hfound
          exact ⟨typeName, g, name, e, htypeName, hfind, hentry, by rw [hfields]; rfl⟩
        · cases hshape
      · cases hshape

def mapToEnum : String :=
  "message M\x7benum V\x7bZ=0;\x7dmap<string,V>a=1;\x7d"

theorem keepsMaps_of_link_mapToEnum :
    ∃ file locations l, parse "m" mapToEnum = .ok (file, locations) ∧ link file [] = .ok l ∧
      (tokensOf mapToEnum).tails.filterMap mapWritten? =
        [({ type := some .string }, { typeName := some "V" })] ∧
      l.KeepsMaps mapToEnum file locations := by
  have hmade : (LinkedFile.make? "m" mapToEnum []).isSome = true := by decide +kernel
  obtain ⟨l, hl⟩ := Option.isSome_iff_exists.mp hmade
  obtain ⟨file, locations, hparse, hlink⟩ := LinkedFile.make?_eq_some_iff.mp hl
  exact ⟨file, locations, l, hparse, hlink, by decide +kernel, (keepsMaps_of_link hparse hlink).1⟩

end ProtoSchema
