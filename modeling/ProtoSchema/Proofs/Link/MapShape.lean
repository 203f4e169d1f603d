import ProtoSchema.Proofs.Link.Lookup
import ProtoSchema.Shape

/-!
Map fields of a linked file. Printing knows a map field by the last part of its type name, which is
that of a pair type nested next to it; its shape is found through the full name. The two agree
where the pair types of the file are those of its map fields and no other field has one as its
type, and can differ elsewhere.
-/

namespace ProtoSchema

open Relation LinkedFile List Option Name

/-! ## The last part of a name -/

namespace Name

private theorem last_append_dot (a b : String) : last (a ++ "." ++ b) = last b := by
  have hreverse : (a ++ "." ++ b).toList.reverse = b.toList.reverse ++ '.' :: a.toList.reverse := by
    simp
  rw [last, hreverse, last, takeWhile_append]
  split
  · next hall =>
    rw [(List.takeWhile_prefix _).eq_of_length hall]
    simp
  · rfl

theorem last_dot (name : String) : last ("." ++ name) = last name := by
  simpa using last_append_dot "" name

theorem last_qualify (scope name : String) : last (qualify scope name) = last name := by
  unfold qualify
  split
  · rfl
  · exact last_append_dot scope name

theorem qualify_ne_empty {scope name : String} (h : name ≠ "") : qualify scope name ≠ "" := by
  unfold qualify
  split
  · exact h
  · simp [h]

theorem eq_dot_of_absolute? {name fullName : String} (h : absolute? name = some fullName) :
    name = "." ++ fullName := by
  unfold absolute? at h
  split at h
  · next rest hname =>
    cases h
    rw [← String.toList_inj]
    simp [hname]
  · cases h

end Name

variable {scope : Scope} {place name : String} {d : ProtoSchema.Declared} {m : Message}
  {path : List Step} {file : File} {f : Field}

theorem Scope.fullName_of_resolve? (h : scope.resolve? place name = some d) :
    name = "." ++ d.fullName ∨
      absolute? name = none ∧ ∃ s, d.fullName = qualify s name := by
  obtain ⟨fullName, hfound, hname⟩ := exists_lookup?_of_resolve? h
  rw [(Declared.mem_of_find? hfound).2]
  exact hname.imp_left eq_dot_of_absolute?

theorem Scope.last_of_resolve? (h : scope.resolve? place name = some d) :
    Name.last d.fullName = Name.last name := by
  rcases fullName_of_resolve? h with hname | ⟨_, s, hname⟩
  · rw [hname, last_dot]
  · rw [hname, last_qualify]

/-- A name without dots means what is declared at its place, if anything is. -/
theorem Scope.resolve?_of_dot_notMem (hdot : '.' ∉ name.toList) (hplace : place ≠ "")
    (h : scope.lookup? (qualify place name) = some d) :
    scope.resolve? place name = some d := by
  have habsolute : absolute? name = none := by
    unfold absolute?
    split
    · next rest hname => exact absurd (hname ▸ mem_cons_self) hdot
    · rfl
  have hfirst : Name.first? name = none := if_neg hdot
  rw [resolve?, habsolute, hfirst, scopes, if_neg hplace, findSome?_cons, h]

/-! ## Declarations of the file itself -/

theorem Declared.find?_of_mem {ds : List Declared} (hnodup : (ds.map fullName).Nodup)
    (hd : d ∈ ds) :
    find? ds d.fullName = some d := by
  have hsome : (find? ds d.fullName).isSome = true :=
    find?_isSome.mpr ⟨d, hd, decide_eq_true rfl⟩
  obtain ⟨e, he⟩ := isSome_iff_exists.mp hsome
  obtain ⟨hmem, hname⟩ := mem_of_find? he
  rw [he, inj_on_of_nodup_map hnodup hmem hd hname]

section Own

variable {file : File} {dependencies : List LinkedFile} {l : LinkedFile}

theorem nodup_fullName_of_link (h : link file dependencies = .ok l) :
    (file.declared.map Declared.fullName).Nodup := by
  have hlinkable := linkable_of_link h
  exact File.nodup_fullName_iff.mpr hlinkable.distinct

theorem map_fullName_of_link (h : link file dependencies = .ok l) :
    l.declared.map Declared.fullName = file.declared.map Declared.fullName := by
  have hlinks := linksTo_declared h
  generalize file.declared = ds at hlinks
  generalize l.declared = es at hlinks
  induction hlinks with
  | nil => rfl
  | cons hde _ ih => rw [map_cons, map_cons, hde.fullName_eq, ih]

/-- A search for a name of the file itself ends in the file. -/
theorem find?_of_holds (h : link file dependencies = .ok l) {path : List Step} {d : Declared}
    (hd : l.file.Holds path d) : l.find? ("." ++ d.fullName) = some (l, d) := by
  have hnodup : (l.declared.map Declared.fullName).Nodup :=
    map_fullName_of_link h ▸ nodup_fullName_of_link h
  have hown := Declared.find?_of_mem hnodup (File.mem_declared_iff.mpr ⟨path, hd⟩)
  simp only [LinkedFile.find?, get?_eq_find?, bare_dot, findSome?_cons]
  rw [hown]
  rfl

end Own

theorem Message.Holds.exists_qualify (h : m.Holds place path d) :
    ∃ s, d.fullName = qualify s d.declaration.name := by
  induction h with
  | self place m => exact ⟨place, rfl⟩
  | nested _ _ ih => exact ih
  | enum => exact ⟨_, rfl⟩

theorem File.Holds.exists_qualify (h : file.Holds path d) :
    ∃ s, d.fullName = qualify s d.declaration.name := by
  cases h with
  | message _ h => exact h.exists_qualify
  | enum => exact ⟨_, rfl⟩
  | service => exact ⟨_, rfl⟩

theorem File.Holds.fullName_ne_empty {fullName : String}
    (h : file.Holds path ⟨fullName, .message m⟩) (hname : m.name ≠ "") : fullName ≠ "" := by
  obtain ⟨s, hs⟩ := h.exists_qualify
  rw [show fullName = qualify s m.name from hs]
  exact qualify_ne_empty hname

theorem File.Holds.nested {file : File} {fullName : String} {m n : Message} {path : List Step}
    (h : file.Holds path ⟨fullName, .message m⟩) (hn : n ∈ m.nested) :
    ∃ path', file.Holds path' ⟨qualify fullName n.name, .message n⟩ := by
  obtain ⟨i, hi⟩ := mem_iff_getElem?.mp hn
  exact ⟨_, h.snoc hi⟩

/-! ## Map fields and their pair types, linked -/

section Linked

variable {scope : Scope} {dialect : Dialect} {place : String} {f₀ f : Field} {e₀ e : Message}

theorem Field.eq_of_link (hf : f₀.link scope place = .ok f) :
    f = { f₀ with type := f.type, typeName := f.typeName } := by
  obtain ⟨hresolve, _⟩ := Field.link_eq_ok_iff.mp hf
  rcases Field.resolve_eq_ok_iff.mp hresolve with ⟨_, rfl⟩ | ⟨_, _, _, _, _, _, _, rfl⟩ <;> rfl

/-- Linking keeps the last part of a type name. -/
theorem Field.last_of_link (hgiven : f₀.TypeGiven) (hf : f₀.link scope place = .ok f) :
    f.typeName.map Name.last = f₀.typeName.map Name.last := by
  rcases hgiven.link_cases hf with ⟨_, _, _, rfl⟩ | ⟨name, d, t, href, hd, _, rfl⟩
  · rfl
  · rw [(TypeRef.mk.inj href).2]
    simp only [map_some, last_dot, Scope.last_of_resolve? hd]

theorem Field.ownsEntry_of_link (hgiven : f₀.TypeGiven) (hf : f₀.link scope place = .ok f)
    (he : e₀.link scope dialect place = .ok e) : f.ownsEntry e = f₀.ownsEntry e₀ := by
  have hlabel : f.label = f₀.label := by rw [eq_of_link hf]
  rw [ownsEntry, ownsEntry, isRepeated, isRepeated, hlabel, last_of_link hgiven hf,
    (Message.linksTo_of_link he).name_eq]

theorem Message.isMapEntry_of_link (he : e₀.link scope dialect place = .ok e) :
    e.isMapEntry = e₀.isMapEntry :=
  (linksTo_of_link he).isMapEntry_eq

/-- The pair type of a map field has the same form after linking. -/
theorem Message.mapEntry_of_link {name : String} {key value : TypeRef}
    (he : (mapEntry name key value).link scope dialect place = .ok e) :
    ∃ key' value', e = mapEntry name key' value' := by
  obtain ⟨hfields, hextensions, hnested, hrest⟩ := linksTo_of_link he
  obtain ⟨k, fs, hk, hfs, hcons⟩ := forall₂_cons_left_iff.mp hfields
  obtain ⟨v, gs, hv, hgs, rfl⟩ := forall₂_cons_left_iff.mp hfs
  obtain rfl := forall₂_nil_left_iff.mp hgs
  rw [forall₂_nil_left_iff.mp hextensions, forall₂_nil_left_iff.mp hnested, hcons,
    Field.eq_of_link hk, Field.eq_of_link hv] at hrest
  exact ⟨k.typeRef, v.typeRef, hrest⟩

end Linked

/-! ## Messages that were read -/

theorem IsIdentifier.ne_empty (h : IsIdentifier name) : name ≠ "" := by
  obtain ⟨c, cs, hname, _⟩ := h
  rintro rfl
  cases hname

/-- A field that was placed stands alone or in a oneof. -/
theorem FieldGroup.mem_placeAll {gs : List FieldGroup} (h : f ∈ (placeAll gs).1) :
    ∃ g ∈ gs, (∃ f₀, g = .single f₀ ∧ f = f₀.unplaced) ∨
      ∃ name options members f₀, g = .oneof name options members ∧ f₀ ∈ members ∧
        f.unplaced = f₀.unplaced := by
  induction gs using List.reverseRecOn with
  | nil => cases h
  | append_singleton gs g ih =>
    rw [placeAll_concat] at h
    have hlast : g ∈ gs ++ [g] := mem_append_right _ (mem_singleton_self g)
    cases g with
    | single f₀ =>
      rcases mem_append.mp h with h | h
      · exact (ih h).imp fun _ => And.imp_left (mem_append_left _)
      · exact ⟨_, hlast, .inl ⟨f₀, rfl, mem_singleton.mp h⟩⟩
    | oneof name options members =>
      rcases mem_append.mp h with h | h
      · exact (ih h).imp fun _ => And.imp_left (mem_append_left _)
      · obtain ⟨f₀, hf₀, rfl⟩ := mem_map.mp h
        exact ⟨_, hlast, .inr ⟨name, options, members, f₀, rfl, hf₀, rfl⟩⟩

theorem Field.Headed.unmarked {dialect : Dialect} {inOneof : Bool} {ok : Word → Prop}
    (h : f.Headed dialect inOneof ok) (hlabel : f.label = .repeated) :
    inOneof = false ∧ f.proto3Optional = false := by
  obtain ⟨label, hlabelled⟩ := h.label
  have hkept := hlabelled.kept
  rw [hlabel] at hkept
  have hsome : label = some .repeated := by
    cases label with
    | none => cases hkept
    | some k => exact congrArg some hkept.symm
  constructor
  · cases inOneof with
    | false => rfl
    | true => exact absurd (hlabelled.outside rfl) (by simp [hsome])
  · rw [hlabelled.marked, hsome]
    rfl

namespace Message

variable {dialect : Dialect} {m n : Message} {f : Field}

/-- A message with others in it was read. -/
theorem Given.exists_declared (h : m.Given dialect) (hn : n ∈ m.nested) :
    ∃ (raw : Message) (budget : Nat) (gs : List FieldGroup),
      raw.Declared dialect (Written dialect budget) gs ∧ m = raw.withSyntheticOneofs := by
  rcases h with ⟨_, hm⟩ | ⟨name, _, key, value, _, _, rfl⟩
  · exact hm.exists_declared
  · exact absurd hn not_mem_nil

/-- A repeated field stands in no oneof. -/
theorem Declared.oneofIndex_eq_none {raw : Message} {inner : Message → Prop}
    {gs : List FieldGroup} (h : raw.Declared dialect inner gs)
    (hf : f ∈ raw.withSyntheticOneofs.fields) (hlabel : f.label = .repeated) :
    f.oneofIndex = none := by
  have hgrouped := grouped_withSyntheticOneofs h.fields h.oneofs
  obtain ⟨i, hi⟩ := mem_iff_getElem?.mp hf
  -- The field of the same place before oneofs were made for the optional ones.
  have hplace : (raw.fields.map Field.unplaced)[i]? = some f.unplaced := by
    rw [← raw.furnished_withSyntheticOneofs.unplaced, getElem?_map, hi]
    rfl
  rw [getElem?_map, map_eq_some_iff] at hplace
  obtain ⟨f', hi', hsame⟩ := hplace
  have hlabel' : f'.label = .repeated := (congrArg Field.label hsame :).trans hlabel
  rw [h.fields] at hi'
  obtain ⟨g, hg, ⟨f₀, rfl, rfl⟩ | ⟨_, _, _, f₀, rfl, hf₀, hsame₀⟩⟩ :=
    FieldGroup.mem_placeAll (mem_of_getElem? hi')
  · have hunmarked : f₀.proto3Optional = false := by
      cases h.groups _ hg with
      | plain _ _ hhead => exact (hhead.unmarked hlabel').2
      | map _ _ hmap => exact hmap.unmarked
    have hkept := hgrouped.kept i _ hi' hunmarked
    cases hi.symm.trans hkept
    rfl
  · have hlabel₀ : f₀.label = .repeated := (congrArg Field.label hsame₀ :).symm.trans hlabel'
    cases h.groups _ hg with
    | oneof _ _ _ hmembers => exact absurd ((hmembers f₀ hf₀).head.unmarked hlabel₀).1 nofun

theorem Given.oneofIndex_eq_none (h : m.Given dialect) (hf : f ∈ m.fields)
    (hlabel : f.label = .repeated) : f.oneofIndex = none := by
  rcases h with ⟨_, hm⟩ | ⟨name, _, key, value, _, _, rfl⟩
  · obtain ⟨raw, _, gs, hraw, rfl⟩ := hm.exists_declared
    exact hraw.oneofIndex_eq_none hf hlabel
  · rcases mem_pair.mp hf with rfl | rfl <;> cases hlabel

end Message

section Maps

variable {path source : String} {file : File} {locations : List Location}
  {dependencies : List LinkedFile} {l : LinkedFile} {place : List Step} {fullName : String}
  {m₀ m e₀ : Message} {f₀ f : Field}

theorem File.Holds.mem_allMessages (h : file.Holds place ⟨fullName, .message m⟩) :
    m ∈ file.allMessages := by
  cases h with
  | message hi h => exact mem_flatMap.mpr ⟨_, mem_of_getElem? hi, h.mem_within⟩

/-- A map field is linked to the pair type that was made for it. -/
theorem type_of_declaresMap (hlink : link file dependencies = .ok l)
    (hm₀ : file.Holds place ⟨fullName, .message m₀⟩) (hplace : fullName ≠ "")
    (hdot : '.' ∉ f₀.name.toList) (he₀ : e₀ ∈ m₀.nested) (hmap : f₀.DeclaresMap e₀)
    (hgiven : f₀.TypeGiven) (hf : f₀.link (file.names dependencies) fullName = .ok f) :
    f.type = some .message ∧ f.typeName = some ("." ++ qualify fullName e₀.name) := by
  obtain ⟨path', hpath⟩ := hm₀.nested he₀
  have hname : e₀.name = mapEntryName f₀.name := by
    obtain ⟨key, value, rfl⟩ := hmap.entry
    rfl
  have hlookup : (file.names dependencies).lookup? (qualify fullName e₀.name) =
      some ⟨qualify fullName e₀.name, .message e₀⟩ := by
    have hown := Declared.find?_of_mem (nodup_fullName_of_link hlink)
      (File.mem_declared_iff.mpr ⟨path', hpath⟩)
    rw [Scope.lookup?, File.names, Scope.ofFile, Declared.find?, find?_append]
    rw [Declared.find?] at hown
    rw [hown]
    rfl
  rw [hname] at hlookup
  have hresolve :=
    Scope.resolve?_of_dot_notMem (dot_notMem_mapEntryName hdot) hplace hlookup
  rcases hgiven.link_cases hf with ⟨type, _, href, rfl⟩ | ⟨name, d, t, href, hd, hkind, rfl⟩
  · have hnone := (TypeRef.mk.inj href).2
    rw [hmap.typeName] at hnone
    cases hnone
  · have hsome := (TypeRef.mk.inj href).2
    rw [hmap.typeName] at hsome
    cases hsome
    rw [hresolve] at hd
    cases hd
    cases hkind
    exact ⟨rfl, by rw [hname]⟩

theorem exists_source (hparse : parse path source = .ok (file, locations))
    (hlink : link file dependencies = .ok l) (hm : l.file.Holds place ⟨fullName, .message m⟩) :
    ∃ m₀ : Message, file.Holds place ⟨fullName, .message m₀⟩ ∧ m₀.Given file.dialect ∧
      m₀.LinksTo (file.names dependencies) file.dialect fullName m := by
  obtain ⟨d, hd, hlinks⟩ := (linksTo_of_link hlink).1.exists_holds_left hm
  cases hlinks with
  | message h => exact ⟨_, hd, (written_of_parse hparse).given hd, h⟩

/-- A repeated field whose type ends in the name of a pair type next to it is the map field that
the pair type was made for, and is linked to it. -/
theorem type_of_ownsEntry (hlink : link file dependencies = .ok l)
    (hm₀ : file.Holds place ⟨fullName, .message m₀⟩) (hgiven : m₀.Given file.dialect)
    (hmaps : m₀.OwnMaps) (hlinks : m₀.LinksTo (file.names dependencies) file.dialect fullName m)
    (hf : f ∈ m.fields) {e : Message} (he : e ∈ m.nested) (hentry : e.isMapEntry = true)
    (howns : f.ownsEntry e = true) :
    f.type = some .message ∧ f.typeName = some ("." ++ qualify fullName e.name) ∧
      ∃ key value, e = mapEntry (mapEntryName f.name) key value := by
  obtain ⟨f₀, hf₀, hlinkf⟩ := exists_mem_of_forall₂ hlinks.fields hf
  obtain ⟨e₀, he₀, hlinke⟩ := exists_mem_of_forall₂ hlinks.nested he
  obtain ⟨raw, inner, gs, hraw, rfl⟩ := hgiven.exists_declared he₀
  have hnames := hraw.dot_notMem_names
  have hplace := hm₀.fullName_ne_empty (by simpa using hraw.name.ne_empty)
  have htypes := hgiven.typesGiven.1 f₀ hf₀
  rw [Field.ownsEntry_of_link htypes hlinkf hlinke] at howns
  rw [Message.isMapEntry_of_link hlinke] at hentry
  have hpair := Message.OwnMaps.mem_pairTypes.mpr ⟨he₀, hentry⟩
  have hmap := hmaps.declaresMap_of_entryIn? hnames hf₀ (hmaps.entryIn?_eq_some hpair howns)
  obtain ⟨htype, htypeName⟩ :=
    type_of_declaresMap hlink hm₀ hplace (hnames f₀ hf₀) he₀ hmap htypes hlinkf
  rw [(Message.linksTo_of_link hlinke).name_eq]
  refine ⟨htype, htypeName, ?_⟩
  have hname : f.name = f₀.name := by rw [Field.eq_of_link hlinkf]
  obtain ⟨key, value, rfl⟩ := hmap.entry
  rw [hname]
  exact Message.mapEntry_of_link hlinke

end Maps

/-! ## Printing and shapes -/

/-- The pair types that repeated fields are linked to are nested next to these fields. -/
def LinkedFile.OwnPairs (l : LinkedFile) : Prop :=
  ∀ place fullName m, l.file.Holds place ⟨fullName, .message m⟩ →
    ∀ f ∈ m.fields, f.isRepeated = true → ∀ g, ReflTransGen Imports l g →
      ∀ place' name e, g.file.Holds place' ⟨name, .message e⟩ → e.isMapEntry = true →
        f.typeName = some ("." ++ name) → e ∈ m.nested

/-- The field is printed as `map<K, V>`, with the key and the value of its pair type, and has the
shape of a map of these, or it is printed as any other field and has another shape. -/
def LinkedFile.PrintsShape (l : LinkedFile) (nested : List Message) (f : Field) : Prop :=
  ∀ dialect inOneof,
    (∃ entry key value, l.mapEntry? f = some entry ∧ entry.fields = [key, value] ∧
      l.shape f = .map (.of key) (.of value) ∧
      f.head nested dialect inOneof = "map<" ++ key.typeText ++ ", " ++ value.typeText ++ ">") ∨
    (∀ key value, l.shape f ≠ .map key value) ∧
      f.head nested dialect inOneof = f.head [] dialect inOneof

/-- A nested message is left out by printing exactly if it is the pair type of a field that is
printed as a map, and made for it: between its options and its last lines the message has the lines
of the other nested messages and those of its fields. -/
structure Message.LeavesOutPairs (m : Message) : Prop where
  pair : ∀ n ∈ m.nested, n.isMapEntry = true ↔ ∃ f ∈ m.fields, f.entryIn? m.nested = some n ∧
    ∃ key value, n = mapEntry (mapEntryName f.name) key value
  lines : ∀ dialect, ∃ body, m.lines dialect = Line.block ("message " ++ m.name ++ " \x7b")
      (Options.lines m.options ++ body ++ m.tailLines dialect) "\x7d" ∧
    body.Perm ((m.nested.filter fun n => !n.isMapEntry).flatMap (lines dialect) ++
      (m.groupsUpTo dialect m.fields.length 0).1)

theorem Message.groupsUpTo_append (m : Message) (dialect : Dialect) {bound next stop : Nat}
    (h : bound ≤ stop) :
    (m.groupsUpTo dialect bound next).1 ++
        (m.groupsUpTo dialect stop (m.groupsUpTo dialect bound next).2).1 =
      (m.groupsUpTo dialect stop next).1 := by
  fun_induction groupsUpTo m dialect bound next with
  | case1 next hlt lines last heq ih =>
    rw [heq] at ih
    rw [groupsUpTo.eq_def m dialect stop next, if_pos (hlt.trans_le h), append_assoc, ih]
  | case2 next => rfl

theorem Message.perm_nestedLines (m : Message) (dialect : Dialect) (ns : List Message)
    (next : Nat) :
    (nestedLines dialect m ns next).Perm
      ((ns.filter fun n => !n.isMapEntry).flatMap (lines dialect) ++
        (m.groupsUpTo dialect m.fields.length next).1) := by
  induction ns generalizing next with
  | nil => exact .refl _
  | cons n ns ih =>
    rw [nestedLines]
    cases hentry : n.isMapEntry with
    | false => simpa [hentry, append_assoc] using (ih next).append_left (n.lines dialect)
    | true =>
      cases howner : m.entryOwner? n with
      | none => simpa [hentry] using ih next
      | some owner =>
        have hlt : owner < m.fields.length := (findIdx?_eq_some_iff_getElem.mp howner).1
        have hrest := (ih (m.groupsUpTo dialect (owner + 1) next).2).append_left
          (m.groupsUpTo dialect (owner + 1) next).1
        rw [← m.groupsUpTo_append dialect hlt]
        simpa [hentry] using hrest.trans (perm_append_comm_assoc ..)

section Agreement

variable {path source : String} {file : File} {locations : List Location}
  {dependencies : List LinkedFile} {l : LinkedFile} {place : List Step} {fullName : String}
  {m e : Message} {f : Field}

/-- A pair type found through the full name is declared in a file that is reached. -/
theorem LinkedFile.mapEntry?_eq_some (h : l.mapEntry? f = some e) :
    f.type = some .message ∧ f.isRepeated = true ∧ e.isMapEntry = true ∧
      ∃ typeName g place' name, f.typeName = some typeName ∧ ReflTransGen Imports l g ∧
        g.file.Holds place' ⟨name, .message e⟩ ∧ name = bare typeName ∧
        l.find? typeName = some (g, ⟨name, .message e⟩) := by
  unfold mapEntry? at h
  split at h
  · next hrepeated =>
    obtain ⟨hfound, hentry⟩ := filter_eq_some_iff.mp h
    obtain ⟨⟨g, d⟩, hfind, hmessage⟩ := bind_eq_some_iff.mp hfound
    obtain ⟨typeName, htypeName, hfind⟩ := bind_eq_some_iff.mp hfind
    obtain ⟨k, hk, hget⟩ := exists_of_findSome?_eq_some hfind
    obtain ⟨d', hd', heq⟩ := map_eq_some_iff.mp hget
    cases heq
    obtain ⟨hmem, hname⟩ := Declared.mem_of_find? (g.get?_eq_find? _ ▸ hd')
    obtain ⟨place', hplace⟩ := File.mem_declared_iff.mp hmem
    have hreached : ReflTransGen Imports l g := by
      rcases mem_cons.mp hk with rfl | hk
      · exact .refl
      · exact (reached_of_mem_transitiveDependencies hk).to_reflTransGen
    obtain ⟨fullName, declaration⟩ := d
    cases declaration <;> cases hmessage
    exact ⟨hrepeated.1, hrepeated.2, hentry, typeName, g, place', fullName, htypeName, hreached,
      hplace, hname, hfind⟩
  · cases h

/-- The name of a pair type has no dot in it. -/
theorem dot_notMem_of_isMapEntry (hgiven : m.Given file.dialect) (hmaps : m.OwnMaps)
    (he : e ∈ m.nested) (hentry : e.isMapEntry = true) : '.' ∉ e.name.toList := by
  obtain ⟨raw, inner, gs, hraw, rfl⟩ := hgiven.exists_declared he
  obtain ⟨f, hf, hmap⟩ := hmaps.exists_owner (Message.OwnMaps.mem_pairTypes.mpr ⟨he, hentry⟩)
  obtain ⟨key, value, rfl⟩ := hmap.entry
  exact dot_notMem_mapEntryName (hraw.dot_notMem_names f hf)

/-- A repeated field has the shape of a map if it has a pair type, which then has two fields. -/
theorem LinkedFile.shape_eq (honeof : f.label = .repeated → f.oneofIndex = none)
    (hentry : ∀ entry, l.mapEntry? f = some entry → ∃ key value, entry.fields = [key, value]) :
    (∃ entry key value, l.mapEntry? f = some entry ∧ entry.fields = [key, value] ∧
      l.shape f = .map (.of key) (.of value)) ∨
      l.mapEntry? f = none ∧ ∀ key value, l.shape f ≠ .map key value := by
  cases hfound : l.mapEntry? f with
  | some entry =>
    obtain ⟨key, value, hfields⟩ := hentry entry hfound
    have hrepeated := (mapEntry?_eq_some hfound).2.1
    refine .inl ⟨entry, key, value, rfl, hfields, ?_⟩
    simp [shape, honeof (by simpa [Field.isRepeated] using hrepeated), hrepeated, hfound, hfields]
  | none =>
    refine .inr ⟨rfl, fun key value hshape => ?_⟩
    unfold shape at hshape
    split at hshape
    · cases hshape
    · rw [hfound] at hshape
      split at hshape <;> cases hshape

variable (hparse : parse path source = .ok (file, locations))
  (hlink : link file dependencies = .ok l) (hmaps : ∀ n ∈ file.allMessages, n.OwnMaps)
  (hm : l.file.Holds place ⟨fullName, .message m⟩) (hf : f ∈ m.fields)
include hparse hlink hmaps hm hf

/-- What is found through the full name is found next to the field. -/
theorem ownsEntry_of_mapEntry? (hpairs : l.OwnPairs) (h : l.mapEntry? f = some e) :
    e ∈ m.nested ∧ e.isMapEntry = true ∧ f.ownsEntry e = true := by
  obtain ⟨m₀, hm₀, hgiven, hlinks⟩ := exists_source hparse hlink hm
  obtain
    ⟨htype, hrepeated, hentry, typeName, g, place', name, htypeName, hreached, hholds, hbare, _⟩ :=
    mapEntry?_eq_some h
  obtain ⟨f₀, hf₀, hlinkf⟩ := exists_mem_of_forall₂ hlinks.fields hf
  obtain ⟨_, d, _, hd, _⟩ :=
    Field.exists_resolve?_of_link (hgiven.typesGiven.1 f₀ hf₀) hlinkf (.inl htype)
  obtain rfl : typeName = "." ++ d.fullName := Option.some.inj (htypeName.symm.trans hd)
  rw [bare_dot] at hbare
  rw [← hbare] at htypeName
  have he :=
    hpairs place fullName m hm f hf hrepeated g hreached place' name e hholds hentry htypeName
  obtain ⟨e₀, he₀, hlinke⟩ := exists_mem_of_forall₂ hlinks.nested he
  have hname₀ := (Message.linksTo_of_link hlinke).name_eq
  have hentry₀ := Message.isMapEntry_of_link hlinke ▸ hentry
  have hdot : '.' ∉ e.name.toList := by
    rw [hname₀]
    exact dot_notMem_of_isMapEntry hgiven (hmaps m₀ hm₀.mem_allMessages) he₀ hentry₀
  obtain ⟨s, hs⟩ := hholds.exists_qualify
  have hlast : Name.last ("." ++ name) = e.name := by
    rw [last_dot, show name = qualify s e.name from hs, last_qualify, last_eq_self hdot]
  exact ⟨he, hentry, by simp [Field.ownsEntry, hrepeated, htypeName, hlast]⟩

/-- What is found next to the field is found through the full name. -/
theorem mapEntry?_of_ownsEntry (he : e ∈ m.nested) (hentry : e.isMapEntry = true)
    (howns : f.ownsEntry e = true) : l.mapEntry? f = some e := by
  obtain ⟨m₀, hm₀, hgiven, hlinks⟩ := exists_source hparse hlink hm
  obtain ⟨htype, htypeName, _⟩ := type_of_ownsEntry hlink hm₀ hgiven
    (hmaps m₀ hm₀.mem_allMessages) hlinks hf he hentry howns
  obtain ⟨place', hplace⟩ := hm.nested he
  have hfind := find?_of_holds hlink hplace
  simp only [Field.ownsEntry, Bool.and_eq_true] at howns
  simp [LinkedFile.mapEntry?, htype, howns.1, htypeName, hfind, Declaration.message?, hentry]

/-- The pair type that printing finds for a field is the one that its shape is made of. -/
theorem entryIn?_eq_mapEntry? (hpairs : l.OwnPairs) : f.entryIn? m.nested = l.mapEntry? f := by
  cases hfound : f.entryIn? m.nested with
  | some e =>
    obtain ⟨hpair, howns⟩ := Message.OwnMaps.mem_of_entryIn? hfound
    obtain ⟨he, hentry⟩ := Message.OwnMaps.mem_pairTypes.mp hpair
    exact (mapEntry?_of_ownsEntry hparse hlink hmaps hm hf he hentry howns).symm
  | none =>
    cases hshape : l.mapEntry? f with
    | none => rfl
    | some e =>
      have howns := ownsEntry_of_mapEntry? hparse hlink hmaps hm hf hpairs hshape
      exact absurd (by simp [howns]) (find?_eq_none.mp hfound e howns.1)

end Agreement

/-- Where the pair types of a file are those of its map fields, and the pair types that repeated
fields are linked to are nested next to them, printing and shapes agree on what is a map, and the
messages that are not printed are those that the map fields next to them bring back. -/
theorem printed_map_iff_shape {path source : String} {file : File} {locations : List Location}
    {dependencies : List LinkedFile} {l : LinkedFile} {place : List Step} {fullName : String}
    {m : Message} (hparse : parse path source = .ok (file, locations))
    (hlink : link file dependencies = .ok l) (hmaps : ∀ n ∈ file.allMessages, n.OwnMaps)
    (hpairs : l.OwnPairs) (hm : l.file.Holds place ⟨fullName, .message m⟩) :
    (∀ f ∈ m.fields, l.PrintsShape m.nested f) ∧ m.LeavesOutPairs := by
  obtain ⟨m₀, hm₀, hgiven, hlinks⟩ := exists_source hparse hlink hm
  have hown := hmaps m₀ hm₀.mem_allMessages
  have hagree : ∀ g ∈ m.fields, g.entryIn? m.nested = l.mapEntry? g := fun g hg =>
    entryIn?_eq_mapEntry? hparse hlink hmaps hm hg hpairs
  have hmade : ∀ g ∈ m.fields, ∀ n, g.entryIn? m.nested = some n →
      ∃ key value, n = mapEntry (mapEntryName g.name) key value := by
    intro g hg n hn
    obtain ⟨hpair, howns⟩ := Message.OwnMaps.mem_of_entryIn? hn
    obtain ⟨hnested, hentry⟩ := Message.OwnMaps.mem_pairTypes.mp hpair
    exact (type_of_ownsEntry hlink hm₀ hgiven hown hlinks hg hnested hentry howns).2.2
  constructor
  · intro f hf dialect inOneof
    have honeof : f.label = .repeated → f.oneofIndex = none := by
      intro hlabel
      obtain ⟨f₀, hf₀, hlinkf⟩ := exists_mem_of_forall₂ hlinks.fields hf
      have hsame := Field.eq_of_link hlinkf
      have hnone := hgiven.oneofIndex_eq_none hf₀ ((congrArg Field.label hsame).symm.trans hlabel)
      exact (congrArg Field.oneofIndex hsame).trans hnone
    have hentry : ∀ entry, l.mapEntry? f = some entry →
        ∃ key value, entry.fields = [key, value] := by
      intro entry hfound
      obtain ⟨key, value, rfl⟩ := hmade f hf entry ((hagree f hf).trans hfound)
      exact ⟨_, _, rfl⟩
    rcases l.shape_eq honeof hentry with
      ⟨entry, key, value, hfound, hfields, hshape⟩ | ⟨hnone, hshape⟩
    · refine .inl ⟨entry, key, value, hfound, hfields, hshape, ?_⟩
      simp [Field.head, hagree f hf, hfound, hfields]
    · refine .inr ⟨hshape, ?_⟩
      have hnil : f.entryIn? [] = none := rfl
      simp [Field.head, hagree f hf, hnone, hnil]
  · refine ⟨fun n hn => ?_, fun dialect => ⟨_, by cases m; rfl, m.perm_nestedLines dialect _ 0⟩⟩
    constructor
    · intro hentry
      obtain ⟨n₀, hn₀, hlinkn⟩ := exists_mem_of_forall₂ hlinks.nested hn
      have hpair := Message.OwnMaps.mem_pairTypes.mpr
        ⟨hn₀, Message.isMapEntry_of_link hlinkn ▸ hentry⟩
      obtain ⟨g₀, hg₀, hmap⟩ := hown.exists_owner hpair
      obtain ⟨g, hg, hlinkg⟩ := exists_mem_of_forall₂ hlinks.fields.flip hg₀
      obtain ⟨raw, inner, gs, hraw, rfl⟩ := hgiven.exists_declared hn₀
      have howns : g.ownsEntry n = true := by
        rw [Field.ownsEntry_of_link (hgiven.typesGiven.1 g₀ hg₀) hlinkg hlinkn]
        exact hmap.ownsEntry (hraw.dot_notMem_names g₀ hg₀)
      have hfound : g.entryIn? m.nested = some n :=
        (hagree g hg).trans (mapEntry?_of_ownsEntry hparse hlink hmaps hm hg hn hentry howns)
      exact ⟨g, hg, hfound, hmade g hg n hfound⟩
    · rintro ⟨g, hg, hfound, _⟩
      exact (Message.OwnMaps.mem_pairTypes.mp (Message.OwnMaps.mem_of_entryIn? hfound).1).2

def mapField (type : Option FieldType) (typeName : String) : Field where
  name := "a"
  number := 1
  label := .repeated
  type := type
  typeName := some typeName

def mapMessage (type : Option FieldType) (typeName : String) : Message where
  name := "M"
  fields := [mapField type typeName]
  nested := [mapEntry "AEntry" { type := some .bool } { type := some .bool }]

theorem printed_map_iff_shape_mapMessage :
    ∃ file locations l, parse "m" "message M\x7bmap<bool,bool>a=1;\x7d" = .ok (file, locations) ∧
      link file [] = .ok l ∧ (∀ n ∈ file.allMessages, n.OwnMaps) ∧ l.OwnPairs ∧
      l.file.messages = [mapMessage (some .message) ".M.AEntry"] ∧
      (∀ f ∈ (mapMessage (some .message) ".M.AEntry").fields,
        l.PrintsShape (mapMessage (some .message) ".M.AEntry").nested f) ∧
      (mapMessage (some .message) ".M.AEntry").LeavesOutPairs := by
  let file : File := { name := "m", messages := [mapMessage none "AEntry"] }
  let linked : File := { name := "m", messages := [mapMessage (some .message) ".M.AEntry"] }
  let source := "message M\x7bmap<bool,bool>a=1;\x7d"
  have hparse : parse "m" source = .ok (file, (readFile "m" source).locations) := by
    decide +kernel
  have hlinked : (link file []).toOption.map LinkedFile.file = some linked := by decide +kernel
  obtain ⟨l, hl, hfile⟩ := Option.map_eq_some_iff.mp hlinked
  have hlink := toOption_eq_some_iff.mp hl
  have hname : mapEntryName "a" = "AEntry" := by decide +kernel
  have hmaps : ∀ n ∈ file.allMessages, n.OwnMaps := by
    have hmap : (mapField none "AEntry").DeclaresMap
        (mapEntry "AEntry" { type := some .bool } { type := some .bool }) :=
      ⟨rfl, congrArg some hname.symm, _, _, by rw [← hname]; rfl⟩
    have hall : file.allMessages = mapMessage none "AEntry" :: (mapMessage none "AEntry").nested :=
      rfl
    rw [hall, List.forall_mem_cons, mapMessage, List.forall_mem_singleton]
    constructor
    · exact ⟨⟨_, List.Sublist.refl _, .cons hmap .nil⟩, by decide, by decide +kernel⟩
    · exact ⟨⟨[], List.nil_sublist _, .nil⟩, by decide, by decide⟩
  have hpairs : l.OwnPairs := by
    have hdeclared : linked.declared =
        [⟨"M", .message (mapMessage (some .message) ".M.AEntry")⟩,
          ⟨"M.AEntry",
            .message (mapEntry "AEntry" { type := some .bool } { type := some .bool })⟩] :=
      rfl
    intro place fullName m hm f hf hrepeated g hg place' name e he hentry _
    obtain rfl : g = l := by
      rcases ReflTransGen.cases_head hg with rfl | ⟨k, hk, _⟩
      · rfl
      · rw [Imports, (linksTo_of_link hlink).2] at hk
        cases hk
    have hm := File.mem_declared_iff.mpr ⟨_, hm⟩
    have he := File.mem_declared_iff.mpr ⟨_, he⟩
    rw [hfile, hdeclared] at hm he
    rcases List.mem_pair.mp hm with heq | heq <;> cases heq
    · rcases List.mem_pair.mp he with heq | heq <;> cases heq
      · cases hentry
      · exact List.mem_cons_self
    · rcases List.mem_pair.mp hf with rfl | rfl <;> cases hrepeated
  have hholds : l.file.Holds [.message 0]
      ⟨"M", .message (mapMessage (some .message) ".M.AEntry")⟩ := by
    rw [hfile]
    exact .message rfl (.self _ _)
  exact ⟨file, _, l, hparse, hlink, hmaps, hpairs, by rw [hfile],
    printed_map_iff_shape hparse hlink hmaps hpairs hholds⟩

/-- Elsewhere they differ both ways. A field whose type only ends like the name of a pair type next
to it is printed as a map, and a field with the pair type of another message as its type has the
shape of a map but is not printed as one. -/
theorem printed_map_ne_shape :
    (∃ l m f, MadeOf "a" ("message A\x7bmap<bool,bool>f=1;repeated B.FEntry g=2;\x7d" ++
        "message B\x7bmessage FEntry\x7b\x7d\x7d") [] l ∧
      l.file.messages[0]? = some m ∧ m.fields[1]? = some f ∧
      l.shape f = .repeated (.message ".B.FEntry") ∧
      f.head m.nested l.file.dialect false = "map<bool, bool>") ∧
    ∃ l m f, MadeOf "a" ("message A\x7bmap<bool,bool>f=1;\x7d" ++
        "message B\x7brepeated A.FEntry g=1;\x7d") [] l ∧
      l.file.messages[1]? = some m ∧ m.fields[0]? = some f ∧
      l.shape f = .map (.primitive .bool) (.primitive .bool) ∧
      f.head m.nested l.file.dialect false = "repeated .A.FEntry" := by
  have hprinted : ((make? "a" ("message A\x7bmap<bool,bool>f=1;repeated B.FEntry g=2;\x7d" ++
        "message B\x7bmessage FEntry\x7b\x7d\x7d") []).bind fun l =>
      l.file.messages[0]?.bind fun m => m.fields[1]?.bind fun f =>
      some (l.shape f, f.head m.nested l.file.dialect false)) =
      some (.repeated (.message ".B.FEntry"), "map<bool, bool>") := by
    decide +kernel
  have hshaped : ((make? "a" ("message A\x7bmap<bool,bool>f=1;\x7d" ++
        "message B\x7brepeated A.FEntry g=1;\x7d") []).bind fun l =>
      l.file.messages[1]?.bind fun m => m.fields[0]?.bind fun f =>
      some (l.shape f, f.head m.nested l.file.dialect false)) =
      some (.map (.primitive .bool) (.primitive .bool), "repeated .A.FEntry") := by
    decide +kernel
  simp only [Option.bind_eq_some_iff, make?_eq_some_iff, Option.some.injEq, Prod.mk.injEq]
    at hprinted hshaped
  obtain ⟨l, hl, m, hm, f, hf, hshape, hhead⟩ := hprinted
  obtain ⟨l', hl', m', hm', f', hf', hshape', hhead'⟩ := hshaped
  exact ⟨⟨l, m, f, hl, hm, hf, hshape, hhead⟩, l', m', f', hl', hm', hf', hshape', hhead'⟩

end ProtoSchema
