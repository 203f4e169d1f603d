import ProtoSchema.Proofs.Link.InFull
import ProtoSchema.Proofs.Link.MapShape

/-!
A file with its references in full can be read, as the file itself. What a reference means stands
in a scope that is made of identifiers, so the name spelled out is one that can be written.
-/

namespace ProtoSchema

open List

variable {name path : String} {dependencies : List LinkedFile}

/-! ## Names made of identifiers -/

namespace Name

inductive Dotted : String → Prop
  | single {x : String} : IsIdentifier x → Dotted x
  | snoc {name x : String} : Dotted name → IsIdentifier x → Dotted (name ++ "." ++ x)

/-- What stands before the last dot of the name, if anything does, is made of identifiers. -/
def Scoped (fullName : String) : Prop :=
  outer fullName = "" ∨ Dotted (outer fullName)

theorem Dotted.ne_empty (h : Dotted name) : name ≠ "" := by
  cases h with
  | single hx => exact hx.ne_empty
  | snoc => simp

theorem dotted_iff : Dotted name ↔ ∃ first, IsIdentifier first ∧ RestOfName first name := by
  have hconcat : ∀ (first x : String) (parts : List String),
      ".".intercalate (first :: (parts ++ [x])) = ".".intercalate (first :: parts) ++ "." ++ x := by
    intro first x parts
    rw [← cons_append, String.intercalate_append_of_ne_nil (by simp) (by simp),
      String.intercalate_singleton]
  constructor
  · intro h
    induction h with
    | @single x hx => exact ⟨x, hx, [], forall_mem_nil _, by simp⟩
    | @snoc name x _ hx ih =>
      obtain ⟨first, hfirst, parts, hparts, rfl⟩ := ih
      refine ⟨first, hfirst, parts ++ [x], ?_, (hconcat first x parts).symm⟩
      exact forall_mem_append.mpr ⟨hparts, forall_mem_singleton.mpr hx⟩
  · rintro ⟨first, hfirst, parts, hparts, rfl⟩
    induction parts using List.reverseRecOn with
    | nil => simpa using Dotted.single hfirst
    | append_singleton parts x ih =>
      obtain ⟨hparts, hx⟩ := forall_mem_append.mp hparts
      rw [hconcat]
      exact .snoc (ih hparts) (hx x (mem_singleton_self x))

/-- A name made of identifiers can be written behind a dot. -/
theorem Dotted.typeName (h : Dotted name) : TypeName (.symbol ".") ("." ++ name) := by
  obtain ⟨first, hfirst, parts, hparts, rfl⟩ := dotted_iff.mp h
  exact .absolute hfirst ⟨parts, hparts, String.intercalate_cons_append.symm⟩

private theorem dropWhile_reverse_eq_nil (h : '.' ∉ name.toList) :
    name.toList.reverse.dropWhile (· ≠ '.') = [] := by
  rw [dropWhile_eq_nil_iff]
  intro c hc
  have hne : c ≠ '.' := fun heq => h (heq ▸ mem_reverse.mp hc)
  simpa using hne

theorem outer_append_dot {a b : String} (h : '.' ∉ b.toList) : outer (a ++ "." ++ b) = a := by
  have hreverse : (a ++ "." ++ b).toList.reverse = b.toList.reverse ++ '.' :: a.toList.reverse := by
    simp
  rw [outer, hreverse, dropWhile_append, dropWhile_reverse_eq_nil h]
  simp

theorem outer_eq_empty (h : '.' ∉ name.toList) : outer name = "" := by
  rw [outer, dropWhile_reverse_eq_nil h]
  rfl

theorem outer_qualify (scope : String) (h : '.' ∉ name.toList) :
    outer (qualify scope name) = scope := by
  unfold qualify
  split
  · next hscope => rw [outer_eq_empty h, hscope]
  · exact outer_append_dot h

theorem qualify_append_dot (scope name x : String) :
    qualify scope (name ++ "." ++ x) = qualify scope name ++ "." ++ x := by
  unfold qualify
  split
  · rfl
  · simp only [String.append_assoc]

theorem Dotted.qualify {scope x : String} (h : scope = "" ∨ Dotted scope) (hx : IsIdentifier x) :
    Dotted (qualify scope x) := by
  unfold Name.qualify
  split
  · exact .single hx
  · next hscope => exact .snoc (h.resolve_left hscope) hx

/-- A name made of identifiers, in whatever scope, is made of identifiers if its place is. -/
theorem Dotted.of_scoped {scope : String} (h : Dotted name)
    (hscoped : Scoped (Name.qualify scope name)) : Dotted (Name.qualify scope name) := by
  cases h with
  | single hx =>
    rw [Scoped, outer_qualify scope hx.dot_notMem] at hscoped
    exact .qualify hscoped hx
  | @snoc name x hname hx =>
    rw [Scoped, qualify_append_dot, outer_append_dot hx.dot_notMem] at hscoped
    rw [qualify_append_dot]
    exact .snoc (hscoped.resolve_left (qualify_ne_empty hname.ne_empty)) hx

end Name

def Scope.NamesScoped (scope : Scope) : Prop :=
  ∀ d ∈ scope.declared, Name.Scoped d.fullName

/-! ## References that can be written -/

def TypeRef.inFull (scope : Scope) (place : String) (type : TypeRef) : TypeRef :=
  if type.type = none then { type with typeName := type.typeName.map (scope.inFull place) }
  else type

variable {dialect : Dialect} {file : File} (scope : Scope) (place : String)

theorem Field.typeRef_inFull (f : Field) :
    (f.inFull scope place).typeRef = f.typeRef.inFull scope place := by
  unfold inFull
  split
  · next htype => exact (if_pos htype).symm
  · next htype => exact (if_neg htype).symm

theorem Message.inFull_mapEntry (name : String) (key value : TypeRef) :
    (mapEntry name key value).inFull scope place =
      mapEntry name (key.inFull scope (Name.qualify place name))
        (value.inFull scope (Name.qualify place name)) := by
  have hpart : ∀ (n : String) (number : Int32) (type : TypeRef) (place : String),
      ({ name := n, number, label := .optional, type := type.type, typeName := type.typeName } :
          Field).memberInFull scope place [] =
        { name := n, number, label := .optional, type := (type.inFull scope place).type,
          typeName := (type.inFull scope place).typeName } := by
    intro n number type place
    rw [Field.memberInFull, if_neg (by simp [Field.entryIn?]), Field.inFull, TypeRef.inFull]
    split <;> rfl
  rw [inFull_eq]
  simp only [mapEntry, map_cons, map_nil, hpart]

theorem TypeName.absolute?_ne_none (h : TypeName (.symbol ".") name) :
    Name.absolute? name ≠ none := by
  cases h with
  | absolute _ hrest =>
    obtain ⟨parts, _, rfl⟩ := hrest
    rw [String.intercalate_cons_append, Name.absolute?_dot]
    simp

section Scoped

variable {scope : Scope} (hscope : scope.NamesScoped) (place : String) {dialect : Dialect}
include hscope

/-- A name in full can be written, and begins as before or with a dot. -/
theorem TypeName.inFull {w : Word} (h : TypeName w name) :
    ∃ v, TypeName v (scope.inFull place name) ∧ (v = w ∨ v = .symbol ".") := by
  unfold Scope.inFull
  split
  · next d hd =>
    -- a name that begins with a dot is in full already, any other was found in a scope
    rcases Scope.fullName_of_resolve? hd with hname | ⟨hrelative, s, hname⟩
    · exact ⟨w, hname ▸ h, .inl rfl⟩
    · have hscoped := hscope d (Declared.mem_of_find? (Scope.lookup?_of_resolve? hd)).1
      rw [hname] at hscoped ⊢
      cases h with
      | relative hfirst hrest =>
        have hdotted := Name.dotted_iff.mpr ⟨_, hfirst, hrest⟩
        exact ⟨_, (hdotted.of_scoped hscoped).typeName, .inr rfl⟩
      | absolute hfirst hrest =>
        exact absurd hrelative (TypeName.absolute hfirst hrest).absolute?_ne_none
  · exact ⟨w, h, .inl rfl⟩

theorem TypeRef.Written.inFull {w : Word} {type : TypeRef} (h : TypeRef.Written w type) :
    ∃ v, TypeRef.Written v (type.inFull scope place) ∧ (v = w ∨ v = .symbol ".") := by
  cases h with
  | scalar hmem => exact ⟨_, .scalar hmem, .inl rfl⟩
  | @named w name hwritten hword =>
    obtain ⟨v, hv, hcases⟩ := hwritten.inFull hscope place
    refine ⟨v, .named hv fun x hx => ?_, hcases⟩
    rcases hcases with rfl | rfl
    · exact hword x hx
    · cases hx

namespace Field

variable {f : Field}

theorem Headed.inFull {inOneof : Bool} {ok : Word → Prop} (h : f.Headed dialect inOneof ok)
    (hok : ok (.symbol ".")) : (f.inFull scope place).Headed dialect inOneof ok := by
  obtain ⟨⟨label, hlabel⟩, v, htype, hgroup, hword⟩ := h
  obtain ⟨v', htype', hcases⟩ := htype.inFull hscope place
  rw [← f.typeRef_inFull] at htype'
  rw [f.inFull_eq scope place] at htype' ⊢
  refine ⟨⟨label, hlabel.kept, hlabel.marked, hlabel.outside, hlabel.allowed⟩, v', htype', ?_⟩
  rcases hcases with rfl | rfl
  · exact ⟨hgroup, hword⟩
  · exact ⟨by simp, fun _ => ⟨by simp, hok⟩⟩

omit hscope in
theorem Written.inFull (h : f.Written dialect) : (f.inFull scope place).Written dialect := by
  rw [f.inFull_eq scope place]
  exact ⟨h.name, h.number, h.default, h.options⟩

theorem Member.memberInFull (h : f.Member dialect) (nested : List Message) :
    (f.memberInFull scope place nested).Member dialect := by
  unfold Field.memberInFull
  split
  · exact h
  · refine ⟨h.written.inFull place, h.head.inFull hscope place (by simp), ?_⟩
    rw [f.inFull_eq scope place]
    exact h.extendee

theorem Extending.inFull (h : f.Extending dialect) :
    (f.extensionInFull scope place).Extending dialect := by
  obtain ⟨w, name, hextendee, hname⟩ := h.extendee
  obtain ⟨v, hv, _⟩ := hname.inFull hscope place
  have hhead := h.head.inFull hscope place trivial
  have hwritten : (f.inFull scope place).Written dialect := h.written.inFull place
  refine ⟨⟨hwritten.name, hwritten.number, hwritten.default, hwritten.options⟩, ?_, ?_, ?_⟩
  · exact ⟨hhead.label.imp fun _ hl => ⟨hl.kept, hl.marked, hl.outside, hl.allowed⟩, hhead.type⟩
  · exact ⟨v, _, by rw [extensionInFull, hextendee, Option.map_some], hv⟩
  · rw [extensionInFull, f.inFull_eq scope place]
    exact h.outside

end Field

theorem PairType.inFull {entry : Message} (h : PairType name entry) :
    PairType name (entry.inFull scope place) := by
  obtain ⟨hname, key, value, ⟨v, hkey⟩, ⟨w, hvalue⟩, rfl⟩ := h
  rw [Message.inFull_mapEntry]
  obtain ⟨v', hkey', _⟩ := hkey.inFull hscope (Name.qualify place (mapEntryName name))
  obtain ⟨w', hvalue', _⟩ := hvalue.inFull hscope (Name.qualify place (mapEntryName name))
  exact ⟨hname, _, _, ⟨v', hkey'⟩, ⟨w', hvalue'⟩, rfl⟩

end Scoped

/-! ## Messages that can be written -/

namespace Field

/-- A change of fields that leaves alone what oneofs are made from. -/
structure Steady (change : Field → Field) : Prop where
  name : ∀ f, (change f).name = f.name
  marked : ∀ f, (change f).proto3Optional = f.proto3Optional
  placed : ∀ f i, change { f with oneofIndex := i } = { change f with oneofIndex := i }

theorem steady_memberInFull (scope : Scope) (place : String) (nested : List Message) :
    Steady (memberInFull scope place nested) where
  name f := by rw [memberInFull_eq]
  marked f := by rw [memberInFull_eq]
  placed f i := by
    have hentry : entryIn? { f with oneofIndex := i } nested = f.entryIn? nested := rfl
    unfold memberInFull inFull
    rw [hentry]
    split
    · rfl
    · split <;> rfl

end Field

/-- A map field names its pair type as before. -/
theorem Field.DeclaresMap.memberInFull {f : Field} {entry : Message} {nested : List Message}
    (h : f.DeclaresMap entry) (scope : Scope) (place : String) (hname : '.' ∉ f.name.toList)
    (hentry : entry ∈ nested) : f.memberInFull scope place nested = f := by
  have howns := h.ownsEntry hname
  obtain ⟨key, value, rfl⟩ := h.entry
  have hsome : (f.entryIn? nested).isSome = true :=
    find?_isSome.mpr ⟨_, hentry, by rw [howns]; rfl⟩
  rw [Field.memberInFull, if_pos hsome]

namespace FieldGroup

variable {change : Field → Field}

def mapFields (change : Field → Field) : FieldGroup → FieldGroup
  | single f => single (change f)
  | oneof name options members => oneof name options (members.map change)

theorem placeAll_map (h : Field.Steady change) (gs : List FieldGroup) :
    placeAll (gs.map (mapFields change)) = ((placeAll gs).1.map change, (placeAll gs).2) := by
  induction gs using List.reverseRecOn with
  | nil => rfl
  | append_singleton gs g ih =>
    rw [map_append, map_singleton, placeAll_concat, placeAll_concat, ih]
    cases g with
    | single f =>
      have hf : change f.unplaced = (change f).unplaced := h.placed f none
      simp [place, mapFields, hf]
    | oneof name options members =>
      have hmembers : ∀ i, (members.map change).map (fun f => { f with oneofIndex := some i }) =
          (members.map fun f => { f with oneofIndex := some i }).map change := by
        intro i
        rw [map_map, map_map]
        exact map_congr_left fun f _ => (h.placed f (some i)).symm
      simp only [place, mapFields, hmembers, map_append, length_map]

end FieldGroup

namespace Message

variable (scope : Scope) (place : String)

theorem addSyntheticOneof_inFull (m : Message) (index : Nat) :
    (m.inFull scope place).addSyntheticOneof index =
      (m.addSyntheticOneof index).inFull scope place := by
  have hsteady := Field.steady_memberInFull scope (Name.qualify place m.name) m.nested
  unfold addSyntheticOneof
  simp only [inFull_eq, getElem?_map]
  cases hf : m.fields[index]? with
  | none => simp only [Option.map_none]
  | some f =>
    have hfields : ∀ i, (m.fields.map (Field.memberInFull scope (Name.qualify place m.name)
          m.nested)).modify index (fun f => { f with oneofIndex := some i }) =
        (m.fields.modify index fun f => { f with oneofIndex := some i }).map
          (Field.memberInFull scope (Name.qualify place m.name) m.nested) := by
      intro i
      refine ext_getElem? fun k => ?_
      simp only [getElem?_map, getElem?_modify]
      cases m.fields[k]? with
      | none => rfl
      | some g =>
        have hg := hsteady.placed g (some i)
        by_cases hk : index = k <;> simp [hk, hg]
    simp only [Option.map_some, map_map, Function.comp_def, hsteady.name, hfields]

theorem withSyntheticOneofs_inFull (m : Message) :
    (m.inFull scope place).withSyntheticOneofs = m.withSyntheticOneofs.inFull scope place := by
  have hindexes : (m.inFull scope place).optionalIndexes = m.optionalIndexes := by
    have hsteady := Field.steady_memberInFull scope (Name.qualify place m.name) m.nested
    rw [optionalIndexes, optionalIndexes, inFull_eq]
    simp [Function.comp_def, hsteady.marked]
  have hfold : ∀ (indexes : List Nat) (m : Message),
      indexes.foldl addSyntheticOneof (m.inFull scope place) =
        (indexes.foldl addSyntheticOneof m).inFull scope place := by
    intro indexes
    induction indexes with
    | nil => exact fun _ => rfl
    | cons i is ih =>
      intro m
      rw [foldl_cons, foldl_cons, addSyntheticOneof_inFull, ih]
  rw [withSyntheticOneofs, hindexes, hfold, withSyntheticOneofs]

end Message

section Written

variable {scope : Scope} (hscope : scope.NamesScoped) {dialect : Dialect}
include hscope

theorem FieldGroup.Written.inFull (place : String) {nested : List Message} {g : FieldGroup}
    (h : g.Written dialect nested) :
    (g.mapFields (Field.memberInFull scope place nested)).Written dialect
      (nested.map (Message.inFull scope place)) := by
  cases h with
  | @plain f hf hext hhead =>
    rw [mapFields, Field.memberInFull]
    split
    · exact .plain hf hext hhead
    · refine .plain (hf.inFull place) ?_ (hhead.inFull hscope place (by simp))
      rw [f.inFull_eq scope place]
      exact hext
  | @map f entry hf hext hmap hentry hpair =>
    rw [mapFields, (hmap.declaresMap hpair).memberInFull scope place hf.name.dot_notMem hentry]
    exact .map hf hext hmap (mem_map_of_mem hentry) (hpair.inFull hscope place)
  | oneof hname hoptions hne hmembers =>
    refine .oneof hname hoptions (by simpa using hne) ?_
    rw [forall_mem_map]
    exact fun f hf => (hmembers f hf).memberInFull hscope place nested

namespace Message

theorem Declared.inFull (place : String) {inner inner' : Message → Prop} {gs : List FieldGroup}
    {raw : Message} (h : raw.Declared dialect inner gs)
    (hinner : ∀ n, inner n → inner' (n.inFull scope (Name.qualify place raw.name))) :
    (raw.inFull scope place).Declared dialect inner'
      (gs.map (FieldGroup.mapFields
        (Field.memberInFull scope (Name.qualify place raw.name) raw.nested))) := by
  have hplaceAll := FieldGroup.placeAll_map
    (Field.steady_memberInFull scope (Name.qualify place raw.name) raw.nested) gs
  rw [inFull_eq]
  refine { h with fields := ?_, oneofs := ?_, groups := ?_, nested := ?_, extensions := ?_ }
  · rw [hplaceAll, h.fields]
  · rw [hplaceAll, h.oneofs]
  · rw [forall_mem_map]
    exact fun g hg => (h.groups g hg).inFull hscope _
  · rw [forall_mem_map]
    intro n hn
    exact (h.nested n hn).imp (hinner n) fun ⟨name, hpair⟩ => ⟨name, hpair.inFull hscope _⟩
  · rw [forall_mem_map]
    exact fun f hf => (h.extensions f hf).inFull hscope _

theorem Written.inFull {budget : Nat} {m : Message} (h : m.Written dialect budget)
    (place : String) : (m.inFull scope place).Written dialect budget := by
  induction budget generalizing m place with
  | zero => exact h
  | succ budget ih =>
    obtain ⟨raw, gs, hraw, rfl⟩ := h
    exact ⟨_, _, hraw.inFull hscope place fun n hn => ih hn _,
      (raw.withSyntheticOneofs_inFull scope place).symm⟩

end Message

theorem Method.Written.inFull {m : Method} (h : m.Written) (place : String) :
    (m.inFull scope place).Written := by
  have htype : ∀ streaming name, MethodType streaming name →
      MethodType streaming (scope.inFull place name) := by
    rintro streaming name ⟨w, hname, hw⟩
    obtain ⟨v, hv, rfl | rfl⟩ := hname.inFull hscope place
    · exact ⟨v, hv, hw⟩
    · exact ⟨_, hv, .inr (by simp)⟩
  exact ⟨h.name, htype _ _ h.input, htype _ _ h.output, h.options⟩

/-- A file with its references in full can be read. -/
theorem File.Written.inFull {file : File} (h : file.Written path dialect) :
    (file.inFull scope).Written path dialect := by
  refine { h with messages := ?_, services := ?_, extensions := ?_ }
  · rw [File.inFull, Message.inFullAll_eq_map, forall_mem_map]
    exact fun m hm => (h.messages m hm).inFull hscope _
  · rw [File.inFull, forall_mem_map]
    intro v hv
    obtain ⟨hname, hmethods, hoptions⟩ := h.services v hv
    refine ⟨hname, ?_, hoptions⟩
    rw [Service.inFull, forall_mem_map]
    exact fun m hm => (hmethods m hm).inFull hscope _
  · rw [File.inFull, forall_mem_map]
    exact fun f hf => (h.extensions f hf).inFull hscope _

end Written

/-! ## The names that a file declares -/

namespace Message

variable {dialect : Dialect} {m : Message}

/-- A message in which something is declared has an identifier for its name. -/
theorem Given.isIdentifier_or (h : m.Given dialect) :
    IsIdentifier m.name ∧ (∀ e ∈ m.enums, e.Written) ∨
      '.' ∉ m.name.toList ∧ m.nested = [] ∧ m.enums = [] := by
  rcases h with ⟨_, hm⟩ | ⟨name, hname, key, value, _, _, rfl⟩
  · obtain ⟨raw, _, gs, hraw, rfl⟩ := hm.exists_declared
    rw [name_withSyntheticOneofs, enums_withSyntheticOneofs]
    exact .inl ⟨hraw.name, hraw.enums⟩
  · exact .inr ⟨dot_notMem_mapEntryName hname.dot_notMem, rfl, rfl⟩

theorem Holds.scoped {place : String} {path : List Step} {d : ProtoSchema.Declared}
    (h : m.Holds place path d) (hm : m.Given dialect) (hplace : place = "" ∨ Name.Dotted place) :
    Name.Scoped d.fullName := by
  induction h with
  | self place m =>
    have hdot : '.' ∉ m.name.toList := hm.isIdentifier_or.elim (fun h => h.1.dot_notMem) And.left
    rw [Name.Scoped, Name.outer_qualify place hdot]
    exact hplace
  | @nested place m i n _ _ hn _ ih =>
    have hin := mem_of_getElem? hn
    rcases hm.isIdentifier_or with ⟨hname, _⟩ | ⟨_, hnone, _⟩
    · exact ih (hm.nested hin) (.inr (.qualify hplace hname))
    · exact absurd hin (by simp [hnone])
  | @enum place m i e he =>
    have hin := mem_of_getElem? he
    rcases hm.isIdentifier_or with ⟨hname, henums⟩ | ⟨_, _, hnone⟩
    · rw [Name.Scoped, Name.outer_qualify _ (henums e hin).name.dot_notMem]
      exact .inr (.qualify hplace hname)
    · exact absurd hin (by simp [hnone])

end Message

def LinkedFile.NamesScoped (l : LinkedFile) : Prop :=
  ∀ d ∈ l.declared, Name.Scoped d.fullName

theorem File.Written.scoped (h : file.Written path dialect) :
    ∀ d ∈ file.declared, Name.Scoped d.fullName := by
  have hscope : file.scope = "" ∨ Name.Dotted file.scope := by
    cases hpackage : file.package with
    | none => exact .inl (by simp [File.scope, hpackage])
    | some p =>
      have hdotted := Name.dotted_iff.mpr (h.package p (by simp [hpackage]))
      exact .inr (by simpa [File.scope, hpackage] using hdotted)
  intro d hd
  obtain ⟨place, hd⟩ := File.mem_declared_iff.mp hd
  cases hd with
  | message hi hm => exact hm.scoped (.inl ⟨_, h.messages _ (mem_of_getElem? hi)⟩) hscope
  | enum hi =>
    have hname := (h.enums _ (mem_of_getElem? hi)).name
    rw [Name.Scoped, Name.outer_qualify _ hname.dot_notMem]
    exact hscope
  | service hi =>
    have hname := (h.services _ (mem_of_getElem? hi)).name
    rw [Name.Scoped, Name.outer_qualify _ hname.dot_notMem]
    exact hscope

/-- All names stand in such scopes in a file that was made from a text. -/
theorem LinkedFile.MadeOf.namesScoped {source : String} {l : LinkedFile}
    (h : MadeOf path source dependencies l) : l.NamesScoped := by
  obtain ⟨file, locations, hparse, hlink⟩ := h
  intro d hd
  have hname : d.fullName ∈ file.declared.map Declared.fullName :=
    map_fullName_of_link hlink ▸ mem_map_of_mem hd
  obtain ⟨e, he, hsame⟩ := mem_map.mp hname
  exact hsame ▸ (written_of_parse hparse).scoped e he

theorem File.Written.namesScoped_names (h : file.Written path dialect)
    (hvisible : ∀ g ∈ LinkedFile.visible dependencies, g.NamesScoped) :
    (file.names dependencies).NamesScoped := by
  intro d hd
  rcases mem_append.mp hd with hd | hd
  · exact h.scoped d hd
  · obtain ⟨g, hg, hd⟩ := mem_flatMap.mp hd
    exact hvisible g hg d hd

end ProtoSchema
