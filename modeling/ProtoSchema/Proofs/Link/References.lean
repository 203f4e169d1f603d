import ProtoSchema.Proofs.Link.Linked
import ProtoSchema.Proofs.Link.Reach
import ProtoSchema.Proofs.RoundTrip

/-!
The references of a linked file. Each of them is the full name of a declaration of the right kind
in the file itself or in a file that it sees, so none leads nowhere.
-/

namespace ProtoSchema

open List

variable {f : Field} {dialect : Dialect} {m : Message} {place : String}

/-! ## References -/

/-- The name, led by a dot, is that of a declaration of the given kind in a file with the given
dependencies, or in a file that it sees. -/
def File.Names (file : File) (dependencies : List LinkedFile) (kind : Kind)
    (name : String) : Prop :=
  ∃ file' path d, (file' = file ∨ ∃ g, LinkedFile.Sees dependencies g ∧ file' = g.file) ∧
    file'.Holds path d ∧ d.kind = kind ∧ name = "." ++ d.fullName

/-- The type of a field is a scalar without a name, or it is the kind of the declaration that the
type name leads to. -/
inductive Field.Resolved (file : File) (dependencies : List LinkedFile) (f : Field) : Prop
  | scalar {type : FieldType} (hscalar : type ∈ FieldType.scalars) (htype : f.type = some type)
      (hname : f.typeName = none) : Resolved file dependencies f
  | message {name : String} (htype : f.type = some .message) (hname : f.typeName = some name)
      (h : file.Names dependencies .message name) : Resolved file dependencies f
  | enum {name : String} (htype : f.type = some .enum) (hname : f.typeName = some name)
      (h : file.Names dependencies .enum name) : Resolved file dependencies f

structure Field.ExtensionResolved (file : File) (dependencies : List LinkedFile) (f : Field) :
    Prop where
  resolved : f.Resolved file dependencies
  extendee : ∃ name, f.extendee = some name ∧ file.Names dependencies .message name

structure LinkedFile.Resolved (l : LinkedFile) : Prop where
  fields : ∀ path fullName m, l.file.Holds path ⟨fullName, .message m⟩ →
    ∀ f ∈ m.fields, f.Resolved l.file l.dependencies
  nestedExtensions : ∀ path fullName m, l.file.Holds path ⟨fullName, .message m⟩ →
    ∀ f ∈ m.extensions, f.ExtensionResolved l.file l.dependencies
  extensions : ∀ f ∈ l.file.extensions, f.ExtensionResolved l.file l.dependencies
  methods : ∀ s ∈ l.file.services, ∀ m ∈ s.methods,
    l.file.Names l.dependencies .message m.inputType ∧
      l.file.Names l.dependencies .message m.outputType

/-! ## The types of fields as they are read -/

def Field.TypeGiven (f : Field) : Prop :=
  (∃ type ∈ FieldType.scalars, f.typeRef = { type := some type }) ∨
    ∃ name, f.typeRef = { typeName := some name }

theorem TypeRef.Written.typeGiven {w : Word} (h : TypeRef.Written w f.typeRef) : f.TypeGiven := by
  generalize htype : f.typeRef = type at h
  cases h with
  | @scalar type hmem => exact .inl ⟨type, hmem, htype⟩
  | @named w name _ _ => exact .inr ⟨name, htype⟩

theorem Field.Headed.typeGiven {inOneof : Bool} {ok : Word → Prop}
    (h : f.Headed dialect inOneof ok) :
    f.TypeGiven := by
  obtain ⟨v, hv, _⟩ := h.type
  exact hv.typeGiven

theorem PairType.typeGiven {name : String} {entry : Message} (h : PairType name entry) :
    ∀ f ∈ entry.fields, f.TypeGiven := by
  obtain ⟨_, key, value, ⟨v, hkey⟩, ⟨u, hvalue⟩, rfl⟩ := h
  intro f hf
  rcases mem_pair.mp hf with rfl | rfl
  · exact TypeRef.Written.typeGiven hkey
  · exact TypeRef.Written.typeGiven hvalue

theorem FieldGroup.Written.typeGiven {nested : List Message} {g : FieldGroup}
    (h : g.Written dialect nested) (hf : f ∈ g.fields) : f.TypeGiven := by
  cases h with
  | plain _ _ hhead =>
    obtain rfl := mem_singleton.mp hf
    exact hhead.typeGiven
  | map _ _ hmap =>
    obtain rfl := mem_singleton.mp hf
    exact .inr ⟨_, hmap.type⟩
  | oneof _ _ _ hmembers => exact (hmembers f hf).head.typeGiven

namespace Message

def TypesGiven (m : Message) : Prop :=
  (∀ f ∈ m.fields, f.TypeGiven) ∧ ∀ f ∈ m.extensions, f.TypeGiven

theorem Declared.typesGiven {inner : Message → Prop} {gs : List FieldGroup} {raw : Message}
    (h : raw.Declared dialect inner gs) : raw.withSyntheticOneofs.TypesGiven := by
  constructor
  · intro f hf
    obtain ⟨g, hg, f₀, hf₀, hsame⟩ :=
      (grouped_withSyntheticOneofs h.fields h.oneofs).exists_mem_group hf
    have htype : f₀.typeRef = f.typeRef := (congrArg Field.typeRef hsame :)
    have hgiven := (h.groups g hg).typeGiven hf₀
    rwa [Field.TypeGiven, htype] at hgiven
  · intro f hf
    rw [extensions_withSyntheticOneofs] at hf
    exact (h.extensions f hf).head.typeGiven

theorem Given.typesGiven (h : m.Given dialect) : m.TypesGiven := by
  rcases h with ⟨_, hm⟩ | ⟨name, hpair⟩
  · obtain ⟨raw, _, gs, hraw, rfl⟩ := hm.exists_declared
    exact hraw.typesGiven
  · refine ⟨hpair.typeGiven, ?_⟩
    obtain ⟨_, key, value, _, _, rfl⟩ := hpair
    exact forall_mem_nil _

end Message

/-- The messages of a file that was read were given, at every depth. -/
theorem File.Written.given {path : String} {file : File} (h : file.Written path dialect)
    {place : List Step} {fullName : String} (hm : file.Holds place ⟨fullName, .message m⟩) :
    m.Given dialect := by
  cases hm with
  | message hi hm => exact (h.messages _ (mem_of_getElem? hi)).given hm.mem_within

/-! ## What references are resolved to -/

section Resolution

variable {file : File} {dependencies : List LinkedFile} {l : LinkedFile}

variable {scope : Scope} {name : String} {d : Declared} {g : Field}

/-- What a name means is looked up under this name in full, or under this name in some scope. -/
theorem Scope.exists_lookup?_of_resolve? (h : scope.resolve? place name = some d) :
    ∃ fullName, scope.lookup? fullName = some d ∧ (Name.absolute? name = some fullName ∨
      Name.absolute? name = none ∧ ∃ s, fullName = Name.qualify s name) := by
  unfold Scope.resolve? at h
  split at h
  · next habsolute => exact ⟨_, h, .inl habsolute⟩
  · next hrelative =>
    split at h
    · obtain ⟨s, _, hfound⟩ := Option.bind_eq_some_iff.mp h
      exact ⟨_, hfound, .inr ⟨hrelative, s, rfl⟩⟩
    · obtain ⟨s, _, hfound⟩ := exists_of_findSome?_eq_some h
      exact ⟨_, hfound, .inr ⟨hrelative, s, rfl⟩⟩

/-- What a name means in a file is declared, after linking, in the file or in one that it sees. -/
theorem names_of_resolve? (h : link file dependencies = .ok l)
    (hd : (file.names dependencies).resolve? place name = some d) :
    l.file.Names l.dependencies d.kind ("." ++ d.fullName) := by
  obtain ⟨hlinks, hdeps⟩ := linksTo_of_link h
  obtain ⟨_, hfound, _⟩ := Scope.exists_lookup?_of_resolve? hd
  rcases mem_append.mp (mem_of_find?_eq_some hfound) with hown | hseen
  · obtain ⟨path, hpath⟩ := File.mem_declared_iff.mp hown
    obtain ⟨e, he, hde⟩ := hlinks.exists_holds_right hpath
    exact ⟨l.file, path, e, .inl rfl, he, hde.kind_eq, by rw [hde.fullName_eq]⟩
  · obtain ⟨g, hg, hdg⟩ := mem_flatMap.mp hseen
    obtain ⟨path, hpath⟩ := File.mem_declared_iff.mp hdg
    have hsees : LinkedFile.Sees l.dependencies g := hdeps ▸ LinkedFile.sees_of_mem_visible hg
    exact ⟨g.file, path, d, .inr ⟨g, hsees, rfl⟩, hpath, rfl, rfl⟩

/-- A field with a scalar type is left alone by linking, and another one gets the type and the full
name of what its type name means. -/
theorem Field.TypeGiven.link_cases (hgiven : f.TypeGiven) (h : f.link scope place = .ok g) :
    (∃ type ∈ FieldType.scalars, f.typeRef = { type := some type } ∧ g = f) ∨
      ∃ name d t, f.typeRef = { typeName := some name } ∧ scope.resolve? place name = some d ∧
        d.kind.fieldType? = some t ∧
        g = { f with type := some t, typeName := some ("." ++ d.fullName) } := by
  obtain ⟨hresolve, _⟩ := Field.link_eq_ok_iff.mp h
  rcases hgiven with ⟨type, hscalar, href⟩ | ⟨name, href⟩
  · rcases Field.resolve_eq_ok_iff.mp hresolve with ⟨_, rfl⟩ | ⟨hnone, _⟩
    · exact .inl ⟨type, hscalar, href, rfl⟩
    · rw [(TypeRef.mk.inj href).1] at hnone
      cases hnone
  · obtain ⟨htype, hname⟩ := TypeRef.mk.inj href
    rcases Field.resolve_eq_ok_iff.mp hresolve with
      ⟨hsome, _⟩ | ⟨_, name', d, t, hn, hd, hkind, rfl⟩
    · exact absurd htype hsome
    · cases hname.symm.trans hn
      exact .inr ⟨name, d, t, href, hd, hkind, rfl⟩

theorem resolved_of_link (h : link file dependencies = .ok l) (hgiven : f.TypeGiven)
    (hfg : f.link (file.names dependencies) place = .ok g) : g.Resolved l.file l.dependencies := by
  rcases hgiven.link_cases hfg with ⟨type, hscalar, href, rfl⟩ | ⟨_, d, t, _, hd, hkind, rfl⟩
  · obtain ⟨htype, hname⟩ := TypeRef.mk.inj href
    exact .scalar hscalar htype hname
  · have hnames := names_of_resolve? h hd
    cases hk : d.kind with
    | message =>
      rw [hk] at hkind hnames
      exact .message hkind.symm rfl hnames
    | enum =>
      rw [hk] at hkind hnames
      exact .enum hkind.symm rfl hnames
    | service =>
      rw [hk] at hkind
      cases hkind

theorem extensionResolved_of_link (h : link file dependencies = .ok l) (hgiven : f.TypeGiven)
    (hfg : f.linkExtension (file.names dependencies) place = .ok g) :
    g.ExtensionResolved l.file l.dependencies := by
  obtain ⟨_, d, hd, hkind, hg⟩ := Field.linkExtension_eq_ok_iff.mp hfg
  have hgiven' : { f with extendee := some ("." ++ d.fullName) }.TypeGiven := hgiven
  refine ⟨resolved_of_link h hgiven' hg, "." ++ d.fullName, ?_, hkind ▸ names_of_resolve? h hd⟩
  -- Resolving the type leaves the extendee alone.
  obtain ⟨hresolve, _⟩ := Field.link_eq_ok_iff.mp hg
  rcases Field.resolve_eq_ok_iff.mp hresolve with ⟨_, rfl⟩ | ⟨_, _, _, _, _, _, _, rfl⟩ <;> rfl

theorem methodsResolved_of_link (h : link file dependencies = .ok l) {s : Service}
    (hs : s ∈ l.file.services) {m : Method} (hm : m ∈ s.methods) :
    l.file.Names l.dependencies .message m.inputType ∧
      l.file.Names l.dependencies .message m.outputType := by
  obtain ⟨i, hi⟩ := mem_iff_getElem?.mp hs
  obtain ⟨d, _, hlinks⟩ := (linksTo_of_link h).1.exists_holds_left (.service hi)
  cases hlinks with
  | service hservice =>
    obtain ⟨m₀, _, hlink⟩ := exists_mem_of_forall₂ hservice.methods hm
    obtain ⟨d, e, hd, hkd, he, hke, rfl⟩ := Method.link_eq_ok_iff.mp hlink
    exact ⟨hkd ▸ names_of_resolve? h hd, hke ▸ names_of_resolve? h he⟩

end Resolution

/-! ## Linking texts -/

/-- The file is what reading and linking makes of a text. -/
def LinkedFile.MadeOf (path source : String) (dependencies : List LinkedFile) (l : LinkedFile) :
    Prop :=
  ∃ file locations, parse path source = .ok (file, locations) ∧ link file dependencies = .ok l

def LinkedFile.make? (path source : String) (dependencies : List LinkedFile) : Option LinkedFile :=
  (parse path source).toOption.bind fun r => (link r.1 dependencies).toOption

theorem LinkedFile.make?_eq_some_iff {path source : String} {dependencies : List LinkedFile}
    {l : LinkedFile} : make? path source dependencies = some l ↔
      MadeOf path source dependencies l := by
  simp only [make?, MadeOf, Option.bind_eq_some_iff, toOption_eq_some_iff, Prod.exists]

/-- A file that was read and linked has no reference that leads nowhere. -/
theorem resolved_of_parse_link {path source : String} {file : File} {locations : List Location}
    {dependencies : List LinkedFile} {l : LinkedFile}
    (hparse : parse path source = .ok (file, locations)) (hlink : link file dependencies = .ok l) :
    l.dependencies = dependencies ∧ l.Resolved := by
  have hwritten := written_of_parse hparse
  obtain ⟨hlinks, hdeps⟩ := linksTo_of_link hlink
  have hmessage : ∀ place fullName n, l.file.Holds place ⟨fullName, .message n⟩ →
      ∃ m : Message, m.TypesGiven ∧
        m.LinksTo (file.names dependencies) file.dialect fullName n := by
    intro place fullName n hn
    obtain ⟨d, hd, hdn⟩ := hlinks.exists_holds_left hn
    cases hdn with
    | message h => exact ⟨_, (hwritten.given hd).typesGiven, h⟩
  refine ⟨hdeps, ?_, ?_, ?_, ?_⟩
  · intro place fullName n hn g hg
    obtain ⟨m, hgiven, hmn⟩ := hmessage place fullName n hn
    obtain ⟨f, hf, hfg⟩ := exists_mem_of_forall₂ hmn.fields hg
    exact resolved_of_link hlink (hgiven.1 f hf) hfg
  · intro place fullName n hn g hg
    obtain ⟨m, hgiven, hmn⟩ := hmessage place fullName n hn
    obtain ⟨f, hf, hfg⟩ := exists_mem_of_forall₂ hmn.extensions hg
    exact extensionResolved_of_link hlink (hgiven.2 f hf) hfg
  · intro g hg
    obtain ⟨f, hf, hfg⟩ := exists_mem_of_forall₂ hlinks.extensions hg
    exact extensionResolved_of_link hlink (hwritten.extensions f hf).head.typeGiven hfg
  · intro s hs m hm
    exact methodsResolved_of_link hlink hs hm

def passingFile : LinkedFile where
  file := { name := "b", imports := ["c"], publicImports := [0] }
  dependencies :=
    [{ file :=
        { name := "c", enums := [{ name := "E", values := [{ name := "A", number := 0 }] }] },
       dependencies := [] }]

theorem resolved_of_parse_link_passingFile :
    ∃ file locations l,
      parse "a" "import 'b'; message M \x7b map<bool, E> e = 1; \x7d" = .ok (file, locations) ∧
      link file [passingFile] = .ok l ∧ l.dependencies = [passingFile] ∧ l.Resolved := by
  let source := "import 'b'; message M \x7b map<bool, E> e = 1; \x7d"
  have hsome : (LinkedFile.make? "a" source [passingFile]).isSome = true := by decide +kernel
  obtain ⟨l, hl⟩ := Option.isSome_iff_exists.mp hsome
  obtain ⟨file, locations, hparse, hlink⟩ := LinkedFile.make?_eq_some_iff.mp hl
  exact ⟨file, locations, l, hparse, hlink, resolved_of_parse_link hparse hlink⟩

end ProtoSchema
