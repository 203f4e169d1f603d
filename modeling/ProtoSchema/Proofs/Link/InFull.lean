import ProtoSchema.Proofs.Link.Lookup

/-!
References in full. `File.inFull` spells out what the references of a file mean, those of its map
fields apart, and changes nothing else. Main statement: the file is linked to the same result as
before.
-/

namespace ProtoSchema

open List Message

/-! ## Spelling out references -/

/-- The full name of what is meant, led by a dot. A name that means nothing is left as it is. -/
def Scope.inFull (scope : Scope) (place name : String) : String :=
  match scope.resolve? place name with
  | some d => "." ++ d.fullName
  | none => name

namespace Field

def inFull (scope : Scope) (place : String) (f : Field) : Field :=
  if f.type = none then { f with typeName := f.typeName.map (scope.inFull place) } else f

def extensionInFull (scope : Scope) (place : String) (f : Field) : Field :=
  { f.inFull scope place with extendee := f.extendee.map (scope.inFull place) }

/-- A field next to the given nested messages. A map field names its pair type as it was made. -/
def memberInFull (scope : Scope) (place : String) (nested : List Message) (f : Field) : Field :=
  if (f.entryIn? nested).isSome then f else f.inFull scope place

end Field

namespace Message

mutual

def inFull (scope : Scope) (place : String) : Message → Message
  | ⟨name, fields, extensions, nested, enums, oneofs, extensionRanges, reservedRanges,
      reservedNames, options⟩ =>
    ⟨name, fields.map (Field.memberInFull scope (Name.qualify place name) nested),
      extensions.map (Field.extensionInFull scope (Name.qualify place name)),
      inFullAll scope (Name.qualify place name) nested, enums, oneofs, extensionRanges,
      reservedRanges, reservedNames, options⟩

def inFullAll (scope : Scope) (place : String) : List Message → List Message
  | [] => []
  | m :: ms => m.inFull scope place :: inFullAll scope place ms

end

end Message

namespace Method

def inFull (scope : Scope) (place : String) (m : Method) : Method :=
  { m with
    inputType := scope.inFull place m.inputType
    outputType := scope.inFull place m.outputType }

end Method

namespace Service

def inFull (scope : Scope) (place : String) (s : Service) : Service :=
  { s with methods := s.methods.map (Method.inFull scope place) }

end Service

namespace File

def inFull (scope : Scope) (file : File) : File :=
  { file with
    messages := Message.inFullAll scope file.scope file.messages
    extensions := file.extensions.map (Field.extensionInFull scope file.scope)
    services := file.services.map (Service.inFull scope file.scope) }

end File

section Kept

variable (scope : Scope) (place : String)

theorem Field.inFull_eq (f : Field) :
    f.inFull scope place = { f with typeName := (f.inFull scope place).typeName } := by
  unfold inFull
  split <;> rfl

theorem Field.memberInFull_eq (nested : List Message) (f : Field) :
    f.memberInFull scope place nested =
      { f with typeName := (f.memberInFull scope place nested).typeName } := by
  unfold memberInFull
  split
  · rfl
  · exact f.inFull_eq scope place

theorem Message.inFullAll_eq_map (ms : List Message) :
    inFullAll scope place ms = ms.map (inFull scope place) := by
  induction ms with
  | nil => rfl
  | cons m ms ih => rw [inFullAll, ih, map_cons]

theorem Message.inFull_eq (m : Message) :
    m.inFull scope place =
      { m with
        fields := m.fields.map
          (Field.memberInFull scope (Name.qualify place m.name) m.nested)
        extensions := m.extensions.map
          (Field.extensionInFull scope (Name.qualify place m.name))
        nested := m.nested.map (inFull scope (Name.qualify place m.name)) } := by
  cases m
  simp only [inFull, inFullAll_eq_map]

end Kept

/-! ## Names and kinds -/

def Declared.signature (d : Declared) : String × Kind :=
  (d.fullName, d.kind)

namespace Message

mutual

theorem map_signature_declared (scope : Scope) (place : String) : ∀ m : Message,
    ((m.inFull scope place).declared place).map Declared.signature =
      (m.declared place).map Declared.signature
  | ⟨name, _, _, nested, _, _, _, _, _, _⟩ => by
    rw [inFull, declared, declared, map_cons, map_cons, map_append, map_append,
      map_signature_declaredIn scope (Name.qualify place name) nested]
    rfl

theorem map_signature_declaredIn (scope : Scope) (place : String) : ∀ ms : List Message,
    (declaredIn place (inFullAll scope place ms)).map Declared.signature =
      (declaredIn place ms).map Declared.signature
  | [] => rfl
  | m :: ms => by
    rw [inFullAll, declaredIn, declaredIn, map_append, map_append,
      map_signature_declared scope place m, map_signature_declaredIn scope place ms]

end

end Message

theorem File.map_signature_declared (scope : Scope) (file : File) :
    (file.inFull scope).declared.map Declared.signature =
      file.declared.map Declared.signature := by
  have hscope : (file.inFull scope).scope = file.scope := rfl
  simp only [declared, hscope, map_append]
  congr 1
  · congr 1
    exact map_signature_declaredIn scope file.scope file.messages
  · simp [inFull, Service.inFull, Declared.signature, Declared.kind, Declaration.kind]

/-- In both scopes the same names are declared, and of the same kinds. -/
structure Scope.Alike (scope scope' : Scope) : Prop where
  declared : scope'.declared.map Declared.signature = scope.declared.map Declared.signature
  packages : scope'.packages = scope.packages

namespace Scope.Alike

variable {scope scope' : Scope} (h : scope.Alike scope')
include h

variable (fullName place name : String)

theorem lookup? :
    (scope'.lookup? fullName).map Declared.signature =
      (scope.lookup? fullName).map Declared.signature := by
  have hfind : ∀ ds : List Declared, (Declared.find? ds fullName).map Declared.signature =
      (ds.map Declared.signature).find? fun s => s.1 = fullName := by
    intro ds
    rw [find?_map]
    rfl
  rw [Scope.lookup?, Scope.lookup?, hfind, hfind, h.declared]

theorem isScope : scope'.isScope fullName = scope.isScope fullName := by
  have hsome := congrArg Option.isSome (h.lookup? fullName)
  rw [Option.isSome_map, Option.isSome_map] at hsome
  rw [Scope.isScope, Scope.isScope, hsome, h.packages]

theorem resolve? :
    (scope'.resolve? place name).map Declared.signature =
      (scope.resolve? place name).map Declared.signature := by
  unfold Scope.resolve?
  split
  · exact h.lookup? _
  · split
    · simp only [h.isScope, Option.map_bind]
      congr 1
      funext s
      exact h.lookup? _
    · induction Name.scopes place with
      | nil => rfl
      | cons s ss ih =>
        have hs := h.lookup? (Name.qualify s name)
        rw [findSome?_cons, findSome?_cons]
        cases hfound : scope.lookup? (Name.qualify s name) with
        | none =>
          rw [hfound, Option.map_none, Option.map_eq_none_iff] at hs
          rw [hs]
          exact ih
        | some d =>
          rw [hfound, Option.map_some] at hs
          obtain ⟨d', hd', hsame⟩ := Option.map_eq_some_iff.mp hs
          rw [hd', Option.map_some, Option.map_some, hsame]

theorem resolve?_cases :
    scope.resolve? place name = none ∧ scope'.resolve? place name = none ∨
      ∃ d d', scope.resolve? place name = some d ∧ scope'.resolve? place name = some d' ∧
        d'.fullName = d.fullName ∧ d'.kind = d.kind := by
  have hsame := h.resolve? place name
  cases hd : scope.resolve? place name with
  | none =>
    rw [hd, Option.map_none, Option.map_eq_none_iff] at hsame
    exact .inl ⟨rfl, hsame⟩
  | some d =>
    rw [hd, Option.map_some] at hsame
    obtain ⟨d', hd', hsignature⟩ := Option.map_eq_some_iff.mp hsame
    exact .inr ⟨d, d', rfl, hd', congrArg Prod.fst hsignature, congrArg Prod.snd hsignature⟩

/-! ## Linking in scopes that are alike -/

theorem message_eq : scope'.message = scope.message := by
  funext place name referrer
  unfold Scope.message
  rcases h.resolve?_cases place name with ⟨hd, hd'⟩ | ⟨d, d', hd, hd', hname, hkind⟩
  · rw [hd, hd']
  · simp only [hd, hd', hname, hkind]

theorem fieldType_eq : scope'.fieldType = scope.fieldType := by
  funext place name referrer
  unfold Scope.fieldType
  rcases h.resolve?_cases place name with ⟨hd, hd'⟩ | ⟨d, d', hd, hd', hname, hkind⟩
  · rw [hd, hd']
  · simp only [hd, hd', hname, hkind]

theorem fieldLink_eq : Field.link scope' = Field.link scope := by
  funext place f
  rw [Field.link, Field.link, Field.resolve, Field.resolve, h.fieldType_eq]

theorem linkExtension_eq : Field.linkExtension scope' = Field.linkExtension scope := by
  funext place f
  rw [Field.linkExtension, Field.linkExtension, h.message_eq, h.fieldLink_eq]

theorem serviceLink_eq : Service.link scope' = Service.link scope := by
  have hmethod : Method.link scope' = Method.link scope := by
    funext place service m
    rw [Method.link, Method.link, h.message_eq]
  funext place s
  rw [Service.link, Service.link, hmethod]

end Scope.Alike

namespace Message

mutual

theorem link_of_alike {scope scope' : Scope} (h : scope.Alike scope') (dialect : Dialect)
    (place : String) : ∀ m : Message, m.link scope' dialect place = m.link scope dialect place
  | ⟨_, _, _, nested, _, _, _, _, _, _⟩ => by
    rw [link, link, h.fieldLink_eq, h.linkExtension_eq, linkAll_of_alike h dialect _ nested]

theorem linkAll_of_alike {scope scope' : Scope} (h : scope.Alike scope') (dialect : Dialect)
    (place : String) : ∀ ms : List Message,
      linkAll scope' dialect place ms = linkAll scope dialect place ms
  | [] => rfl
  | m :: ms => by
    rw [linkAll, linkAll, link_of_alike h dialect place m, linkAll_of_alike h dialect place ms]

end

end Message

theorem File.resolve_of_alike {scope scope' : Scope} (h : scope.Alike scope') (file : File) :
    file.resolve scope' = file.resolve scope := by
  rw [resolve, resolve, linkAll_of_alike h, h.linkExtension_eq, h.serviceLink_eq]

/-! ## Linking references in full -/

theorem Name.absolute?_dot (name : String) : absolute? ("." ++ name) = some name := by
  simp [absolute?]

section Resolved

variable {scope : Scope} {place : String}

/-- A name in full means the same. -/
theorem Scope.resolve?_inFull {name : String} {d : Declared}
    (h : scope.resolve? place name = some d) :
    scope.resolve? place (scope.inFull place name) = some d := by
  have hname : scope.inFull place name = "." ++ d.fullName := by rw [inFull, h]
  rw [hname, resolve?, Name.absolute?_dot]
  exact lookup?_of_resolve? h

variable {f g : Field} {nested : List Message}

theorem Field.link_inFull (h : f.link scope place = .ok g) :
    (f.inFull scope place).link scope place = .ok g := by
  obtain ⟨hresolve, hdefault⟩ := link_eq_ok_iff.mp h
  refine link_eq_ok_iff.mpr ⟨?_, hdefault⟩
  rcases resolve_eq_ok_iff.mp hresolve with
    ⟨htype, rfl⟩ | ⟨htype, name, d, t, hname, hd, hkind, rfl⟩
  · rw [inFull, if_neg htype]
    exact hresolve
  · refine resolve_eq_ok_iff.mpr (.inr ⟨?_, scope.inFull place name, d, t, ?_, ?_, hkind, ?_⟩)
    · rw [inFull, if_pos htype]
      exact htype
    · rw [inFull, if_pos htype, hname, Option.map_some]
    · exact Scope.resolve?_inFull hd
    · rw [inFull, if_pos htype]

theorem Field.link_memberInFull (h : f.link scope place = .ok g) :
    (f.memberInFull scope place nested).link scope place = .ok g := by
  unfold memberInFull
  split
  · exact h
  · exact link_inFull h

theorem Field.linkExtension_inFull (h : f.linkExtension scope place = .ok g) :
    (f.extensionInFull scope place).linkExtension scope place = .ok g := by
  obtain ⟨hnumber, d, hd, hkind, hlink⟩ := linkExtension_eq_ok_iff.mp h
  have hsame := f.inFull_eq scope place
  refine linkExtension_eq_ok_iff.mpr ⟨?_, d, ?_, hkind, ?_⟩
  · rw [extensionInFull, hsame]
    exact hnumber
  · cases hextendee : f.extendee with
    | none => simpa [extensionInFull, hextendee] using hd
    | some name =>
      rw [hextendee, Option.getD_some] at hd
      simpa [extensionInFull, hextendee] using Scope.resolve?_inFull hd
  · have hinFull := link_inFull hlink
    unfold inFull at hinFull
    unfold extensionInFull inFull
    split at hinFull
    · next htype => rwa [if_pos htype]
    · next htype => rwa [if_neg htype]

theorem Method.link_inFull {service : String} {m n : Method}
    (h : m.link scope place service = .ok n) :
    (m.inFull scope place).link scope place service = .ok n := by
  obtain ⟨d, e, hd, hkind, he, hkind', rfl⟩ := link_eq_ok_iff.mp h
  exact link_eq_ok_iff.mpr ⟨d, e, Scope.resolve?_inFull hd, hkind, Scope.resolve?_inFull he, hkind',
    rfl⟩

theorem Service.link_inFull {s t : Service} (h : s.link scope place = .ok t) :
    (s.inFull scope place).link scope place = .ok t := by
  rw [link] at h ⊢
  simp only [bind_eq_ok_iff, pure_eq_ok_iff, mapM_eq_ok_iff] at h ⊢
  obtain ⟨methods, hmethods, rfl⟩ := h
  refine ⟨methods, ?_, rfl⟩
  rw [inFull, forall₂_map_left_iff]
  exact hmethods.imp fun _ _ hm => Method.link_inFull hm

theorem LinkFault.checkFields_memberInFull {message : String} {fields : List Field}
    (h : checkFields message [] fields = .ok ()) :
    checkFields message [] (fields.map (Field.memberInFull scope place nested)) = .ok () := by
  refine checkFields_of_forall₂ (forall₂_map_right_iff.mpr ?_) h
  refine forall₂_same.mpr fun f _ => ?_
  rw [f.memberInFull_eq]
  exact ⟨rfl, rfl⟩

end Resolved

namespace Message

theorem link_inFull {scope : Scope} {dialect : Dialect} {place : String} {m n : Message}
    (h : m.link scope dialect place = .ok n) :
    (m.inFull scope place).link scope dialect place = .ok n := by
  refine link_induction
    (R := fun place m n => (m.inFull scope place).link scope dialect place = .ok n)
    (fun place m n h hnested => ?_) h
  cases m
  rw [link] at h
  simp only [bind_eq_ok_iff, pure_eq_ok_iff, mapM_eq_ok_iff] at h
  obtain ⟨_, hcheck, fields', hfields, extensions', hextensions, nested', _, _, henums, rfl⟩ := h
  rw [inFull, link]
  simp only [bind_eq_ok_iff, pure_eq_ok_iff, mapM_eq_ok_iff, linkAll_eq_ok_iff, inFullAll_eq_map,
    forall₂_map_left_iff]
  refine ⟨_, LinkFault.checkFields_memberInFull hcheck, fields', ?_, extensions', ?_, nested',
    hnested, _, henums, rfl⟩
  · exact hfields.imp fun _ _ hf => Field.link_memberInFull hf
  · exact hextensions.imp fun _ _ hf => Field.linkExtension_inFull hf

mutual

theorem tooDeep?_inFull (scope : Scope) (place : String) (levels : Nat) : ∀ m : Message,
    LinkFault.tooDeep? levels m = none → LinkFault.tooDeep? levels (m.inFull scope place) = none
  | ⟨_, _, _, nested, _, _, _, _, _, _⟩, h => by
    cases levels with
    | zero => cases h
    | succ levels =>
      rw [LinkFault.tooDeep?] at h
      rw [inFull, LinkFault.tooDeep?]
      exact tooDeepIn?_inFull scope _ levels nested h

theorem tooDeepIn?_inFull (scope : Scope) (place : String) (levels : Nat) : ∀ ms : List Message,
    LinkFault.tooDeepIn? levels ms = none →
      LinkFault.tooDeepIn? levels (inFullAll scope place ms) = none
  | [], _ => rfl
  | m :: ms, h => by
    rw [LinkFault.tooDeepIn?, Option.or_eq_none_iff] at h
    rw [inFullAll, LinkFault.tooDeepIn?, Option.or_eq_none_iff]
    exact ⟨tooDeepIn?_inFull scope place levels ms h.1, tooDeep?_inFull scope place levels m h.2⟩

end

end Message

namespace File

variable {file : File} {scope : Scope}

theorem alike_names_inFull (file : File) (scope : Scope) (dependencies : List LinkedFile) :
    (file.names dependencies).Alike ((file.inFull scope).names dependencies) where
  declared := by
    simp only [names, Scope.ofFile, map_append, map_signature_declared]
  packages := rfl

theorem resolve_inFull {file' : File} (h : file.resolve scope = .ok file') :
    (file.inFull scope).resolve scope = .ok file' := by
  rw [resolve] at h ⊢
  simp only [bind_eq_ok_iff, pure_eq_ok_iff, mapM_eq_ok_iff, linkAll_eq_ok_iff, inFull,
    inFullAll_eq_map, forall₂_map_left_iff] at h ⊢
  obtain ⟨messages, hmessages, _, henums, extensions, hextensions, services, hservices, rfl⟩ := h
  refine ⟨messages, ?_, _, henums, extensions, ?_, services, ?_, rfl⟩
  · exact hmessages.imp fun _ _ hm => link_inFull hm
  · exact hextensions.imp fun _ _ hf => Field.linkExtension_inFull hf
  · exact hservices.imp fun _ _ hs => Service.link_inFull hs

theorem checkNesting_inFull (h : LinkFault.checkNesting file = .ok ()) :
    LinkFault.checkNesting (file.inFull scope) = .ok () := by
  rw [LinkFault.checkNesting_eq_ok_iff_tooDeepIn?] at h ⊢
  exact tooDeepIn?_inFull scope _ _ _ h

/-- Which names a file must not declare depends on what it declares only. -/
theorem checkNames_inFull {visible : List LinkedFile}
    (h : LinkFault.checkNames file visible = .ok ()) :
    LinkFault.checkNames (file.inFull scope) visible = .ok () := by
  have hnames : (file.inFull scope).declared.map Declared.fullName =
      file.declared.map Declared.fullName := by
    have hsame := congrArg (List.map Prod.fst) (file.map_signature_declared scope)
    rwa [map_map, map_map] at hsame
  rw [LinkFault.checkNames_eq_ok_iff_nodup] at h ⊢
  rwa [hnames]

end File

/-- A file with its references in full is linked to the same result. -/
theorem link_inFull {file : File} {dependencies : List LinkedFile} {l : LinkedFile}
    (h : link file dependencies = .ok l) :
    link (file.inFull (file.names dependencies)) dependencies = .ok l := by
  rw [link_eq_ok_iff, File.linked] at h ⊢
  simp only [bind_eq_ok_iff, pure_eq_ok_iff] at h ⊢
  obtain ⟨_, hdependencies, _, hnesting, _, hnames, file', hfile, rfl⟩ := h
  refine ⟨_, hdependencies, _, File.checkNesting_inFull hnesting, _,
    File.checkNames_inFull hnames, file', ?_, rfl⟩
  -- the names in scope are now those of the file in full
  have halike := file.alike_names_inFull (file.names dependencies) dependencies
  rw [← File.names, File.resolve_of_alike halike]
  exact File.resolve_inFull hfile

end ProtoSchema
