import ProtoSchema.Proofs.Link.TypeIndex

/-!
Linking a file a second time. Linking writes nothing but references: a linked file is the file it
was made of, up to the types that were left to names, the messages that are extended and the types
of methods. Every reference is then in full, and means the same wherever it stands; so a linked
file is linked to itself.
-/

namespace ProtoSchema

/-! ## Files up to their references -/

/-- The second field is the first one, but may have another type if that was left to a name. -/
structure Field.EqUpToType (f g : Field) : Prop where
  given : f.type ≠ none → g = f
  rest : g = { f with type := g.type, typeName := g.typeName }

/-- The second extension is the first one, but may extend a message of another name, and may have
another type if that was left to a name. -/
def Field.EqUpToReferences (f g : Field) : Prop :=
  { f with extendee := g.extendee }.EqUpToType g

def Method.EqUpToReferences (m n : Method) : Prop :=
  n = { m with inputType := n.inputType, outputType := n.outputType }

structure Service.EqUpToReferences (s t : Service) : Prop where
  methods : List.Forall₂ Method.EqUpToReferences s.methods t.methods
  rest : t = { s with methods := t.methods }

inductive Message.EqUpToReferences : Message → Message → Prop
  | intro {m n : Message} (fields : List.Forall₂ Field.EqUpToType m.fields n.fields)
      (extensions : List.Forall₂ Field.EqUpToReferences m.extensions n.extensions)
      (nested : List.Forall₂ EqUpToReferences m.nested n.nested)
      (rest : n = { m with
        fields := n.fields, extensions := n.extensions, nested := n.nested }) :
      EqUpToReferences m n

structure File.EqUpToReferences (file file' : File) : Prop where
  messages : List.Forall₂ Message.EqUpToReferences file.messages file'.messages
  extensions : List.Forall₂ Field.EqUpToReferences file.extensions file'.extensions
  services : List.Forall₂ Service.EqUpToReferences file.services file'.services
  rest : file' = { file with
    messages := file'.messages, extensions := file'.extensions, services := file'.services }

/-! ## What linking writes -/

section Writes

variable {scope : Scope} {dialect : Dialect} {place : String}

theorem Field.eqUpToType_of_link {f g : Field} (h : f.link scope place = .ok g) :
    f.EqUpToType g := by
  refine ⟨fun htype => ?_, eq_of_link h⟩
  rcases resolve_eq_ok_iff.mp (link_eq_ok_iff.mp h).1 with ⟨_, hsame⟩ | ⟨hnone, _⟩
  · exact hsame
  · exact absurd hnone htype

theorem Field.eqUpToReferences_of_link {f g : Field} (h : f.linkExtension scope place = .ok g) :
    f.EqUpToReferences g := by
  obtain ⟨_, d, _, _, hlink⟩ := linkExtension_eq_ok_iff.mp h
  have hextendee : g.extendee = some ("." ++ d.fullName) := by rw [eq_of_link hlink]
  rw [EqUpToReferences, hextendee]
  exact eqUpToType_of_link hlink

theorem Method.eqUpToReferences_of_link {service : String} {m n : Method}
    (h : m.link scope place service = .ok n) : m.EqUpToReferences n := by
  obtain ⟨_, _, _, _, _, _, rfl⟩ := link_eq_ok_iff.mp h
  rfl

theorem Service.eqUpToReferences_of_link {s t : Service} (h : s.link scope place = .ok t) :
    s.EqUpToReferences t := by
  obtain ⟨hmethods, hrest⟩ := linksTo_of_link h
  exact ⟨hmethods.imp fun _ _ => Method.eqUpToReferences_of_link, hrest⟩

namespace Message

theorem eqUpToReferences_of_link {m n : Message} (h : m.link scope dialect place = .ok n) :
    m.EqUpToReferences n := by
  refine link_induction (R := fun _ => EqUpToReferences) (fun place m n h hnested => ?_) h
  obtain ⟨hfields, hextensions, _, hrest⟩ := linksTo_of_link h
  refine .intro ?_ ?_ hnested hrest
  · exact hfields.imp fun _ _ => Field.eqUpToType_of_link
  · exact hextensions.imp fun _ _ => Field.eqUpToReferences_of_link

end Message

theorem File.eqUpToReferences_of_link {file : File} {dependencies : List LinkedFile}
    {l : LinkedFile} (h : ProtoSchema.link file dependencies = .ok l) :
    file.EqUpToReferences l.file := by
  obtain ⟨hmessages, hextensions, hservices, hrest⟩ := partsLinkTo_of_link h
  refine ⟨?_, ?_, ?_, hrest⟩
  · exact hmessages.imp fun _ _ => Message.eqUpToReferences_of_link
  · exact hextensions.imp fun _ _ => Field.eqUpToReferences_of_link
  · exact hservices.imp fun _ _ => Service.eqUpToReferences_of_link

end Writes

/-! ## Linking what is linked -/

private theorem forall₂_self_of_forall₂ {α : Type} {r q : α → α → Prop} {xs ys : List α}
    (h : List.Forall₂ r xs ys) (hself : ∀ x y, r x y → q y y) : List.Forall₂ q ys ys := by
  refine List.forall₂_same.mpr fun y hy => ?_
  obtain ⟨x, _, hxy⟩ := exists_mem_of_forall₂ h hy
  exact hself x y hxy

section Again

variable {scope : Scope} {dialect : Dialect} {place : String}

/-- A name that linking wrote means at every place what it was written for. -/
theorem Scope.resolve?_dot_fullName {name : String} {d : Declared}
    (h : scope.resolve? place name = some d) (place' : String) :
    scope.resolve? place' ("." ++ d.fullName) = some d := by
  rw [resolve?, Name.absolute?_dot]
  exact lookup?_of_resolve? h

theorem Field.link_again {f g : Field} (h : f.link scope place = .ok g) :
    g.link scope place = .ok g := by
  obtain ⟨hresolve, hdefault⟩ := link_eq_ok_iff.mp h
  refine link_eq_ok_iff.mpr ⟨resolve_eq_ok_iff.mpr (.inl ⟨?_, rfl⟩), hdefault⟩
  rcases resolve_eq_ok_iff.mp hresolve with ⟨htype, rfl⟩ | ⟨_, _, _, t, _, _, _, rfl⟩
  · exact htype
  · exact Option.some_ne_none t

theorem Field.linkExtension_again {f g : Field} (h : f.linkExtension scope place = .ok g) :
    g.linkExtension scope place = .ok g := by
  obtain ⟨hnumber, d, hd, hkind, hlink⟩ := linkExtension_eq_ok_iff.mp h
  have hsame := eq_of_link hlink
  have hextendee : g.extendee = some ("." ++ d.fullName) := by rw [hsame]
  have hkept : { g with extendee := some ("." ++ d.fullName) } = g := by rw [← hextendee]
  refine linkExtension_eq_ok_iff.mpr ⟨?_, d, ?_, hkind, ?_⟩
  · rw [hsame]
    exact hnumber
  · rw [hextendee]
    exact Scope.resolve?_dot_fullName hd place
  · rw [hkept]
    exact link_again hlink

theorem Method.link_again {service : String} {m n : Method}
    (h : m.link scope place service = .ok n) : n.link scope place service = .ok n := by
  obtain ⟨d, e, hd, hkind, he, hkind', rfl⟩ := link_eq_ok_iff.mp h
  exact link_eq_ok_iff.mpr ⟨d, e, Scope.resolve?_dot_fullName hd place, hkind,
    Scope.resolve?_dot_fullName he place, hkind', rfl⟩

theorem Service.link_again {s t : Service} (h : s.link scope place = .ok t) :
    t.link scope place = .ok t := by
  rw [link] at h ⊢
  simp only [bind_eq_ok_iff, pure_eq_ok_iff, mapM_eq_ok_iff] at h ⊢
  obtain ⟨methods, hmethods, rfl⟩ := h
  exact ⟨methods, forall₂_self_of_forall₂ hmethods fun _ _ => Method.link_again, rfl⟩

namespace Message

theorem link_again {m n : Message} (h : m.link scope dialect place = .ok n) :
    n.link scope dialect place = .ok n := by
  refine link_induction (R := fun place _ n => n.link scope dialect place = .ok n)
    (fun place m n h hnested => ?_) h
  cases m
  rw [link] at h
  simp only [bind_eq_ok_iff, pure_eq_ok_iff, mapM_eq_ok_iff] at h
  obtain ⟨_, hcheck, fields', hfields, extensions', hextensions, nested', _, _, henums, rfl⟩ := h
  rw [link]
  simp only [bind_eq_ok_iff, pure_eq_ok_iff, mapM_eq_ok_iff, linkAll_eq_ok_iff]
  refine ⟨_, LinkFault.checkFields_of_forall₂ (hfields.imp fun f g hfg => ?_) hcheck, fields',
    forall₂_self_of_forall₂ hfields fun _ _ => Field.link_again, extensions',
    forall₂_self_of_forall₂ hextensions fun _ _ => Field.linkExtension_again, nested',
    forall₂_self_of_forall₂ hnested fun _ _ => id, _, henums, rfl⟩
  rw [Field.eq_of_link hfg]
  exact ⟨rfl, rfl⟩

end Message

theorem File.resolve_again {file file' : File} (h : file.resolve scope = .ok file') :
    file'.resolve scope = .ok file' := by
  rw [resolve] at h ⊢
  simp only [bind_eq_ok_iff, pure_eq_ok_iff, mapM_eq_ok_iff, Message.linkAll_eq_ok_iff] at h ⊢
  obtain ⟨messages, hmessages, _, henums, extensions, hextensions, services, hservices, rfl⟩ := h
  exact ⟨messages, forall₂_self_of_forall₂ hmessages fun _ _ => Message.link_again, _, henums,
    extensions, forall₂_self_of_forall₂ hextensions fun _ _ => Field.linkExtension_again, services,
    forall₂_self_of_forall₂ hservices fun _ _ => Service.link_again, rfl⟩

end Again

/-! ## Whole files -/

section Whole

variable {file : File} {dependencies : List LinkedFile} {l : LinkedFile}

theorem alike_names_of_link (h : link file dependencies = .ok l) :
    (file.names dependencies).Alike (l.file.names dependencies) where
  declared := by
    have hsame : l.file.declared.map Declared.signature = file.declared.map Declared.signature := by
      rw [← File.index_map_signature, ← File.index_map_signature, index_of_link h]
    simp only [File.names, Scope.ofFile, List.map_append, hsame]
  packages := by
    have hpackage : l.file.package = file.package := by rw [(linksTo_of_link h).1.rest]
    simp only [File.names, Scope.ofFile, hpackage]

theorem checkNesting_of_link (h : link file dependencies = .ok l) :
    LinkFault.checkNesting l.file = .ok () := by
  refine LinkFault.checkNesting_eq_ok_iff.mpr fun path name n hn => ?_
  obtain ⟨d, hd, hdn⟩ := (linksTo_of_link h).1.exists_holds_left hn
  cases hdn with
  | message _ => exact (linkable_of_link h).nesting path name _ hd

/-- A linked file is the file it was made of up to references, has the same index of declarations,
and is linked to itself. -/
theorem link_file_of_link (h : link file dependencies = .ok l) :
    file.EqUpToReferences l.file ∧ l.file.index = file.index ∧
      link l.file dependencies = .ok l := by
  refine ⟨File.eqUpToReferences_of_link h, index_of_link h, ?_⟩
  have hnesting := checkNesting_of_link h
  have halike := alike_names_of_link h
  have hnames := map_fullName_of_link h
  have himports : l.file.imports = file.imports := by rw [(linksTo_of_link h).1.rest]
  rw [link_eq_ok_iff, File.linked] at h ⊢
  simp only [bind_eq_ok_iff, pure_eq_ok_iff] at h ⊢
  obtain ⟨_, hdependencies, _, _, _, hchecked, file', hfile, rfl⟩ := h
  refine ⟨(), ?_, _, hnesting, (), ?_, file', ?_, rfl⟩
  · rw [LinkFault.checkDependencies_eq_ok_iff] at hdependencies ⊢
    rw [himports]
    exact hdependencies
  · rw [LinkFault.checkNames_eq_ok_iff_nodup] at hchecked ⊢
    rw [LinkedFile.declared] at hnames
    rw [hnames]
    exact hchecked
  · -- the scope is that of the linked file now, in which every name means the same
    rw [← File.names, File.resolve_of_alike halike]
    exact File.resolve_again hfile

end Whole

def extendingFile : File where
  name := "a"
  package := some "p"
  imports := ["g"]
  messages :=
    [{ name := "M"
       fields :=
        [{ name := "e", number := 1, label := .repeated, typeName := some "EEntry" },
          { name := "k", number := 2, label := .optional, type := some .int32 }]
       extensions :=
        [{ name := "x", number := 5, label := .optional, typeName := some "q.K",
           extendee := some "q.X" }]
       nested := [mapEntry "EEntry" { type := some .bool } { typeName := some "M" }] }]
  services := [{ name := "S", methods := [{ name := "call", inputType := "M",
                                            outputType := "q.X" }] }]
  extensions := [{ name := "y", number := 6, label := .optional, type := some .bytes,
                   extendee := some ".q.X" }]

theorem link_file_of_link_extendingFile :
    ∃ g l, LinkedFile.MadeOf "g" "package q;message X\x7b\x7denum K\x7bA=0;\x7d" [] g ∧
      link extendingFile [g] = .ok l ∧ l.file ≠ extendingFile ∧
      extendingFile.EqUpToReferences l.file ∧ l.file.index = extendingFile.index ∧
      link l.file [g] = .ok l := by
  have hmade : ((LinkedFile.make? "g" "package q;message X\x7b\x7denum K\x7bA=0;\x7d" []).bind
      fun g => (link extendingFile [g]).toOption.bind fun l =>
        some (decide (l.file = extendingFile))) = some false := by
    decide +kernel
  simp only [Option.bind_eq_some_iff, LinkedFile.make?_eq_some_iff, toOption_eq_some_iff,
    Option.some.injEq] at hmade
  obtain ⟨g, hg, l, hlink, hne⟩ := hmade
  exact ⟨g, l, hg, hlink, of_decide_eq_false hne, link_file_of_link hlink⟩

end ProtoSchema
