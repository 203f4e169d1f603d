import ProtoSchema.Proofs.Link.Spelled

/-!
What a linked file is printed as. Linking spells out every reference, and a printed type is a name
or a keyword; so the text of the linked file is that of the file with its references in full.
-/

namespace ProtoSchema

open List Message

/-! ## What a message is printed from -/

namespace Field

/-- All that is printed of a field next to the given nested messages, and what decides where. -/
def printed (nested : List Message) (dialect : Dialect) (f : Field) :
    Bool × Option Nat × (Bool → Line) :=
  (f.proto3Optional, f.oneofIndex, f.line nested dialect)

def extensionPrinted (dialect : Dialect) (f : Field) : Option String × Line :=
  (f.extendee, f.line [] dialect false)

def printedBlock (group : List (Option String × Line)) : List Line :=
  Line.block ("extend " ++ ((group.head?.bind Prod.fst).getD "") ++ " \x7b")
    (group.map Prod.snd) "\x7d"

private theorem extendBlock_eq (dialect : Dialect) (group : List Field) :
    extendBlock dialect group = printedBlock (group.map (extensionPrinted dialect)) := by
  rw [extendBlock, printedBlock, head?_map, Option.bind_map, map_map]
  rfl

private theorem splitBy_map {α β : Type} (r : β → β → Bool) (f : α → β) (xs : List α) :
    (xs.map f).splitBy r = (xs.splitBy fun a b => r (f a) (f b)).map (List.map f) := by
  have hloop : ∀ (xs : List α) (a : α) (group : List α) (groups : List (List α)),
      List.splitBy.loop r (xs.map f) (f a) (group.map f) (groups.map (List.map f)) =
        (List.splitBy.loop (fun a b => r (f a) (f b)) xs a group groups).map (List.map f) := by
    intro xs
    induction xs with
    | nil => simp [List.splitBy.loop]
    | cons b xs ih =>
      intro a group groups
      rw [map_cons, List.splitBy.loop, List.splitBy.loop]
      split
      · exact ih b (a :: group) groups
      · simpa using ih b [] ((a :: group).reverse :: groups)
  cases xs with
  | nil => rfl
  | cons a xs => exact hloop xs a [] []

private theorem extendLines_congr {dialect : Dialect} {fs gs : List Field}
    (h : fs.map (extensionPrinted dialect) = gs.map (extensionPrinted dialect)) :
    extendLines dialect fs = extendLines dialect gs := by
  have hlines : ∀ fs : List Field, extendLines dialect fs =
      ((fs.map (extensionPrinted dialect)).splitBy
        fun a b => a.1.getD "" == b.1.getD "").flatMap printedBlock := by
    intro fs
    rw [splitBy_map, flatMap_map]
    exact flatMap_congr fun group _ => extendBlock_eq dialect group
  rw [hlines, hlines, h]

end Field

namespace Message

structure FieldsAlike (dialect : Dialect) (m n : Message) : Prop where
  fields : m.fields.map (Field.printed m.nested dialect) =
    n.fields.map (Field.printed n.nested dialect)
  oneofs : m.oneofs = n.oneofs

namespace FieldsAlike

variable {dialect : Dialect} {m n : Message} (h : FieldsAlike dialect m n)
include h

theorem getElem? (index : Nat) :
    m.fields[index]? = none ∧ n.fields[index]? = none ∨
      ∃ f g, m.fields[index]? = some f ∧ n.fields[index]? = some g ∧
        m.writtenOneof? f = n.writtenOneof? g ∧
        f.line m.nested dialect = g.line n.nested dialect := by
  have hindex := congrArg (fun fields => fields[index]?) h.fields
  simp only [getElem?_map] at hindex
  cases hf : m.fields[index]? with
  | none =>
    rw [hf, Option.map_none] at hindex
    exact .inl ⟨rfl, Option.map_eq_none_iff.mp hindex.symm⟩
  | some f =>
    rw [hf, Option.map_some] at hindex
    obtain ⟨g, hg, hsame⟩ := Option.map_eq_some_iff.mp hindex.symm
    obtain ⟨hmarked, hplaced, hline⟩ : g.proto3Optional = f.proto3Optional ∧
        g.oneofIndex = f.oneofIndex ∧ g.line n.nested dialect = f.line m.nested dialect := by
      simpa [Field.printed] using hsame
    refine .inr ⟨f, g, rfl, hg, ?_, hline.symm⟩
    rw [writtenOneof?, writtenOneof?, hmarked, hplaced, h.oneofs]

theorem groupLines_eq (index : Nat) : m.groupLines dialect index = n.groupLines dialect index := by
  have honeof : ∀ o, m.oneofLines dialect o = n.oneofLines dialect o := by
    intro o
    rw [oneofLines, oneofLines]
    congr 2
    refine filterMap_congr fun i _ => ?_
    rcases h.getElem? i with ⟨hf, hg⟩ | ⟨f, g, hf, hg, _, hline⟩
    · rw [hf, hg]
      rfl
    · rw [hf, hg, Option.map_some, Option.map_some, hline]
  unfold groupLines
  rcases h.getElem? index with ⟨hf, hg⟩ | ⟨f, g, hf, hg, hwritten, hline⟩
  · rw [hf, hg]
  · simp only [hf, hg, hwritten, honeof, hline]

theorem groupEnd_eq (index : Nat) : m.groupEnd index = n.groupEnd index := by
  unfold groupEnd
  rcases h.getElem? index with ⟨hf, hg⟩ | ⟨f, g, hf, hg, hwritten, _⟩
  · rw [hf, hg]
    rfl
  · rw [hf, hg, Option.bind_some, Option.bind_some, hwritten]

theorem groupsUpTo_eq (bound next : Nat) :
    m.groupsUpTo dialect bound next = n.groupsUpTo dialect bound next := by
  fun_induction groupsUpTo m dialect bound next with
  | case1 next hlt lines stop heq ih =>
    rw [groupsUpTo, if_pos hlt, ← h.groupEnd_eq, ← ih, heq, h.groupLines_eq]
  | case2 next hge => rw [groupsUpTo, if_neg hge]

/-- Nested messages that are printed alike one by one are printed alike between the fields. -/
theorem nestedLines_eq {as bs : List Message}
    (hnested : List.Forall₂ (fun a b => a.isMapEntry = b.isMapEntry ∧
      m.entryOwner? a = n.entryOwner? b ∧
      (a.isMapEntry = false → a.lines dialect = b.lines dialect)) as bs) (next : Nat) :
    nestedLines dialect m as next = nestedLines dialect n bs next := by
  induction hnested generalizing next with
  | nil =>
    have hlength : m.fields.length = n.fields.length := by
      simpa using congrArg List.length h.fields
    rw [nestedLines, nestedLines, h.groupsUpTo_eq, hlength]
  | @cons a b as bs hab _ ih =>
    obtain ⟨hentry, howner, hlines⟩ := hab
    rw [nestedLines, nestedLines, hentry, howner]
    split
    · split
      · simp only [h.groupsUpTo_eq, ih]
      · exact ih next
    · next hno => rw [hlines (by simpa [hentry] using hno), ih]

end FieldsAlike

end Message

/-! ## Fields, linked and in full -/

theorem Scope.last_inFull (scope : Scope) (place name : String) :
    Name.last (scope.inFull place name) = Name.last name := by
  unfold inFull
  split
  · next d hd => rw [Name.last_dot, last_of_resolve? hd]
  · rfl

theorem Message.isMapEntry_inFull (scope : Scope) (place : String) (m : Message) :
    (m.inFull scope place).isMapEntry = m.isMapEntry := by
  rw [inFull_eq]
  rfl

namespace Field

section InFull

variable (scope : Scope) (place : String)

theorem ownsEntry_memberInFull (nested : List Message) (f : Field) (e : Message) (within : String) :
    (f.memberInFull scope place nested).ownsEntry (e.inFull scope within) = f.ownsEntry e := by
  have hlast : (f.inFull scope place).typeName.map Name.last = f.typeName.map Name.last := by
    unfold inFull
    split
    · rw [Option.map_map]
      exact congrArg (Option.map · f.typeName) (funext (scope.last_inFull place))
    · rfl
  have hname : (e.inFull scope within).name = e.name := by rw [Message.inFull_eq]
  unfold memberInFull
  split
  · rw [ownsEntry, ownsEntry, hname]
  · rw [ownsEntry, ownsEntry, hname, hlast, f.inFull_eq scope place]
    rfl

theorem entryIn?_memberInFull (nested : List Message) (f : Field) :
    (f.memberInFull scope place nested).entryIn? (nested.map (Message.inFull scope place)) =
      (f.entryIn? nested).map (Message.inFull scope place) := by
  rw [entryIn?, entryIn?, find?_map]
  congr 2
  funext e
  rw [Function.comp_apply, isMapEntry_inFull, ownsEntry_memberInFull]

end InFull

section Linked

variable {scope : Scope} {dialect : Dialect} {place : String} {f g : Field}

theorem typeText_of_link (h : f.link scope place = .ok g) :
    g.typeText = (f.inFull scope place).typeText := by
  rcases resolve_eq_ok_iff.mp (link_eq_ok_iff.mp h).1 with
    ⟨htype, rfl⟩ | ⟨htype, name, d, t, hname, hd, hkind, rfl⟩
  · rw [inFull, if_neg htype]
  · have hkeyword : t.keyword? = none := by
      cases hd : d.kind <;> rw [hd] at hkind <;> cases hkind <;> rfl
    rw [inFull, if_pos htype]
    simp [typeText, hkeyword, htype, hname, Scope.inFull, hd]

theorem specialOptions_of_link (h : f.link scope place = .ok g) :
    g.specialOptions = f.specialOptions := by
  rcases resolve_eq_ok_iff.mp (link_eq_ok_iff.mp h).1 with
    ⟨htype, rfl⟩ | ⟨htype, name, d, t, hname, hd, hkind, rfl⟩
  · rfl
  · have hdefault : ∀ value, defaultText
        { f with type := some t, typeName := some ("." ++ d.fullName) } value =
          f.defaultText value := by
      intro value
      cases hd : d.kind <;> rw [hd] at hkind <;> cases hkind <;> simp [defaultText, htype]
    simp only [specialOptions, hdefault]

variable {nested nested' : List Message}

variable (hgiven : f.TypeGiven) (h : f.link scope place = .ok g)
  (hnested : List.Forall₂ (fun a b => a.link scope dialect place = .ok b) nested nested')

include hgiven h hnested in
/-- Linking keeps the pair type of a map field. -/
theorem entryIn?_of_link :
    f.entryIn? nested = none ∧ g.entryIn? nested' = none ∨
      ∃ e e', f.entryIn? nested = some e ∧ g.entryIn? nested' = some e' ∧
        e.link scope dialect place = .ok e' := by
  induction hnested with
  | nil => exact .inl ⟨rfl, rfl⟩
  | @cons a b as bs hab _ ih =>
    rw [entryIn?, entryIn?, find?_cons, find?_cons, isMapEntry_of_link hab,
      ownsEntry_of_link hgiven h hab]
    split
    · exact .inr ⟨a, b, rfl, rfl, hab⟩
    · exact ih

include hgiven h hnested in
/-- A field and the types of its pair type are printed with the names that linking finds. -/
theorem line_of_link
    (hmade : ∀ e, f.entryIn? nested = some e → ∃ name key value, e = mapEntry name key value)
    (inOneof : Bool) :
    (f.memberInFull scope place nested).line (nested.map (Message.inFull scope place)) dialect
      inOneof = g.line nested' dialect inOneof := by
  have hsame : g = { f with type := g.type, typeName := g.typeName } := eq_of_link h
  have hentry := entryIn?_memberInFull scope place nested f
  have hhead : (f.memberInFull scope place nested).head (nested.map (Message.inFull scope place))
      dialect inOneof = g.head nested' dialect inOneof := by
    rw [head, head, hentry]
    rcases entryIn?_of_link hgiven h hnested with ⟨hnone, hnone'⟩ | ⟨e, e', hsome, hsome', he⟩
    · have hplain : f.memberInFull scope place nested = f.inFull scope place := by
        rw [memberInFull, hnone]
        rfl
      have hlabel : (f.inFull scope place).writtenLabel? dialect inOneof =
          g.writtenLabel? dialect inOneof := by
        rw [hsame, f.inFull_eq scope place]
        rfl
      rw [hnone, hnone', hplain, Option.map_none, hlabel, typeText_of_link h]
    · obtain ⟨name, key, value, rfl⟩ := hmade e hsome
      obtain ⟨hfields, _, _, _⟩ := Message.linksTo_of_link he
      obtain ⟨k, fs, hk, hfs, hcons⟩ := forall₂_cons_left_iff.mp hfields
      obtain ⟨v, gs, hv, hgs, rfl⟩ := forall₂_cons_left_iff.mp hfs
      obtain rfl := forall₂_nil_left_iff.mp hgs
      rw [hsome, hsome', Option.map_some, Message.inFull_eq]
      simp only [hcons, typeText_of_link hk, typeText_of_link hv]
      rfl
  rw [line, line, hhead, specialOptions_of_link h, hsame, f.memberInFull_eq scope place nested]
  rfl

theorem extensionPrinted_of_link (hf : f.Extending dialect)
    (h : f.linkExtension scope place = .ok g) :
    (f.extensionInFull scope place).extensionPrinted dialect = g.extensionPrinted dialect := by
  obtain ⟨_, d, hd, _, hlink⟩ := linkExtension_eq_ok_iff.mp h
  obtain ⟨w, name, hextendee, _⟩ := hf.extendee
  rw [hextendee, Option.getD_some] at hd
  have hname : f.extendee.map (scope.inFull place) = some ("." ++ d.fullName) := by
    rw [hextendee, Option.map_some, Scope.inFull, hd]
  have hfull : f.extensionInFull scope place =
      memberInFull scope place [] { f with extendee := some ("." ++ d.fullName) } := by
    rw [extensionInFull, hname, memberInFull, if_neg (by simp [entryIn?]), inFull, inFull]
    split <;> rfl
  have hgiven : { f with extendee := some ("." ++ d.fullName) }.TypeGiven := hf.head.typeGiven
  have hnested : List.Forall₂ (fun a b : Message => a.link scope dialect place = .ok b) [] [] :=
    .nil
  have hline := line_of_link hgiven hlink hnested (by simp [entryIn?]) false
  rw [extensionPrinted, extensionPrinted, hfull, ← hline, eq_of_link hlink, memberInFull_eq]
  rfl

theorem extendLines_of_link {fs gs : List Field} (hextending : ∀ f ∈ fs, f.Extending dialect)
    (h : List.Forall₂ (fun f g => f.linkExtension scope place = .ok g) fs gs) :
    extendLines dialect (fs.map (extensionInFull scope place)) = extendLines dialect gs := by
  refine extendLines_congr ?_
  rw [map_map]
  exact map_eq_of_forall₂ h fun f hf g hfg => extensionPrinted_of_link (hextending f hf) hfg

end Linked

end Field

/-! ## Messages, linked and in full -/

namespace Message

variable {scope : Scope} {dialect : Dialect} {place : String} {m n : Message}

theorem fieldsAlike_of_link (hgiven : m.Given dialect) (hown : m.OwnMaps)
    (h : m.link scope dialect place = .ok n) : FieldsAlike dialect (m.inFull scope place) n := by
  obtain ⟨hfields, _, hnested, hrest⟩ := linksTo_of_link h
  refine ⟨?_, ?_⟩
  · rw [inFull_eq, map_map]
    refine map_eq_of_forall₂ hfields fun f hmem g hf => ?_
    have hmade : ∀ e, f.entryIn? m.nested = some e →
        ∃ name key value, e = mapEntry name key value := by
      intro e he
      obtain ⟨_, _, hmap⟩ := hown.exists_owner (OwnMaps.mem_of_entryIn? he).1
      exact ⟨_, hmap.entry⟩
    have hline := funext (Field.line_of_link (hgiven.typesGiven.1 f hmem) hf hnested hmade)
    rw [Function.comp_apply, Field.printed, Field.printed, hline, Field.eq_of_link hf,
      f.memberInFull_eq]
  · rw [hrest, inFull_eq]

theorem entryOwner?_of_link {a b : Message} (hgiven : m.Given dialect)
    (h : m.link scope dialect place = .ok n)
    (hab : a.link scope dialect (Name.qualify place m.name) = .ok b) :
    (m.inFull scope place).entryOwner? (a.inFull scope (Name.qualify place m.name)) =
      n.entryOwner? b := by
  have hfind : ∀ (fs : List Field) (e : Message), (fs.findIdx? fun f => f.ownsEntry e) =
      (fs.map fun f => f.ownsEntry e).findIdx? id := by
    intro fs e
    rw [findIdx?_map]
    rfl
  rw [entryOwner?, entryOwner?, hfind, hfind, m.inFull_eq, map_map]
  congr 1
  refine map_eq_of_forall₂ (linksTo_of_link h).fields fun f hmem g hf => ?_
  rw [Function.comp_apply, Field.ownsEntry_memberInFull,
    Field.ownsEntry_of_link (hgiven.typesGiven.1 f hmem) hf hab]

theorem tailLines_of_link (hextending : ∀ f ∈ m.extensions, f.Extending dialect)
    (h : m.link scope dialect place = .ok n) :
    (m.inFull scope place).tailLines dialect = n.tailLines dialect := by
  obtain ⟨_, hextensions, _, hrest⟩ := linksTo_of_link h
  rw [hrest, m.inFull_eq, tailLines, tailLines, Field.extendLines_of_link hextending hextensions]

/-- A linked message is printed as the message with its references in full. -/
theorem lines_of_link {budget : Nat} (hm : m.Written dialect budget)
    (hmaps : ∀ k ∈ m.within, k.OwnMaps) (h : m.link scope dialect place = .ok n) :
    (m.inFull scope place).lines dialect = n.lines dialect := by
  induction budget generalizing m n place with
  | zero => exact absurd hm id
  | succ budget ih =>
    have hgiven : m.Given dialect := .inl ⟨_, hm⟩
    obtain ⟨raw, gs, hraw, hm⟩ := hm
    have htail : (m.inFull scope place).tailLines dialect = n.tailLines dialect := by
      refine tailLines_of_link ?_ h
      rw [hm, extensions_withSyntheticOneofs]
      exact hraw.extensions
    have hinner : ∀ a ∈ m.nested, a.Written dialect budget ∨ ∃ name, PairType name a := by
      rw [hm, nested_withSyntheticOneofs]
      exact hraw.nested
    obtain ⟨_, _, hnested, hrest⟩ := linksTo_of_link h
    have hname : (m.inFull scope place).name = n.name := by rw [hrest, inFull_eq]
    have hoptions : (m.inFull scope place).options = n.options := by rw [hrest, inFull_eq]
    have halike := fieldsAlike_of_link hgiven (hmaps m m.mem_within_self) h
    rw [lines_eq, lines_eq, htail, hname, hoptions, halike.nestedLines_eq ?_]
    -- a pair type is printed as part of its map field, so its own lines do not matter
    rw [m.inFull_eq, forall₂_map_left_iff]
    refine ((forall₂_and_left _ _).mpr ⟨fun a ha => ha, hnested⟩).imp fun a b ⟨ha, hab⟩ => ?_
    refine ⟨?_, ?_, fun hno => ?_⟩
    · rw [isMapEntry_inFull, isMapEntry_of_link hab]
    · rw [← m.inFull_eq]
      exact entryOwner?_of_link hgiven h hab
    · rw [isMapEntry_inFull] at hno
      rcases hinner a ha with hwritten | ⟨name, hpair⟩
      · exact ih hwritten (fun k hk => hmaps k (mem_within_of_nested ha hk)) hab
      · exact absurd hpair.isMapEntry (by simp [hno])

end Message

/-! ## Services and files -/

variable {scope : Scope} {place : String} {file : File} {dependencies : List LinkedFile}
  {l : LinkedFile}

theorem Method.lines_of_link {service : String} {m n : Method}
    (h : m.link scope place service = .ok n) : (m.inFull scope place).lines = n.lines := by
  obtain ⟨d, e, hd, _, he, _, rfl⟩ := link_eq_ok_iff.mp h
  simp [inFull, lines, Scope.inFull, hd, he]

theorem Service.lines_of_link {s t : Service} (h : s.link scope place = .ok t) :
    (s.inFull scope place).lines = t.lines := by
  obtain ⟨hmethods, hrest⟩ := linksTo_of_link h
  have hlines : (s.methods.map (Method.inFull scope place)).flatMap Method.lines =
      t.methods.flatMap Method.lines := by
    rw [flatMap_def, flatMap_def, map_map]
    congr 1
    exact map_eq_of_forall₂ hmethods fun _ _ _ hm => Method.lines_of_link hm
  rw [lines, lines, inFull, hlines, hrest]

structure File.PartsLinkTo (scope : Scope) (file file' : File) : Prop where
  messages : List.Forall₂ (fun m n => m.link scope file.dialect file.scope = .ok n)
    file.messages file'.messages
  extensions : List.Forall₂ (fun f g => f.linkExtension scope file.scope = .ok g)
    file.extensions file'.extensions
  services : List.Forall₂ (fun s t => s.link scope file.scope = .ok t) file.services file'.services
  rest : file' = { file with
    messages := file'.messages, extensions := file'.extensions, services := file'.services }

theorem partsLinkTo_of_link (h : link file dependencies = .ok l) :
    file.PartsLinkTo (file.names dependencies) l.file := by
  rw [link_eq_ok_iff, File.linked] at h
  simp only [bind_eq_ok_iff, pure_eq_ok_iff] at h
  obtain ⟨_, _, _, _, _, _, file', hfile, rfl⟩ := h
  rw [← File.names, File.resolve] at hfile
  simp only [bind_eq_ok_iff, pure_eq_ok_iff, mapM_eq_ok_iff, linkAll_eq_ok_iff] at hfile
  obtain ⟨messages, hmessages, _, _, extensions, hextensions, services, hservices, rfl⟩ := hfile
  exact ⟨hmessages, hextensions, hservices, rfl⟩

/-- A linked file is printed as the file with its references in full. -/
theorem File.print_of_link {path : String} (hwritten : file.Written path file.dialect)
    (hmaps : ∀ m ∈ file.allMessages, m.OwnMaps) (h : link file dependencies = .ok l) :
    (file.inFull (file.names dependencies)).print = l.file.print := by
  obtain ⟨hmessages, hextensions, hservices, hrest⟩ := partsLinkTo_of_link h
  generalize file.names dependencies = scope at hmessages hextensions hservices ⊢
  have hmessageLines : (Message.inFullAll scope file.scope file.messages).flatMap
        (fun m => .gap :: m.lines file.dialect) =
      l.file.messages.flatMap fun m => .gap :: m.lines file.dialect := by
    rw [inFullAll_eq_map, flatMap_def, flatMap_def, map_map]
    congr 1
    refine map_eq_of_forall₂ hmessages fun m hm n hmn => ?_
    refine congrArg (Line.gap :: ·) (lines_of_link (hwritten.messages m hm) ?_ hmn)
    exact fun k hk => hmaps k (mem_flatMap.mpr ⟨m, hm, hk⟩)
  have hserviceLines : (file.services.map (Service.inFull scope file.scope)).flatMap
        (fun s => .gap :: s.lines) = l.file.services.flatMap fun s => .gap :: s.lines := by
    rw [flatMap_def, flatMap_def, map_map]
    congr 1
    exact map_eq_of_forall₂ hservices fun _ _ _ hs =>
      congrArg (Line.gap :: ·) (Service.lines_of_link hs)
  have hextendLines := Field.extendLines_of_link hwritten.extensions hextensions
  have hlines : (file.inFull scope).lines = l.file.lines := by
    rw [hrest]
    simp only [lines, inFull, hmessageLines, hserviceLines, hextendLines]
    rfl
  rw [print, print, hlines]

end ProtoSchema
