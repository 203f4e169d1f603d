import ProtoSchema.Proofs.Link.Printed
import ProtoSchema.Proofs.PairTypes

/-!
Printing keeps what a file means. The text printed for a linked file names every type in full; it
is read without a fault, and linked to the same result.
-/

namespace ProtoSchema

open Relation LinkedFile List

/-! ## Map fields with references in full -/

namespace Message

variable {scope : Scope} {dialect : Dialect} {place : String} {m : Message}

theorem Given.dot_notMem_names (h : m.Given dialect) : ∀ f ∈ m.fields, '.' ∉ f.name.toList := by
  rcases h with ⟨_, hm⟩ | ⟨name, _, key, value, _, _, rfl⟩
  · obtain ⟨raw, _, gs, hraw, rfl⟩ := hm.exists_declared
    exact hraw.dot_notMem_names
  · intro f hf
    rcases mem_pair.mp hf with rfl | rfl <;> simp

theorem pairTypes_inFull (scope : Scope) (place : String) (m : Message) :
    (m.inFull scope place).pairTypes =
      m.pairTypes.map (inFull scope (Name.qualify place m.name)) := by
  have hkind : isMapEntry ∘ inFull scope (Name.qualify place m.name) = isMapEntry :=
    funext fun n => n.isMapEntry_inFull scope _
  rw [m.inFull_eq, pairTypes, pairTypes, filter_map, hkind]

/-- The pair types stay those of the map fields. -/
theorem OwnMaps.inFull (h : m.OwnMaps) (hnames : ∀ f ∈ m.fields, '.' ∉ f.name.toList)
    (scope : Scope) (place : String) : (m.inFull scope place).OwnMaps := by
  obtain ⟨⟨owners, hsub, hmade⟩, hdistinct, hunshared⟩ := h
  have hcount : ∀ e, (m.inFull scope place).fields.countP
      (fun f => f.ownsEntry (e.inFull scope (Name.qualify place m.name))) =
        m.fields.countP fun f => f.ownsEntry e := by
    intro e
    rw [m.inFull_eq, countP_map]
    congr 1
    funext f
    exact f.ownsEntry_memberInFull scope _ m.nested e _
  refine ⟨⟨owners.map (Field.memberInFull scope (Name.qualify place m.name) m.nested), ?_, ?_⟩,
    ?_, ?_⟩
  · rw [m.inFull_eq]
    exact hsub.map _
  · rw [pairTypes_inFull, forall₂_map_left_iff, forall₂_map_right_iff]
    have hentries := ((forall₂_and_left _ _).mpr ⟨fun e he => he, hmade.flip⟩).flip
    have hboth := (forall₂_and_left _ _).mpr ⟨fun f hf => hsub.subset hf, hentries⟩
    refine hboth.imp fun f e ⟨hf, he, hmap⟩ => ?_
    rw [hmap.memberInFull scope _ (hnames f hf) (mem_pairTypes.mp he).1]
    obtain ⟨key, value, rfl⟩ := hmap.entry
    exact ⟨hmap.label, hmap.typeName, _, _, inFull_mapEntry _ _ _ _ _⟩
  · rw [pairTypes_inFull, List.map_map]
    have hname : name ∘ Message.inFull scope (Name.qualify place m.name) = name := by
      funext n
      rw [Function.comp_apply, n.inFull_eq]
    rwa [hname]
  · rw [pairTypes_inFull, forall_mem_map]
    intro e he
    rw [hcount]
    exact hunshared e he

theorem settings_inFull (scope : Scope) (place : String) (m : Message) :
    (m.inFull scope place).settings = m.settings := by
  have hfields : ∀ f : Field,
      (f.memberInFull scope (Name.qualify place m.name) m.nested).options = f.options := by
    intro f
    rw [f.memberInFull_eq]
  have hextensions : ∀ f : Field,
      (f.extensionInFull scope (Name.qualify place m.name)).options = f.options := by
    intro f
    rw [Field.extensionInFull, f.inFull_eq]
  rw [m.inFull_eq]
  simp only [settings, flatMap_append, flatMap_map, hfields, hextensions]

/-- What is in a message with its references in full was in the message. -/
theorem Given.exists_of_mem_within {k : Message} (h : m.Given dialect)
    (hk : k ∈ (m.inFull scope place).within) :
    ∃ n ∈ m.within, n.Given dialect ∧ ∃ place', k = n.inFull scope place' := by
  refine forall_mem_within (P := fun k => ∃ n ∈ m.within, n.Given dialect ∧
    ∃ place', k = n.inFull scope place') ?_ _ ⟨m, m.mem_within_self, h, place, rfl⟩ k hk
  rintro _ ⟨n, hn, hgiven, place', rfl⟩ a' ha'
  rw [n.inFull_eq] at ha'
  obtain ⟨a, ha, rfl⟩ := mem_map.mp ha'
  have hin : a ∈ m.within := mem_within_trans hn (mem_within_of_nested ha a.mem_within_self)
  exact ⟨a, hin, hgiven.nested ha, _, rfl⟩

end Message

/-! ## What linking keeps -/

theorem Field.options_of_linkExtension {scope : Scope} {place : String} {f g : Field}
    (h : f.linkExtension scope place = .ok g) : g.options = f.options := by
  obtain ⟨_, _, _, _, hlink⟩ := linkExtension_eq_ok_iff.mp h
  rw [eq_of_link hlink]

namespace Message.LinksTo

variable {scope : Scope} {dialect : Dialect} {fullName : String} {m n : Message}
  (h : m.LinksTo scope dialect fullName n)
include h

theorem settings_eq : n.settings = m.settings := by
  have hfields : m.fields.map Field.options = n.fields.map Field.options :=
    map_eq_of_forall₂ h.fields fun f _ g hfg => by rw [Field.eq_of_link hfg]
  have hextensions : m.extensions.map Field.options = n.extensions.map Field.options := by
    exact map_eq_of_forall₂ h.extensions fun f _ g hfg => (Field.options_of_linkExtension hfg).symm
  rw [h.rest]
  simp only [settings, flatMap_def, map_append, hfields, hextensions]

theorem countP_ownsEntry (hgiven : m.Given dialect)
    {e e' : Message} (he : e.link scope dialect fullName = .ok e') :
    n.fields.countP (fun f => f.ownsEntry e') = m.fields.countP fun f => f.ownsEntry e := by
  have hcount : ∀ (fs : List Field) (e : Message), (fs.countP fun f => f.ownsEntry e) =
      (fs.map fun f => f.ownsEntry e).countP id := by
    intro fs e
    rw [countP_map]
    rfl
  rw [hcount, hcount]
  congr 1
  refine (map_eq_of_forall₂ h.fields fun f hf g hfg => ?_).symm
  exact (Field.ownsEntry_of_link (hgiven.typesGiven.1 f hf) hfg he).symm

/-- What is nested in a message is linked where it stands. -/
theorem exists_walk {path : List Edge} {k : Message}
    (hk : (Item.message m).walk path = some (.message k)) :
    ∃ k' name, (Item.message n).walk path = some (.message k') ∧
      k.LinksTo scope dialect name k' := by
  induction path generalizing m n fullName with
  | nil =>
    cases hk
    exact ⟨n, fullName, rfl, h⟩
  | cons e path ih =>
    obtain ⟨a, htag, ha, hk⟩ := Item.exists_nested_of_walk hk
    obtain ⟨b, hb, hab⟩ := exists_getElem?_of_forall₂ h.nested ha
    obtain ⟨k', name, hk', hlinks⟩ := ih (linksTo_of_link hab) hk
    refine ⟨k', name, ?_, hlinks⟩
    rw [Item.walk_cons_of_eq (y := .message b), hk']
    simp [htag, Item.children, Location.messageNested, Location.messageField, hb]

end Message.LinksTo

theorem Service.LinksTo.settings_eq {scope : Scope} {place : String} {s t : Service}
    (h : s.LinksTo scope place t) : t.settings = s.settings := by
  have hmethods : s.methods.map Method.options = t.methods.map Method.options := by
    refine map_eq_of_forall₂ h.methods fun m _ n hmn => ?_
    obtain ⟨_, _, _, _, _, _, rfl⟩ := Method.link_eq_ok_iff.mp hmn
    rfl
  rw [h.rest]
  simp only [settings, flatMap_def, hmethods]

namespace Message

variable {scope : Scope} {dialect : Dialect} {place : String}

/-- What linking keeps of a message it keeps at any depth. -/
theorem map_within_of_link {α : Type} {part : Message → α}
    (hpart : ∀ {fullName : String} {m n : Message},
      m.LinksTo scope dialect fullName n → part n = part m)
    {m n : Message} (h : m.link scope dialect place = .ok n) :
    n.within.map part = m.within.map part := by
  refine link_induction (R := fun _ m n => n.within.map part = m.within.map part)
    (fun place m n h hnested => ?_) h
  rw [within_eq, within_eq, map_cons, map_cons, hpart (linksTo_of_link h)]
  congr 1
  generalize m.nested = ms, n.nested = ns at hnested
  induction hnested with
  | nil => rfl
  | cons hfirst _ ih => rw [withinAll, withinAll, map_append, map_append, hfirst, ih]

end Message

section Linked

variable {file : File} {dependencies : List LinkedFile} {l : LinkedFile}
  (hlink : link file dependencies = .ok l)
include hlink

theorem exists_linksTo_of_mem_allMessages {m : Message} (hm : m ∈ file.allMessages) :
    ∃ place fullName n, file.Holds place ⟨fullName, .message m⟩ ∧ n ∈ l.file.allMessages ∧
      m.LinksTo (file.names dependencies) file.dialect fullName n := by
  obtain ⟨place, fullName, hholds⟩ := File.exists_holds_of_mem_allMessages hm
  obtain ⟨d, hd, hlinks⟩ := (linksTo_of_link hlink).1.exists_holds_right hholds
  cases hlinks with
  | message h => exact ⟨place, fullName, _, hholds, hd.mem_allMessages, h⟩

theorem map_allMessages_of_link {α : Type} {part : Message → α}
    (hpart : ∀ {fullName : String} {m n : Message},
      m.LinksTo (file.names dependencies) file.dialect fullName n → part n = part m) :
    l.file.allMessages.map part = file.allMessages.map part := by
  have hmessages := map_eq_of_forall₂ (partsLinkTo_of_link hlink).messages fun m _ n hmn =>
    (Message.map_within_of_link hpart hmn).symm
  rw [File.allMessages, File.allMessages, map_flatMap, map_flatMap, flatMap_def,
    flatMap_def, hmessages]

/-- Linking changes nothing that is set. -/
theorem settings_of_link : l.file.settings = file.settings := by
  obtain ⟨_, hextensions, hservices, hrest⟩ := partsLinkTo_of_link hlink
  have hoptions : l.file.options = file.options := by rw [hrest]
  have henums : l.file.enums = file.enums := by rw [hrest]
  have hmessages :
      l.file.allMessages.map Message.settings = file.allMessages.map Message.settings :=
    map_allMessages_of_link hlink Message.LinksTo.settings_eq
  have hservices : file.services.map Service.settings = l.file.services.map Service.settings :=
    map_eq_of_forall₂ hservices fun s _ t hst => (Service.linksTo_of_link hst).settings_eq.symm
  have hextensions : file.extensions.map Field.options = l.file.extensions.map Field.options :=
    map_eq_of_forall₂ hextensions fun f _ g hfg => (Field.options_of_linkExtension hfg).symm
  simp only [File.settings, flatMap_def, hoptions, henums, hmessages, hservices, hextensions]

theorem unshared_of_link {path : String} (hwritten : file.Written path file.dialect)
    (h : ∀ m ∈ l.file.allMessages, ∀ e ∈ m.pairTypes,
      m.fields.countP (fun f => f.ownsEntry e) ≤ 1) :
    ∀ m ∈ file.allMessages, ∀ e ∈ m.pairTypes,
      m.fields.countP (fun f => f.ownsEntry e) ≤ 1 := by
  intro m hm e he
  obtain ⟨_, _, n, hholds, hn, hmn⟩ := exists_linksTo_of_mem_allMessages hlink hm
  obtain ⟨hnested, hentry⟩ := Message.OwnMaps.mem_pairTypes.mp he
  obtain ⟨e', he', hlinke⟩ := exists_mem_of_forall₂ hmn.nested.flip hnested
  rw [← hmn.countP_ownsEntry (hwritten.given hholds) hlinke]
  refine h n hn e' (Message.OwnMaps.mem_pairTypes.mpr ⟨he', ?_⟩)
  rw [Message.isMapEntry_of_link hlinke, hentry]

theorem noneMarked_of_link {locations : List Location} (h : l.file.NoneMarked locations) :
    file.NoneMarked locations := by
  intro x hx path m hpath hwalk
  obtain ⟨i, a, rest, rfl, ha, hwalk⟩ := Item.exists_message_of_walk hwalk
  obtain ⟨b, hb, hab⟩ := exists_getElem?_of_forall₂ (partsLinkTo_of_link hlink).messages ha
  obtain ⟨k, name, hk, hmk⟩ := (Message.linksTo_of_link hab).exists_walk hwalk
  rw [← hmk.isMapEntry_eq]
  refine h x hx _ k hpath ?_
  rw [Item.walk_cons_of_eq (y := .message b), hk]
  simp [Item.children, hb]

end Linked

/-! ## Reading and linking what was printed -/

section File

variable {path : String} {file : File} {scope : Scope}

theorem File.Written.exists_of_mem_allMessages (h : file.Written path file.dialect) {k : Message}
    (hk : k ∈ (file.inFull scope).allMessages) :
    ∃ n ∈ file.allMessages, n.Given file.dialect ∧ ∃ place, k = n.inFull scope place := by
  obtain ⟨m', hm', hk⟩ := mem_flatMap.mp hk
  rw [File.inFull, Message.inFullAll_eq_map] at hm'
  obtain ⟨m, hm, rfl⟩ := mem_map.mp hm'
  have hroot : m.Given file.dialect := .inl ⟨_, h.messages m hm⟩
  obtain ⟨n, hn, hgiven, hplace⟩ := hroot.exists_of_mem_within hk
  exact ⟨n, mem_flatMap.mpr ⟨m, hm, hn⟩, hgiven, hplace⟩

theorem File.Written.ownMaps_inFull (h : file.Written path file.dialect)
    (hmaps : ∀ m ∈ file.allMessages, m.OwnMaps) :
    ∀ m ∈ (file.inFull scope).allMessages, m.OwnMaps := by
  intro k hk
  obtain ⟨n, hn, hgiven, place, rfl⟩ := h.exists_of_mem_allMessages hk
  exact (hmaps n hn).inFull hgiven.dot_notMem_names scope place

theorem File.Written.signed_inFull (h : file.Written path file.dialect)
    (hsigned : Options.Signed file.settings) : Options.Signed (file.inFull scope).settings := by
  simp only [File.settings, Options.signed_append, Options.signed_flatMap] at hsigned ⊢
  obtain ⟨⟨⟨⟨hoptions, hmessages⟩, henums⟩, hservices⟩, hextensions⟩ := hsigned
  refine ⟨⟨⟨⟨hoptions, fun k hk => ?_⟩, henums⟩, ?_⟩, ?_⟩
  · obtain ⟨n, hn, _, place, rfl⟩ := h.exists_of_mem_allMessages hk
    rw [Message.settings_inFull]
    exact hmessages n hn
  · rw [File.inFull, forall_mem_map]
    intro s hs
    have hsame : (s.inFull scope file.scope).settings = s.settings := by
      simp only [Service.settings, Service.inFull, flatMap_map]
      rfl
    rw [hsame]
    exact hservices s hs
  · rw [File.inFull, forall_mem_map]
    intro f hf
    rw [Field.extensionInFull, f.inFull_eq]
    exact hextensions f hf

end File

/-- Printing undoes reading and linking: the text printed for a linked file is read again, and what
is read is linked to the same file. No message that is declared in the text may be marked as a pair
type, and no repeated field but the map field itself may have a type that ends in the name of a pair
type next to it; no option may be set to an integer zero behind a minus sign. What the other files
declare must stand in scopes that are made of identifiers. -/
theorem parse_link_print {path source : String} {file : File} {locations : List Location}
    {dependencies : List LinkedFile} {l : LinkedFile}
    (hparse : parse path source = .ok (file, locations)) (hlink : link file dependencies = .ok l)
    (hvisible : ∀ g ∈ visible dependencies, g.NamesScoped) (hmarked : l.file.NoneMarked locations)
    (hunshared : ∀ m ∈ l.file.allMessages, ∀ e ∈ m.pairTypes,
      m.fields.countP (fun f => f.ownsEntry e) ≤ 1)
    (hsigned : Options.Signed l.file.settings) :
    ∃ file' locations', parse path l.file.print = .ok (file', locations') ∧
      link file' dependencies = .ok l := by
  have hwritten := written_of_parse hparse
  have hscope := hwritten.namesScoped_names hvisible
  have hmaps := ownMaps_of_noneMarked hparse (noneMarked_of_link hlink hmarked)
    (fun m hm => (nodup_nested_of_link hlink hm).sublist (List.filter_sublist.map _))
    (unshared_of_link hlink hwritten hunshared)
  -- `l` is printed as the file with its references in full, and that file is linked to `l`
  obtain ⟨locations', hparse'⟩ := exists_parse_print (hwritten.inFull hscope)
    (hwritten.ownMaps_inFull hmaps) (hwritten.signed_inFull (settings_of_link hlink ▸ hsigned))
  rw [File.print_of_link hwritten hmaps hlink] at hparse'
  exact ⟨_, locations', hparse', link_inFull hlink⟩

def importingFile (name entry : String) (type value : TypeRef) : File where
  name := "a"
  imports := ["g"]
  messages :=
    [{ name := "M"
       fields :=
        [{ name, number := 1, label := .repeated, type := type.type, typeName := type.typeName }]
       nested := [mapEntry entry { type := some .bool } value] }]

theorem noneMarked_importingFile (name entry : String) (type value : TypeRef)
    {locations : List Location} (h : locations.map Location.path = [[4, 0, 2, 0], [4, 0]]) :
    (importingFile name entry type value).NoneMarked locations := by
  intro x hx path m hpath hwalk
  have hmem : x.path ∈ [[4, 0, 2, 0], [4, 0]] := h ▸ mem_map_of_mem hx
  rw [hpath] at hmem
  rcases mem_pair.mp hmem with heq | heq
  · have hfield : Edge.encode path = Edge.encode [(4, 0), (2, 0)] := heq
    rw [Edge.encode_injective hfield] at hwalk
    cases hwalk
  · have hmessage : Edge.encode path = Edge.encode [(4, 0)] := heq
    rw [Edge.encode_injective hmessage] at hwalk
    cases hwalk
    rfl

theorem parse_link_print_imported :
    ∃ g file locations l, MadeOf "g" "message X\x7b\x7d" [] g ∧
      parse "a" "import 'g';message M\x7bmap<bool,X>a=1;\x7d" = .ok (file, locations) ∧
      link file [g] = .ok l ∧ (∀ k ∈ visible [g], k.NamesScoped) ∧ l.file.NoneMarked locations ∧
      (∀ m ∈ l.file.allMessages, ∀ e ∈ m.pairTypes,
        m.fields.countP (fun f => f.ownsEntry e) ≤ 1) ∧
      Options.Signed l.file.settings ∧
      l.file.print = "syntax = \"proto2\";\n\nimport \"g\";\n\nmessage M \x7b\n" ++
        "  map<bool, .X> a = 1;\n\x7d\n" ∧
      ∃ file' locations', parse "a" l.file.print = .ok (file', locations') ∧
        link file' [g] = .ok l := by
  let file := importingFile "a" "AEntry" { typeName := some "AEntry" } { typeName := some "X" }
  let linked := importingFile "a" "AEntry" { type := some .message, typeName := some ".M.AEntry" }
    { type := some .message, typeName := some ".X" }
  let source := "import 'g';message M\x7bmap<bool,X>a=1;\x7d"
  have hparse : parse "a" source = .ok (file, (readFile "a" source).locations) := by
    decide +kernel
  have hlocations : (readFile "a" source).locations.map Location.path = [[4, 0, 2, 0], [4, 0]] := by
    decide +kernel
  have hmade : ((make? "g" "message X\x7b\x7d" []).bind fun g =>
      (link file [g]).toOption.bind fun l => some l.file) = some linked := by
    decide +kernel
  simp only [Option.bind_eq_some_iff, make?_eq_some_iff, toOption_eq_some_iff,
    Option.some.injEq] at hmade
  obtain ⟨g, hg, l, hlink, hfile⟩ := hmade
  have hvisible : ∀ k ∈ visible [g], k.NamesScoped := by
    intro k hk
    obtain ⟨d, hd, hpath⟩ := sees_of_mem_visible hk
    obtain rfl := List.mem_singleton.mp hd
    obtain ⟨_, _, _, hglink⟩ := id hg
    rcases ReflTransGen.cases_head hpath with rfl | ⟨k', hk', _⟩
    · exact hg.namesScoped
    · have himport : d.Imports k' := hk'.imports
      rw [Imports, (linksTo_of_link hglink).2] at himport
      cases himport
  have hmarked : l.file.NoneMarked (readFile "a" source).locations := by
    rw [hfile]
    exact noneMarked_importingFile _ _ _ _ hlocations
  have hunshared : ∀ m ∈ l.file.allMessages, ∀ e ∈ m.pairTypes,
      m.fields.countP (fun f => f.ownsEntry e) ≤ 1 := by
    rw [hfile]
    decide +kernel
  have hsigned : ∀ t ∈ l.file.settings, t.value ≠ .int 0 := by
    rw [hfile]
    decide
  have hprint : l.file.print = "syntax = \"proto2\";\n\nimport \"g\";\n\nmessage M \x7b\n" ++
      "  map<bool, .X> a = 1;\n\x7d\n" := by
    rw [hfile]
    decide +kernel
  exact ⟨g, file, _, l, hg, hparse, hlink, hvisible, hmarked, hunshared, hsigned, hprint,
    parse_link_print hparse hlink hvisible hmarked hunshared hsigned⟩

/-- Names that cannot be written are not read again. The pair type of a field `_1` is `1Entry`, and
a file that was put together by hand can declare something in a package of that name. -/
theorem parse_link_print_unscoped :
    ∃ g file locations l,
      link { name := "g", package := some "M.1Entry", messages := [{ name := "X" }] } [] = .ok g ∧
      parse "a" "import 'g';message M\x7bmap<bool,X>_1=1;\x7d" = .ok (file, locations) ∧
      link file [g] = .ok l ∧ l.file.NoneMarked locations ∧
      (∀ m ∈ l.file.allMessages, ∀ e ∈ m.pairTypes,
        m.fields.countP (fun f => f.ownsEntry e) ≤ 1) ∧
      Options.Signed l.file.settings ∧
      ∀ file' locations', parse "a" l.file.print ≠ .ok (file', locations') := by
  let file := importingFile "_1" "1Entry" { typeName := some "1Entry" } { typeName := some "X" }
  let linked := importingFile "_1" "1Entry" { type := some .message, typeName := some ".M.1Entry" }
    { type := some .message, typeName := some ".M.1Entry.X" }
  let source := "import 'g';message M\x7bmap<bool,X>_1=1;\x7d"
  have hparse : parse "a" source = .ok (file, (readFile "a" source).locations) := by
    decide +kernel
  have hlocations : (readFile "a" source).locations.map Location.path = [[4, 0, 2, 0], [4, 0]] := by
    decide +kernel
  have hmade : ((link { name := "g", package := some "M.1Entry", messages := [{ name := "X" }] }
      []).toOption.bind fun g => (link file [g]).toOption.bind fun l => some l.file) =
      some linked := by
    decide +kernel
  simp only [Option.bind_eq_some_iff, toOption_eq_some_iff, Option.some.injEq] at hmade
  obtain ⟨g, hg, l, hlink, hfile⟩ := hmade
  refine ⟨g, file, _, l, hg, hparse, hlink, ?_⟩
  rw [hfile]
  refine ⟨noneMarked_importingFile _ _ _ _ hlocations, ?_, ?_, ?_⟩
  · decide +kernel
  · have hsigned : ∀ t ∈ linked.settings, t.value ≠ .int 0 := by decide
    exact hsigned
  · intro file' locations' hread
    have hnone : (parse "a" linked.print).toOption.isSome = false := by decide +kernel
    rw [hread] at hnone
    cases hnone

end ProtoSchema
