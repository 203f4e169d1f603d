import ProtoSchema.Proofs.Link.References

/-!
Two searches for a full name. The linker looks through the file and the files that it sees, those
who look at the result search the file and all that it depends on, nearest first. The two find the
same declaration where no two of these files declare the same name, and can differ where two do.
-/

namespace ProtoSchema

open Relation LinkedFile List Option

variable {d : Declared} {fullName : String}

/-! ## Searches that tell where they end -/

section Searches

variable {α β : Type} {xs : List α} {f : α → Option β} {b : β}

private theorem exists_findSome?_pair (h : xs.findSome? f = some b) :
    ∃ x ∈ xs, xs.findSome? (fun y => (f y).map (y, ·)) = some (x, b) := by
  induction xs with
  | nil => cases h
  | cons x xs ih =>
    rw [findSome?_cons] at h
    cases hx : f x with
    | some c =>
      rw [hx] at h
      cases h
      exact ⟨x, mem_cons_self, by simp [hx]⟩
    | none =>
      rw [hx] at h
      obtain ⟨y, hy, hpair⟩ := ih h
      exact ⟨y, mem_cons_of_mem x hy, by simpa [hx] using hpair⟩

private theorem findSome?_pair_of_only {x : α} (hx : x ∈ xs) (hb : f x = some b)
    (honly : ∀ y ∈ xs, (f y).isSome → y = x) :
    xs.findSome? (fun y => (f y).map (y, ·)) = some (x, b) := by
  have hsome : (xs.findSome? f).isSome = true :=
    findSome?_isSome_iff.mpr ⟨x, hx, by simp [hb]⟩
  obtain ⟨c, hc⟩ := isSome_iff_exists.mp hsome
  obtain ⟨y, hy, hpair⟩ := exists_findSome?_pair hc
  obtain ⟨z, _, hz⟩ := exists_of_findSome?_eq_some hpair
  obtain ⟨c', hc', heq⟩ := map_eq_some_iff.mp hz
  cases heq
  obtain rfl := honly y hy (by simp [hc'])
  rw [hpair, Option.some.inj (hc'.symm.trans hb)]

end Searches

/-! ## What the linker binds a name to -/

/-- The declaration that linking binds a full name to, and the file that it stands in. -/
def LinkedFile.origin? (l : LinkedFile) (fullName : String) : Option (LinkedFile × Declared) :=
  (l :: visible l.dependencies).findSome? fun g =>
    (Declared.find? g.declared fullName).map (g, ·)

theorem Name.bare_dot (name : String) : Name.bare ("." ++ name) = name := by
  simp [bare, absolute?]

variable {scope : Scope} {place : String} {ds : List Declared} {l : LinkedFile} {f : Field}

theorem Scope.lookup?_of_resolve? {name : String} (h : scope.resolve? place name = some d) :
    scope.lookup? d.fullName = some d := by
  obtain ⟨fullName, hfound, _⟩ := exists_lookup?_of_resolve? h
  have hname : d.fullName = fullName := of_decide_eq_true (find?_some hfound :)
  rwa [hname]

/-- Linking moves no declaration, so that a search ends at the same place before and after. -/
theorem Declared.find?_linksTo {dialect : Dialect} {es : List Declared}
    (h : List.Forall₂ (LinksTo scope dialect place) ds es) (fullName : String) :
    (find? ds fullName = none ∧ find? es fullName = none) ∨
      ∃ d e, find? ds fullName = some d ∧ find? es fullName = some e ∧
        d.LinksTo scope dialect place e := by
  induction h with
  | nil => exact .inl ⟨rfl, rfl⟩
  | @cons d e ds es hde _ ih =>
    simp only [find?, find?_cons, hde.fullName_eq]
    by_cases hname : d.fullName = fullName
    · simp only [hname, decide_true]
      exact .inr ⟨d, e, rfl, rfl, hde⟩
    · simp only [hname, decide_false]
      exact ih

section Bound

variable {file : File} {dependencies : List LinkedFile} {l : LinkedFile}

theorem linksTo_declared (h : link file dependencies = .ok l) :
    List.Forall₂ (Declared.LinksTo (file.names dependencies) file.dialect file.scope) file.declared
      l.declared := by
  rw [LinkedFile.declared, ← File.placed_map_snd, ← File.placed_map_snd,
    forall₂_map_left_iff, forall₂_map_right_iff]
  exact (linksTo_of_link h).1.declared.imp fun _ _ hxy => hxy.2

/-- A name that is bound has an origin, of the same name and kind. -/
theorem exists_origin? (h : link file dependencies = .ok l)
    (hd : (file.names dependencies).lookup? fullName = some d) :
    ∃ g e, l.origin? fullName = some (g, e) ∧ e.fullName = d.fullName ∧ e.kind = d.kind := by
  have hdeps := (linksTo_of_link h).2
  rw [Scope.lookup?, File.names, Scope.ofFile, Declared.find?, find?_append] at hd
  rw [LinkedFile.origin?, findSome?_cons, hdeps]
  rcases Declared.find?_linksTo (linksTo_declared h) fullName with
    ⟨hfile, hl⟩ | ⟨d', e, hfile, hl, hde⟩
  · rw [Declared.find?] at hfile
    rw [hfile, none_or, find?_flatMap] at hd
    obtain ⟨g, _, hg⟩ := exists_findSome?_pair hd
    rw [hl]
    exact ⟨g, d, hg, rfl, rfl⟩
  · rw [Declared.find?] at hfile
    rw [hfile, some_or] at hd
    cases hd
    rw [hl]
    exact ⟨l, e, rfl, hde.fullName_eq, hde.kind_eq⟩

end Bound

/-! ## What a search finds -/

/-- No two files that a linked file reaches declare the same full name, itself counted. -/
def LinkedFile.NamesApart (l : LinkedFile) : Prop :=
  ∀ g h, ReflTransGen Imports l g → ReflTransGen Imports l h →
    ∀ d ∈ g.declared, ∀ e ∈ h.declared, d.fullName = e.fullName → g = h

theorem Declared.mem_of_find? (h : find? ds fullName = some d) : d ∈ ds ∧ d.fullName = fullName :=
  ⟨mem_of_find?_eq_some h, of_decide_eq_true (find?_some h :)⟩

/-- The search through all dependencies ends where the linker's search did. -/
theorem LinkedFile.find?_eq_origin? {g : LinkedFile} (hl : l.Coherent) (hapart : l.NamesApart)
    (h : l.origin? fullName = some (g, d)) : l.find? ("." ++ fullName) = some (g, d) := by
  obtain ⟨_, hg, hpair⟩ := exists_of_findSome?_eq_some h
  obtain ⟨_, hd, heq⟩ := map_eq_some_iff.mp hpair
  cases heq
  have hreached : ∀ k ∈ l :: l.transitiveDependencies, ReflTransGen Imports l k := by
    intro k hk
    rcases mem_cons.mp hk with rfl | hk
    · exact .refl
    · exact (reached_of_mem_transitiveDependencies hk).to_reflTransGen
  have hmem : g ∈ l :: l.transitiveDependencies := by
    rcases mem_cons.mp hg with rfl | hg
    · exact mem_cons_self
    · have hsees := (sees_of_mem_visible hg).reached
      exact mem_cons_of_mem l (mem_transitiveDependencies hl hsees)
  simp only [LinkedFile.find?, get?_eq_find?, Name.bare_dot]
  apply findSome?_pair_of_only hmem hd
  intro k hk hsome
  obtain ⟨e, he⟩ := isSome_iff_exists.mp hsome
  obtain ⟨hdg, hname⟩ := Declared.mem_of_find? hd
  obtain ⟨hek, hname'⟩ := Declared.mem_of_find? he
  exact hapart k g (hreached k hk) (hreached g hmem) e hek d hdg (hname'.trans hname.symm)

/-! ## The types of fields -/

def LinkedFile.HasField (l : LinkedFile) (f : Field) : Prop :=
  (∃ path fullName m, l.file.Holds path ⟨fullName, .message m⟩ ∧ f ∈ m.fields ++ m.extensions) ∨
    f ∈ l.file.extensions

theorem Field.exists_resolve?_of_link {g : Field} (hgiven : f.TypeGiven)
    (h : f.link scope place = .ok g) (htype : g.type = some .message ∨ g.type = some .enum) :
    ∃ name d, scope.resolve? place name = some d ∧ g.typeName = some ("." ++ d.fullName) ∧
      d.kind.fieldType? = g.type := by
  rcases hgiven.link_cases h with ⟨type, hscalar, href, rfl⟩ | ⟨name, d, t, _, hd, hkind, rfl⟩
  · rw [(TypeRef.mk.inj href).1] at htype
    rcases htype with ⟨⟨⟩⟩ | ⟨⟨⟩⟩ <;> exact absurd hscalar (by decide)
  · exact ⟨name, d, hd, rfl, hkind⟩

theorem exists_resolve?_of_hasField {path source : String} {file : File} {locations : List Location}
    {dependencies : List LinkedFile} (hparse : parse path source = .ok (file, locations))
    (hlink : link file dependencies = .ok l) (hf : l.HasField f)
    (htype : f.type = some .message ∨ f.type = some .enum) :
    ∃ place name d, (file.names dependencies).resolve? place name = some d ∧
      f.typeName = some ("." ++ d.fullName) ∧ d.kind.fieldType? = f.type := by
  have hwritten := written_of_parse hparse
  obtain ⟨hlinks, _⟩ := linksTo_of_link hlink
  have hextension : ∀ place (f₀ : Field), f₀.TypeGiven →
      f₀.linkExtension (file.names dependencies) place = .ok f → ∃ name d,
      (file.names dependencies).resolve? place name = some d ∧
        f.typeName = some ("." ++ d.fullName) ∧ d.kind.fieldType? = f.type := by
    intro place f₀ hgiven hext
    obtain ⟨_, e, _, _, hfield⟩ := Field.linkExtension_eq_ok_iff.mp hext
    have hgiven' : { f₀ with extendee := some ("." ++ e.fullName) }.TypeGiven := hgiven
    exact Field.exists_resolve?_of_link hgiven' hfield htype
  rcases hf with ⟨p, fullName, n, hn, hf⟩ | hf
  · obtain ⟨d, hd, hdn⟩ := hlinks.exists_holds_left hn
    cases hdn with
    | message h =>
      obtain ⟨hfields, hextensions⟩ := (hwritten.given hd).typesGiven
      rcases mem_append.mp hf with hf | hf
      · obtain ⟨f₀, hf₀, hfield⟩ := exists_mem_of_forall₂ h.fields hf
        exact ⟨fullName, Field.exists_resolve?_of_link (hfields f₀ hf₀) hfield htype⟩
      · obtain ⟨f₀, hf₀, hext⟩ := exists_mem_of_forall₂ h.extensions hf
        exact ⟨fullName, hextension fullName f₀ (hextensions f₀ hf₀) hext⟩
  · obtain ⟨f₀, hf₀, hext⟩ := exists_mem_of_forall₂ hlinks.extensions hf
    exact ⟨file.scope, hextension _ f₀ (hwritten.extensions f₀ hf₀).head.typeGiven hext⟩

/-- Where the names in the import graph tell its files apart and no two of them declare the same
full name, a search for the type of a field finds the declaration that the linker bound it to, and
its kind is the type of the field. -/
theorem find?_typeName_eq_origin? {path source : String} {file : File} {locations : List Location}
    {dependencies : List LinkedFile} {l : LinkedFile} {f : Field}
    (hparse : parse path source = .ok (file, locations)) (hlink : link file dependencies = .ok l)
    (hcoherent : l.Coherent) (hapart : l.NamesApart) (hf : l.HasField f)
    (htype : f.type = some .message ∨ f.type = some .enum) :
    ∃ place name d₀ g d, (file.names dependencies).resolve? place name = some d₀ ∧
      l.origin? d₀.fullName = some (g, d) ∧ d.fullName = d₀.fullName ∧ d.kind = d₀.kind ∧
      f.typeName = some ("." ++ d.fullName) ∧ l.find? ("." ++ d.fullName) = some (g, d) ∧
      d.kind.fieldType? = f.type := by
  obtain ⟨place, name, d₀, hd₀, htypeName, hkind⟩ :=
    exists_resolve?_of_hasField hparse hlink hf htype
  obtain ⟨g, d, horigin, hfullName, hsame⟩ :=
    exists_origin? hlink (Scope.lookup?_of_resolve? hd₀)
  refine ⟨place, name, d₀, g, d, hd₀, horigin, hfullName, hsame, ?_, ?_, ?_⟩
  · rw [hfullName, htypeName]
  · rw [hfullName]
    exact LinkedFile.find?_eq_origin? hcoherent hapart horigin
  · rw [hsame, hkind]

theorem find?_typeName_eq_origin?_imported :
    ∃ g file locations l f, MadeOf "g" "message X\x7b\x7d" [] g ∧
      parse "a" "import 'g';message M\x7boptional X x=1;\x7d" = .ok (file, locations) ∧
      link file [g] = .ok l ∧ l.Coherent ∧ l.NamesApart ∧ l.HasField f ∧ f.type = some .message ∧
      ∃ place name d₀ h d, (file.names [g]).resolve? place name = some d₀ ∧
        l.origin? d₀.fullName = some (h, d) ∧ d.fullName = d₀.fullName ∧ d.kind = d₀.kind ∧
        f.typeName = some ("." ++ d.fullName) ∧ l.find? ("." ++ d.fullName) = some (h, d) ∧
        d.kind.fieldType? = f.type := by
  have hmade : ((make? "g" "message X\x7b\x7d" []).bind fun g =>
      (make? "a" "import 'g';message M\x7boptional X x=1;\x7d" [g]).bind fun l =>
      some (l.file.messages.map fun m => m.fields.map Field.type, g.name, l.name,
        g.declared.map Declared.fullName, l.declared.map Declared.fullName)) =
      some ([[some .message]], "g", "a", ["X"], ["M"]) := by
    decide +kernel
  simp only [Option.bind_eq_some_iff, make?_eq_some_iff, Option.some.injEq, Prod.mk.injEq] at hmade
  obtain ⟨g, hg, l, hl, hfields, hgname, hlname, hgdeclared, hldeclared⟩ := hmade
  obtain ⟨file, locations, hparse, hlink⟩ := hl
  obtain ⟨_, _, _, hglink⟩ := hg
  have hgdeps : g.dependencies = [] := (linksTo_of_link hglink).2
  have hldeps : l.dependencies = [g] := (linksTo_of_link hlink).2
  have hreached : ∀ k, ReflTransGen Imports l k → k = l ∨ k = g := by
    intro k hk
    induction hk with
    | refl => exact .inl rfl
    | tail _ hstep ih =>
      unfold Imports at hstep
      rcases ih with rfl | rfl
      · rw [hldeps] at hstep
        exact .inr (List.mem_singleton.mp hstep)
      · rw [hgdeps] at hstep
        cases hstep
  have hcoherent : l.Coherent := by
    intro h k hh hk hname
    rcases hreached h hh with rfl | rfl <;> rcases hreached k hk with rfl | rfl <;>
      first | rfl | simp [hgname, hlname] at hname
  have hapart : l.NamesApart := by
    intro h k hh hk d hd e he hname
    have hd' := List.mem_map_of_mem (f := Declared.fullName) hd
    have he' := List.mem_map_of_mem (f := Declared.fullName) he
    rcases hreached h hh with rfl | rfl <;> rcases hreached k hk with rfl | rfl <;>
      first | rfl | simp [hgdeclared, hldeclared, hname] at hd' he'; simp [hd'] at he'
  obtain ⟨m, ms, hmessages, hm, _⟩ := List.map_eq_cons_iff.mp hfields
  obtain ⟨f, fs, hf, htype, _⟩ := List.map_eq_cons_iff.mp hm
  have hholds : l.file.Holds [.message 0] ⟨_, .message m⟩ :=
    .message (by rw [hmessages]; rfl) (.self _ m)
  have hfield : l.HasField f := .inl ⟨_, _, m, hholds, by simp [hf]⟩
  exact ⟨g, file, locations, l, f, ⟨_, _, ‹_›, hglink⟩, hparse, hlink, hcoherent, hapart, hfield,
    htype, find?_typeName_eq_origin? hparse hlink hcoherent hapart hfield (.inl htype)⟩

/-! ## Names that are declared twice -/

def LinkedFile.summary (found : Option (LinkedFile × Declared)) : Option (String × Kind) :=
  found.map fun r => (r.1.name, r.2.kind)

/-- A name may be declared in two files that are both seen, if neither of them sees the other. Then
the linker can bind it to the message of one file where a search finds the enum of the other. -/
theorem find?_typeName_ne_origin? :
    ∃ g b c a, MadeOf "g" "message X\x7b\x7d" [] g ∧ MadeOf "b" "import public 'g';" [g] b ∧
      MadeOf "c" "enum X\x7bA=0;\x7d" [] c ∧
      MadeOf "a" "import 'b';import 'c';message M\x7boptional X x=1;\x7d" [b, c] a ∧
      (∃ f, a.HasField f ∧ f.type = some .message ∧ f.typeName = some ".X") ∧
      summary (a.origin? "X") = some ("g", .message) ∧
      summary (a.find? ".X") = some ("c", .enum) := by
  have hmade : ((make? "g" "message X\x7b\x7d" []).bind fun g =>
      (make? "b" "import public 'g';" [g]).bind fun b =>
      (make? "c" "enum X\x7bA=0;\x7d" []).bind fun c =>
      (make? "a" "import 'b';import 'c';message M\x7boptional X x=1;\x7d" [b, c]).bind fun a =>
      some (a.file.messages.map fun m => m.fields.map Field.typeRef, summary (a.origin? "X"),
        summary (a.find? ".X"))) =
      some ([[⟨some .message, some ".X"⟩]], some ("g", .message), some ("c", .enum)) := by
    decide +kernel
  simp only [Option.bind_eq_some_iff, make?_eq_some_iff, Option.some.injEq, Prod.mk.injEq] at hmade
  obtain ⟨g, hg, b, hb, c, hc, a, ha, hfields, horigin, hfind⟩ := hmade
  refine ⟨g, b, c, a, hg, hb, hc, ha, ?_, horigin, hfind⟩
  obtain ⟨m, ms, hmessages, hm, _⟩ := List.map_eq_cons_iff.mp hfields
  obtain ⟨f, fs, hf, href, _⟩ := List.map_eq_cons_iff.mp hm
  have hholds : a.file.Holds [.message 0] ⟨_, .message m⟩ :=
    .message (by rw [hmessages]; rfl) (.self _ m)
  obtain ⟨htype, hname⟩ := TypeRef.mk.inj href
  exact ⟨f, .inl ⟨_, _, m, hholds, by simp [hf]⟩, htype, hname⟩

end ProtoSchema
