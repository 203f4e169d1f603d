import ProtoSchema.Proofs.Grammar.Message
import ProtoSchema.Proofs.Link.Place

/-!
Whole messages, read again from their lines. A pair type is not printed: it comes back with its map
field, at its place among the nested messages, because the fields up to the map field are printed
where the pair type stood.
-/

namespace ProtoSchema

open Scan List FieldGroup

variable {m n raw : Message}

theorem Options.signed_append {options options' : Options} :
    Signed (options ++ options') ↔ options.Signed ∧ options'.Signed :=
  forall_mem_append

theorem Options.signed_flatMap {α : Type} {xs : List α} {options : α → Options} :
    Signed (xs.flatMap options) ↔ ∀ x ∈ xs, (options x).Signed := by
  simp only [Signed, forall_mem_flatMap]

namespace Message

/-- All that is set in a message outside the messages nested in it. -/
def settings (m : Message) : Options :=
  m.options ++ (m.fields ++ m.extensions).flatMap Field.options ++ m.oneofs.flatMap Oneof.options ++
    m.extensionRanges.flatMap ExtensionRange.options ++ m.enums.flatMap Enum.settings

mutual

def within : Message → List Message
  | m@⟨_, _, _, nested, _, _, _, _, _, _⟩ => m :: withinAll nested

def withinAll : List Message → List Message
  | [] => []
  | m :: ms => m.within ++ withinAll ms

end

theorem within_eq (m : Message) : m.within = m :: withinAll m.nested := by
  cases m
  rw [within]

theorem mem_within_iff : n ∈ m.within ↔ n = m ∨ ∃ k ∈ m.nested, n ∈ k.within := by
  rw [within_eq, mem_cons]
  refine or_congr_right ?_
  induction m.nested with
  | nil => simp [withinAll]
  | cons k ks ih => simp [withinAll, ih]

theorem mem_within_self (m : Message) : m ∈ m.within :=
  mem_within_iff.mpr (.inl rfl)

theorem mem_within_of_nested {n' : Message} (hn : n ∈ m.nested) (hn' : n' ∈ n.within) :
    n' ∈ m.within :=
  mem_within_iff.mpr (.inr ⟨n, hn, hn'⟩)

/-- What holds of a message and is passed on to the messages nested in one holds at any depth. -/
theorem forall_mem_within {P : Message → Prop} (hnested : ∀ m, P m → ∀ n ∈ m.nested, P n)
    (m : Message) (hm : P m) : ∀ k ∈ m.within, P k := by
  induction m using nestedInduction with
  | h m ih =>
  intro k hk
  rcases mem_within_iff.mp hk with rfl | ⟨n, hn, hk⟩
  · exact hm
  · exact ih n hn (hnested m hm n hn) k hk

theorem mem_within_trans {k : Message} (hn : n ∈ m.within) (hk : k ∈ n.within) : k ∈ m.within := by
  have hall := forall_mem_within (P := fun n => ∀ k ∈ n.within, k ∈ m.within)
    (fun n hn k hk k' hk' => hn k' (mem_within_of_nested hk hk')) m fun k hk => hk
  exact hall n hn k hk

theorem Holds.mem_within {place fullName : String} {path : List Step}
    (h : m.Holds place path ⟨fullName, .message n⟩) : n ∈ m.within := by
  generalize hd : (⟨fullName, .message n⟩ : ProtoSchema.Declared) = d at h
  induction h with
  | self place m =>
    cases hd
    exact n.mem_within_self
  | nested hi _ ih => exact mem_within_of_nested (mem_of_getElem? hi) (ih hd)
  | enum => cases hd

section Given

variable {dialect : Dialect} {budget : Nat}

theorem Written.exists_declared (h : m.Written dialect budget) :
    ∃ (raw : Message) (budget : Nat) (gs : List FieldGroup),
      raw.Declared dialect (Written dialect budget) gs ∧ m = raw.withSyntheticOneofs := by
  cases budget with
  | zero => exact absurd h id
  | succ budget =>
    obtain ⟨raw, gs, h⟩ := h
    exact ⟨raw, budget, gs, h⟩

/-- A message that was read, with messages nested at most `budget` deep, or made for a map field. -/
def Given (dialect : Dialect) (m : Message) : Prop :=
  (∃ budget, m.Written dialect budget) ∨ ∃ name, PairType name m

/-- What is nested in a message that was given was given as well. -/
theorem Given.nested (h : m.Given dialect) (hn : n ∈ m.nested) : n.Given dialect := by
  rcases h with ⟨_, hm⟩ | ⟨name, _, key, value, _, _, rfl⟩
  · obtain ⟨raw, budget, gs, hraw, rfl⟩ := hm.exists_declared
    rw [nested_withSyntheticOneofs] at hn
    exact (hraw.nested n hn).imp_left fun hn => ⟨budget, hn⟩
  · exact absurd hn not_mem_nil

theorem Written.given (h : m.Written dialect budget) (hn : n ∈ m.within) : n.Given dialect :=
  forall_mem_within (fun _ hm _ hn => hm.nested hn) m (.inl ⟨budget, h⟩) n hn

end Given

/-! ## Fields and pair types -/

namespace Grouped

variable {gs : List FieldGroup} {g : FieldGroup} {f : Field}

theorem exists_mem_group (h : m.Grouped gs) (hf : f ∈ m.fields) :
    ∃ g ∈ gs, ∃ f₀ ∈ g.fields, f₀.unplaced = f.unplaced :=
  exists_mem_of_map_unplaced h.unplaced hf

theorem exists_mem_fields (h : m.Grouped gs) (hg : g ∈ gs) (hf : f ∈ g.fields) :
    ∃ f' ∈ m.fields, f'.unplaced = f.unplaced := by
  have hmem : f.unplaced ∈ m.fields.map Field.unplaced := by
    rw [h.unplaced]
    exact mem_map_of_mem (mem_flatMap.mpr ⟨g, hg, hf⟩)
  exact mem_map.mp hmem

theorem exists_mem_oneofs {name : String} {options : Options} {members : List Field}
    (h : m.Grouped gs) (hg : .oneof name options members ∈ gs) :
    ∃ o ∈ m.oneofs, o.options = options := by
  obtain ⟨pre, post, rfl⟩ := append_of_mem hg
  have hat := (prefix_placeAll (pre ++ [.oneof name options members]) post).2
  rw [append_assoc, singleton_append, placeAll_concat] at hat
  have hmem := mem_of_getElem? (getElem?_of_append_cons (hat.trans h.oneofs))
  exact ⟨_, hmem, rfl⟩

end Grouped

end Message

variable {name : String} {dialect : Dialect} {nested : List Message}

theorem IsIdentifier.isWordChar (h : IsIdentifier name) :
    ∀ c ∈ name.toList, Scan.isWordChar c = true := by
  obtain ⟨c, cs, hname, hc, hcs⟩ := h
  rw [hname, forall_mem_cons]
  exact ⟨by simp [Scan.isWordChar, hc], hcs⟩

theorem IsIdentifier.notMem {c : Char} (h : IsIdentifier name) (hc : Scan.isWordChar c = false) :
    c ∉ name.toList :=
  fun hmem => Bool.false_ne_true (hc ▸ h.isWordChar c hmem)

theorem IsIdentifier.dot_notMem (h : IsIdentifier name) : '.' ∉ name.toList :=
  h.notMem rfl

theorem FieldGroup.Written.field {g : FieldGroup} {f : Field} (h : g.Written dialect nested)
    (hf : f ∈ g.fields) : f.Written dialect := by
  cases h with
  | plain hw => exact mem_singleton.mp hf ▸ hw
  | map hw => exact mem_singleton.mp hf ▸ hw
  | oneof _ _ _ hmembers => exact (hmembers f hf).written

theorem PairType.isMapEntry {entry : Message} (h : PairType name entry) :
    entry.isMapEntry = true := by
  obtain ⟨_, key, value, _, _, rfl⟩ := h
  rfl

namespace Field

variable {dialect : Dialect} {inOneof : Bool} {ok : Word → Prop} {f : Field} {entry : Message}

/-- A field that could be read as a plain one is a map if it has the form of one. -/
theorem Headed.isMap (h : f.Headed dialect inOneof ok) (hmap : f.DeclaresMap entry) : f.IsMap := by
  obtain ⟨label, hlabel⟩ := h.label
  obtain ⟨v, htype, _⟩ := h.type
  have hsome : label = some .repeated := by
    have hkept := hlabel.kept
    rw [hmap.label] at hkept
    cases label with
    | none => cases hkept
    | some l => exact congrArg some hkept.symm
  have htypeRef : f.typeRef = { typeName := some (mapEntryName f.name) } := by
    generalize htr : f.typeRef = type at htype ⊢
    have hname : type.typeName = some (mapEntryName f.name) := by
      rw [← htr]
      exact hmap.typeName
    cases htype with
    | scalar => cases hname
    | named => rw [← hname]
  exact ⟨hmap.label, htypeRef, by rw [hlabel.marked, hsome]; rfl⟩

theorem IsMap.declaresMap (h : f.IsMap) (hpair : PairType f.name entry) : f.DeclaresMap entry := by
  obtain ⟨_, key, value, _, _, hentry⟩ := hpair
  exact ⟨h.label, (TypeRef.mk.inj h.type).2, key, value, hentry⟩

theorem DeclaresMap.congr {g : Field} (h : f.DeclaresMap entry) (hsame : f.unplaced = g.unplaced) :
    g.DeclaresMap entry := by
  have hmap : f.unplaced.DeclaresMap entry := ⟨h.label, h.typeName, h.entry⟩
  rw [hsame] at hmap
  exact ⟨hmap.label, hmap.typeName, hmap.entry⟩

theorem Member.entryIn?_eq_none (h : f.Member dialect) (nested : List Message) :
    f.entryIn? nested = none := by
  obtain ⟨label, hlabel⟩ := h.head.label
  have hoptional : f.label = .optional := by
    rw [hlabel.kept, hlabel.outside rfl]
    rfl
  exact find?_eq_none.mpr fun m _ => by simp [ownsEntry, isRepeated, hoptional]

end Field

namespace Message

variable {dialect : Dialect} {budget : Nat} {gs : List FieldGroup} {f : Field} {entry : Message}

theorem Written.exists_typeRef (h : m.Written dialect budget) (hf : f ∈ m.fields)
    (hlabel : f.label ≠ .repeated) : ∃ v, TypeRef.Written v f.typeRef := by
  obtain ⟨raw, _, gs, hraw, rfl⟩ := h.exists_declared
  have hgrouped := grouped_withSyntheticOneofs hraw.fields hraw.oneofs
  obtain ⟨g, hg, f₀, hf₀, hsame⟩ := hgrouped.exists_mem_group hf
  have htype : f₀.typeRef = f.typeRef := (congrArg Field.typeRef hsame :)
  have hlabel₀ : f₀.label = f.label := (congrArg Field.label hsame :)
  rw [← htype]
  cases hraw.groups g hg with
  | plain _ _ hhead =>
    obtain rfl := mem_singleton.mp hf₀
    obtain ⟨v, hv, _⟩ := hhead.type
    exact ⟨v, hv⟩
  | map _ _ hmap =>
    obtain rfl := mem_singleton.mp hf₀
    exact absurd (hlabel₀.symm.trans hmap.label) hlabel
  | oneof _ _ _ hmembers =>
    obtain ⟨v, hv, _⟩ := (hmembers f₀ hf₀).head.type
    exact ⟨v, hv⟩

/-- A pair type has types that can be read, also if it was declared as a message. -/
theorem pairType_of_declaresMap (h : entry.Written dialect budget ∨ ∃ name, PairType name entry)
    (hname : IsIdentifier f.name) (hmap : f.DeclaresMap entry) : PairType f.name entry := by
  have htypes : ∀ f ∈ entry.fields, f.label ≠ .repeated → ∃ v, TypeRef.Written v f.typeRef := by
    intro f hf hlabel
    rcases h with h | ⟨name, _, key, value, hkey, hvalue, rfl⟩
    · exact h.exists_typeRef hf hlabel
    · simp only [mapEntry, mem_cons, not_mem_nil, or_false] at hf
      rcases hf with rfl | rfl
      · exact hkey
      · exact hvalue
  obtain ⟨key, value, rfl⟩ := hmap.entry
  simp only [mapEntry, forall_mem_cons] at htypes
  exact ⟨hname, key, value, htypes.1 (by simp), htypes.2.1 (by simp), rfl⟩

theorem Declared.isIdentifier_names {allowed : Message → Prop} {fs : List Field}
    (h : raw.Declared dialect allowed gs)
    (hfs : fs.map Field.unplaced = (gs.flatMap FieldGroup.fields).map Field.unplaced) :
    ∀ f ∈ fs, IsIdentifier f.name := by
  intro f hf
  obtain ⟨g, hg, f₀, hf₀, hsame⟩ := exists_mem_of_map_unplaced hfs hf
  have hname : f₀.name = f.name := (congrArg Field.name hsame :)
  exact hname ▸ ((h.groups g hg).field hf₀).name

theorem Declared.dot_notMem_names {allowed : Message → Prop} (h : raw.Declared dialect allowed gs) :
    ∀ f ∈ raw.withSyntheticOneofs.fields, '.' ∉ f.name.toList :=
  fun f hf => (h.isIdentifier_names
    (grouped_withSyntheticOneofs h.fields h.oneofs).unplaced f hf).dot_notMem

/-- Every group of fields of a message is printed as it was declared. -/
theorem Declared.printable (h : raw.Declared dialect (Written dialect budget) gs)
    (hmaps : raw.withSyntheticOneofs.OwnMaps)
    (hs : Options.Signed raw.withSyntheticOneofs.settings) :
    ∀ g ∈ gs, g.Printable dialect raw.withSyntheticOneofs.nested := by
  have hgrouped := grouped_withSyntheticOneofs h.fields h.oneofs
  simp only [settings, Options.signed_append, Options.signed_flatMap, forall_mem_append] at hs
  obtain ⟨⟨⟨⟨_, hfields, _⟩, honeofs⟩, _⟩, _⟩ := hs
  have hsigned : ∀ g ∈ gs, ∀ f ∈ g.fields, Options.Signed f.options := by
    intro g hg f hf
    obtain ⟨f', hf', hsame⟩ := hgrouped.exists_mem_fields hg hf
    have hoptions : f'.options = f.options := (congrArg Field.options hsame :)
    exact hoptions ▸ hfields f' hf'
  have hnames := h.dot_notMem_names
  intro g hg
  have hg' := h.groups g hg
  rw [← nested_withSyntheticOneofs] at hg'
  cases hg' with
  | @plain f hf hext hhead =>
    have hin : f ∈ (FieldGroup.single f).fields := mem_singleton_self f
    have hs := hsigned _ hg f hin
    cases hentry : f.entryIn? raw.withSyntheticOneofs.nested with
    | none => exact .plain hf hext hhead hs hentry
    | some entry =>
      obtain ⟨f', hf', hsame⟩ := hgrouped.exists_mem_fields hg hin
      have hentry' : f'.entryIn? raw.withSyntheticOneofs.nested = some entry :=
        (congrArg (Field.entryIn? · _) hsame :).trans hentry
      have hmap := (hmaps.declaresMap_of_entryIn? hnames hf' hentry').congr hsame
      have hin : entry ∈ raw.nested := by
        rw [← nested_withSyntheticOneofs]
        exact (OwnMaps.mem_pairTypes.mp (OwnMaps.mem_of_entryIn? hentry).1).1
      exact .map hf hext (hhead.isMap hmap) hs hentry
        (pairType_of_declaresMap (h.nested _ hin) hf.name hmap)
  | @map f entry hf hext hmap hin hpair =>
    have hmade := hmap.declaresMap hpair
    have hentry := hmaps.entryIn?_eq_some (OwnMaps.mem_pairTypes.mpr ⟨hin, hpair.isMapEntry⟩)
      (hmade.ownsEntry hf.name.dot_notMem)
    exact .map hf hext hmap (hsigned _ hg f (mem_singleton_self f)) hentry hpair
  | @oneof name options members hname hoptions hne hmembers =>
    obtain ⟨o, ho, rfl⟩ := hgrouped.exists_mem_oneofs hg
    refine .oneof hname hoptions (honeofs o ho) hne fun f hf => ?_
    exact ⟨hmembers f hf, hsigned _ hg f hf, (hmembers f hf).entryIn?_eq_none _⟩

/-- The pair type of a map field is placed by the index of the field. -/
theorem Grouped.entryOwner?_eq {pre post : List FieldGroup}
    (h : m.Grouped (pre ++ .single f :: post)) (hown : m.OwnMaps)
    (hentry : f.entryIn? m.nested = some entry) :
    m.entryOwner? entry = some (pre.flatMap FieldGroup.fields).length := by
  have hunplaced := h.unplaced
  rw [flatMap_append, map_append, flatMap_cons] at hunplaced
  obtain ⟨xs, ys, hfields, hxs, hys⟩ := map_eq_append_iff.mp hunplaced
  obtain ⟨f', zs, rfl, hsame, _⟩ := map_eq_cons_iff.mp hys
  obtain ⟨hin, howns⟩ := OwnMaps.mem_of_entryIn? hentry
  have howns' : f'.ownsEntry entry = true :=
    (congrArg (Field.ownsEntry · entry) hsame :).trans howns
  rw [hown.entryOwner?_eq hin hfields howns']
  simpa using congrArg List.length hxs

end Message

theorem FieldGroup.filterMap_pairType? {gs : List FieldGroup}
    (h : ∀ g ∈ gs, g.Printable dialect nested) :
    (gs.flatMap fields).filterMap (fun f => f.entryIn? nested) =
      gs.filterMap (pairType? nested) := by
  induction gs with
  | nil => rfl
  | cons g gs ih =>
    have hone : g.fields.filterMap (fun f => f.entryIn? nested) = (g.pairType? nested).toList := by
      cases h g (by simp) with
      | plain _ _ _ _ hentry => simp [fields, pairType?, hentry]
      | map _ _ _ _ hentry => simp [fields, pairType?, hentry]
      | oneof _ _ _ _ hmembers =>
        exact filterMap_eq_nil_iff.mpr fun f hf => (hmembers f hf).2.2
    rw [flatMap_cons, filterMap_append, hone, ih fun g' hg' => h g' (by simp [hg'])]
    cases hg : g.pairType? nested <;> simp [hg]

namespace Message

variable {dialect : Dialect} {budget : Nat} {gs : List FieldGroup}

/-- The pair types that come with the groups of fields are those of the message. -/
theorem Grouped.filterMap_pairType? (h : m.Grouped gs) (hown : m.OwnMaps)
    (hprint : ∀ g ∈ gs, g.Printable dialect m.nested)
    (hnames : ∀ f ∈ m.fields, '.' ∉ f.name.toList) :
    gs.filterMap (FieldGroup.pairType? m.nested) = m.nested.filter isMapEntry := by
  have hunplaced := congrArg (List.filterMap fun f => f.entryIn? m.nested) h.unplaced
  rw [filterMap_map, filterMap_map] at hunplaced
  have hfields : m.fields.filterMap (fun f => f.entryIn? m.nested) =
      (gs.flatMap FieldGroup.fields).filterMap (fun f => f.entryIn? m.nested) := hunplaced
  rw [← FieldGroup.filterMap_pairType? hprint, ← hfields]
  exact hown.filterMap_entryIn? hnames

/-! ## Nested messages between the fields -/

/-- The message with the fields of the given groups and the given nested messages. -/
def arrange (base : Message) (gs : List FieldGroup) (nested : List Message) : Message :=
  { base with
    fields := (FieldGroup.placeAll gs).1
    oneofs := (FieldGroup.placeAll gs).2
    nested := nested }

section Lines

open Production

variable {base : Message} {path : List Int} {inner : List Int → Production Message Message}

theorem arrange_addGroup (base : Message) (gs : List FieldGroup) (g : FieldGroup)
    (nested nested' : List Message) :
    { (base.arrange gs nested).addGroup g with nested := nested' } =
      base.arrange (gs ++ [g]) nested' := by
  rw [arrange, arrange, placeAll_concat]
  rfl

/-- Groups of fields are read from their lines, and their pair types come with them. -/
theorem runs_groups {mid : List FieldGroup} {siblings : List Message}
    (h : ∀ g ∈ mid, g.Printable dialect siblings) (pre : List FieldGroup) (done : List Message) :
    RunsInMessage dialect path inner (base.arrange pre done)
      (mid.flatMap (FieldGroup.lines siblings dialect))
      (base.arrange (pre ++ mid) (done ++ mid.filterMap (FieldGroup.pairType? siblings))) := by
  have hone : ∀ before, ∀ g ∈ mid, RunsInMessage dialect path inner
      (base.arrange (pre ++ before) (done ++ before.filterMap (FieldGroup.pairType? siblings)))
      (g.lines siblings dialect)
      (base.arrange (pre ++ (before ++ [g]))
        (done ++ (before ++ [g]).filterMap (FieldGroup.pairType? siblings))) := by
    intro before g hg
    have hentry : (before ++ [g]).filterMap (FieldGroup.pairType? siblings) =
        before.filterMap (FieldGroup.pairType? siblings) ++ (g.pairType? siblings).toList := by
      rw [filterMap_append]
      cases hg : g.pairType? siblings <;> simp [hg]
    rw [hentry, ← append_assoc, ← append_assoc, ← arrange_addGroup]
    exact (h g hg).runs _
  have hall := Runs.flatMap (fun before => base.arrange (pre ++ before)
    (done ++ before.filterMap (FieldGroup.pairType? siblings))) hone []
  rwa [append_nil, filterMap_nil, append_nil, nil_append] at hall

theorem runs_nestedLines (hgrouped : m.Grouped gs)
    (hprint : ∀ g ∈ gs, g.Printable dialect m.nested)
    (hinner : ∀ n ∈ m.nested, n.isMapEntry = false → ∀ s : Message,
      RunsInMessage dialect path inner s (n.lines dialect)
        { s with nested := s.nested ++ [n] })
    (howner : ∀ pre f post, gs = pre ++ .single f :: post → ∀ e, f.entryIn? m.nested = some e →
      m.entryOwner? e = some (pre.flatMap FieldGroup.fields).length)
    {ns done : List Message} {pre rest : List FieldGroup} (hgs : gs = pre ++ rest)
    (hns : m.nested = done ++ ns)
    (hentries : rest.filterMap (FieldGroup.pairType? m.nested) = ns.filter isMapEntry) :
    RunsInMessage dialect path inner (base.arrange pre done)
      (nestedLines dialect m ns (pre.flatMap FieldGroup.fields).length)
      (base.arrange gs m.nested) := by
  have hrest : ∀ {pre rest}, gs = pre ++ rest → ∀ g ∈ rest, g.Printable dialect m.nested :=
    fun hgs g hg => hprint g (by simp [hgs, hg])
  induction ns generalizing pre rest done with
  | nil =>
    have hlength : m.fields.length = ((pre ++ rest).flatMap FieldGroup.fields).length := by
      simpa [hgs] using congrArg List.length hgrouped.unplaced
    have hgroups : m.Grouped (pre ++ rest ++ []) := by rwa [append_nil, ← hgs]
    have hrun : RunsInMessage dialect path inner (base.arrange pre done) _ _ :=
      runs_groups (hrest hgs) pre done
    rw [nestedLines, hlength, hgroups.groupsUpTo_eq fun g hg => (hrest hgs g hg).proper]
    rwa [hentries, filter_nil, ← hgs, ← hns] at hrun
  | cons n ns ih =>
    rw [nestedLines]
    split
    · next hn =>
      -- The fields up to the map field of the pair type `n` are printed here.
      rw [filter_cons_of_pos hn] at hentries
      obtain ⟨mid, g, post, rfl, hmid, hg, hpost⟩ := filterMap_eq_cons_iff.mp hentries
      obtain ⟨f, rfl⟩ : ∃ f, g = .single f := by
        cases g with
        | single f => exact ⟨f, rfl⟩
        | oneof => cases hg
      have hgs' : gs = pre ++ (mid ++ [.single f]) ++ post := by simpa using hgs
      have hprint' : ∀ g ∈ mid ++ [.single f], g.Printable dialect m.nested := by
        intro g hg
        refine hrest hgs g ?_
        rw [append_cons]
        exact mem_append_left _ hg
      have hbound : ((pre ++ mid).flatMap FieldGroup.fields).length + 1 =
          ((pre ++ (mid ++ [FieldGroup.single f])).flatMap FieldGroup.fields).length := by
        simp [FieldGroup.fields, Nat.add_assoc]
      have hfound :
          (mid ++ [FieldGroup.single f]).filterMap (FieldGroup.pairType? m.nested) = [n] := by
        rw [filterMap_append, filterMap_eq_nil_iff.mpr hmid, nil_append]
        exact filterMap_cons_some hg
      have hrun : RunsInMessage dialect path inner
          (base.arrange pre done) _ _ := runs_groups hprint' pre done
      rw [hfound] at hrun
      simp only [howner (pre ++ mid) f post (by simpa using hgs) n hg]
      rw [hgs'] at hgrouped
      rw [hbound, hgrouped.groupsUpTo_eq fun g hg => (hprint' g hg).proper]
      exact hrun.append (ih hgs' (by simpa using hns) hpost)
    · next hn =>
      have hmem : n ∈ m.nested := by simp [hns]
      rw [filter_cons_of_neg hn] at hentries
      have hone : RunsInMessage dialect path inner (base.arrange pre done)
          (n.lines dialect) (base.arrange pre (done ++ [n])) :=
        hinner n hmem (by simpa using hn) (base.arrange pre done)
      exact hone.append (ih hgs (by simpa using hns) hentries)

/-- What stands behind the fields and the nested messages. -/
theorem runs_tailLines {allowed : Message → Prop} (h : raw.Declared dialect allowed gs)
    (hexts : ∀ f ∈ raw.extensions, Options.Signed f.options)
    (hranges : ∀ r ∈ raw.extensionRanges, Options.Signed r.options)
    (henums : ∀ e ∈ raw.enums, Options.Signed e.settings) :
    RunsInMessage dialect path inner
      (arrange { name := raw.name, options := raw.options } gs raw.nested)
      (raw.tailLines dialect) raw := by
  let base : Message := arrange { name := raw.name, options := raw.options } gs raw.nested
  have hlast : ∀ r ∈ raw.reservedRanges, ReservedRules.message.Allows r.start ∧
      ReservedRules.message.Allows (r.stop - 1) ∧
      ReservedRules.message.stop (r.stop - 1) = r.stop :=
    fun r hr => ⟨(h.reservedRanges r hr).start, (h.reservedRanges r hr).last⟩
  have hone : ∀ done, ∀ r ∈ raw.extensionRanges, RunsInMessage dialect path inner
        { base with enums := raw.enums, extensionRanges := done } [r.line]
        { base with enums := raw.enums, extensionRanges := done ++ [r] } := by
    intro done r hr
    obtain ⟨ws, hlex, hreads⟩ := (h.extensionRanges r hr).exists_reads (hranges r hr)
      { base with enums := raw.enums, extensionRanges := done }
    exact .single hlex (by simp) fun rest => dispatches_message_extensions rfl (hreads rest)
  have henum : RunsInMessage dialect path inner base _ _ :=
    Runs.flatMap (fun done => { base with enums := done })
      (fun done e he => runs_messageEnum (h.enums e he) (henums e he) _) []
  have hext := Runs.map _ hone []
  have hnumbers : RunsInMessage dialect path inner _ _ _ :=
    runs_reservedRanges dispatches_message_reserved hlast
      (fun done => { base with enums := raw.enums, extensionRanges := raw.extensionRanges,
                               reservedRanges := done }) (fun _ _ => rfl)
  have hnames : RunsInMessage dialect path inner _ _ _ :=
    runs_reservedNames dispatches_message_reserved raw.reservedNames
      (fun done => { base with enums := raw.enums, extensionRanges := raw.extensionRanges,
                               reservedRanges := raw.reservedRanges, reservedNames := done })
      (fun _ _ => rfl)
  have hextend : RunsInMessage dialect path inner _ _ _ :=
    runs_extendLines (fun f hf => ⟨h.extensions f hf, hexts f hf⟩)
      (fun done => { base with enums := raw.enums, extensionRanges := raw.extensionRanges,
                               reservedRanges := raw.reservedRanges,
                               reservedNames := raw.reservedNames, extensions := done })
      reads_messageExtend
  have hall := ((henum.append hext).append (hnumbers.append hnames)).append hextend
  have hraw : { base with enums := raw.enums, extensionRanges := raw.extensionRanges,
                          reservedRanges := raw.reservedRanges,
                          reservedNames := raw.reservedNames,
                          extensions := raw.extensions } = raw := by
    simp only [base, arrange, ← h.fields, ← h.oneofs]
    cases raw
    rfl
  rw [hraw] at hall
  exact hall

theorem lines_eq (m : Message) :
    m.lines dialect = Line.block ("message " ++ m.name ++ " \x7b")
      (Options.lines m.options ++ nestedLines dialect m m.nested 0 ++ m.tailLines dialect)
      "\x7d" := by
  cases m
  rw [lines]

/-- The lines between the braces of a message give it back as it was declared. -/
theorem Declared.runs (h : raw.Declared dialect (Written dialect budget) gs)
    (hown : raw.withSyntheticOneofs.OwnMaps) (hs : Options.Signed raw.withSyntheticOneofs.settings)
    (hinner : ∀ n ∈ raw.nested, n.isMapEntry = false → ∀ s : Message,
      RunsInMessage dialect path inner s (n.lines dialect)
        { s with nested := s.nested ++ [n] }) :
    RunsInMessage dialect path inner { name := raw.name }
      (Options.lines raw.options ++
        nestedLines dialect raw.withSyntheticOneofs raw.nested 0 ++ raw.tailLines dialect) raw := by
  have hgrouped := grouped_withSyntheticOneofs h.fields h.oneofs
  have hprint := h.printable hown hs
  have hentries := hgrouped.filterMap_pairType? hown hprint h.dot_notMem_names
  simp only [settings, Options.signed_append, Options.signed_flatMap, forall_mem_append,
    options_withSyntheticOneofs, extensions_withSyntheticOneofs,
    extensionRanges_withSyntheticOneofs, enums_withSyntheticOneofs] at hs
  obtain ⟨⟨⟨⟨hset, _, hexts⟩, _⟩, hranges⟩, henums⟩ := hs
  let base : Message := { name := raw.name, options := raw.options }
  have hopts : RunsInMessage dialect path inner { name := raw.name } _ _ :=
    runs_options h.options hset dispatches_message_option
      (fun done => { name := raw.name, options := done }) (fun _ _ => rfl) []
  have hbody : RunsInMessage dialect path inner (base.arrange [] [])
      (nestedLines dialect raw.withSyntheticOneofs raw.withSyntheticOneofs.nested 0)
      (base.arrange gs raw.withSyntheticOneofs.nested) := by
    rw [← nested_withSyntheticOneofs] at hinner
    refine runs_nestedLines hgrouped hprint hinner ?_ rfl rfl hentries
    rintro pre f post rfl e hentry
    exact hgrouped.entryOwner?_eq hown hentry
  rw [nested_withSyntheticOneofs] at hbody
  exact (hopts.append hbody).append (runs_tailLines h hexts hranges henums)

end Lines

open Production

/-- The lines of a message are read as the message. -/
theorem Written.exists_reads {σ : Type} (h : m.Written dialect budget)
    (hmaps : ∀ n ∈ m.within, n.OwnMaps) (hs : ∀ n ∈ m.within, Options.Signed n.settings)
    (path : List Int) (s : σ) :
    ∃ ws, LinesLex (m.lines dialect) (.ident "message" :: ws) ∧
      ∀ rest, Reads (message ⟨dialect, .resume⟩ budget path) s (.ident "message" :: ws ++ rest) m s
        rest := by
  induction budget generalizing m σ path with
  | zero => exact absurd h id
  | succ budget ih =>
    obtain ⟨raw, gs, hraw, rfl⟩ := h
    have hinner : ∀ n ∈ raw.nested, n.isMapEntry = false → ∀ s : Message,
        RunsInMessage dialect path (message ⟨dialect, .resume⟩ budget) s
          (n.lines dialect) { s with nested := s.nested ++ [n] } := by
      intro n hn hno s
      have hin : n ∈ raw.withSyntheticOneofs.nested := by rwa [nested_withSyntheticOneofs]
      rcases hraw.nested n hn with hn | ⟨name, hpair⟩
      · obtain ⟨ws, hlex, hreads⟩ := ih hn (fun n' hn' => hmaps n' (mem_within_of_nested hin hn'))
          (fun n' hn' => hs n' (mem_within_of_nested hin hn'))
          (Location.child path Location.messageNested s.nested.length) s
        exact runs_messageNested hlex hreads
      · rw [hpair.isMapEntry] at hno
        cases hno
    have hruns := hraw.runs (hmaps _ (mem_within_self _)) (hs _ (mem_within_self _)) hinner
    rw [lines_eq, name_withSyntheticOneofs, options_withSyntheticOneofs,
      nested_withSyntheticOneofs, tailLines_withSyntheticOneofs]
    exact hruns.exists_reads (fun name => ({ name } : Message)) hraw.name (by decide) s

end Message

end ProtoSchema
