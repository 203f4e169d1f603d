import ProtoSchema.Proofs.RustTypes.Paths
import ProtoSchema.Proofs.RustTypes.Text

/-!
Names in Rust code. Main statement: for which names of a file the types, modules and members that
are declared have legal names, and different ones where they stand side by side.
-/

namespace ProtoSchema

open List

/-! ## Legal names -/

namespace Identifier

open Scan (isLetter isDigit isWordChar)

variable {name other : String} {cs : List Char}

/-- The words of Rust. The first four cannot be raw identifiers. -/
def reserved : List String :=
  ["self", "super", "crate", "Self", "as", "async", "await", "break", "const", "continue", "dyn",
    "else", "enum", "extern", "false", "fn", "for", "if", "impl", "in", "let", "loop", "match",
    "mod", "move", "mut", "pub", "ref", "return", "static", "struct", "trait", "true", "type",
    "unsafe", "use", "where", "while", "abstract", "become", "box", "do", "final", "gen", "macro",
    "override", "priv", "try", "typeof", "unsized", "virtual", "yield"]

/-- A name that may be declared, also as a raw identifier. -/
def Legal (name : String) : Prop :=
  (IsIdentifier name ∧ name ≠ "_" ∧ name ∉ reserved) ∨
    ∃ raw, name = "r#" ++ raw ∧ IsIdentifier raw ∧ raw ≠ "_" ∧ raw ∉ reserved.take 4

/-- A name whose first character other than an underscore is a letter. -/
def Worded (name : String) : Prop :=
  (name.toList.find? (· ≠ '_')).any isLetter = true

/-- The names that can be written in a form. -/
def Form.Fits : Form → String → Prop
  | same, name => name ≠ "_" ∧ name ∉ reserved
  | marked, name => name ≠ "_"
  | snake, name => Identifier.snake name ≠ "_"
  | camel, name | variant, name => Worded name

instance : Decidable (IsIdentifier name) :=
  decidable_of_iff (name.toList.all isWordChar = true ∧ name.toList.head?.any isLetter = true)
    (by rw [isIdentifier_iff, all_eq_true])

variable (h : ∀ c ∈ name.toList, isWordChar c = true)

include h in
theorem legal_iff : Legal name ↔ IsIdentifier name ∧ name ≠ "_" ∧ name ∉ reserved := by
  refine or_iff_left ?_
  rintro ⟨raw, rfl, _⟩
  exact absurd (h '#' (by simp)) (by decide)

theorem legal_plain_iff (h : IsIdentifier name) : Legal (plain name) ↔ name ≠ "_" := by
  rcases plain_cases name with ⟨hpath, heq⟩ | ⟨hkey, heq⟩ | ⟨hkey, hpath, heq⟩ <;> rw [heq]
  · have hall : ∀ w ∈ pathWords, (IsIdentifier (w ++ "_") ∧ w ++ "_" ≠ "_" ∧
        w ++ "_" ∉ reserved) ∧ w ≠ "_" := by decide +kernel
    exact iff_of_true (.inl (hall name hpath).1) (hall name hpath).2
  · have hall : ∀ w ∈ keywords, w ≠ "_" ∧ w ∉ reserved.take 4 := by decide
    exact iff_of_true (.inr ⟨name, rfl, h, hall name hkey⟩) (hall name hkey).1
  · have heq : reserved = pathWords ++ keywords := rfl
    simp [legal_iff h.isWordChar, h, heq, hkey, hpath]

private theorem isWordChar_facts {c : Char} (h : isWordChar c = true) :
    (isLetter c.toUpper = isLetter c ∧ isWordChar c.toUpper = true ∧
      (c ≠ '_' → c.toUpper.isLower = false ∧ c.toUpper ≠ '_')) ∧
    isLetter c.toLower = isLetter c ∧ isWordChar c.toLower = true ∧
      (c.toLower = '_' ↔ c = '_') := by
  have hle : c.val ≤ 127 := by
    simp [isWordChar, isLetter, isDigit, Char.le_def, Char.ext_iff] at h
    grind
  obtain ⟨n, _, rfl⟩ := exists_ofNat hle
  clear hle
  revert n
  decide

private theorem isWordChar_of_mem_upperCamelChars {upper : Bool}
    (h : ∀ c ∈ cs, isWordChar c = true) :
    ∀ c ∈ upperCamelChars upper cs, isWordChar c = true := by
  fun_induction upperCamelChars upper cs with
  | case1 => exact forall_mem_nil _
  | case2 upper cs ih => exact ih (forall_mem_cons.mp h).2
  | case3 upper c cs hc ih =>
    obtain ⟨hword, hcs⟩ := forall_mem_cons.mp h
    refine forall_mem_cons.mpr ⟨?_, ih hcs⟩
    split
    · exact (isWordChar_facts hword).1.2.1
    · exact hword

private theorem head?_upperCamelChars (cs : List Char) :
    (upperCamelChars true cs).head? = (cs.find? (· ≠ '_')).map Char.toUpper := by
  induction cs with
  | nil => rfl
  | cons c cs ih => by_cases hc : c = '_' <;> simp [upperCamelChars, hc, ih]

include h in
theorem legal_typeName_iff : Legal (typeName name) ↔ Worded name := by
  have hchars := @isWordChar_of_mem_upperCamelChars _ true h
  have hhead := head?_upperCamelChars name.toList
  have hfirst : ∀ d, name.toList.find? (· ≠ '_') = some d → isWordChar d = true ∧ d ≠ '_' :=
    fun d hd => ⟨h d (mem_of_find?_eq_some hd), by simpa using find?_some hd⟩
  unfold typeName
  generalize upperCamelChars true name.toList = camel at hchars hhead
  have hcamel : IsIdentifier (String.ofList camel) ↔ Worded name := by
    rw [isIdentifier_iff, String.toList_ofList, and_iff_right hchars, hhead, Worded]
    cases hd : name.toList.find? (· ≠ '_') with
    | none => rfl
    | some d => simp [(isWordChar_facts (hfirst d hd).1).1.1]
  dsimp only
  split_ifs with hself
  · exact iff_of_true (.inl (by decide +kernel)) (hcamel.mp (by rw [hself]; decide +kernel))
  · rw [legal_iff (by rwa [String.toList_ofList]), hcamel]
    -- the other words begin with small letters
    have hsmall : ∀ w ∈ "_" :: reserved, w ≠ "Self" →
        w.toList.head?.any (fun c => c.isLower || c = '_') = true := by
      decide
    have hword : ∀ w ∈ "_" :: reserved, String.ofList camel ≠ w := by
      rintro w hw rfl
      have hlower := hsmall _ hw hself
      rw [String.toList_ofList, hhead, Option.any_map, Option.any_eq_true] at hlower
      obtain ⟨d, hd, hlower⟩ := hlower
      simp [(isWordChar_facts (hfirst d hd).1).1.2.2 (hfirst d hd).2] at hlower
    exact and_iff_left ⟨hword _ mem_cons_self, fun hmem => hword _ (mem_cons_of_mem _ hmem) rfl⟩

include h in
private theorem worded_lower_iff :
    Worded (String.ofList (name.toList.map Char.toLower)) ↔ Worded name := by
  rw [Worded, Worded, String.toList_ofList]
  generalize name.toList = cs at h
  induction cs with
  | nil => rfl
  | cons c cs ih =>
    obtain ⟨hword, hcs⟩ := forall_mem_cons.mp h
    obtain ⟨-, hletter, _, hne⟩ := isWordChar_facts hword
    by_cases hc : c = '_'
    · simpa [hc, show Char.toLower '_' = '_' from rfl] using ih hcs
    · simp [hc, hne, hletter]

theorem legal_write_iff (form : Form) (h : IsIdentifier name) :
    Legal (form.write name) ↔ form.Fits name := by
  cases form with
  | same => exact (legal_iff h.isWordChar).trans (and_iff_right h)
  | marked => exact legal_plain_iff h
  | snake => exact legal_plain_iff (isIdentifier_snake h)
  | camel => exact legal_typeName_iff h.isWordChar
  | variant =>
    refine (legal_typeName_iff ?_).trans (worded_lower_iff h.isWordChar)
    rw [String.toList_ofList, forall_mem_map]
    exact fun c hc => (isWordChar_facts (h.isWordChar c hc)).2.2.1

theorem plain_eq_iff (h : IsIdentifier name) (h' : IsIdentifier other) :
    plain name = plain other ↔
      name = other ∨ (name ∈ pathWords ∧ other = name ++ "_") ∨
        (other ∈ pathWords ∧ name = other ++ "_") := by
  have hmarked : ∀ w ∈ pathWords, plain w = plain (w ++ "_") := by decide
  refine ⟨eq_or_of_plain_eq (h.notMem rfl) (h'.notMem rfl), ?_⟩
  rintro (rfl | ⟨hpath, rfl⟩ | ⟨hpath, rfl⟩)
  · rfl
  · exact hmarked name hpath
  · exact (hmarked other hpath).symm

/-- Two names that are written differently: those that are kept always are, and those that are
marked unless they are the same or one is the mark of the other. -/
def Apart (x y : Identifier) : Prop :=
  match x.form, y.form with
  | .same, .same => True
  | .marked, .marked => x.source ≠ y.source ∧
    ¬(x.source ∈ reserved.take 4 ∧ y.source = x.source ++ "_") ∧
    ¬(y.source ∈ reserved.take 4 ∧ x.source = y.source ++ "_")
  | _, _ => x.text ≠ y.text

theorem text_ne_iff {x y : Identifier} (hx : IsIdentifier x.source) (hy : IsIdentifier y.source)
    (hsame : x.form = .same → y.form = .same → x.source ≠ y.source) :
    x.text ≠ y.text ↔ x.Apart y := by
  obtain ⟨form, name⟩ := x
  obtain ⟨form', other⟩ := y
  cases form <;> cases form' <;> try exact Iff.rfl
  · exact iff_of_true (hsame rfl rfl) trivial
  · exact (plain_eq_iff hx hy).not.trans (not_or.trans (and_congr_right' not_or))

end Identifier

/-! ## Names side by side -/

namespace RustTypes

open Identifier

/-- Names of a file, of which those that are kept differ. -/
structure Coherent (names : List Identifier) : Prop where
  isIdentifier : ∀ x ∈ names, IsIdentifier x.source
  distinct : names.Pairwise fun x y => x.form = .same → y.form = .same → x.source ≠ y.source

variable {kept : List String} {names : List Identifier}

theorem Coherent.legal_iff (h : Coherent names) :
    ((∀ x ∈ names, Legal x.text) ∧ (names.map text).Nodup) ↔
      (∀ x ∈ names, x.form.Fits x.source) ∧ names.Pairwise Apart := by
  refine and_congr (forall₂_congr fun x hx => legal_write_iff x.form (h.isIdentifier x hx)) ?_
  rw [List.Nodup, pairwise_map]
  have hiff := h.distinct.imp_of_mem fun hx hy hsame =>
    text_ne_iff (h.isIdentifier _ hx) (h.isIdentifier _ hy) hsame
  exact ⟨fun htext => hiff.imp₂ (fun _ _ h => h.mp) htext, hiff.imp₂ fun _ _ h => h.mpr⟩

theorem coherent_append (hkept : kept.Nodup) (hids : ∀ n ∈ kept, IsIdentifier n)
    (h : ∀ x ∈ names, x.form ≠ .same ∧ IsIdentifier x.source) :
    Coherent (kept.map (⟨.same, ·⟩) ++ names) := by
  refine ⟨forall_mem_append.mpr ⟨forall_mem_map.mpr hids, fun x hx => (h x hx).2⟩,
    pairwise_append.mpr ⟨pairwise_map.mpr (hkept.imp fun hne _ _ => hne), ?_, ?_⟩⟩
  · exact pairwise_of_forall_mem_list fun x hx _ _ hsame => absurd hsame (h x hx).1
  · exact fun _ _ y hy _ hsame => absurd hsame (h y hy).1

theorem coherent_of_forms (h : ∀ x ∈ names, x.form ≠ .same ∧ IsIdentifier x.source) :
    Coherent names :=
  coherent_append .nil (forall_mem_nil _) h

def Item.typeName? : Item → Option Identifier
  | .type t => some t.name
  | .module _ _ => none

def Item.moduleName? : Item → Option Identifier
  | .type _ => none
  | .module message _ => some ⟨.snake, message⟩

mutual

/-- The names that are declared side by side: by the members of a type, and in a module by its types
and by its modules. -/
def Item.groups : Item → List (List Identifier)
  | .type t => [t.members.map Member.name]
  | .module _ items =>
    items.filterMap Item.typeName? :: items.filterMap Item.moduleName? :: groupsAll items

def groupsAll : List Item → List (List Identifier)
  | [] => []
  | x :: xs => x.groups ++ groupsAll xs

end

def groups (items : List Item) : List (List Identifier) :=
  items.filterMap Item.typeName? :: items.filterMap Item.moduleName? :: groupsAll items

def Item.Sound (x : Item) : Prop :=
  (∀ n ∈ x.moduleName?, n.form ≠ .same ∧ IsIdentifier n.source) ∧ ∀ g ∈ x.groups, Coherent g

theorem sound_type {t : TypeDecl} (h : Coherent (t.members.map Member.name)) :
    (Item.type t).Sound :=
  ⟨nofun, forall_mem_singleton.mpr h⟩

theorem coherent_groups {items : List Item} (htypes : Coherent (items.filterMap Item.typeName?))
    (h : ∀ x ∈ items, x.Sound) : ∀ g ∈ groups items, Coherent g := by
  rw [groups, forall_mem_cons, forall_mem_cons]
  refine ⟨htypes, coherent_of_forms (forall_mem_filterMap.mpr fun x hx => (h x hx).1), ?_⟩
  clear htypes
  induction items with
  | nil => exact forall_mem_nil _
  | cons x xs ih =>
    obtain ⟨hx, hxs⟩ := forall_mem_cons.mp h
    exact forall_mem_append.mpr ⟨hx.2, ih hxs⟩

variable {ctx : Context} {m : Message} {scope : String}

private theorem distinctValues_sublist (seen : List Int32) (vs : List EnumValue) :
    (distinctValues seen vs).Sublist vs := by
  fun_induction distinctValues seen vs with
  | case1 => exact .slnil
  | case2 seen v vs _ ih => exact ih.cons v
  | case3 seen v vs _ ih => exact ih.cons_cons v

theorem coherent_enumDecl {e : Enum} (h : e.Written) (fullName : String) :
    Coherent ((enumDecl fullName e).members.map Member.name) := by
  refine coherent_of_forms (forall_mem_map.mpr fun x hx => ?_)
  obtain ⟨i, hi, rfl⟩ := mem_mapIdx.mp hx
  exact ⟨Identifier.Form.noConfusion,
    (h.values _ ((distinctValues_sublist _ _).subset (getElem_mem hi))).name⟩

/-- What is declared side by side in messages, enums and other types is coherent if it is in each of
them. -/
theorem coherent_items {α : Type} {ms : List Message} {enums : List Enum} {xs : List α}
    {decl : α → TypeDecl}
    (htypes : Coherent ((ms.map Message.name ++ enums.map Enum.name).map (⟨.same, ·⟩) ++
      xs.map fun x => (decl x).name))
    (hms : ∀ m ∈ ms, ∀ x ∈ messageItems ctx scope m, x.Sound)
    (henums : ∀ e ∈ enums, e.Written)
    (hxs : ∀ x ∈ xs, Coherent ((decl x).members.map Member.name)) :
    ∀ g ∈ groups (ms.flatMap (messageItems ctx scope) ++
      enums.map (fun e => .type (enumDecl (Name.qualify scope e.name) e)) ++
      xs.map fun x => .type (decl x)), Coherent g := by
  refine coherent_groups ?_ ?_
  · have hitems : (ms.flatMap (messageItems ctx scope)).filterMap Item.typeName? =
        ms.map fun m => ⟨.same, m.name⟩ := by
      rw [filterMap_flatMap, map_eq_flatMap]
      refine flatMap_congr fun m _ => ?_
      rw [messageItems_eq]
      cases opensModule m <;> rfl
    simpa [hitems, filterMap_map, Function.comp_def, Item.typeName?, enumDecl] using htypes
  · simp only [forall_mem_append, forall_mem_map, forall_mem_flatMap]
    exact ⟨⟨hms, fun e he => sound_type (coherent_enumDecl (henums e he) _)⟩,
      fun x hx => sound_type (hxs x hx)⟩

private theorem nodup_of_declaredIn {ms : List Message}
    (h : ((Message.declaredIn scope ms).map Declared.fullName ++
      kept.map (Name.qualify scope)).Nodup) :
    (ms.map Message.name ++ kept).Nodup ∧
      ∀ m ∈ ms, ((m.declared scope).map Declared.fullName).Nodup := by
  have heq : Message.declaredIn scope ms = ms.flatMap (Message.declared scope) := by
    clear h
    induction ms with
    | nil => rfl
    | cons m ms ih => rw [Message.declaredIn, ih, flatMap_cons]
  rw [heq, map_flatMap] at h
  refine ⟨.of_map (Name.qualify scope) (h.sublist ?_), (nodup_flatMap.mp h.of_append_left).1⟩
  rw [map_append, map_map, map_eq_flatMap]
  refine .append (.flatMap_right ms fun m _ => ?_) (.refl _)
  cases m
  exact singleton_sublist.mpr (.head _)

/-! ## Files that were read and linked -/

structure Spells (m : Message) : Prop where
  name : IsIdentifier m.name
  fields : ∀ f ∈ m.fields, IsIdentifier f.name
  oneofs : ∀ o ∈ m.oneofs, IsIdentifier o.name
  enums : ∀ e ∈ m.enums, e.Written

private theorem isIdentifier_freshName {taken : List String} {base : String}
    (h : IsIdentifier base) :
    IsIdentifier (Message.freshName taken base) := by
  have hall : ∀ k, IsIdentifier (String.ofList (List.replicate k 'X' ++ base.toList)) := fun k => by
    cases k with
    | zero => simpa using h
    | succ k =>
      refine ⟨'X', List.replicate k 'X' ++ base.toList, by simp [replicate_succ], rfl, ?_⟩
      refine forall_mem_append.mpr ⟨fun c hc => ?_, h.isWordChar⟩
      rw [eq_of_mem_replicate hc]
      rfl
  unfold Message.freshName
  dsimp only
  cases hfind : List.find? _ _ with
  | none => exact h
  | some x =>
    obtain ⟨k, -, rfl⟩ := mem_map.mp (mem_of_find?_eq_some hfind)
    exact hall k

private theorem isIdentifier_oneofs_foldl (indexes : List Nat) {m : Message}
    (hfields : ∀ f ∈ m.fields, IsIdentifier f.name)
    (honeofs : ∀ o ∈ m.oneofs, IsIdentifier o.name) :
    ∀ o ∈ (indexes.foldl Message.addSyntheticOneof m).oneofs, IsIdentifier o.name := by
  induction indexes generalizing m with
  | nil => exact honeofs
  | cons i indexes ih =>
    refine ih (fun f hf => ?_) ?_
    · obtain ⟨j, hj⟩ := mem_iff_getElem?.mp hf
      obtain ⟨g, hg, hname, _⟩ := Message.exists_of_getElem?_addSyntheticOneof hj
      exact hname ▸ hfields g (mem_of_getElem? hg)
    · unfold Message.addSyntheticOneof
      split
      · exact honeofs
      · next f hf =>
        refine forall_mem_append.mpr ⟨honeofs, forall_mem_singleton.mpr ?_⟩
        have hname := hfields f (mem_of_getElem? hf)
        exact isIdentifier_freshName ⟨'_', f.name.toList, by simp, rfl, hname.isWordChar⟩

private theorem isIdentifier_placeAll {dialect : Dialect} {nested : List Message}
    {gs : List FieldGroup}
    (h : ∀ g ∈ gs, g.Written dialect nested) :
    ∀ o ∈ (FieldGroup.placeAll gs).2, IsIdentifier o.name := by
  induction gs using List.reverseRecOn with
  | nil => exact forall_mem_nil _
  | append_singleton gs g ih =>
    obtain ⟨hgs, hg⟩ := forall_mem_append.mp h
    rw [FieldGroup.placeAll_concat]
    cases hg g mem_cons_self with
    | plain => exact ih hgs
    | map => exact ih hgs
    | oneof hname => exact forall_mem_append.mpr ⟨ih hgs, forall_mem_singleton.mpr hname⟩

theorem spells_of_written {dialect : Dialect} {budget : Nat} (h : m.Written dialect budget) :
    Spells m := by
  obtain ⟨raw, _, gs, hraw, rfl⟩ := h.exists_declared
  have hunplaced := (Message.grouped_withSyntheticOneofs hraw.fields hraw.oneofs).unplaced
  refine ⟨by simpa using hraw.name, hraw.isIdentifier_names hunplaced, ?_,
    by simpa using hraw.enums⟩
  refine isIdentifier_oneofs_foldl raw.optionalIndexes ?_
    (hraw.oneofs ▸ isIdentifier_placeAll hraw.groups)
  rw [hraw.fields]
  exact hraw.isIdentifier_names (FieldGroup.map_unplaced_placeAll gs)

namespace Spells

variable (h : Spells m)
include h

theorem declaredOneofs : ∀ x ∈ declaredOneofs m, IsIdentifier x.2.name := by
  intro x hx
  obtain ⟨i, hi, rfl⟩ := mem_mapIdx.mp (mem_filter.mp hx).1
  exact h.oneofs _ (getElem_mem hi)

theorem coherent_structDecl (fullName : String) :
    Coherent ((structDecl ctx fullName m).members.map Member.name) := by
  refine coherent_of_forms ?_
  rw [structDecl, map_append, forall_mem_append, forall_mem_map, forall_mem_map, forall_mem_map]
  refine ⟨fun x hx => ?_, fun x hx => ⟨Identifier.Form.noConfusion, h.declaredOneofs x hx⟩⟩
  obtain ⟨f, hf, hx⟩ := mem_filterMap.mp hx
  unfold fieldMember? at hx
  split at hx
  · cases hx
  · cases hx
    exact ⟨Identifier.Form.noConfusion, h.fields f hf⟩

theorem coherent_oneofDecl (index : Nat) (o : Oneof) :
    Coherent ((oneofDecl ctx m index o).members.map Member.name) := by
  refine coherent_of_forms (forall_mem_map.mpr fun x hx => ?_)
  obtain ⟨f, hf, hx⟩ := mem_filterMap.mp hx
  unfold variant? at hx
  split at hx
  · cases hx
    exact ⟨Identifier.Form.noConfusion, h.fields f (mem_filter.mp hf).1⟩
  · cases hx

theorem sound_messageItems (hin : ∀ n ∈ m.within, n.isMapEntry = false → Spells n)
    (hnodup : ((m.declared scope).map Declared.fullName).Nodup) :
    ∀ x ∈ messageItems ctx scope m, x.Sound := by
  induction m using Message.nestedInduction generalizing scope with
  | h m ih =>
  have hnested : ∀ n ∈ m.nested.filter (fun n => !n.isMapEntry), n ∈ m.nested ∧ Spells n := by
    intro n hn
    obtain ⟨hn, hentry⟩ := mem_filter.mp hn
    exact ⟨hn, hin n (Message.mem_within_of_nested hn n.mem_within_self) (by simpa using hentry)⟩
  have hinner : ((Message.declaredIn (Name.qualify scope m.name) m.nested).map Declared.fullName ++
      (m.enums.map Enum.name).map (Name.qualify (Name.qualify scope m.name))).Nodup := by
    cases m
    simpa [Enum.declared, Function.comp_def] using (nodup_cons.mp hnodup).2
  obtain ⟨hnames, hdeclared⟩ := nodup_of_declaredIn hinner
  rw [messageItems_eq, forall_mem_cons]
  refine ⟨sound_type (h.coherent_structDecl _), ?_⟩
  split_ifs
  · refine forall_mem_singleton.mpr ⟨fun n hn => ?_, ?_⟩
    · cases hn
      exact ⟨Identifier.Form.noConfusion, h.name⟩
    show ∀ g ∈ groups (inner ctx _ m), Coherent g
    rw [inner, nestedItems_eq]
    refine coherent_items (coherent_append (hnames.sublist ?_) ?_ ?_) (fun n hn => ?_) h.enums
      fun x _ => h.coherent_oneofDecl x.1 x.2
    · exact (filter_sublist.map _).append (.refl _)
    · rw [forall_mem_append, forall_mem_map, forall_mem_map]
      exact ⟨fun n hn => (hnested n hn).2.name, fun e he => (h.enums e he).name⟩
    · exact forall_mem_map.mpr fun x hx => ⟨Identifier.Form.noConfusion, h.declaredOneofs x hx⟩
    · obtain ⟨hn, hspells⟩ := hnested n hn
      exact ih n hn hspells (fun k hk => hin k (Message.mem_within_of_nested hn hk))
        (hdeclared n hn)
  · exact forall_mem_nil _

end Spells

section Linked

variable {path source : String} {file : File} {locations : List Location}
  {dependencies : List LinkedFile} {l : LinkedFile}
  (hparse : parse path source = .ok (file, locations)) (hlink : link file dependencies = .ok l)
include hparse hlink

theorem spells_of_link {n : Message} (hn : n ∈ l.file.allMessages)
    (h : n ∈ l.file.messages ∨ n.isMapEntry = false) : Spells n := by
  obtain ⟨m, budget, fullName, hm, hlinks⟩ : ∃ (m : Message) (budget : Nat) (fullName : String),
      m.Written file.dialect budget ∧
        m.LinksTo (file.names dependencies) file.dialect fullName n := by
    rcases h with hn | hentry
    · obtain ⟨m, hm, hmn⟩ := exists_mem_of_forall₂ (partsLinkTo_of_link hlink).messages hn
      exact ⟨m, _, _, (written_of_parse hparse).messages m hm, Message.linksTo_of_link hmn⟩
    · obtain ⟨_, _, hholds⟩ := File.exists_holds_of_mem_allMessages hn
      obtain ⟨m, _, ⟨_, hm⟩ | ⟨_, hpair⟩, hlinks⟩ := exists_source hparse hlink hholds
      · exact ⟨m, _, _, hm, hlinks⟩
      · rw [hlinks.isMapEntry_eq, hpair.isMapEntry] at hentry
        cases hentry
  obtain ⟨hname, hfields, honeofs, henums⟩ := spells_of_written hm
  refine ⟨hlinks.name_eq ▸ hname, fun g hg => ?_, by rwa [hlinks.rest], by rwa [hlinks.rest]⟩
  obtain ⟨f, hf, hfg⟩ := exists_mem_of_forall₂ hlinks.fields hg
  rw [Field.eq_of_link hfg]
  exact hfields f hf

/-- What is declared side by side for a file that was read and linked are names of the file, and
types that keep their names have different ones. -/
theorem coherent_outline (mapType : MapType) :
    ∀ g ∈ groups (outline ⟨l, mapType⟩), Coherent g := by
  have hwritten := written_of_parse hparse
  have hparts := partsLinkTo_of_link hlink
  have hwithin : ∀ m ∈ l.file.messages, ∀ n ∈ m.within, n ∈ l.file.allMessages :=
    fun m hm n hn => mem_flatMap.mpr ⟨m, hm, hn⟩
  have hspells : ∀ m ∈ l.file.messages, Spells m := fun m hm =>
    spells_of_link hparse hlink (hwithin m hm m m.mem_within_self) (.inl hm)
  have henums : ∀ e ∈ l.file.enums, e.Written := by
    rw [hparts.rest]
    exact hwritten.enums
  have hservices : ∀ t ∈ l.file.services,
      IsIdentifier t.name ∧ ∀ n ∈ t.methods, IsIdentifier n.name :=
    fun t ht => by
      obtain ⟨s, hs, hst⟩ := exists_mem_of_forall₂ hparts.services ht
      have hlinks := Service.linksTo_of_link hst
      refine ⟨by rw [hlinks.rest]; exact (hwritten.services s hs).name, fun n hn => ?_⟩
      obtain ⟨m, hm, hmn⟩ := exists_mem_of_forall₂ hlinks.methods hn
      obtain ⟨_, _, _, _, _, _, rfl⟩ := Method.link_eq_ok_iff.mp hmn
      exact ((hwritten.services s hs).methods m hm).name
  have hnodup : (l.file.declared.map Declared.fullName).Nodup :=
    map_fullName_of_link hlink ▸ nodup_fullName_of_link hlink
  obtain ⟨hnames, hdeclared⟩ := @nodup_of_declaredIn
    (l.file.enums.map Enum.name ++ l.file.services.map Service.name) _ _
    (by simpa [File.declared, Enum.declared, Function.comp_def] using hnodup)
  refine coherent_items ?_ (fun m hm => (hspells m hm).sound_messageItems
    (fun n hn hentry => spells_of_link hparse hlink (hwithin m hm n hn) (.inr hentry))
    (hdeclared m hm)) henums fun s hs => ?_
  · have hkept := @coherent_append _ [] hnames ?_ (forall_mem_nil _)
    · simpa [Function.comp_def, serviceDecl] using hkept
    · simp only [forall_mem_append, forall_mem_map]
      exact ⟨fun m hm => (hspells m hm).name, fun e he => (henums e he).name,
        fun s hs => (hservices s hs).1⟩
  · refine coherent_of_forms (forall_mem_map.mpr fun x hx => ?_)
    obtain ⟨m, hm, rfl⟩ := mem_map.mp hx
    exact ⟨Identifier.Form.noConfusion, (hservices s hs).2 m hm⟩

end Linked

/-- The text consists of the types and modules of the outline. Their names and those of members are
legal and, side by side, different if and only if the names of the file that they stand for fit
their forms and are apart. -/
theorem legal_names_iff {path source : String} {file : File} {locations : List Location}
    {dependencies : List LinkedFile} {l : LinkedFile}
    (hparse : parse path source = .ok (file, locations)) (hlink : link file dependencies = .ok l)
    (mapType : MapType) :
    Presents ⟨l, mapType⟩ ((typesAll [] (outline ⟨l, mapType⟩)).map (state l.file.scope)) ∧
      ((∀ g ∈ groups (outline ⟨l, mapType⟩), (∀ x ∈ g, Legal x.text) ∧ (g.map text).Nodup) ↔
        ∀ g ∈ groups (outline ⟨l, mapType⟩),
          (∀ x ∈ g, x.form.Fits x.source) ∧ g.Pairwise Apart) :=
  ⟨presents_outline _,
    forall₂_congr fun g hg => (coherent_outline hparse hlink mapType g hg).legal_iff⟩

def written (ctx : Context) : List (List String) :=
  (groups (outline ctx)).map (List.map text)

def variously : String :=
  "message A\x7boptional A self=1;oneof type\x7bbool x=2;\x7denum E\x7bE_1=0;\x7d\x7d" ++
    "service S\x7brpc GetA(A)returns(A);\x7d"

theorem legal_names_iff_variously :
    ∃ file locations l, parse "a" variously = .ok (file, locations) ∧ link file [] = .ok l ∧
      written ⟨l, .hash⟩ = [["A", "S"], ["a"], ["self_", "r#type"], ["E", "Type"], [], ["E1"],
        ["X"], ["get_a"]] ∧
      ((∀ g ∈ groups (outline ⟨l, .hash⟩), (∀ x ∈ g, Legal x.text) ∧ (g.map text).Nodup) ↔
        ∀ g ∈ groups (outline ⟨l, .hash⟩), (∀ x ∈ g, x.form.Fits x.source) ∧
          g.Pairwise Apart) := by
  have hwritten : (LinkedFile.make? "a" variously []).map (fun l => written ⟨l, .hash⟩) = some
      [["A", "S"], ["a"], ["self_", "r#type"], ["E", "Type"], [], ["E1"], ["X"], ["get_a"]] := by
    decide +kernel
  obtain ⟨l, hl, hgroups⟩ := Option.map_eq_some_iff.mp hwritten
  obtain ⟨file, locations, hparse, hlink⟩ := LinkedFile.make?_eq_some_iff.mp hl
  exact ⟨file, locations, l, hparse, hlink, hgroups, (legal_names_iff hparse hlink .hash).2⟩

/-- Types are not marked, a variant may begin with a digit, and variants may be the same. -/
theorem not_legal_names_type :
    ∃ l : LinkedFile, l.MadeOf "a" "message type\x7benum E\x7b_1=0;A_B=1;a_b=2;\x7d\x7d" [] ∧
      written ⟨l, .hash⟩ = [["type"], ["r#type"], [], ["E"], [], ["1", "AB", "AB"]] ∧
      ¬∀ g ∈ groups (outline ⟨l, .hash⟩), (∀ x ∈ g, Legal x.text) ∧ (g.map text).Nodup := by
  have hwritten :
      (LinkedFile.make? "a" "message type\x7benum E\x7b_1=0;A_B=1;a_b=2;\x7d\x7d" []).map
      (fun l => written ⟨l, .hash⟩) =
      some [["type"], ["r#type"], [], ["E"], [], ["1", "AB", "AB"]] := by
    decide +kernel
  obtain ⟨l, hl, hgroups⟩ := Option.map_eq_some_iff.mp hwritten
  refine ⟨l, LinkedFile.make?_eq_some_iff.mp hl, hgroups, fun h => ?_⟩
  have hmem : ["type"] ∈ written ⟨l, .hash⟩ := by simp [hgroups]
  obtain ⟨g, hg, heq⟩ := List.mem_map.mp hmem
  obtain ⟨x, rfl, hx⟩ := List.map_eq_singleton_iff.mp heq
  have hlegal : Legal "type" := hx ▸ (h [x] hg).1 x (List.mem_singleton_self x)
  exact ((legal_iff (List.all_eq_true.mp (by decide +kernel))).mp hlegal).2.2 (by decide)

end RustTypes

end ProtoSchema
