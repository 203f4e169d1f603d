import ProtoSchema.Proofs.RustTypes.Outline

/-!
The types that stand in a text, line by line. Main statement: the text of a file has the types of
each declaration once, in the modules of the messages around it, and each field of a message as a
member of one of them.
-/

namespace ProtoSchema.RustTypes

open List Identifier

/-! ## Rows -/

/-- A line without content is not indented. -/
def indented (depth : Nat) (line : String) : String :=
  if line = "" then "" else String.join (List.replicate depth "    ") ++ line

/-- A type in the modules around it, with the remarks above it and above its members. -/
structure Stated where
  modules : List String
  remarks : List String
  head : String
  members : List (List String × String)

def Stated.rows (t : Stated) : List String :=
  t.remarks.map (indented t.modules.length) ++
    indented t.modules.length (t.head ++ " \x7b") ::
      t.members.flatMap (fun x => (x.1 ++ [x.2]).map (indented (t.modules.length + 1))) ++
    [indented t.modules.length "\x7d"]

/-- The types that stand in rows, which may be parted by empty ones. -/
inductive Stands : List String → List Stated → List String → Prop
  | nil {modules} : Stands modules [] []
  | blank {modules types rows} : Stands modules types rows → Stands modules types ("" :: rows)
  | type {t types rows} : Stands t.modules types rows →
    Stands t.modules (t :: types) (t.rows ++ rows)
  | module {modules message inner rows types others} :
    Stands (modules ++ [moduleName message]) inner rows → Stands modules types others →
    Stands modules (inner ++ types)
      (indented modules.length ("/// Nested types of `" ++ message ++ "`.") ::
        indented modules.length ("pub mod " ++ moduleName message ++ " \x7b") :: rows ++
        indented modules.length "\x7d" :: others)

/-- The rows of lines `k` levels deep. A gap is an empty row or none. -/
inductive Rows (k : Nat) : List Line → List String → Prop
  | nil : Rows k [] []
  | text {depth content lines rows} : Rows k lines rows →
    Rows k (.text depth content :: lines) (indented (depth + k) content :: rows)
  | gap {blank lines rows} : blank = [] ∨ blank = [""] → Rows k lines rows →
    Rows k (.gap :: lines) (blank ++ rows)

variable {modules rows rows' : List String} {lines : List Line} {package : String} {k : Nat}

theorem Stands.append {types types' : List Stated} (h : Stands modules types rows)
    (h' : Stands modules types' rows') : Stands modules (types ++ types') (rows ++ rows') := by
  induction h with
  | nil => exact h'
  | blank _ ih => exact .blank (ih h')
  | type _ ih =>
    rw [append_assoc]
    exact .type (ih h')
  | module hinner _ _ ih =>
    rw [append_assoc, cons_append, cons_append, append_assoc, cons_append]
    exact .module hinner (ih h')

theorem exists_rows (lines : List Line) (rev : List Char) : ∃ rows, Rows 0 lines rows ∧
    (lines.foldl (Line.onto "    ".toList) rev).reverse =
      rev.reverse ++ rows.flatMap fun row => row.toList ++ ['\n'] := by
  induction lines generalizing rev with
  | nil => exact ⟨[], .nil, by simp⟩
  | cons line lines ih =>
    obtain ⟨rows, hrows, heq⟩ := ih (Line.onto "    ".toList rev line)
    rw [foldl_cons, heq]
    cases line with
    | text depth content =>
      refine ⟨_, .text hrows, ?_⟩
      have hrow : (indented depth content).toList = (if content.isEmpty then [] else
          (List.replicate depth "    ".toList).flatten) ++ content.toList := by
        by_cases h : content = ""
        · simp [indented, h]
        · simp [indented, h, flatMap_def]
      simp [Line.onto, hrow]
    | gap =>
      have hcases : Line.onto "    ".toList rev .gap = rev ∨
          Line.onto "    ".toList rev .gap = '\n' :: rev := by
        rw [Line.onto.eq_def]
        dsimp only
        split <;> simp
      rcases hcases with h | h
      · exact ⟨_, .gap (.inl rfl) hrows, by rw [h, nil_append]⟩
      · exact ⟨_, .gap (.inr rfl) hrows, by rw [h]; simp⟩

theorem Rows.exists_append {lines' : List Line} (h : Rows k (lines ++ lines') rows) :
    ∃ first rest, rows = first ++ rest ∧ Rows k lines first ∧ Rows k lines' rest := by
  induction lines generalizing rows with
  | nil => exact ⟨[], rows, rfl, .nil, h⟩
  | cons line lines ih =>
    cases h with
    | text h =>
      obtain ⟨first, rest, rfl, hfirst, hrest⟩ := ih h
      exact ⟨_, rest, rfl, .text hfirst, hrest⟩
    | gap hblank h =>
      obtain ⟨first, rest, rfl, hfirst, hrest⟩ := ih h
      exact ⟨_, rest, (append_assoc ..).symm, .gap hblank hfirst, hrest⟩

theorem Rows.of_indent (h : Rows k (lines.map .indent) rows) : Rows (k + 1) lines rows := by
  induction lines generalizing rows with
  | nil =>
    cases h
    exact .nil
  | cons line lines ih =>
    cases line with
    | text =>
      cases h with
      | text h =>
        rw [Nat.add_right_comm, Nat.add_assoc]
        exact .text (ih h)
    | gap =>
      cases h with
      | gap hblank h => exact .gap hblank (ih h)

theorem Rows.eq_map {cs : List String} (h : Rows k (cs.map .of) rows) :
    rows = cs.map (indented k) := by
  induction cs generalizing rows with
  | nil =>
    cases h
    rfl
  | cons c cs ih =>
    cases h with
    | text h => rw [ih h, map_cons, Nat.zero_add]

/-- A type with its members written out. -/
def state (package : String) (x : List String × TypeDecl) : Stated where
  modules := x.1
  remarks := x.2.remarks
  head := x.2.lead ++ x.2.name.text
  members := x.2.members.map fun m => (m.remarks,
    m.lead ++ m.name.text ++ String.join (m.rest.map (Part.write package x.1.length)))

theorem rows_type {t : TypeDecl}
    (h : Rows modules.length ((Item.type t).lines package modules.length) rows) :
    rows = (state package (modules, t)).rows := by
  obtain ⟨first, rest, rfl, hfirst, hrest⟩ := h.exists_append
  cases hfirst.eq_map
  cases hrest with
  | text hrest =>
    obtain ⟨inner, last, rfl, hinner, hlast⟩ := hrest.exists_append
    have hmembers : t.members.flatMap (Member.lines package modules.length) =
        ((state package (modules, t)).members.flatMap fun x => x.1 ++ [x.2]).map .of := by
      simp only [state, map_flatMap, flatMap_map, map_append]
      rfl
    rw [hmembers] at hinner
    cases hinner.of_indent.eq_map
    cases @Rows.eq_map _ _ ["\x7d"] hlast
    simp [Stated.rows, map_flatMap, state]

mutual

theorem stands_item (package : String) : ∀ (item : Item) (modules rows : List String),
    Rows modules.length (item.lines package modules.length) rows →
      Stands modules ((item.types modules).map (state package)) rows
  | .type t, modules, rows, h => by
    rw [rows_type h, ← append_nil (Stated.rows _)]
    exact @Stands.type (state package (modules, t)) _ _ .nil
  | .module message items, modules, rows, h => by
    cases h with
    | text h =>
    cases h with
    | text h =>
      obtain ⟨inner, last, rfl, hinner, hlast⟩ := h.exists_append
      cases @Rows.eq_map _ _ ["\x7d"] hlast
      have hall := stands_items package items (modules ++ [moduleName message]) inner
        (by simpa using hinner.of_indent)
      rw [Item.types]
      simpa using hall.module .nil

theorem stands_items (package : String) : ∀ (items : List Item) (modules rows : List String),
    Rows modules.length (linesAll package modules.length items) rows →
      Stands modules ((typesAll modules items).map (state package)) rows
  | [], modules, rows, h => by
    cases h
    exact .nil
  | item :: items, modules, rows, h => by
    rw [typesAll, map_append]
    cases h with
    | gap hblank h =>
      obtain ⟨first, rest, rfl, hfirst, hrest⟩ := h.exists_append
      have hall := (stands_item package item modules first hfirst).append
        (stands_items package items modules rest hrest)
      rcases hblank with rfl | rfl
      · exact hall
      · exact .blank hall

end

/-! ## What is declared -/

variable {ctx : Context} {m : Message} {f : Field}

def typeText (ctx : Context) (depth : Nat) (type : List Part) : String :=
  String.join (type.map (Part.write ctx.package depth))

/-- The type of what a variant holds. -/
def variantType (f : Field) : List Part :=
  match Shape.of f with
  | .message typeName => applied "Box" [.path typeName]
  | _ => valueType (.of f)

/-- The fields that are in the given declared oneof, or in none. -/
def fieldsIn (m : Message) (oneof : Option Nat) : List Field :=
  m.fields.filter fun f => ownOneof? m f = oneof

/-- The types of a declaration: none for the pair type of a map, and for any other message a struct
with the fields that are in no declared oneof and a member for each of these oneofs, and in its
module an enum for each of them with the fields that are in it. -/
def stated (ctx : Context) : List String × Declared → List Stated
  | (modules, ⟨fullName, .message m⟩) =>
    if m.isMapEntry then []
    else
      { modules, head := "pub struct " ++ m.name
        remarks := ["/// Message `" ++ fullName ++ "`.",
          "#[derive(Debug, Clone, PartialEq, Default)]"]
        members := (fieldsIn m none).map (fun f => ([fieldRemark f],
            "pub " ++ plain f.name ++ ": " ++ typeText ctx modules.length (memberType ctx f) ++
              ",")) ++
          (ownOneofs m).map fun x => ([],
            "pub " ++ plain x.2.name ++ ": " ++ typeText ctx modules.length (applied "Option"
              [.text (moduleName m.name ++ "::" ++ typeName x.2.name)]) ++ ",") } ::
      (ownOneofs m).map fun x =>
        { modules := modules ++ [moduleName m.name], head := "pub enum " ++ typeName x.2.name
          remarks := ["/// Oneof `" ++ x.2.name ++ "`.", "#[derive(Debug, Clone, PartialEq)]"]
          members := (fieldsIn m (some x.1)).map fun f => ([fieldRemark f],
            typeName f.name ++ "(" ++ typeText ctx (modules.length + 1) (variantType f) ++ "),") }
  | (modules, ⟨fullName, .enum e⟩) =>
    [{ modules, head := "pub enum " ++ e.name
       remarks := ["/// Enum `" ++ fullName ++ "`.",
         "#[derive(Debug, Clone, Copy, PartialEq, Eq, Hash, PartialOrd, Ord, Default)]",
         "#[repr(i32)]"]
       members := (distinctValues [] e.values).mapIdx fun i v =>
         (if i = 0 then ["#[default]"] else [],
           Identifier.variant v.name ++ " = " ++ toString v.number.toInt ++ ",") }]
  | (modules, ⟨fullName, .service s⟩) =>
    [{ modules, head := "pub trait " ++ s.name
       remarks := ["/// Service `" ++ fullName ++ "`."]
       members := s.methods.map fun x =>
         ([], "fn " ++ moduleName x.name ++ typeText ctx modules.length (methodMember x).rest) }]

namespace Apportions

variable (h : Apportions m) (ctx : Context)
include h

theorem shape_eq (hf : f ∈ m.fields) {i : Nat} (hi : ownOneof? m f = some i) :
    ctx.file.shape f = .oneofMember i (.of f) := by
  rw [LinkedFile.shape, h.own f hf, hi]

theorem shape_ne (hf : f ∈ m.fields) (hnone : ownOneof? m f = none) (i : Nat) (s : Shape) :
    ctx.file.shape f ≠ .oneofMember i s := by
  rw [LinkedFile.shape, h.own f hf, hnone]
  dsimp only
  split_ifs
  · split <;> simp
  · simp

theorem filterMap_fieldMember? :
    m.fields.filterMap (fieldMember? ctx) = (fieldsIn m none).map fun f =>
      { remarks := [fieldRemark f], lead := "pub ", name := ⟨.marked, f.name⟩
        rest := .text ": " :: memberType ctx f ++ [.text ","] } := by
  rw [fieldsIn, ← filterMap_eq_map, filterMap_filter]
  refine filterMap_congr fun f hf => ?_
  cases hown : ownOneof? m f with
  | none =>
    unfold fieldMember?
    split
    · next hshape => exact absurd hshape (h.shape_ne ctx hf hown _ _)
    · simp
  | some i => simp [fieldMember?, h.shape_eq ctx hf hown]

theorem filterMap_variant? (i : Nat) :
    (m.fields.filter fun f => f.oneofIndex = some i).filterMap (variant? ctx) =
      (fieldsIn m (some i)).map fun f =>
        { remarks := [fieldRemark f], name := ⟨.camel, f.name⟩
          rest := .text "(" :: variantType f ++ [.text "),"] } := by
  rw [fieldsIn, ← filterMap_eq_map, filterMap_filter, filterMap_filter]
  refine filterMap_congr fun f hf => ?_
  cases hown : ownOneof? m f with
  | none =>
    have hnone : variant? ctx f = none := by
      unfold variant?
      split
      · next hshape => exact absurd hshape (h.shape_ne ctx hf hown _ _)
      · rfl
    simp [hnone]
  | some k =>
    obtain ⟨hindex, _⟩ := Option.filter_eq_some_iff.mp hown
    by_cases hk : k = i
    · subst hk
      simp only [variant?, h.shape_eq ctx hf hown, hindex, decide_true]
      rfl
    · simp [hindex, hk]

omit h in
private theorem perm_of_keys {α : Type} (key : α → Option Nat) {is : List Nat} (his : is.Nodup) :
    ∀ {xs : List α}, (∀ x ∈ xs, ∀ i, key x = some i → i ∈ is) →
      (xs.filter (key · = none) ++ is.flatMap fun i => xs.filter (key · = some i)).Perm xs
  | [], _ => by simp
  | x :: xs, h => by
    obtain ⟨hx, hxs⟩ := forall_mem_cons.mp h
    have ih := perm_of_keys key his hxs
    cases hkey : key x with
    | none => simpa [hkey] using ih.cons x
    | some i =>
      -- the key is in the list in one place
      obtain ⟨before, after, rfl⟩ := append_of_mem (hx i hkey)
      have hne : ∀ j ∈ before ++ after, (x :: xs).filter (key · = some j) =
          xs.filter (key · = some j) := by
        intro j hj
        have hij : i ≠ j := by
          rintro rfl
          exact (nodup_cons.mp (perm_middle.nodup_iff.mp his)).1 hj
        simp [hkey, hij]
      rw [forall_mem_append] at hne
      rw [flatMap_append, flatMap_cons] at ih ⊢
      rw [flatMap_congr hne.1, flatMap_congr hne.2, filter_cons_of_neg (by simp [hkey]),
        filter_cons_of_pos (by simp [hkey]), cons_append, ← append_assoc]
      rw [← append_assoc] at ih
      exact perm_middle.trans (ih.cons x)

theorem perm_fields :
    (fieldsIn m none ++ (ownOneofs m).flatMap fun x => fieldsIn m (some x.1)).Perm m.fields := by
  have hnodup : ((ownOneofs m).map Prod.fst).Nodup := by
    refine .sublist (filter_sublist.map _) ?_
    rw [mapIdx_eq_zipIdx_map, map_map]
    exact (zipIdx_map_snd 0 m.oneofs).symm ▸ nodup_range'
  have hperm := perm_of_keys (ownOneof? m) hnodup h.covers
  rwa [flatMap_map] at hperm

end Apportions

theorem map_state_declaredTypes {d : Declared}
    (h : ∀ m, d.declaration = .message m → Apportions m) :
    (declaredTypes ctx (modules, d)).map (state ctx.package) = stated ctx (modules, d) := by
  obtain ⟨fullName, m | e | s⟩ := d
  · cases hentry : m.isMapEntry with
    | true => simp [declaredTypes, stated, hentry]
    | false =>
      have hm := h m rfl
      simp [declaredTypes, stated, hentry, state, structDecl, oneofDecl, hm.oneofs,
        hm.filterMap_fieldMember?, hm.filterMap_variant?, oneofMember, Function.comp_def, text,
        Identifier.Form.write, Part.write, typeText, applied, String.append_assoc]
  · simp [declaredTypes, stated, state, enumDecl, valueMember, text, Identifier.Form.write,
      Part.write, mapIdx_eq_zipIdx_map, String.append_assoc]
  · simp [declaredTypes, stated, state, serviceDecl, methodMember, text, Identifier.Form.write,
      typeText]

theorem map_state_declarations (h : ∀ m ∈ ctx.file.file.allMessages, Apportions m) :
    ((declarations ctx.file.file).flatMap (declaredTypes ctx)).map (state ctx.package) =
      (declarations ctx.file.file).flatMap (stated ctx) := by
  rw [map_flatMap]
  refine flatMap_congr fun ⟨modules, fullName, declaration⟩ hx => map_state_declaredTypes ?_
  rintro m rfl
  have hd : ⟨fullName, .message m⟩ ∈ ctx.file.file.declared := by
    rw [← declarations_map_snd]
    exact mem_map_of_mem hx
  obtain ⟨place, hholds⟩ := File.mem_declared_iff.mp hd
  exact h m hholds.mem_allMessages

/-- After its first line the text of a file consists of the types. -/
def Presents (ctx : Context) (types : List Stated) : Prop :=
  ∃ rows, render ctx = "// Generated from " ++ ctx.file.file.name ++ ". Do not edit.\n" ++
    String.join (rows.map (· ++ "\n")) ∧ Stands [] types rows

theorem presents_outline (ctx : Context) :
    Presents ctx ((typesAll [] (outline ctx)).map (state ctx.package)) := by
  obtain ⟨_, hrows, heq⟩ := exists_rows (.of ("// Generated from " ++ ctx.file.file.name ++
    ". Do not edit.") :: linesAll ctx.package 0 (outline ctx)) []
  cases hrows with
  | @text _ _ _ rows hrows =>
    refine ⟨rows, ?_, stands_items ctx.package (outline ctx) [] rows hrows⟩
    rw [render, print, Line.render, heq]
    simp [indented, ← String.toList_inj, flatMap_def, Function.comp_def]

/-- The text consists of the types of the declarations of the file, each once and in the modules of
the messages around it. Each field of a message is once among the fields that the members of its
struct and of the enums of its oneofs are written for. -/
structure DeclaresOnce (ctx : Context) : Prop where
  text : ∃ types, Presents ctx types ∧
    types.Perm ((declarations ctx.file.file).flatMap (stated ctx))
  declared : (declarations ctx.file.file).map Prod.snd = ctx.file.file.declared
  distinct : (ctx.file.file.declared.map Declared.fullName).Nodup
  fields : ∀ m ∈ ctx.file.file.allMessages,
    (fieldsIn m none ++ (ownOneofs m).flatMap fun x => fieldsIn m (some x.1)).Perm m.fields

/-- No message that is declared in the source may be marked as a pair type. -/
theorem render_declares_once {path source : String} {file : File} {locations : List Location}
    {dependencies : List LinkedFile} {l : LinkedFile}
    (hparse : parse path source = .ok (file, locations)) (hlink : link file dependencies = .ok l)
    (hmarked : file.NoneMarked locations) (mapType : MapType) : DeclaresOnce ⟨l, mapType⟩ where
  text := by
    have hperm := @types_outline ⟨l, mapType⟩ (fun _ => flat_of_link hparse hmarked hlink)
      fun _ => isMapEntry_eq_false_of_link hparse hmarked hlink
    refine ⟨_, presents_outline _, (hperm.map _).trans (.of_eq (map_state_declarations ?_))⟩
    exact fun _ => apportions_of_link hparse hlink
  declared := declarations_map_snd l.file
  distinct := map_fullName_of_link hlink ▸ nodup_fullName_of_link hlink
  fields _ hm := (apportions_of_link hparse hlink hm).perm_fields

def oneofBesideOptional : String :=
  "syntax='proto3';message A\x7boptional bool y=1;oneof o\x7bbool x=2;\x7d\x7d"

theorem render_declares_once_oneofBesideOptional :
    ∃ file locations l, parse "a" oneofBesideOptional = .ok (file, locations) ∧
      link file [] = .ok l ∧ file.NoneMarked locations ∧
      ((declarations l.file).flatMap (stated ⟨l, .hash⟩)).map
          (fun t => (t.modules, t.head, t.members)) =
        [([], "pub struct A",
          [(["/// Field 1."], "pub y: Option<bool>,"), ([], "pub o: Option<a::O>,")]),
        (["a"], "pub enum O", [(["/// Field 2."], "X(bool),")])] ∧
      DeclaresOnce ⟨l, .hash⟩ := by
  have hstated : (LinkedFile.make? "a" oneofBesideOptional []).map (fun l =>
      ((declarations l.file).flatMap (stated ⟨l, .hash⟩)).map
        fun t => (t.modules, t.head, t.members)) = some
      [([], "pub struct A",
        [(["/// Field 1."], "pub y: Option<bool>,"), ([], "pub o: Option<a::O>,")]),
      (["a"], "pub enum O", [(["/// Field 2."], "X(bool),")])] := by
    decide +kernel
  have hunmarked : (parse "a" oneofBesideOptional).toOption.all
      (fun r => !r.1.allMessages.any Message.isMapEntry) = true := by
    decide +kernel
  obtain ⟨l, hl, htypes⟩ := Option.map_eq_some_iff.mp hstated
  obtain ⟨file, locations, hparse, hlink⟩ := LinkedFile.make?_eq_some_iff.mp hl
  have hmarked : file.NoneMarked locations := by
    intro _ _ q m _ hq
    obtain ⟨_, _, _, hholds⟩ := File.exists_holds_of_walk hq
    have hall : ∀ m ∈ file.allMessages, m.isMapEntry = false := by
      simpa [hparse, Except.toOption] using hunmarked
    exact hall m hholds.mem_allMessages
  exact ⟨file, locations, l, hparse, hlink, hmarked, htypes,
    render_declares_once hparse hlink hmarked .hash⟩

end ProtoSchema.RustTypes
