import ProtoSchema.Proofs.Link.Scoping
import ProtoSchema.Proofs.RustTypes.Outline

/-!
Where the paths of types lead. A path goes up to the module of the package and down again, by names
that depend on the case of their first letter. Main statement: which paths lead to the modules that
are opened for the messages around the type.
-/

namespace ProtoSchema

open List Name

/-! ## Words -/

namespace Identifier

open Scan (isLetter isWordChar)

variable {c : Char} {name : String}

theorem exists_ofNat (hc : c.val ≤ 127) : ∃ n < 128, Char.ofNat n = c :=
  ⟨c.toNat, Nat.lt_succ_of_le (UInt32.le_iff_toNat_le.mp hc), Char.ofNat_toNat c⟩

private theorem isUpper_facts (h : c.isUpper = true) :
    (c.toLower ≠ c ∧ '_' ≠ c) ∧ isLetter c.toLower = true ∧ c.toLower ≠ '_' := by
  have hle : c.val ≤ 90 := (of_decide_eq_true h : 65 ≤ c.val ∧ c.val ≤ 90).2
  obtain ⟨n, _, rfl⟩ := exists_ofNat (UInt32.le_trans hle (by decide))
  clear hle
  revert n
  decide

theorem plain_cases (name : String) :
    (name ∈ pathWords ∧ plain name = name ++ "_") ∨ (name ∈ keywords ∧ plain name = "r#" ++ name) ∨
      (name ∉ keywords ∧ name ∉ pathWords ∧ plain name = name) := by
  unfold plain
  split_ifs with hpath hkey
  · exact .inl ⟨hpath, rfl⟩
  · exact .inr (.inl ⟨hkey, rfl⟩)
  · exact .inr (.inr ⟨hkey, hpath, rfl⟩)

/-- Names that are written in the same way differ at most by what marks a word of paths. -/
theorem eq_or_of_plain_eq {a b : String} (ha : '#' ∉ a.toList) (hb : '#' ∉ b.toList)
    (h : plain a = plain b) :
    a = b ∨ (a ∈ pathWords ∧ b = a ++ "_") ∨ (b ∈ pathWords ∧ a = b ++ "_") := by
  have hmark := congrArg ('#' ∈ ·.toList) h
  rcases plain_cases a with ⟨hpath, heq⟩ | ⟨_, heq⟩ | ⟨_, _, heq⟩ <;>
    rcases plain_cases b with ⟨hpath', heq'⟩ | ⟨_, heq'⟩ | ⟨_, _, heq'⟩ <;>
    simp only [heq, heq', String.toList_append, mem_append, ha, hb] at h hmark
  · exact .inl (by simpa using h)
  · simp at hmark
  · exact .inr (.inl ⟨hpath, h.symm⟩)
  · simp at hmark
  · exact .inl (by simpa using h)
  · simp at hmark
  · exact .inr (.inr ⟨hpath', h⟩)
  · simp at hmark
  · exact .inl h

private theorem plain_ne_super (name : String) : plain name ≠ "super" := by
  have hpath : ∀ w ∈ pathWords, w ++ "_" ≠ "super" := by decide
  rcases plain_cases name with ⟨h, heq⟩ | ⟨_, heq⟩ | ⟨_, h, heq⟩
  · exact heq ▸ hpath name h
  · rw [heq]
    intro h
    simpa using congrArg (·.toList.head?) h
  · rw [heq]
    rintro rfl
    exact h (by decide)

private theorem colon_notMem_plain (h : IsIdentifier name) : ':' ∉ (plain name).toList := by
  have hname : ':' ∉ name.toList := h.notMem rfl
  rcases plain_cases name with ⟨_, heq⟩ | ⟨_, heq⟩ | ⟨_, _, heq⟩ <;> simp [heq, hname]

private theorem snakeChars_eq_self_iff {breakable : Bool} {cs : List Char} :
    snakeChars breakable cs = cs ↔ ∀ c ∈ cs, c.isUpper = false := by
  fun_induction snakeChars breakable cs with
  | case1 => simp
  | case2 breakable c cs hupper ih =>
    have hne := (isUpper_facts hupper).1
    split <;> simp [hupper, hne]
  | case3 breakable c cs hupper ih => simp [ih, hupper]

private theorem isWordChar_of_mem_snakeChars {breakable : Bool} {cs : List Char}
    (h : ∀ c ∈ cs, isWordChar c = true) : ∀ c ∈ snakeChars breakable cs, isWordChar c = true := by
  fun_induction snakeChars breakable cs with
  | case1 => exact h
  | case2 breakable c cs hupper ih =>
    have hc : isWordChar c.toLower = true := by simp [isWordChar, (isUpper_facts hupper).2.1]
    refine forall_mem_append.mpr ⟨?_, ih (forall_mem_cons.mp h).2⟩
    split <;> simp [hc, show isWordChar '_' = true from rfl]
  | case3 breakable c cs hupper ih =>
    rw [forall_mem_cons] at h ⊢
    exact ⟨h.1, ih h.2⟩

theorem isIdentifier_iff : IsIdentifier name ↔
    (∀ c ∈ name.toList, isWordChar c = true) ∧ name.toList.head?.any isLetter = true := by
  unfold IsIdentifier
  cases name.toList with
  | nil => simp
  | cons c cs =>
    simp [isWordChar]
    tauto

theorem isIdentifier_snake (h : IsIdentifier name) : IsIdentifier (snake name) := by
  rw [isIdentifier_iff, snake, String.toList_ofList]
  refine ⟨isWordChar_of_mem_snakeChars h.isWordChar, ?_⟩
  obtain ⟨c, cs, hname, hc, -⟩ := h
  rw [hname, snakeChars]
  split_ifs with hupper hbreak
  · cases hbreak
  · exact (isUpper_facts hupper).2.1
  · exact hc

/-- Both ways to name a module agree on names without capital letters. -/
theorem plain_eq_moduleName_iff (h : IsIdentifier name) :
    plain name = moduleName name ↔ ∀ c ∈ name.toList, c.isUpper = false := by
  have hmarked : ∀ w ∈ pathWords, snake w ≠ w ++ "_" ∧ snake (w ++ "_") ≠ w := by decide
  rw [← @snakeChars_eq_self_iff false]
  constructor
  · intro heq
    have hsame : name = snake name := by
      rcases eq_or_of_plain_eq (h.notMem rfl) ((isIdentifier_snake h).notMem rfl) heq with
        heq | ⟨hpath, heq⟩ | ⟨hpath, heq⟩
      · exact heq
      · exact absurd heq (hmarked name hpath).1
      · exact absurd (congrArg snake heq).symm (hmarked _ hpath).2
    nth_rewrite 2 [hsame]
    simp [snake]
  · intro heq
    rw [moduleName, snake, heq, String.ofList_toList]

end Identifier

namespace RustTypes

open Identifier

/-- A name of a message from which its module can be told by the first letter. -/
def Telling (name : String) : Prop :=
  name.toList.head?.any Char.isUpper = true ∨ ∀ c ∈ name.toList, c.isUpper = false

variable {name package scope : String} {names : List String} {x : List String × Declared}
  (modules parts : List String)

theorem segment_eq_moduleName_iff (h : IsIdentifier name) :
    segment name = moduleName name ↔ Telling name := by
  unfold segment Telling
  split_ifs with hupper
  · simp [hupper]
  · simp [hupper, plain_eq_moduleName_iff h]

/-! ## Paths -/

/-- The module that a path leads to from another one. There is no way up from the module of the
package. -/
def follow : List String → List String → Option (List String)
  | modules, [] => some modules
  | modules, part :: parts =>
    if part ≠ "super" then follow (modules ++ [part]) parts
    else if modules = [] then none else follow modules.dropLast parts

theorem follow_replicate :
    follow modules (List.replicate modules.length "super" ++ parts) = follow [] parts := by
  induction modules using List.reverseRecOn with
  | nil => rfl
  | append_singleton modules last ih => simpa [replicate_succ, follow] using ih

theorem follow_of_notMem {modules parts : List String} (h : "super" ∉ parts) :
    follow modules parts = some (modules ++ parts) := by
  induction parts generalizing modules with
  | nil => simp [follow]
  | cons part parts ih =>
    rw [mem_cons, not_or] at h
    rw [follow, if_pos (Ne.symm h.1), ih h.2, append_assoc, singleton_append]

theorem insidePackage?_qualify (package name : String) :
    insidePackage? package (qualify package name) = some name := by
  unfold insidePackage? qualify
  split_ifs with h hprefix
  · rfl
  · have hlength : package.length + 1 = (package ++ ".").toList.length := by
      simp [String.length_toList]
    simp only [hlength, String.toList_append, drop_left, String.ofList_toList]
  · exact absurd (List.isPrefixOf_iff_prefix.mpr ⟨name.toList, by simp⟩) hprefix

private theorem join_map_append (last : String) :
    String.join (parts.map (· ++ "::") ++ [last]) = "::".intercalate (parts ++ [last]) := by
  induction parts with
  | nil => simp
  | cons part parts ih =>
    rw [map_cons, cons_append, String.join_cons, ih, cons_append,
      String.intercalate_cons_of_ne_nil (by simp)]

/-- The path of a type goes up to the package, and down to the type. -/
theorem typePath_qualify {last : String} (h : components name = names ++ [last])
    (depth : Nat) :
    typePath package depth ("." ++ qualify package name) =
      "::".intercalate (List.replicate depth "super" ++ names.map segment ++ [last]) := by
  rw [typePath, bare, absolute?_dot, Option.getD_some, insidePackage?_qualify, ← join_map_append]
  simp [h, Function.comp_def]

theorem follow_segments_iff (h : ∀ n ∈ names, IsIdentifier n) (modules : List String) :
    follow modules (List.replicate modules.length "super" ++ names.map segment) =
      some (names.map moduleName) ↔ ∀ n ∈ names, Telling n := by
  have hsuper : "super" ∉ names.map segment := by
    rw [mem_map]
    rintro ⟨n, _, hn⟩
    unfold segment at hn
    split_ifs at hn
    · exact plain_ne_super (snake n) hn
    · exact plain_ne_super n hn
  rw [follow_replicate, follow_of_notMem hsuper, nil_append, Option.some_inj, map_inj_left]
  exact forall₂_congr fun n hn => segment_eq_moduleName_iff (h n hn)

private theorem colon_notMem_segment (h : IsIdentifier name) : ':' ∉ (segment name).toList := by
  unfold segment
  split_ifs
  · exact colon_notMem_plain (isIdentifier_snake h)
  · exact colon_notMem_plain h

def Spelled (modules : List String) (scope : String) (x : List String × Declared) : Prop :=
  ∃ (names : List String) (rest : String), x.1 = modules ++ names.map moduleName ∧
    (∀ n ∈ names, IsIdentifier n) ∧ x.2.fullName = qualify scope rest ∧
    components rest = names ++ [x.2.declaration.name]

def Named (m : Message) : Prop :=
  IsIdentifier m.name ∧ (∀ e ∈ m.enums, IsIdentifier e.name) ∨
    '.' ∉ m.name.toList ∧ m.nested = [] ∧ m.enums = []

theorem Spelled.outer {modules : List String} (hname : IsIdentifier name)
    (h : Spelled (modules ++ [moduleName name]) (qualify scope name) x) :
    Spelled modules scope x := by
  obtain ⟨names, rest, hmodules, hnames, hfull, hparts⟩ := h
  refine ⟨name :: names, name ++ "." ++ rest, ?_, forall_mem_cons.mpr ⟨hname, hnames⟩, ?_, ?_⟩
  · rw [hmodules, map_cons, append_assoc, singleton_append]
  · rw [hfull, qualify_append_dot, qualify, if_neg (qualify_ne_empty hname.ne_empty)]
  · rw [components_append_dot, components_of_notMem hname.dot_notMem, hparts]
    rfl

theorem spelled_self {d : Declared} (hname : '.' ∉ d.declaration.name.toList)
    (hd : d.fullName = qualify scope d.declaration.name) :
    Spelled modules scope (modules, d) :=
  ⟨[], d.declaration.name, by simp, forall_mem_nil _, hd, components_of_notMem hname⟩

/-- How the declaration in the messages with the given names is addressed: its path from any module
leads to the modules of these messages if and only if they can be told from the names. -/
structure Addressed (package : String) (x : List String × Declared)
    (names : List String) : Prop where
  fullName : components x.2.fullName = Name.path package ++ names ++ [x.2.declaration.name]
  modules : x.1 = names.map moduleName
  path : ∀ modules : List String, ∃ parts,
    typePath package modules.length ("." ++ x.2.fullName) =
      "::".intercalate (parts ++ [x.2.declaration.name]) ∧
    (∀ part ∈ parts, ':' ∉ part.toList) ∧
    (follow modules parts = some x.1 ↔ ∀ n ∈ names, Telling n)

theorem Spelled.exists_addressed (h : Spelled [] package x) :
    ∃ names, Addressed package x names := by
  obtain ⟨names, rest, hmodules, hnames, hfull, hparts⟩ := h
  rw [nil_append] at hmodules
  refine ⟨names, ?_, hmodules, fun modules =>
    ⟨List.replicate modules.length "super" ++ names.map segment, ?_, ?_, ?_⟩⟩
  · rw [hfull, components_qualify, hparts, append_assoc]
  · rw [hfull, typePath_qualify hparts]
  · rw [forall_mem_append, forall_mem_map]
    refine ⟨fun part hpart => ?_, fun n hn => colon_notMem_segment (hnames n hn)⟩
    rw [eq_of_mem_replicate hpart]
    decide
  · rw [hmodules]
    exact follow_segments_iff hnames modules

mutual

theorem spelled_located (modules : List String) (scope : String) : ∀ m : Message,
    (∀ n ∈ m.within, Named n) → ∀ x ∈ located modules scope m, Spelled modules scope x
  | m@⟨name, _, _, nested, enums, _, _, _, _, _⟩, h => by
    have hm := h _ (Message.mem_within_self _)
    have hdot : '.' ∉ name.toList := hm.elim (fun h => h.1.dot_notMem) And.left
    rw [located, forall_mem_cons, forall_mem_append, forall_mem_map]
    refine ⟨spelled_self modules hdot rfl, ?_⟩
    rcases hm with ⟨hname, henums⟩ | ⟨_, hnested, henums⟩
    · have hin := spelled_locatedIn (modules ++ [moduleName name]) (qualify scope name) nested
        fun n hn k hk => h k (Message.mem_within_of_nested hn hk)
      exact ⟨fun x hx => .outer hname (hin x hx),
        fun e he => .outer hname (spelled_self _ (henums e he).dot_notMem rfl)⟩
    · dsimp only at hnested henums
      subst hnested henums
      simp [locatedIn]

theorem spelled_locatedIn (modules : List String) (scope : String) : ∀ ms : List Message,
    (∀ m ∈ ms, ∀ n ∈ m.within, Named n) → ∀ x ∈ locatedIn modules scope ms, Spelled modules scope x
  | [], _ => forall_mem_nil _
  | m :: ms, h => by
    obtain ⟨hm, hms⟩ := forall_mem_cons.mp h
    exact forall_mem_append.mpr
      ⟨spelled_located modules scope m hm, spelled_locatedIn modules scope ms hms⟩

end

variable {t : TypeDecl} {line : Line}

mutual

/-- The lines of what stands in a type are written for the depth of its modules. -/
theorem exists_indent_mem_lines {modules : List String} {x : Member} (hx : x ∈ t.members)
    (hline : line ∈ x.lines package modules.length) :
    ∀ (item : Item) (around : List String), (modules, t) ∈ item.types around →
      ∃ k, Line.indent^[k] line ∈ item.lines package around.length
  | .type decl, around, h => by
    obtain ⟨rfl, rfl⟩ := Prod.mk.inj (mem_singleton.mp h)
    refine ⟨1, mem_append_right _ (.tail _ (mem_append_left _ ?_))⟩
    exact mem_map_of_mem (mem_flatMap.mpr ⟨x, hx, hline⟩)
  | .module message items, around, h => by
    obtain ⟨k, hk⟩ := exists_indent_mem_linesAll hx hline items (around ++ [moduleName message]) h
    rw [length_append] at hk
    refine ⟨k + 1, .tail _ (.tail _ (mem_append_left _ ?_))⟩
    rw [Function.iterate_succ_apply']
    exact mem_map_of_mem hk

theorem exists_indent_mem_linesAll {modules : List String} {x : Member} (hx : x ∈ t.members)
    (hline : line ∈ x.lines package modules.length) :
    ∀ (items : List Item) (around : List String), (modules, t) ∈ typesAll around items →
      ∃ k, Line.indent^[k] line ∈ linesAll package around.length items
  | [], _, h => absurd h not_mem_nil
  | item :: items, around, h => by
    rcases mem_append.mp h with h | h
    · obtain ⟨k, hk⟩ := exists_indent_mem_lines hx hline item around h
      exact ⟨k, .tail _ (mem_append_left _ hk)⟩
    · obtain ⟨k, hk⟩ := exists_indent_mem_linesAll hx hline items around h
      exact ⟨k, .tail _ (mem_append_right _ hk)⟩

end

theorem exists_mem_declaredTypes {ctx : Context} {x : List String × Declared}
    (h : ∀ m, x.2.declaration = .message m → m.isMapEntry = false) :
    ∃ t, (x.1, t) ∈ declaredTypes ctx x ∧ t.name.text = x.2.declaration.name := by
  obtain ⟨modules, fullName, m | e | s⟩ := x
  · rw [declaredTypes, h m rfl]
    exact ⟨_, mem_cons_self, rfl⟩
  · exact ⟨_, mem_cons_self, rfl⟩
  · exact ⟨_, mem_cons_self, rfl⟩

/-! ## Files that were read and linked -/

section Linked

variable {path source : String} {file : File} {locations : List Location}
  {dependencies : List LinkedFile} {l : LinkedFile}
  (hparse : parse path source = .ok (file, locations)) (hlink : link file dependencies = .ok l)
include hparse hlink

theorem named_of_link {n : Message} (hn : n ∈ l.file.allMessages) : Named n := by
  obtain ⟨_, fullName, hholds⟩ := File.exists_holds_of_mem_allMessages hn
  obtain ⟨m, _, hgiven, h⟩ := exists_source hparse hlink hholds
  have henums : n.enums = m.enums := by rw [h.rest]
  rw [Named, h.name_eq, henums]
  refine hgiven.isIdentifier_or.imp (And.imp_right fun h e he => (h e he).name) ?_
  rintro ⟨hname, hnested, hnone⟩
  exact ⟨hname, forall₂_nil_left_iff.mp (hnested ▸ h.nested), hnone⟩

theorem spelled_of_link (hx : x ∈ declarations l.file) : Spelled [] l.file.scope x := by
  have hwritten := written_of_parse hparse
  rcases mem_append.mp hx with hx | hx
  · exact spelled_locatedIn [] _ _
      (fun m hm n hn => named_of_link hparse hlink (mem_flatMap.mpr ⟨m, hm, hn⟩)) x hx
  rcases mem_append.mp hx with hx | hx
  · obtain ⟨e, he, rfl⟩ := mem_map.mp hx
    rw [(linksTo_of_link hlink).1.rest] at he
    exact spelled_self [] (hwritten.enums e he).name.dot_notMem rfl
  · obtain ⟨t, ht, rfl⟩ := mem_map.mp hx
    obtain ⟨s, hs, hst⟩ := exists_mem_of_forall₂ (partsLinkTo_of_link hlink).services ht
    have hname : t.name = s.name := by rw [(Service.linksTo_of_link hst).rest]
    exact spelled_self []
      (hname ▸ (hwritten.services s hs).name.dot_notMem : '.' ∉ t.name.toList) rfl

end Linked

/-- Each member of a type is written with paths for the modules around the type. The path of a
declaration goes up to the module of the package and down by the names of the messages around the
declaration, to its own name; it leads to the modules that are opened for these messages if and only
if each of their names begins with a capital letter or has none. -/
theorem addressed_of_link {path source : String} {file : File} {locations : List Location}
    {dependencies : List LinkedFile} {l : LinkedFile}
    (hparse : parse path source = .ok (file, locations)) (hlink : link file dependencies = .ok l)
    (mapType : MapType) :
    (∀ x ∈ typesAll [] (outline ⟨l, mapType⟩), ∀ member ∈ x.2.members,
      ∀ line ∈ member.lines l.file.scope x.1.length,
        ∃ k, Line.indent^[k] line ∈ linesAll l.file.scope 0 (outline ⟨l, mapType⟩)) ∧
    ∀ x ∈ declarations l.file, (∃ names, Addressed l.file.scope x names) ∧
      (file.NoneMarked locations → (∀ m, x.2.declaration = .message m → m.isMapEntry = false) →
        ∃ t, (x.1, t) ∈ typesAll [] (outline ⟨l, mapType⟩) ∧
          t.name.text = x.2.declaration.name) := by
  refine ⟨fun x hx member hmember line hline =>
    exists_indent_mem_linesAll hmember hline _ [] hx, fun x hx =>
      ⟨(spelled_of_link hparse hlink hx).exists_addressed, fun hmarked hentry => ?_⟩⟩
  obtain ⟨t, ht, hname⟩ := @exists_mem_declaredTypes ⟨l, mapType⟩ x hentry
  refine ⟨t, (types_outline ?_ ?_).mem_iff.mpr (List.mem_flatMap.mpr ⟨x, hx, ht⟩), hname⟩
  · exact fun _ => flat_of_link hparse hmarked hlink
  · exact fun _ => isMapEntry_eq_false_of_link hparse hmarked hlink

def upAndDown : String :=
  "package p;message A\x7bmessage B\x7boptional C.D d=1;\x7d\x7dmessage C\x7bmessage D\x7b\x7d\x7d"

theorem addressed_of_link_upAndDown :
    ∃ file locations l, parse "a" upAndDown = .ok (file, locations) ∧ link file [] = .ok l ∧
      shown ⟨l, .hash⟩ = [([], "A", []), (["a"], "B", ["d: Option<Box<super::c::D>>,"]),
        ([], "C", []), (["c"], "D", [])] ∧
      (∀ x ∈ typesAll [] (outline ⟨l, .hash⟩), ∀ member ∈ x.2.members,
        ∀ line ∈ member.lines l.file.scope x.1.length,
          ∃ k, Line.indent^[k] line ∈ linesAll l.file.scope 0 (outline ⟨l, .hash⟩)) ∧
      ∀ x ∈ declarations l.file, (∃ names, Addressed l.file.scope x names) ∧
        (file.NoneMarked locations → (∀ m, x.2.declaration = .message m → m.isMapEntry = false) →
          ∃ t, (x.1, t) ∈ typesAll [] (outline ⟨l, .hash⟩) ∧
            t.name.text = x.2.declaration.name) := by
  have hshown : (LinkedFile.make? "a" upAndDown []).map (fun l => shown ⟨l, .hash⟩) =
      some [([], "A", []), (["a"], "B", ["d: Option<Box<super::c::D>>,"]),
        ([], "C", []), (["c"], "D", [])] := by
    decide +kernel
  obtain ⟨l, hl, htypes⟩ := Option.map_eq_some_iff.mp hshown
  obtain ⟨file, locations, hparse, hlink⟩ := LinkedFile.make?_eq_some_iff.mp hl
  exact ⟨file, locations, l, hparse, hlink, htypes, addressed_of_link hparse hlink .hash⟩

/-- A capital letter that is not the first one: the module has another name than the path. -/
theorem not_follow_fooBar :
    ∃ l : LinkedFile, l.MadeOf "a"
        "message fooBar\x7bmessage X\x7b\x7d\x7dmessage A\x7boptional fooBar.X x=1;\x7d" [] ∧
      shown ⟨l, .hash⟩ = [([], "fooBar", []), (["foo_bar"], "X", []),
        ([], "A", ["x: Option<Box<fooBar::X>>,"])] ∧
      follow [] ["fooBar"] ≠ some ["foo_bar"] := by
  have hshown : (LinkedFile.make? "a"
      "message fooBar\x7bmessage X\x7b\x7d\x7dmessage A\x7boptional fooBar.X x=1;\x7d" []).map
        (fun l => shown ⟨l, .hash⟩) =
      some [([], "fooBar", []), (["foo_bar"], "X", []),
        ([], "A", ["x: Option<Box<fooBar::X>>,"])] := by
    decide +kernel
  obtain ⟨l, hl, htypes⟩ := Option.map_eq_some_iff.mp hshown
  exact ⟨l, LinkedFile.make?_eq_some_iff.mp hl, htypes, by decide⟩

end RustTypes

end ProtoSchema
