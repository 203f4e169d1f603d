import Mathlib.Data.List.Infix
import ProtoSchema.Proofs.Link.Printed

/-!
The index of a file: its declarations by full name, kind and path, listed before the file is
linked. The index of a linked file is that of the file it was made of. Main statement: it lists each
declaration of the linked file once, under a name of its own, and a look-up by that name gives what
is found at the end of the path.
-/

namespace ProtoSchema

open List

variable {m : Message} {i : Nat} {file : File}

/-! ## Following paths -/

namespace Message

/-- The names of what a path leads through, its end included. -/
def namesAlong (m : Message) (path : List Step) : List String :=
  path.inits.filterMap fun p => (m.at? p).map Declaration.name

end Message

namespace File

/-- The names of what a path leads through, its end included. -/
def namesAlong (file : File) (path : List Step) : List String :=
  path.inits.filterMap fun p => (file.at? p).map Declaration.name

end File

namespace Message

theorem namesAlong_cons {n : Message} (h : m.nested[i]? = some n) (path : List Step) :
    m.namesAlong (.message i :: path) = m.name :: n.namesAlong path := by
  have hstep : ∀ p, m.at? (.message i :: p) = n.at? p := by simp [at?, h]
  simp only [namesAlong, inits_cons, filterMap_cons, filterMap_map, Function.comp_def, hstep]
  rfl

theorem namesAlong_enum {e : Enum} (h : m.enums[i]? = some e) :
    m.namesAlong [.enum i] = [m.name, e.name] := by
  simp [namesAlong, at?, h, Declaration.name]

/-- A path leads to the declaration at its end, whose full name joins the names along the path. -/
theorem holds_iff_at? {scope : String} {path : List Step} {d : ProtoSchema.Declared} :
    m.Holds scope path d ↔
      m.at? path = some d.declaration ∧
        d.fullName = (m.namesAlong path).foldl Name.qualify scope := by
  constructor
  · intro h
    refine ⟨h.at?_eq, ?_⟩
    induction h with
    | self => rfl
    | nested hn _ ih => rw [namesAlong_cons hn, foldl_cons, ih]
    | enum he => rw [namesAlong_enum he]; rfl
  · rintro ⟨hat, hname⟩
    obtain ⟨fullName, declaration⟩ := d
    dsimp only at hat hname
    subst hname
    fun_induction at? m path generalizing scope with
    | case1 m =>
      cases hat
      exact .self scope m
    | case2 m i path ih =>
      obtain ⟨n, hn, hat⟩ := Option.bind_eq_some_iff.mp hat
      rw [namesAlong_cons hn, foldl_cons]
      exact .nested hn (ih n hat)
    | case3 m i =>
      obtain ⟨e, he, rfl⟩ := Option.map_eq_some_iff.mp hat
      rw [namesAlong_enum he]
      exact .enum he
    | case4 => cases hat

end Message

namespace File

theorem namesAlong_cons (h : file.messages[i]? = some m) (path : List Step) :
    file.namesAlong (.message i :: path) = m.namesAlong path := by
  have hstep : ∀ p, file.at? (.message i :: p) = m.at? p := by simp [at?, h]
  simp only [namesAlong, inits_cons, filterMap_cons, filterMap_map, Function.comp_def, hstep]
  rfl

theorem namesAlong_enum {e : Enum} (h : file.enums[i]? = some e) :
    file.namesAlong [.enum i] = [e.name] := by
  simp [namesAlong, at?, h, Declaration.name]

theorem namesAlong_service {s : Service} (h : file.services[i]? = some s) :
    file.namesAlong [.service i] = [s.name] := by
  simp [namesAlong, at?, h, Declaration.name]

theorem holds_iff_at? {path : List Step} {d : Declared} :
    file.Holds path d ↔
      file.at? path = some d.declaration ∧
        d.fullName = (file.namesAlong path).foldl Name.qualify file.scope := by
  constructor
  · intro h
    refine ⟨h.at?_eq, ?_⟩
    cases h with
    | message hm h =>
      rw [namesAlong_cons hm]
      exact (Message.holds_iff_at?.mp h).2
    | enum he => rw [namesAlong_enum he]; rfl
    | service hs => rw [namesAlong_service hs]; rfl
  · rintro ⟨hat, hname⟩
    obtain ⟨fullName, declaration⟩ := d
    dsimp only at hat hname
    subst hname
    unfold at? at hat
    split at hat
    · obtain ⟨m, hm, hat⟩ := Option.bind_eq_some_iff.mp hat
      rw [namesAlong_cons hm]
      exact .message hm (Message.holds_iff_at?.mpr ⟨hat, rfl⟩)
    · next i =>
      obtain ⟨e, he, rfl⟩ := Option.map_eq_some_iff.mp hat
      rw [namesAlong_enum he]
      exact .enum he
    · next i =>
      obtain ⟨s, hs, rfl⟩ := Option.map_eq_some_iff.mp hat
      rw [namesAlong_service hs]
      exact .service hs
    · cases hat

end File

/-! ## The index -/

def IndexEntry.signature (e : IndexEntry) : String × Kind :=
  (e.fullName, e.kind)

namespace File

theorem index_map_path (file : File) :
    file.index.map IndexEntry.path = file.placed.map Prod.fst := by
  rw [index, map_map]
  rfl

theorem index_map_fullName (file : File) :
    file.index.map IndexEntry.fullName = file.declared.map Declared.fullName := by
  rw [index, ← placed_map_snd, map_map, map_map]
  rfl

theorem mem_index {e : IndexEntry} :
    e ∈ file.index ↔ ∃ declaration, file.Holds e.path ⟨e.fullName, declaration⟩ ∧
      declaration.kind = e.kind := by
  constructor
  · intro h
    obtain ⟨⟨path, d⟩, hx, rfl⟩ := mem_map.mp h
    exact ⟨d.declaration, mem_placed.mp hx, rfl⟩
  · rintro ⟨declaration, hholds, hkind⟩
    obtain ⟨fullName, kind, path⟩ := e
    cases hkind
    exact mem_map.mpr ⟨_, mem_placed.mpr hholds, rfl⟩

theorem index_map_signature (file : File) :
    file.index.map IndexEntry.signature = file.declared.map Declared.signature := by
  rw [index, ← placed_map_snd, map_map, map_map]
  rfl

end File

/-- Linking changes neither the names and kinds of declarations nor their places. -/
theorem index_of_link {dependencies : List LinkedFile} {l : LinkedFile}
    (h : link file dependencies = .ok l) : l.file.index = file.index := by
  refine (map_eq_of_forall₂ (linksTo_of_link h).1.declared ?_).symm
  rintro ⟨path, d⟩ _ ⟨path', d'⟩ ⟨hpath, hlinks⟩
  obtain rfl : path = path' := hpath
  rw [IndexEntry.mk.injEq]
  exact ⟨hlinks.fullName_eq.symm, hlinks.kind_eq.symm, rfl⟩

/-! ## Look-ups by name -/

/-- Where no name is listed twice, a position is found from its name and from no other. -/
theorem findIdx?_fullName_eq_some_iff {es : List IndexEntry}
    (h : (es.map IndexEntry.fullName).Nodup) {name : String} :
    es.findIdx? (fun e => e.fullName = name) = some i ↔
      (es.map IndexEntry.fullName)[i]? = some name := by
  rw [findIdx?_eq_some_iff_getElem]
  constructor
  · rintro ⟨hi, hname, _⟩
    rw [getElem?_map, getElem?_eq_getElem hi, Option.map_some, of_decide_eq_true hname]
  · intro hname
    obtain ⟨hi, hname⟩ := List.getElem?_eq_some_iff.mp hname
    have hlt : i < es.length := by rwa [List.length_map] at hi
    rw [List.getElem_map] at hname
    refine ⟨hlt, decide_eq_true hname, fun j hj hsame => ?_⟩
    have hjlt : j < (es.map IndexEntry.fullName).length := Nat.lt_trans hj hi
    have heq : (es.map IndexEntry.fullName)[j] = (es.map IndexEntry.fullName)[i] := by
      rw [List.getElem_map, List.getElem_map, of_decide_eq_true hsame, hname]
    exact absurd (h.getElem_inj_iff.mp heq) (Nat.ne_of_lt hj)

theorem LinkedFile.position?_eq (l : LinkedFile) (name : String) :
    l.position? name = l.declared.findIdx? fun d => d.fullName = name := by
  rw [position?, declared, ← File.placed_map_snd, File.index, findIdx?_map, findIdx?_map]
  rfl

/-- The index describes the declarations of a linked file. -/
structure LinkedFile.Indexed (l : LinkedFile) (index : List IndexEntry) : Prop where
  /-- The declarations are listed under these names and kinds, in this order. -/
  listed : l.declared.map Declared.signature = index.map IndexEntry.signature
  once : (index.map IndexEntry.path).Nodup
  /-- Every declaration at any depth is listed, and nothing else. -/
  complete : ∀ path, path ∈ index.map IndexEntry.path ↔ (l.file.at? path).isSome
  /-- A full name is made of the package and the names on the way to the declaration. -/
  joined : ∀ e ∈ index, e.fullName = (l.file.namesAlong e.path).foldl Name.qualify l.file.scope
  distinct : (index.map IndexEntry.fullName).Nodup
  /-- A name is found at the position of its own entry, and other names are not found. -/
  position : ∀ name i, l.position? name = some i ↔
    (index.map IndexEntry.fullName)[i]? = some name
  byPosition : ∀ name, l.get? ("." ++ name) = (l.position? name).bind fun i => l.declared[i]?
  /-- What is found by name is the declaration at the end of the path, and of the kind listed. -/
  found : ∀ e ∈ index, ∃ declaration, l.file.at? e.path = some declaration ∧
    declaration.kind = e.kind ∧ l.get? ("." ++ e.fullName) = some ⟨e.fullName, declaration⟩

theorem LinkedFile.get?_dot (l : LinkedFile) (name : String) :
    l.get? ("." ++ name) = Declared.find? l.declared name := by
  rw [get?_eq_find?, Name.bare_dot]

/-- The index of a file, made before its references are resolved, describes the linked file. -/
theorem indexed_of_link {file : File} {dependencies : List LinkedFile} {l : LinkedFile}
    (h : link file dependencies = .ok l) : l.Indexed file.index := by
  have hnodup : (l.declared.map Declared.fullName).Nodup := by
    rw [map_fullName_of_link h]
    exact nodup_fullName_of_link h
  rw [← index_of_link h]
  refine ⟨l.file.index_map_signature.symm, ?_, fun path => ?_, fun e he => ?_, ?_, fun name i => ?_,
    fun name => ?_, fun e he => ?_⟩
  · rw [File.index_map_path]
    exact l.file.placed_paths_nodup
  · rw [File.index_map_path, List.mem_map, Option.isSome_iff_exists]
    constructor
    · rintro ⟨⟨_, d⟩, hd, rfl⟩
      exact ⟨d.declaration, (File.holds_iff_at?.mp (File.mem_placed.mp hd)).1⟩
    · rintro ⟨declaration, hat⟩
      have hholds : l.file.Holds path ⟨_, declaration⟩ := File.holds_iff_at?.mpr ⟨hat, rfl⟩
      exact ⟨(path, _), File.mem_placed.mpr hholds, rfl⟩
  · obtain ⟨declaration, hholds, _⟩ := File.mem_index.mp he
    exact (File.holds_iff_at?.mp hholds).2
  · rw [File.index_map_fullName]
    exact hnodup
  · exact findIdx?_fullName_eq_some_iff (l.file.index_map_fullName ▸ hnodup)
  · rw [LinkedFile.get?_dot, l.position?_eq, Declared.find?]
    simpa using (bind_findIdx?_getElem? _ some l.declared).symm
  · obtain ⟨declaration, hholds, hkind⟩ := File.mem_index.mp he
    refine ⟨declaration, (File.holds_iff_at?.mp hholds).1, hkind, ?_⟩
    rw [LinkedFile.get?_dot]
    exact Declared.find?_of_mem hnodup (File.mem_declared_iff.mpr ⟨e.path, hholds⟩)

def nestedFile : File where
  name := "t"
  package := some "p"
  messages :=
    [{ name := "Outer"
       fields := [{ name := "inner", number := 1, label := .optional, typeName := some "Inner" }]
       nested := [{ name := "Inner", enums := [{ name := "Kind", values := [⟨"A", 0, []⟩] }] }]
       enums := [{ name := "Mode", values := [⟨"M", 0, []⟩] }] }]
  enums := [{ name := "Top", values := [⟨"T", 0, []⟩] }]
  services := [{ name := "S", methods := [{ name := "call", inputType := "Outer",
                                            outputType := "Outer.Inner" }] }]

theorem indexed_of_link_nestedFile :
    ∃ l, link nestedFile [] = .ok l ∧ l.file ≠ nestedFile ∧
      nestedFile.index =
        [⟨"p.Outer", .message, [.message 0]⟩, ⟨"p.Outer.Inner", .message, [.message 0, .message 0]⟩,
          ⟨"p.Outer.Inner.Kind", .enum, [.message 0, .message 0, .enum 0]⟩,
          ⟨"p.Outer.Mode", .enum, [.message 0, .enum 0]⟩, ⟨"p.Top", .enum, [.enum 0]⟩,
          ⟨"p.S", .service, [.service 0]⟩] ∧
      l.Indexed nestedFile.index := by
  have hlinked : (link nestedFile []).toOption.any (fun l => l.file ≠ nestedFile) = true := by
    decide +kernel
  obtain ⟨l, hl, hne⟩ := (Option.any_eq_true _ _).mp hlinked
  rw [toOption_eq_some_iff] at hl
  exact ⟨l, hl, of_decide_eq_true hne, by decide +kernel, indexed_of_link hl⟩

end ProtoSchema
