import ProtoSchema.Proofs.Compiler.WellKnown

/-!
The bundled texts of the well-known files. They can all be read and linked, which is found by
running the reader and the linker on their characters.
-/

namespace ProtoSchema

open List Option

variable {cs : List Char} {texts : List (String × String)} {path : String}

namespace WellKnown

/-! ## The texts by their characters

A text is made of lines. Each line is matched with its characters, so that nothing has to be decoded
when the reader is run. -/

inductive LinesOf : List String → List Char → Prop
  | nil : LinesOf [] []
  | cons {lines : List String} {cs : List Char} (line : List Char) (h : LinesOf lines cs) :
      LinesOf (String.ofList line :: lines) (line ++ '\n' :: cs)

/-- Texts under their paths, and the characters of each. -/
inductive TextsOf : List (String × String) → List (String × List Char) → Prop
  | nil : TextsOf [] []
  | cons {path : String} {lines : List String} {cs : List Char} {texts : List (String × String)}
      {spelled : List (String × List Char)} (h : LinesOf lines cs) (k : TextsOf texts spelled) :
      TextsOf ((path, ofLines lines) :: texts) ((path, cs) :: spelled)

private theorem ofLines_eq {lines : List String} (h : LinesOf lines cs) :
    ofLines lines = String.ofList cs := by
  induction h with
  | nil => rfl
  | @cons lines cs line _ ih =>
    have hjoin : ofLines (String.ofList line :: lines) =
        String.ofList line ++ "\n" ++ ofLines lines := by
      rw [ofLines, map_cons, String.join_cons]
      rfl
    rw [hjoin, ih]
    apply String.toList_injective
    simp

def parseChars (path : String) (cs : List Char) : Except ParseError (File × List Location) :=
  let r := readInto { name := path } (.ofLexemes (Scan.lexemes .origin cs))
  if r.complete && r.diagnostics.isEmpty then .ok (r.file, r.locations)
  else .error ⟨path, r.diagnostics⟩

def addChars (linker : Linker) (library : Library) (path : String) (cs : List Char) :
    Except CompileError Library := do
  let (file, _) ← (parseChars path cs).mapError .parse
  let linked ← (library.link linker file).mapError .link
  return library ++ [(path, linked)]

private theorem parse_ofList (path : String) (cs : List Char) :
    parse path (String.ofList cs) = parseChars path cs := by
  rw [parse, readFile, Cursor.ofSource, lex, String.toList_ofList]
  rfl

theorem foldlM_add_eq {spelled : List (String × List Char)} (h : TextsOf texts spelled)
    (linker : Linker) (library : Library) :
    texts.foldlM (fun library (path, text) => add linker library path text) library =
      spelled.foldlM (fun library (path, cs) => addChars linker library path cs) library := by
  induction h generalizing library with
  | nil => rfl
  | @cons path lines cs texts spelled hlines _ ih =>
    have hadd : add linker library path (ofLines lines) = addChars linker library path cs := by
      rw [add, ofLines_eq hlines, parse_ofList, addChars]
    rw [foldlM_cons, foldlM_cons]
    dsimp only
    rw [hadd]
    exact congrArg _ (funext ih)

/-! ## Files that import nothing -/

/-- A text whose file imports nothing and can be linked. -/
def StandsAlone (path : String) (cs : List Char) : Prop :=
  ∃ file locations l, parseChars path cs = .ok (file, locations) ∧ file.imports = [] ∧
    link file [] = .ok l

/-- Whether a text can be read and its file keeps a rule. -/
def keeps (rule : File → Bool) (path : String) (cs : List Char) : Bool :=
  (parseChars path cs).toOption.any fun (file, _) => rule file

theorem exists_of_keeps {rule : File → Bool} (h : keeps rule path cs = true) :
    ∃ file locations, parseChars path cs = .ok (file, locations) ∧ rule file = true := by
  obtain ⟨⟨file, locations⟩, hparse, hrule⟩ := (any_eq_true _ _).mp h
  exact ⟨file, locations, toOption_eq_some_iff.mp hparse, hrule⟩

variable {ε α : Type} {file : File}

private theorem isSome_toOption_iff {x : Except ε α} :
    x.toOption.isSome = true ↔ ∃ a, x = .ok a := by
  rw [isSome_iff_exists]
  exact exists_congr fun _ => toOption_eq_some_iff

theorem imports_of_link {l : LinkedFile} (h : link file [] = .ok l) : file.imports = [] := by
  obtain ⟨_, himports, hdependencies⟩ := kept_of_link h
  rw [← himports, ← map_name_of_link h, hdependencies]
  rfl

theorem standsAlone_of_keeps
    (h : keeps (fun file => (link file []).toOption.isSome) path cs = true) :
    StandsAlone path cs := by
  obtain ⟨file, locations, hparse, hlinks⟩ := exists_of_keeps h
  obtain ⟨l, hl⟩ := isSome_toOption_iff.mp hlinks
  exact ⟨file, locations, l, hparse, imports_of_link hl, hl⟩

/-- Whether a file that imports nothing keeps the rules that do not ask what its references mean. -/
def outlined (file : File) : Bool :=
  (LinkFault.checkDependencies file []).toOption.isSome &&
    (LinkFault.checkNesting file).toOption.isSome &&
    (LinkFault.checkNames file []).toOption.isSome

/-- Whether the references of a file have a meaning, of whose messages only these are looked at. -/
def resolves (file : File) (messages : List Message) : Bool :=
  ({ file with messages }.resolve (.ofFile file [])).toOption.isSome

theorem resolves_append {ms ns : List Message} (hms : resolves file ms = true)
    (hns : resolves file ns = true) : resolves file (ms ++ ns) = true := by
  rw [resolves, isSome_toOption_iff, File.resolve, exists_bind_eq_ok] at *
  obtain ⟨ms', hms', hothers⟩ := hms
  obtain ⟨ns', hns', _⟩ := hns
  refine ⟨ms' ++ ns', ?_, ?_⟩
  · rw [Message.linkAll_eq_ok_iff] at *
    exact rel_append hms' hns'
  · simp only [exists_bind_eq_ok, exists_pure_eq_ok, and_true] at *
    exact hothers

theorem exists_link_of_resolves (hrules : outlined file = true)
    (h : resolves file file.messages = true) : ∃ l, link file [] = .ok l := by
  simp only [outlined, Bool.and_eq_true, isSome_toOption_iff, exists_unit_eq_ok] at hrules
  obtain ⟨⟨himports, hnesting⟩, hnames⟩ := hrules
  obtain ⟨file', hfile'⟩ := isSome_toOption_iff.mp h
  have hlinked : file.linked [] = .ok ⟨file', [], []⟩ := by
    rw [File.linked, himports, hnesting]
    change (LinkFault.checkNames file [] >>= fun _ => file.resolve (.ofFile file []) >>= _) = _
    rw [hnames]
    change (file.resolve (.ofFile file []) >>= _) = _
    rw [hfile']
    rfl
  rw [link, hlinked]
  exact ⟨_, rfl⟩

/-- A file can be linked in two runs, each of which looks at some of its messages. -/
theorem standsAlone_of_keeps_parts (n : Nat)
    (hfirst : keeps (fun file => outlined file && resolves file (file.messages.take n)) path cs =
      true) (hrest : keeps (fun file => resolves file (file.messages.drop n)) path cs = true) :
    StandsAlone path cs := by
  obtain ⟨file, locations, hparse, hrules⟩ := exists_of_keeps hfirst
  obtain ⟨file', locations', hparse', hbehind⟩ := exists_of_keeps hrest
  obtain ⟨rfl, rfl⟩ := Prod.mk.inj (Except.ok.inj (hparse.symm.trans hparse'))
  obtain ⟨houtlined, hahead⟩ := Bool.and_eq_true_iff.mp hrules
  have hall := resolves_append hahead hbehind
  rw [take_append_drop] at hall
  obtain ⟨l, hl⟩ := exists_link_of_resolves houtlined hall
  exact ⟨file, locations, l, hparse, imports_of_link hl, hl⟩

inductive Alone : List (String × String) → Prop
  | nil : Alone []
  | cons {path : String} {lines : List String} {cs : List Char} {texts : List (String × String)}
      (h : LinesOf lines cs) (halone : StandsAlone path cs) (k : Alone texts) :
      Alone ((path, ofLines lines) :: texts)

theorem exists_add_of_standsAlone (h : StandsAlone path cs) (library : Library) :
    ∃ l, add link library path (String.ofList cs) = .ok (library ++ [(path, l)]) := by
  obtain ⟨file, locations, l, hparse, himports, hlink⟩ := h
  refine ⟨l, add_eq_ok_iff.mpr ⟨file, locations, l, ?_, ?_, rfl⟩⟩
  · rw [parse_ofList, hparse]
  · rw [Library.link, Library.dependencies, himports]
    exact hlink

/-- Texts that stand alone can be added to every library. -/
theorem Alone.exists_foldlM (h : Alone texts) (library : Library) : ∃ more,
      texts.foldlM (fun library (path, text) => add link library path text) library =
        .ok (library ++ more) := by
  induction h generalizing library with
  | nil => exact ⟨[], by rw [append_nil]; rfl⟩
  | @cons path lines cs texts hlines halone _ ih =>
    obtain ⟨l, hl⟩ := exists_add_of_standsAlone halone library
    obtain ⟨more, hmore⟩ := ih (library ++ [(path, l)])
    refine ⟨(path, l) :: more, ?_⟩
    rw [foldlM_cons]
    dsimp only
    rw [ofLines_eq hlines, hl]
    exact hmore.trans (by rw [append_assoc]; rfl)

/-! ## The whole library -/

/-- Whether `type.proto` is there and depends on an `any.proto` that declares `Any`. -/
def hasTypeOverAny (library : Library) : Bool :=
  (library.lookup "google/protobuf/type.proto").any fun l =>
    l.dependencies.any fun d =>
      d.name = "google/protobuf/any.proto" && d.file.messages.map Message.name = ["Any"]

theorem hasTypeOverAny_append {library : Library} (h : hasTypeOverAny library = true)
    (more : Library) : hasTypeOverAny (library ++ more) = true := by
  obtain ⟨l, hl, hany⟩ := (any_eq_true _ _).mp h
  refine (any_eq_true _ _).mpr ⟨l, ?_, hany⟩
  rw [lookup_append, hl]
  rfl

def importingTexts : List (String × String) :=
  [("google/protobuf/any.proto", any),
    ("google/protobuf/source_context.proto", sourceContext),
    ("google/protobuf/type.proto", typeText),
    ("google/protobuf/api.proto", api)]

def aloneTexts : List (String × String) :=
  [("google/protobuf/duration.proto", duration),
    ("google/protobuf/empty.proto", empty),
    ("google/protobuf/field_mask.proto", fieldMask),
    ("google/protobuf/struct.proto", structText),
    ("google/protobuf/timestamp.proto", timestamp),
    ("google/protobuf/wrappers.proto", wrappers),
    ("google/protobuf/descriptor.proto", descriptor)]

theorem exists_importing : ∃ first, importingTexts.foldlM
    (fun library (path, text) => add link library path text) [] = .ok first ∧
      hasTypeOverAny first = true := by
  obtain ⟨spelled, hspelled, hrun⟩ : ∃ spelled, TextsOf importingTexts spelled ∧
      ((spelled.foldlM (fun library (path, cs) => addChars link library path cs) []).toOption.any
        hasTypeOverAny) = true := by
    constructor
    constructor
    · repeat constructor
    · decide +kernel
  rw [foldlM_add_eq hspelled]
  obtain ⟨first, hfirst, hhas⟩ := (any_eq_true _ _).mp hrun
  exact ⟨first, toOption_eq_some_iff.mp hfirst, hhas⟩

set_option maxRecDepth 20000 in
theorem alone_aloneTexts : Alone aloneTexts := by
  iterate 6
    apply Alone.cons
    · repeat constructor
    · exact standsAlone_of_keeps (by decide +kernel)
  -- the last text is by far the longest, and linking all of it at once takes too much memory
  apply Alone.cons
  · repeat constructor
  · exact standsAlone_of_keeps_parts 6 (by decide +kernel) (by decide +kernel)
  exact .nil

private theorem foldlM_append_of_ok {β : Type} {f : β → α → Except ε β} {xs : List α} {b c : β}
    (h : xs.foldlM f b = .ok c) (ys : List α) : (xs ++ ys).foldlM f b = ys.foldlM f c := by
  rw [foldlM_append, h]
  rfl

/-- All well-known files can be read and linked. -/
theorem exists_library :
    ∃ known, library link = .ok known ∧ hasTypeOverAny known = true := by
  obtain ⟨first, hfirst, hhas⟩ := exists_importing
  obtain ⟨more, hmore⟩ := alone_aloneTexts.exists_foldlM first
  refine ⟨first ++ more, ?_, hasTypeOverAny_append hhas more⟩
  rw [library, show texts = importingTexts ++ aloneTexts from rfl, foldlM_append_of_ok hfirst]
  exact hmore

end WellKnown

end ProtoSchema
