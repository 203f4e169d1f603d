import ProtoSchema.Grammar.File
import ProtoSchema.Proofs.Grammar.Nested
import ProtoSchema.Proofs.Grammar.Service

/-!
The statements of a file, read and printed.
-/

namespace ProtoSchema

open Scan List

variable {ks : List (ImportKind × String)} {Q : Unit → File → Word → Prop}

/-! ## Imports -/

namespace File

def placesOf (kind : ImportKind) (ks : List (ImportKind × String)) : List Nat :=
  ks.zipIdx.filterMap fun (k, i) => if k.1 = kind then some i else none

theorem placesOf_concat (kind : ImportKind) (ks : List (ImportKind × String))
    (k : ImportKind × String) :
    placesOf kind (ks ++ [k]) = placesOf kind ks ++ if k.1 = kind then [ks.length] else [] := by
  rw [placesOf, zipIdx_append, filterMap_append]
  split <;> simp [placesOf, *]

private theorem contains_placesOf (kind : ImportKind) {k : ImportKind × String} {i : Nat}
    (h : ks[i]? = some k) : (placesOf kind ks).contains i = decide (k.1 = kind) := by
  rw [Bool.eq_iff_iff]
  simp [placesOf, mem_zipIdx_iff_getElem?, h]

/-- The lists of a file with the given imports, each of another path. -/
structure Imported (ks : List (ImportKind × String)) (paths : List String)
    (shared weak : List Nat) : Prop where
  paths : paths = ks.map Prod.snd
  shared : shared = placesOf .shared ks
  weak : weak = placesOf .weak ks
  distinct : (ks.map Prod.snd).Nodup

def ImportKind.modifier : ImportKind → String
  | plain => ""
  | shared => "public "
  | weak => "weak "

theorem Imported.lines_eq {file : File}
    (h : Imported ks file.imports file.publicImports file.weakImports) :
    file.imports.mapIdx file.importLine =
      ks.map fun k => Line.of ("import " ++ k.1.modifier ++ literal k.2 ++ ";") := by
  refine ext_getElem? fun i => ?_
  rw [getElem?_mapIdx, getElem?_map, h.paths, getElem?_map, Option.map_map]
  cases hk : ks[i]? with
  | none => rfl
  | some k =>
    obtain ⟨kind, path⟩ := k
    simp only [Option.map_some, Function.comp_apply, importLine, h.shared, h.weak,
      contains_placesOf _ hk]
    cases kind <;> rfl

theorem Imported.concat {paths : List String} {shared weak : List Nat}
    (h : Imported ks paths shared weak) (kind : ImportKind) {path : String} (hpath : path ∉ paths) :
    Imported (ks ++ [(kind, path)]) (paths ++ [path])
      (shared ++ if kind = .shared then [paths.length] else [])
      (weak ++ if kind = .weak then [paths.length] else []) := by
  obtain ⟨rfl, rfl, rfl, hdistinct⟩ := h
  refine ⟨by simp, by simp [placesOf_concat], by simp [placesOf_concat], ?_⟩
  rw [map_append, nodup_append]
  refine ⟨hdistinct, nodup_singleton path, ?_⟩
  rintro a ha _ hb rfl
  obtain rfl : a = path := mem_singleton.mp hb
  exact hpath ha

end File

namespace Production

variable {w : Word} {file : File}

theorem yields_importKind {Q : File.ImportKind → File → Word → Prop}
    (h : ∀ kind w', Q kind file w') : Yields importKind file w Q := by
  refine .step (yields_eatWord (fun _ w' => yields_pure (h _ w')) fun _ => ?_)
  exact .step (yields_eatWord (fun _ w' => yields_pure (h _ w')) fun _ => yields_pure (h _ w))

theorem yields_importStatement
    (h : ∀ kind path w', path ∉ file.imports → Q () (file.addImport kind path) w') :
    Yields importStatement file w Q := by
  refine .step (yields_bump fun _ w' _ => .step (yields_importKind fun kind w'' => ?_))
  refine .step (yields_here fun start => .step (yields_utf8String fun path w₃ => ?_))
  refine .step (yields_built ?_)
  dsimp only
  split
  · exact .step yields_report
  · next hnew =>
    refine .step (yields_edit (yields_symbol fun _ w₄ => h kind path w₄ ?_))
    simpa using hnew

def kindWords : File.ImportKind → List Word
  | .plain => []
  | .shared => [.ident "public"]
  | .weak => [.ident "weak"]

theorem reads_importKind (kind : File.ImportKind) {rest : List Word}
    (hrest : (Word.front rest).kind = .string) :
    Reads importKind file (kindWords kind ++ rest) kind file rest := by
  have hword : ∀ x, Word.front rest ≠ .ident x := by
    intro x hx
    rw [hx] at hrest
    cases hrest
  cases kind with
  | plain =>
    exact (reads_eatWord_of_ne (hword _)).bind ((reads_eatWord_of_ne (hword _)).bind (reads_pure _))
  | shared => exact (reads_eatWord "public").bind (reads_pure _)
  | weak =>
    have hpublic : Word.front (kindWords .weak ++ rest) ≠ .ident "public" := by simp [kindWords]
    exact (reads_eatWord_of_ne hpublic).bind ((reads_eatWord "weak").bind (reads_pure _))

theorem exists_reads_importStatement {path : String} (kind : File.ImportKind)
    (hpath : path ∉ file.imports) :
    ∃ ws, Lexes goesOn ("import " ++ kind.modifier ++ literal path ++ ";") (.ident "import" :: ws) ∧
      ∀ rest, Reads importStatement file (.ident "import" :: ws ++ rest) ()
        (file.addImport kind path) rest := by
  refine ⟨kindWords kind ++ [⟨.string, literal path⟩, .symbol ";"], ?_, fun rest => ?_⟩
  · rw [String.append_assoc]
    exact (((lexes_literal path).followed [.symbol ";"] (by decide)).behind
      (.ident "import" :: kindWords kind) (by cases kind <;> decide)).any
  · simp only [cons_append, append_assoc, nil_append]
    refine .bump fun _ _ => (reads_importKind kind rfl).bind (.here fun start => ?_)
    refine (reads_utf8String path _ (by simp [Word.symbol])).bind (.built ?_)
    dsimp only
    rw [if_neg (by simpa using hpath)]
    exact (reads_edit _).bind (reads_symbol ";")

/-! ## Packages -/

theorem yields_packageStatement (h : ∀ first name w', IsIdentifier first → RestOfName first name →
      Q () { file with package := some name } w') : Yields packageStatement file w Q := by
  refine .step (yields_here fun start => .step (yields_bump fun _ w' _ => .step (yields_built ?_)))
  dsimp only
  split
  · exact .step yields_report
  · next hnone =>
    refine .step (yields_identifier fun first w'' _ hfirst => ?_)
    refine .step (yields_restOfName fun name w₃ hname => .step (yields_edit ?_))
    refine yields_symbol fun _ w₄ => ?_
    rw [show file.package = none by simpa using hnone]
    exact h first name w₄ hfirst hname

theorem exists_reads_packageStatement {first name : String} (hfirst : IsIdentifier first)
    (hname : RestOfName first name) (hnone : file.package = none) :
    ∃ ws, Lexes goesOn ("package " ++ name ++ ";") (.ident "package" :: ws) ∧
      ∀ rest, Reads packageStatement file (.ident "package" :: ws ++ rest) ()
        { file with package := some name } rest := by
  obtain ⟨ws, hlex, _, hreads⟩ := hname.exists_reads file
  refine ⟨.ident first :: ws ++ [.symbol ";"], ?_, fun rest => ?_⟩
  · rw [String.append_assoc]
    exact (((hlex _ (lexes_ident hfirst)).followed [.symbol ";"] (by decide)).behind
      [.ident "package"] (by decide)).any
  · simp only [cons_append, append_assoc, nil_append]
    refine .here fun start => .bump fun _ _ => .built ?_
    dsimp only
    rw [if_neg (by simp [hnone])]
    refine (reads_identifier first _).bind ((hreads _ (by simp)).bind ((reads_edit _).bind ?_))
    rw [hnone]
    exact reads_symbol ";"

end Production

/-! ## Statements -/

structure File.Written (path : String) (dialect : Dialect) (file : File) : Prop where
  name : file.name = path
  language : file.dialect = dialect
  package : ∀ p ∈ file.package, ∃ first, IsIdentifier first ∧ RestOfName first p
  imports : ∃ ks, Imported ks file.imports file.publicImports file.weakImports
  options : Options.Written file.options
  messages : ∀ m ∈ file.messages, m.Written dialect Message.maxNesting
  enums : ∀ e ∈ file.enums, e.Written
  services : ∀ v ∈ file.services, v.Written
  extensions : ∀ f ∈ file.extensions, f.Extending dialect

def File.allMessages (file : File) : List Message :=
  file.messages.flatMap Message.within

def File.settings (file : File) : Options :=
  file.options ++ file.allMessages.flatMap Message.settings ++ file.enums.flatMap Enum.settings ++
    file.services.flatMap Service.settings ++ file.extensions.flatMap Field.options

namespace Production

variable {w : Word} {file : File} {path : String} {dialect : Dialect}

theorem yields_topLevelStatement (h : file.Written path dialect) :
    Yields (topLevelStatement ⟨dialect, .resume⟩) file w fun _ file' _ =>
      file'.Written path dialect := by
  refine .step (yields_eatSymbol (fun _ w' => yields_pure h) fun _ => ?_)
  refine .step (yields_peek fun t ht => ?_)
  split
  · refine .step (yields_built (.step (yields_message fun m w' hm => yields_edit ?_)))
    exact { h with messages := forall_mem_concat h.messages hm }
  split
  · refine .step (yields_built (.step (yields_enum fun e w' he => yields_edit ?_)))
    exact { h with enums := forall_mem_concat h.enums he }
  split
  · refine .step (yields_built (.step (yields_service fun v w' hv => yields_edit ?_)))
    exact { h with services := forall_mem_concat h.services hv }
  split
  · refine .step (yields_built (.step (yields_extend h.extensions fun fields w' hfields => ?_)))
    exact yields_edit { h with extensions := hfields }
  split
  · refine yields_importStatement fun kind p w' hp => ?_
    obtain ⟨ks, hks⟩ := h.imports
    exact { h with imports := ⟨_, hks.concat kind hp⟩ }
  split
  · refine yields_packageStatement fun first name w' hfirst hname => ?_
    exact { h with package := by simpa using ⟨first, hfirst, hname⟩ }
  split
  · exact yields_optionStatement fun t w' ht => { h with options := h.options.concat ht }
  split
  · exact yields_rejectHere
  · exact yields_rejectHere

theorem yields_syntaxStatement (h : ∀ dialect w', Q () { file with dialect } w') :
    Yields syntaxStatement file w Q := by
  refine .step (yields_bump fun _ w' _ => .step (yields_symbol fun _ w'' => ?_))
  refine .step (yields_here fun start => .step (yields_utf8String fun name w₃ => ?_))
  split
  · exact yields_reject
  · exact .step (yields_edit (yields_symbol fun _ w₄ => h _ w₄))

variable {σ : Type} {statement : Production σ Unit} {s : σ} {ws ws' : List Word}

theorem run_tolerate_some {s' : σ} {c d : Cursor} (h : statement.run s c = (some (), s', d)) :
    (tolerate .resume statement).run s c = (some (), s', d) := by
  simp [tolerate, h]

theorem yields_tolerate {Q : Unit → σ → Word → Prop} (h : Yields statement s w Q) :
    Yields (tolerate .resume statement) s w Q := by
  intro c hc hw hquiet
  have hquiet' : (statement.run s c).2.2.diagnostics = [] := by
    generalize hrun : statement.run s c = r
    obtain ⟨_ | u, s', d⟩ := r
    · have hskip : (tolerate .resume statement).run s c = (some (), s', d.skipStatement) := by
        simp [tolerate, hrun]
      rw [hskip] at hquiet
      exact d.skipStatement_onward.quiet hquiet
    · rw [run_tolerate_some hrun] at hquiet
      exact hquiet
  obtain ⟨u, s', d, hrun, hd, hQ⟩ := h c hc hw hquiet'
  exact ⟨u, s', d, run_tolerate_some hrun, hd, hQ⟩

theorem reads_tolerate {s' : σ} (h : Reads statement s ws () s' ws') :
    Reads (tolerate .resume statement) s ws () s' ws' := by
  intro c hc
  obtain ⟨d, hrun, hd⟩ := h c hc
  exact ⟨d, run_tolerate_some hrun, hd⟩

theorem yields_fileBody :
    Yields (do
      if ← atWord "syntax" then tolerate .resume syntaxStatement
      let dialect := (← built).dialect
      statements .resume (topLevelStatement ⟨dialect, .resume⟩)) { name := path } w fun _ file _ =>
        file.Written path file.dialect := by
  have hrest : ∀ dialect w, Yields (do
      let dialect := (← built).dialect
      statements .resume (topLevelStatement ⟨dialect, .resume⟩)) { name := path, dialect } w
        fun _ file _ => file.Written path file.dialect := by
    intro dialect w
    have hinit : File.Written path dialect { name := path, dialect } :=
      ⟨rfl, rfl, by simp, ⟨[], rfl, rfl, rfl, nodup_nil⟩, Options.written_nil,
        forall_mem_nil _, forall_mem_nil _, forall_mem_nil _, forall_mem_nil _⟩
    refine .step (yields_built ?_)
    have hall : Yields (statements .resume (topLevelStatement ⟨dialect, .resume⟩)) _ w
        fun _ file _ => file.Written path dialect :=
      yields_statements (fun file w h _ => yields_topLevelStatement h) hinit
    exact hall.mono fun _ file _ hfile => by rw [hfile.language]; exact hfile
  refine .step (yields_atWord ?_)
  dsimp only
  split
  · exact .step (yields_tolerate (yields_syntaxStatement fun dialect w' => hrest dialect w'))
  · exact hrest .proto2 w

/-! ## Reading the lines of a file -/

abbrev RunsInFile (dialect : Dialect) :=
  Runs (topLevelStatement ⟨dialect, .resume⟩)

theorem dispatches_file_option :
    Dispatches (topLevelStatement ⟨dialect, .resume⟩)
      (optionStatement fun s f => { f with options := f.options ++ [s] }) "option" := by
  intro file file' ws ws' hfront hreads
  refine .word hfront fun t ht => ?_
  simp only [ht]
  exact hreads

theorem dispatches_file_import :
    Dispatches (topLevelStatement ⟨dialect, .resume⟩) importStatement "import" := by
  intro file file' ws ws' hfront hreads
  refine .word hfront fun t ht => ?_
  simp only [ht]
  exact hreads

theorem dispatches_file_package :
    Dispatches (topLevelStatement ⟨dialect, .resume⟩) packageStatement "package" := by
  intro file file' ws ws' hfront hreads
  refine .word hfront fun t ht => ?_
  simp only [ht]
  exact hreads

theorem reads_fileExtend {extensions : List Field} (hfront : Word.front ws = .ident "extend")
    (h : Reads (extend ⟨dialect, .resume⟩ [Location.fileExtension] file.extensions) file ws
      extensions file ws') :
    Reads (topLevelStatement ⟨dialect, .resume⟩) file ws () { file with extensions } ws' := by
  refine .word hfront fun t ht => ?_
  simp only [ht]
  exact .built (h.bind (reads_edit _))

theorem runs_fileMessage {m : Message} (hm : m.Written dialect Message.maxNesting)
    (hmaps : ∀ n ∈ m.within, n.OwnMaps) (hs : ∀ n ∈ m.within, Options.Signed n.settings)
    (file : File) :
    RunsInFile dialect file (m.lines dialect)
      { file with messages := file.messages ++ [m] } := by
  obtain ⟨ws, hlex, hreads⟩ := hm.exists_reads hmaps hs
    [Location.fileMessage, Int.ofNat file.messages.length] file
  refine .single hlex (by simp) fun rest => .word rfl fun t ht => ?_
  simp only [ht]
  exact .built ((hreads rest).bind (reads_edit _))

theorem runs_fileEnum {e : Enum} (he : e.Written) (hs : Options.Signed e.settings) (file : File) :
    RunsInFile dialect file e.lines
      { file with enums := file.enums ++ [e] } := by
  obtain ⟨ws, hlex, hreads⟩ := he.exists_reads hs
    [Location.fileEnum, Int.ofNat file.enums.length] file
  refine .single hlex (by simp) fun rest => .word rfl fun t ht => ?_
  simp only [ht]
  exact .built ((hreads rest).bind (reads_edit _))

theorem runs_fileService {v : Service} (hv : v.Written) (hs : Options.Signed v.settings)
    (file : File) :
    RunsInFile dialect file v.lines
      { file with services := file.services ++ [v] } := by
  obtain ⟨ws, hlex, hreads⟩ := hv.exists_reads hs
    [Location.fileService, Int.ofNat file.services.length] file
  refine .single hlex (by simp) fun rest => .word rfl fun t ht => ?_
  simp only [ht]
  exact .built ((hreads rest).bind (reads_edit _))

theorem Runs.setOff {s' : σ} {lines : List Line} (h : Runs statement s lines s') :
    Runs statement s (File.setOff lines) s' := by
  unfold File.setOff
  split
  · next hnil => rwa [isEmpty_iff.mp hnil] at h
  · exact h.gap

def withImports (file : File) (ks : List (File.ImportKind × String)) : File :=
  { file with
    imports := ks.map Prod.snd
    publicImports := File.placesOf .shared ks
    weakImports := File.placesOf .weak ks }

theorem runs_imports {done rest : List (File.ImportKind × String)}
    (h : ((done ++ rest).map Prod.snd).Nodup) :
    RunsInFile dialect (withImports file done)
      (rest.map fun k => .of ("import " ++ k.1.modifier ++ literal k.2 ++ ";"))
      (withImports file (done ++ rest)) := by
  induction rest generalizing done with
  | nil =>
    rw [append_nil]
    exact .nil
  | cons k rest ih =>
    obtain ⟨kind, path⟩ := k
    have hpath : path ∉ (withImports file done).imports := by
      rw [map_append, map_cons, nodup_append] at h
      exact fun hin => h.2.2 path hin path (by simp) rfl
    have hadd : (withImports file done).addImport kind path =
        withImports file (done ++ [(kind, path)]) := by
      simp [withImports, File.addImport, File.placesOf_concat]
    obtain ⟨ws, hlex, hreads⟩ := exists_reads_importStatement kind hpath
    have hmore := @ih (done ++ [(kind, path)]) (by simpa using h)
    rw [append_assoc, singleton_append] at hmore
    rw [hadd] at hreads
    have hone : RunsInFile dialect (withImports file done) _ _ :=
      .single (.of hlex) (by simp) fun rest => dispatches_file_import rfl (hreads rest)
    exact hone.append hmore

theorem runs_package {name : Option String}
    (h : ∀ p ∈ name, ∃ first, IsIdentifier first ∧ RestOfName first p)
    (hnone : file.package = none) :
    RunsInFile dialect file
      (name.map fun p => Line.of ("package " ++ p ++ ";")).toList
      { file with package := name } := by
  cases name with
  | none =>
    have hsame : { file with package := none } = file := by rw [← hnone]
    rw [hsame]
    exact .nil
  | some p =>
    obtain ⟨first, hfirst, hp⟩ := h p rfl
    obtain ⟨ws, hlex, hreads⟩ := exists_reads_packageStatement hfirst hp hnone
    exact .single (.of hlex) (by simp) fun rest => dispatches_file_package rfl (hreads rest)

theorem runs_fileLines (h : file.Written path dialect)
    (hmaps : ∀ m ∈ file.allMessages, m.OwnMaps) (hs : Options.Signed file.settings) :
    RunsInFile dialect { name := path, dialect }
      (File.setOff (file.package.map fun p => Line.of ("package " ++ p ++ ";")).toList ++
        File.setOff (file.imports.mapIdx file.importLine) ++
        File.setOff (Options.lines file.options) ++
        file.messages.flatMap (fun m => .gap :: m.lines dialect) ++
        file.enums.flatMap (fun e => .gap :: e.lines) ++
        file.services.flatMap (fun s => .gap :: s.lines) ++
        File.setOff (Field.extendLines dialect file.extensions)) file := by
  simp only [File.settings, File.allMessages, Options.signed_append, Options.signed_flatMap,
    forall_mem_flatMap] at hs hmaps
  obtain ⟨⟨⟨⟨hset, hmessages⟩, henums⟩, hservices⟩, hexts⟩ := hs
  obtain ⟨ks, hks⟩ := h.imports
  let named : File := { name := path, dialect, package := file.package }
  let base : File := withImports { named with options := file.options } ks
  have hpackage : RunsInFile dialect { name := path, dialect } _ named :=
    runs_package h.package rfl
  have himports : RunsInFile dialect named _ (withImports named ks) :=
    @runs_imports named dialect [] ks hks.distinct
  have hopts : RunsInFile dialect (withImports named ks) _ base :=
    runs_options h.options hset dispatches_file_option
      (fun done => withImports { named with options := done } ks) (fun _ _ => rfl) []
  have hmsgs : RunsInFile dialect base _ _ :=
    Runs.flatMap (fun done => { base with messages := done }) (fun done m hm =>
        (runs_fileMessage (h.messages m hm) (hmaps m hm) (hmessages m hm) _).gap) []
  have henms : RunsInFile dialect _ _ _ :=
    Runs.flatMap (fun done => { base with messages := file.messages, enums := done })
      (fun done e he => (runs_fileEnum (h.enums e he) (henums e he) _).gap) []
  have hsvcs : RunsInFile dialect _ _ _ :=
    Runs.flatMap (fun done => { base with messages := file.messages, enums := file.enums,
                                          services := done })
      (fun done v hv => (runs_fileService (h.services v hv) (hservices v hv) _).gap) []
  have hextend : RunsInFile dialect _ _ _ :=
    runs_extendLines (fun f hf => ⟨h.extensions f hf, hexts f hf⟩)
      (fun done => { base with messages := file.messages, enums := file.enums,
                               services := file.services, extensions := done }) reads_fileExtend
  have hhead := (hpackage.setOff.append himports.setOff).append hopts.setOff
  have hall := (((hhead.append hmsgs).append henms).append hsvcs).append hextend.setOff
  have hfile : { base with messages := file.messages, enums := file.enums,
                           services := file.services, extensions := file.extensions } = file := by
    simp only [base, named, withImports, ← hks.paths, ← hks.shared, ← hks.weak, ← h.name,
      ← h.language]
  rw [hfile] at hall
  rw [hks.lines_eq]
  exact hall

private theorem lexes_syntaxLine (dialect : Dialect) :
    Lexes goesOn ("syntax = \"" ++ dialect.keyword ++ "\";")
      [.ident "syntax", .symbol "=", ⟨.string, literal dialect.keyword⟩, .symbol ";"] := by
  have htext : "syntax = " ++ (literal dialect.keyword ++ ";") =
      "syntax = \"" ++ dialect.keyword ++ "\";" := by
    cases dialect <;> decide +kernel
  rw [← htext]
  exact (((lexes_literal dialect.keyword).followed [.symbol ";"] (by decide)).behind
    [.ident "syntax", .symbol "="] (by decide)).any

theorem reads_syntaxStatement (dialect : Dialect) (rest : List Word) :
    Reads syntaxStatement file
      (.ident "syntax" :: .symbol "=" :: ⟨.string, literal dialect.keyword⟩ :: .symbol ";" :: rest)
      () { file with dialect } rest := by
  refine .bump fun _ _ => (reads_symbol "=").bind (.here fun start => ?_)
  refine (reads_utf8String dialect.keyword _ (by simp [Word.symbol])).bind ?_
  rw [show Dialect.ofKeyword? dialect.keyword = some dialect by cases dialect <;> rfl]
  exact (reads_edit _).bind (reads_symbol ";")

/-- The lines of a file are read as the file. -/
theorem exists_reads_fileBody (h : file.Written path dialect)
    (hmaps : ∀ m ∈ file.allMessages, m.OwnMaps) (hs : Options.Signed file.settings) :
    ∃ ws, LinesLex file.lines ws ∧ Reads (do
      if ← atWord "syntax" then tolerate .resume syntaxStatement
      let dialect := (← built).dialect
      statements .resume (topLevelStatement ⟨dialect, .resume⟩))
      { name := path } ws () file [] := by
  obtain ⟨ws, hlex, hsteps⟩ := runs_fileLines h hmaps hs
  refine ⟨[.ident "syntax", .symbol "=", ⟨.string, literal dialect.keyword⟩, .symbol ";"] ++ ws,
    ?_, ?_⟩
  · rw [File.lines, h.language]
    exact .text (lexes_syntaxLine dialect) hlex
  · refine (reads_atWord "syntax").bind ?_
    dsimp only
    rw [if_pos (by simp)]
    refine (reads_tolerate (reads_syntaxStatement dialect ws)).bind (.built ?_)
    exact hsteps.reads_statements

end Production

end ProtoSchema
