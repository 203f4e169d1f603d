import ProtoSchema.Proofs.Containment
import ProtoSchema.Proofs.Token.Down

/-!
A statement that nothing can be made of costs one report. It is refused at its first token and
skipped up to its semicolon, and the texts around it are read as if it were not there.
-/

namespace ProtoSchema

open Scan Production List

/-! ## Words that are refused -/

/-- A word that neither ends a statement nor opens one, and is no brace. -/
def Word.Plain (w : Word) : Prop :=
  w ∉ [symbol ";", symbol "\x7b", symbol "\x7d"] ∧ w ∉ Cursor.statementWords.map ident

instance (w : Word) : Decidable w.Plain :=
  inferInstanceAs (Decidable (_ ∧ _))

/-- A text of words that nothing can be made of outside of a block, and of nothing else. -/
structure Junk (text : String) : Prop where
  quiet : ∀ l ∈ lex text, l.remarks = []
  plain : ∀ w ∈ words text, w.Plain
  nonempty : words text ≠ []

instance (text : String) : Decidable (Junk text) :=
  decidable_of_iff ((∀ l ∈ lex text, l.remarks = []) ∧ (∀ w ∈ words text, w.Plain) ∧
      words text ≠ [])
    ⟨fun ⟨hquiet, hplain, hne⟩ => ⟨hquiet, hplain, hne⟩, fun h => ⟨h.quiet, h.plain, h.nonempty⟩⟩

/-- The lines of `junk` and a line with a semicolon, between the lines of `first` and `last`. -/
def interject (first junk last : String) : String :=
  lined first ++ lined junk ++ ";\n" ++ last

section Plain

variable {c : Cursor}

theorem Word.Plain.isSymbol (h : c.current.word.Plain) {x : String}
    (hx : x ∈ [";", "\x7b", "\x7d"]) : c.current.isSymbol x = false := by
  rw [← Bool.not_eq_true, Token.isSymbol_iff]
  intro hword
  exact h.1 (hword ▸ mem_map_of_mem (f := symbol) hx)

theorem Word.Plain.isWord (h : c.current.word.Plain) {x : String}
    (hx : x ∈ Cursor.statementWords) : c.current.isWord x = false := by
  rw [← Bool.not_eq_true, Token.isWord_iff]
  intro hword
  exact h.2 (hword ▸ mem_map_of_mem hx)

theorem Word.Plain.opensStatement (h : c.current.word.Plain) : c.opensStatement = false := by
  rw [← Bool.not_eq_true]
  intro hopens
  simp only [Cursor.opensStatement, Bool.and_eq_true, decide_eq_true_eq, contains_iff_mem] at hopens
  apply h.2
  have hword : c.current.word = .ident c.current.text := congrArg (Word.mk · _) hopens.1.1
  rw [hword]
  exact mem_map_of_mem hopens.2

/-- Plain words are skipped up to the semicolon behind them. -/
theorem Cursor.skipStatement_plain {ls rest : List Lexeme} {stop : Lexeme}
    (htext : c.unread = ls ++ stop :: rest) (hplain : ∀ k ∈ ls, k.token.word.Plain)
    (hstop : stop.token.word = .symbol ";") (hquiet : Quiet (ls ++ stop :: rest))
    (hrest : rest ≠ []) : c.skipStatement.unread = rest ∧ c.Silent c.skipStatement := by
  induction ls generalizing c with
  | nil =>
    obtain ⟨hcurrent, hahead⟩ := current_of_unread htext
    obtain ⟨k, ks, rfl⟩ := exists_cons_of_ne_nil hrest
    obtain ⟨hbump, hsilent, _⟩ := unread_bump htext (hquiet k (by simp))
    have hsemicolon : c.current.isSymbol ";" = true := Token.isSymbol_iff.mpr (hcurrent ▸ hstop)
    have hskip : c.skipStatement = c.bump := by
      rw [skipStatement, dif_neg (by simp [hahead]), if_pos hsemicolon]
    rw [hskip]
    exact ⟨hbump, hsilent⟩
  | cons x xs ih =>
    obtain ⟨hcurrent, hahead⟩ := current_of_unread htext
    obtain ⟨k, ks, hks⟩ := exists_cons_of_ne_nil (l := xs ++ stop :: rest) (by simp)
    obtain ⟨hbump, hsilent, _⟩ := unread_bump (htext.trans (congrArg (x :: ·) hks))
      (hquiet k (by rw [cons_append, hks]; simp))
    have hword : c.current.word.Plain := hcurrent ▸ hplain x (by simp)
    have hskip : c.skipStatement = c.bump.skipStatement := by
      rw [skipStatement, dif_neg (by simp [hahead]), if_neg (by simp [hword.isSymbol]),
        if_neg (by simp [hword.isSymbol]), if_neg (by simp [hword.isSymbol]),
        if_neg (by simp [hword.opensStatement])]
    obtain ⟨hunread, hsilent'⟩ :=
      ih (hbump.trans hks.symm) (fun y hy => hplain y (by simp [hy])) hquiet.of_cons.2
    rw [hskip]
    exact ⟨hunread, hsilent.trans hsilent'⟩

/-- A plain word is refused where it stands. -/
theorem Production.run_topLevelStatement_plain (h : c.current.word.Plain) (dialect : Dialect)
    (f : File) :
    (topLevelStatement ⟨dialect, .resume⟩).run f c =
      (none, f, c.report (.ofFault c.current.position .notTopLevel)) := by
  have hword : ∀ {x}, x ∈ Cursor.statementWords → ¬ c.current.isWord x = true := fun hx =>
    Bool.not_eq_true _ ▸ h.isWord hx
  rw [topLevelStatement, run_bind, run_eatSymbol, if_neg (by simp [h.isSymbol])]
  show (if c.current.isWord "message" then _ else _ : Production File Unit).run f c = _
  rw [if_neg (hword (x := "message") (by decide)), if_neg (hword (x := "enum") (by decide)),
    if_neg (hword (x := "service") (by decide)), if_neg (hword (x := "extend") (by decide)),
    if_neg (hword (x := "import") (by decide)), if_neg (hword (x := "package") (by decide)),
    if_neg (hword (x := "option") (by decide)), if_neg (hword (x := "syntax") (by decide))]
  rfl

/-- A statement of plain words is reported at the first of them, and reading goes on behind its
semicolon. -/
theorem Production.runStatements_plain {ls rest : List Lexeme} {stop : Lexeme}
    (htext : c.unread = ls ++ stop :: rest) (hne : ls ≠ [])
    (hplain : ∀ k ∈ ls, k.token.word.Plain) (hstop : stop.token.word = .symbol ";")
    (hquiet : Quiet (ls ++ stop :: rest)) (hrest : rest ≠ []) (dialect : Dialect) (f : File) :
    ∃ d, runStatements .resume (topLevelStatement ⟨dialect, .resume⟩) f c =
        runStatements .resume (topLevelStatement ⟨dialect, .resume⟩) f d ∧ d.unread = rest ∧
      d.diagnostics = c.diagnostics ++ [.ofFault c.current.position .notTopLevel] ∧
      d.unterminated = c.unterminated := by
  obtain ⟨x, xs, rfl⟩ := exists_cons_of_ne_nil hne
  obtain ⟨hcurrent, hahead⟩ : c.current = x.token ∧ c.ahead = xs ++ stop :: rest :=
    Cursor.current_of_unread htext
  have hword : c.current.word.Plain := hcurrent ▸ hplain x (by simp)
  let r := c.report (.ofFault c.current.position .notTopLevel)
  have hreport : r.unread = x :: xs ++ stop :: rest := htext
  obtain ⟨hunread, hsilent⟩ := Cursor.skipStatement_plain hreport hplain hstop hquiet hrest
  refine ⟨r.skipStatement, runStatements_step ?_ (by simp [hahead]) ?_, hunread,
    hsilent.diagnostics, hsilent.unterminated⟩
  · exact fun h => hword.1 (by simp [h])
  · apply runStatement_of_fail (run_topLevelStatement_plain hword dialect f)
    have hlength : r.skipStatement.ahead.length + 1 = rest.length := congrArg List.length hunread
    show r.skipStatement.ahead.length < c.ahead.length
    simp only [hahead, length_append, length_cons]
    omega

end Plain

/-! ## The texts around it -/

theorem advance_lined (text : String) :
    Position.origin.advance (lined text).toList = Position.origin.down (lineCount text) := by
  have hlast : (lined text).toList = [] ∨ ∃ cs, (lined text).toList = cs ++ ['\n'] := by
    unfold lined
    split
    · next h =>
      rcases h with rfl | hlast
      · exact .inl String.toList_empty
      · exact .inr (getLast?_eq_some_iff.mp hlast)
    · exact .inr ⟨text.toList, String.toList_append⟩
  rcases hlast with hnil | ⟨cs, hcs⟩
  · rw [lineCount, hnil]
    rfl
  · rw [lineCount, hcs, Position.advance_origin_newline, count_append]
    rfl

theorem lex_interject {first junk : String} (hfirst : Closed (lex first)) (hjunk : Junk junk)
    (last : String) :
    ∃ stop p, stop.token.word = .symbol ";" ∧ stop.remarks = [] ∧
      lex (interject first junk last) = (lex first).dropLast ++
        ((lex junk).dropLast.map (Lexeme.down (lineCount first)) ++
          stop :: lexemes p last.toList) := by
  have hsemicolon : Lexes never ";" [.symbol ";"] := lexes_plain (by decide)
  have hclosed := (closed_of_quiet hjunk.quiet).elsewhere (Position.origin.down (lineCount first))
  obtain ⟨ls, hls, hwords, hquiet, _⟩ := exists_lexemes_lined hsemicolon
    ((Position.origin.down (lineCount first)).advance (lined junk).toList) last.toList
  obtain ⟨stop, rfl, hstop⟩ := map_eq_singleton_iff.mp hwords
  have htext : (interject first junk last).toList = (lined first).toList ++
      ((lined junk).toList ++ ((lined ";").toList ++ last.toList)) := by
    have hlined : lined ";" = ";\n" := lined_concat (c := ';') (by decide) (by decide)
    simp only [interject, hlined, String.toList_append, append_assoc]
  have hlex := lexemes_lined hfirst ((lined junk).toList ++ ((lined ";").toList ++ last.toList))
  rw [advance_lined, lexemes_lined hclosed, hls, lexemes_down, ← map_dropLast, ← htext] at hlex
  exact ⟨stop, _, hstop, hquiet stop (by simp), hlex⟩

/-- Behind a text that is not empty, whatever stands on the next lines, reading goes on with what
the text declares. -/
theorem exists_run_lined {path first source : String} {file : File} {locations : List Location}
    {rest : List Lexeme} (hparse : parse path first = .ok (file, locations))
    (hwords : words first ≠ []) (hlex : lex source = (lex first).dropLast ++ rest)
    (hne : rest ≠ []) (hquiet : Quiet rest) :
    ∃ c, (Production.file .resume).run { name := path } (Cursor.ofSource source) =
        runStatements .resume (topLevelStatement ⟨file.dialect, .resume⟩) file c ∧
      c.unread = rest ∧ c.diagnostics = [] ∧ c.unterminated = false := by
  obtain ⟨l, ls, rfl⟩ := exists_cons_of_ne_nil hne
  obtain ⟨stop, hend, htext⟩ := continues_lexemes (quiet_lex_of_parse hparse) Position.origin
    (l :: ls) ⟨l, ls, rfl, hquiet l (by simp)⟩
  have hcontinues : Continues [stop] (l :: ls) (lex first) (lex source) := by
    rw [hlex]
    exact htext
  refine exists_run_behind hparse hend hcontinues fun hlength => ?_
  obtain ⟨k, hk⟩ := length_eq_one_iff.mp hlength
  exact absurd (by rw [words, hk]; rfl) hwords

/-- A statement of junk between two texts that can be read under each other is reported at its first
token, and all else is read as if it were not there. -/
theorem readFile_interject {path first junk last : String} {file whole : File}
    {locations locations' : List Location} (hfirst : parse path first = .ok (file, locations))
    (hwords : words first ≠ [])
    (hwhole : parse path (lined first ++ last) = .ok (whole, locations')) (hjunk : Junk junk) :
    (readFile path (interject first junk last)).complete = true ∧
      (readFile path (interject first junk last)).file = whole ∧
      ∃ l, (lex junk).head? = some l ∧
        (readFile path (interject first junk last)).diagnostics =
          [.ofFault (l.token.position.down (lineCount first)) .notTopLevel] := by
  have hclosed := closed_of_quiet (quiet_lex_of_parse hfirst)
  obtain ⟨stop, p, hstop, hclean, hlex⟩ := lex_interject hclosed hjunk last
  have hlexWhole : lex (lined first ++ last) = (lex first).dropLast ++
      lexemes (Position.origin.advance (lined first).toList) last.toList := by
    rw [lex, String.toList_append, lexemes_lined hclosed]
    rfl
  have hquiet := quiet_lex_of_parse hwhole
  rw [hlexWhole] at hquiet
  have hlast := hquiet.of_append.2
  have hquietJunk : Quiet ((lex junk).dropLast.map (Lexeme.down (lineCount first)) ++
      stop :: lexemes p last.toList) := by
    refine List.forall_mem_append.mpr ⟨?_, List.forall_mem_cons.mpr ⟨hclean, ?_⟩⟩
    · refine List.forall_mem_map.mpr fun l hl => ?_
      rw [Lexeme.down, hjunk.quiet l (List.dropLast_subset _ hl)]
      rfl
    · exact quiet_elsewhere hlast p
  have hplain : ∀ l ∈ (lex junk).dropLast.map (Lexeme.down (lineCount first)),
      l.token.word.Plain := by
    refine List.forall_mem_map.mpr fun l hl => ?_
    exact hjunk.plain l.token.word (List.mem_map_of_mem hl)
  -- Both texts are read alike up to the junk, which is skipped, and alike behind it.
  obtain ⟨c, hrun, htext, hdiagnostics, hterminated⟩ :=
    exists_run_lined hfirst hwords hlex (by simp) hquietJunk
  obtain ⟨c₀, hrun₀, htext₀, _⟩ :=
    exists_run_lined hfirst hwords hlexWhole (lexemes_ne_nil _ _) hlast
  have hne : (lex junk).dropLast ≠ [] := fun h => hjunk.nonempty (by rw [words, h]; rfl)
  obtain ⟨d, hskip, htext', hreport, hterminated'⟩ :=
    runStatements_plain htext (by rwa [Ne, List.map_eq_nil_iff]) hplain hstop hquietJunk
      (lexemes_ne_nil _ _) file.dialect file
  obtain ⟨r, e, hrunWhole, he, _⟩ := parse_eq_ok_iff.mp hwhole
  rw [hrun₀] at hrunWhole
  have hdiffer : File.Differ file.dialect [] [] file file := ⟨rfl, file.messages, rfl, rfl⟩
  obtain ⟨_, d', hrest, ⟨_, more, hmessages, rfl⟩, hsilent⟩ :=
    exists_run_elsewhere htext₀ htext' hlast hdiffer hrunWhole he
  have hread : readFile path (interject first junk last) =
      ⟨whole, d'.diagnostics, d'.locations, !d'.unterminated⟩ := by
    rw [readFile, readInto, hrun, hskip, hrest, ← hmessages]
  rw [hread]
  refine ⟨by rw [hsilent.unterminated, hterminated', hterminated]; rfl, rfl, ?_⟩
  obtain ⟨ls, stop', hls, _⟩ := exists_lexemes_concat Position.origin junk.toList
  have hlexJunk : lex junk = ls ++ [stop'] := hls
  rw [hlexJunk, List.dropLast_concat] at hne htext
  rw [hlexJunk]
  obtain ⟨l, ls, rfl⟩ := List.exists_cons_of_ne_nil hne
  refine ⟨l, rfl, ?_⟩
  rw [hsilent.diagnostics, hreport, hdiagnostics, (Cursor.current_of_unread htext).1]
  rfl

/-- A number, a name, a bracket and a string do not make a statement. -/
theorem readFile_interject_number :
    parse "t" "package a;" = .ok ({ name := "t", package := some "a" }, []) ∧
      words "package a;" ≠ [] ∧
      parse "t" (lined "package a;" ++ "import 'b';") =
        .ok ({ name := "t", package := some "a", imports := ["b"] }, []) ∧
      Junk "  7 seven\n[ 'x'" ∧
      (readFile "t" (interject "package a;" "  7 seven\n[ 'x'" "import 'b';")).complete = true ∧
      (readFile "t" (interject "package a;" "  7 seven\n[ 'x'" "import 'b';")).file =
        { name := "t", package := some "a", imports := ["b"] } ∧
      (readFile "t" (interject "package a;" "  7 seven\n[ 'x'" "import 'b';")).diagnostics =
        [.ofFault ⟨2, 3⟩ .notTopLevel] := by
  have hfirst : parse "t" "package a;" = .ok ({ name := "t", package := some "a" }, []) := by
    decide +kernel
  have hwords : words "package a;" ≠ [] := by decide +kernel
  have hwhole : parse "t" (lined "package a;" ++ "import 'b';") =
      .ok ({ name := "t", package := some "a", imports := ["b"] }, []) := by
    decide +kernel
  have hjunk : Junk "  7 seven\n[ 'x'" := by decide +kernel
  obtain ⟨hcomplete, hfile, l, hl, hreport⟩ := readFile_interject hfirst hwords hwhole hjunk
  have hplace : (lex "  7 seven\n[ 'x'").head?.map (fun l => l.token.position) = some ⟨1, 3⟩ := by
    decide +kernel
  have hcount : lineCount "package a;" = 1 := by decide +kernel
  rw [hl] at hplace
  have hposition : l.token.position = ⟨1, 3⟩ := Option.some.inj hplace
  rw [hcount, hposition] at hreport
  exact ⟨hfirst, hwords, hwhole, hjunk, hcomplete, hfile, hreport⟩

end ProtoSchema
