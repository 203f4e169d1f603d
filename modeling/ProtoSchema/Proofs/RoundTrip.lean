import ProtoSchema.Parse
import ProtoSchema.Proofs.Grammar.File

/-!
Printing undoes reading. A text with nothing wrong in it gives a file that can be printed, and the
printed text is read as the same file.
-/

namespace ProtoSchema

open Production Cursor

variable {source path : String} {locations : List Location}

namespace Cursor

theorem exists_lex_cons (source : String) : ∃ l ls, lex source = l :: ls := by
  rw [lex, Scan.lexemes]
  split
  · exact ⟨_, _, rfl⟩
  · exact ⟨_, _, rfl⟩

theorem next_ofSource {l : Lexeme} {ls : List Lexeme} (h : lex source = l :: ls) :
    (ofSource source).next = ⟨l.token, ls, 1, Position.origin, l.remarks, [], false⟩ := by
  simp [ofSource, ofLexemes, next, h]

theorem clean_next_ofSource (h : (ofSource source).next.diagnostics = []) :
    (ofSource source).next.Clean := by
  obtain ⟨l, ls, hlex⟩ := exists_lex_cons source
  have hsound : Sound (l :: ls) := hlex ▸ sound_lexemes Position.origin source.toList
  rw [next_ofSource hlex] at h ⊢
  exact ⟨h, hsound.1 h, hsound.2⟩

theorem offers_next_ofSource {ws : List Word}
    (hwords : (lex source).map (fun l => l.token.word) = ws ++ [.endOfInput])
    (hclean : ∀ l ∈ lex source, l.remarks = []) :
    (ofSource source).next.Offers ws ∧ (ofSource source).next.diagnostics = [] ∧
      (ofSource source).next.unterminated = false := by
  obtain ⟨l, ls, hlex⟩ := exists_lex_cons source
  rw [hlex] at hwords hclean
  rw [next_ofSource hlex]
  exact ⟨⟨hwords, fun k hk => hclean k (by simp [hk])⟩, hclean l (by simp), rfl⟩

end Cursor

variable {α : Type} {file : File}

theorem run_open (rest : Unit → Production File α) (file : File) (source : String) :
    (open_ >>= rest).run file (ofSource source) =
      (rest ()).run file (ofSource source).next :=
  rfl

theorem parse_eq_ok_iff :
    parse path source = .ok (file, locations) ↔
      ∃ r d,
        (Production.file .resume).run { name := path } (ofSource source) = (r, file, d) ∧
        d.diagnostics = [] ∧ d.unterminated = false ∧ d.locations = locations := by
  unfold parse readFile readInto
  generalize (Production.file .resume).run { name := path } (ofSource source) = outcome
  obtain ⟨r, file', d⟩ := outcome
  constructor
  · intro h
    dsimp only at h
    split at h
    · next hok =>
      obtain ⟨hterm, hquiet⟩ : d.unterminated = false ∧ d.diagnostics = [] := by simpa using hok
      cases h
      exact ⟨r, d, rfl, hquiet, hterm, rfl⟩
    · cases h
  · rintro ⟨_, _, heq, hquiet, hterm, rfl⟩
    cases heq
    simp [hquiet, hterm]

theorem readFile_of_parse (h : parse path source = .ok (file, locations)) :
    (readFile path source).file = file ∧ (readFile path source).locations = locations := by
  obtain ⟨r, d, hrun, _, _, rfl⟩ := parse_eq_ok_iff.mp h
  rw [readFile, readInto, hrun]
  exact ⟨rfl, rfl⟩

theorem quiet_of_run {σ : Type} {p : Production σ α} {s s' : σ} {c d : Cursor} {r : Option α}
    (h : p.run s c = (r, s', d)) (hd : d.diagnostics = []) : c.diagnostics = [] := by
  have honward := p.onward s c
  rw [h] at honward
  exact honward.quiet hd

/-- A file that was read can be printed. -/
theorem written_of_parse (h : parse path source = .ok (file, locations)) :
    file.Written path file.dialect := by
  obtain ⟨r, d, hrun, hquiet, _⟩ := parse_eq_ok_iff.mp h
  rw [Production.file, run_open] at hrun
  have hclean := Cursor.clean_next_ofSource (quiet_of_run hrun hquiet)
  obtain ⟨_, _, _, hwritten⟩ := yields_fileBody.elim hclean rfl hrun hquiet
  exact hwritten

/-- A file is read from a text with its words. -/
theorem exists_parse_of_reads {ws : List Word}
    (hlex : (lex source).map (fun l => l.token.word) = ws ++ [.endOfInput] ∧
      ∀ l ∈ lex source, l.remarks = [])
    (hreads : Reads (do
      if ← atWord "syntax" then tolerate .resume syntaxStatement
      let dialect := (← built).dialect
      statements .resume (topLevelStatement ⟨dialect, .resume⟩)) { name := path } ws () file []) :
    ∃ locations, parse path source = .ok (file, locations) := by
  obtain ⟨hoffers, hquiet, hterm⟩ := Cursor.offers_next_ofSource hlex.1 hlex.2
  obtain ⟨d, hrun, _, hdiag, hterm'⟩ := hreads _ hoffers
  refine ⟨d.locations, parse_eq_ok_iff.mpr ⟨some (), d, hrun, ?_, ?_, rfl⟩⟩
  · exact hdiag.trans hquiet
  · exact hterm'.trans hterm

/-- A file that can be printed is read from its text. -/
theorem exists_parse_print (h : file.Written path file.dialect)
    (hmaps : ∀ m ∈ file.allMessages, m.OwnMaps) (hsigned : Options.Signed file.settings) :
    ∃ locations, parse path file.print = .ok (file, locations) := by
  obtain ⟨ws, hlex, hreads⟩ := exists_reads_fileBody h hmaps hsigned
  have hblank : ∀ c ∈ "  ".toList, Scan.isBlank c = true := List.all_eq_true.mp rfl
  exact exists_parse_of_reads (exists_lex_render hblank hlex) hreads

/-- Printing undoes reading: the text printed for a file that was read is read as the same file.
The pair types of the file must be those of its map fields, and no option may be set to an integer
zero behind a minus sign. -/
theorem parse_print {path source : String} {file : File} {locations : List Location}
    (hparse : parse path source = .ok (file, locations))
    (hmaps : ∀ m ∈ file.allMessages, m.OwnMaps) (hsigned : Options.Signed file.settings) :
    ∃ locations', parse path file.print = .ok (file, locations') :=
  exists_parse_print (written_of_parse hparse) hmaps hsigned

def mixedMessage : Message where
  name := "M"
  fields :=
    [{ name := "a", number := 1, label := .repeated, typeName := some "AEntry" },
     { name := "d", number := 2, label := .optional, typeName := some "N", oneofIndex := some 0 },
     { name := "e", number := 3, label := .optional, type := some .int32, oneofIndex := some 1,
       proto3Optional := true }]
  nested := [mapEntry "AEntry" { type := some .string } { typeName := some "N" }, { name := "N" }]
  oneofs := [{ name := "c", fields := [1] }, { name := "_e", fields := [2] }]

theorem parse_print_mixedMessage :
    ∃ file locations, file.messages = [mixedMessage] ∧
      parse "m.proto" "syntax = 'proto3'; message M \x7b map<string, N> a = 1; message N \x7b\x7d
        oneof c \x7b N d = 2; \x7d optional int32 e = 3; \x7d" = .ok (file, locations) ∧
      (∀ m ∈ file.allMessages, m.OwnMaps) ∧ Options.Signed file.settings ∧
      ∃ locations', parse "m.proto" file.print = .ok (file, locations') := by
  let file : File := { name := "m.proto", dialect := .proto3, messages := [mixedMessage] }
  let source := "syntax = 'proto3'; message M \x7b map<string, N> a = 1; message N \x7b\x7d
        oneof c \x7b N d = 2; \x7d optional int32 e = 3; \x7d"
  have hparse : parse "m.proto" source = .ok (file, (readFile "m.proto" source).locations) := by
    decide +kernel
  have hname : mapEntryName "a" = "AEntry" := by decide +kernel
  have hmixed : mixedMessage.OwnMaps := by
    refine ⟨⟨mixedMessage.fields.take 1, List.take_sublist _ _, ?_⟩, by decide, by decide +kernel⟩
    exact .cons ⟨rfl, congrArg some hname.symm, { type := some .string }, { typeName := some "N" },
      by rw [← hname]⟩ .nil
  have hplain : ∀ m : Message, m.pairTypes = [] → m.OwnMaps := by
    intro m hm
    refine ⟨⟨[], List.nil_sublist _, hm ▸ .nil⟩, ?_, ?_⟩ <;> simp [hm]
  have hmaps : ∀ m ∈ file.allMessages, m.OwnMaps := by
    have hall : file.allMessages = mixedMessage :: mixedMessage.nested := rfl
    rw [hall, List.forall_mem_cons]
    exact ⟨hmixed, fun m hm => hplain m (by revert m; decide)⟩
  have hsigned : ∀ t ∈ file.settings, t.value ≠ .int 0 := by decide
  exact ⟨file, _, rfl, hparse, hmaps, hsigned, parse_print hparse hmaps hsigned⟩

end ProtoSchema
