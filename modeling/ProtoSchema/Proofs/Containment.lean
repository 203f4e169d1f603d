import ProtoSchema.Proofs.Grammar.Alike
import ProtoSchema.Proofs.Grammar.Building
import ProtoSchema.Proofs.Grammar.Inside

/-!
Errors inside a block stay inside it. A message is put between two texts. Whatever stands in its
block, as long as the braces match, the texts before and behind it are read as if the block were
empty, and all that is reported is on lines of the block.
-/

namespace ProtoSchema

open Scan List Token Cursor

variable {c d : Cursor} {name source : String} {ls rest : List Lexeme} {l : Lexeme} {file : File}
  {locations : List Location}

/-! ## A text around a block -/

def words (text : String) : List Word :=
  (lex text).dropLast.map fun l => l.token.word

/-- A text that closes the blocks it opens, no others, and every comment. -/
structure SelfContained (body : String) : Prop where
  balanced : Balanced 0 (words body)
  closed : Closed (lex body)

instance (body : String) : Decidable (SelfContained body) :=
  decidable_of_iff (Balanced 0 (words body) ∧ Closed (lex body))
    ⟨fun h => ⟨h.1, h.2⟩, fun h => ⟨h.balanced, h.closed⟩⟩

/-- A message between the lines of `first` and those of `last`, with the lines of `body` in its
block. -/
def enclose (first name body last : String) : String :=
  lined first ++ ("message " ++ name ++ " \x7b\n") ++ lined body ++ "\x7d\n" ++ last

def lineCount (text : String) : Nat :=
  (lined text).toList.count '\n'

variable {text first path : String} {q : Position} {cs : List Char}

theorem lined_concat {c : Char} (h : text.toList.getLast? = some c) (hc : c ≠ '\n') :
    lined text = text ++ "\n" := by
  unfold lined
  rw [if_neg]
  rintro (rfl | hlast)
  · cases h
  · rw [h] at hlast
    exact hc (Option.some.inj hlast)

theorem lined_opening (name : String) :
    lined ("message " ++ name ++ " \x7b") = "message " ++ name ++ " \x7b\n" := by
  have hlast : ("message " ++ name ++ " \x7b").toList.getLast? = some '\x7b' := by
    rw [String.toList_append, getLast?_append]
    rfl
  rw [lined_concat hlast (by decide), String.append_assoc]
  rfl

theorem lined_closing : lined "\x7d" = "\x7d\n" :=
  lined_concat (c := '\x7d') (by decide) (by decide)

private theorem count_le_lineCount (text : String) : text.toList.count '\n' ≤ lineCount text := by
  unfold lineCount lined
  split
  · exact Nat.le_refl _
  · rw [String.toList_append, count_append]
    exact Nat.le_add_right _ _

private theorem count_opening (h : IsIdentifier name) :
    ("message " ++ name ++ " \x7b\n").toList.count '\n' = 1 := by
  obtain ⟨c, cs, hname, hc, hcs⟩ := h
  have hnone : name.toList.count '\n' = 0 := by
    rw [hname]
    apply count_eq_zero_of_not_mem
    intro hmem
    rcases mem_cons.mp hmem with rfl | hmem
    · exact absurd hc (by decide)
    · exact absurd (hcs _ hmem) (by decide)
  rw [String.toList_append, String.toList_append, count_append, count_append, hnone]
  decide

theorem closed_of_quiet (h : Quiet ls) : Closed ls := by
  intro d hd
  obtain ⟨l, hl, hd⟩ := mem_flatMap.mp hd
  rw [h l hl] at hd
  cases hd

private theorem selfContained_empty : SelfContained "" := by
  have hlex : lex "" = [⟨⟨.endOfInput, "", Position.origin⟩, []⟩] := lexemes_nil Position.origin
  refine ⟨?_, ?_⟩
  · rw [words, hlex]
    exact .nil
  · rw [hlex]
    exact closed_of_quiet (forall_mem_singleton.mpr rfl)

theorem exists_lexemes_lined {stop : Char → Bool} {ws : List Word} (h : Lexes stop text ws)
    (p : Position) (r : List Char) :
    ∃ ls, lexemes p ((lined text).toList ++ r) = ls ++ lexemes (p.advance (lined text).toList) r ∧
      ls.map (fun l => l.token.word) = ws ∧ Quiet ls ∧
      ∀ l ∈ ls, p.Within text.toList l.token.position := by
  obtain ⟨ls, hls, hwords, hquiet⟩ := h p [] (stops_nil stop)
  rw [append_nil, lexemes_nil] at hls
  have hclosed : Closed (lexemes p text.toList) := by
    rw [hls]
    exact closed_of_quiet (forall_mem_append.mpr ⟨hquiet, by simp⟩)
  refine ⟨ls, ?_, hwords, hquiet, fun l hl => ?_⟩
  · rw [lexemes_lined hclosed, hls, dropLast_concat]
  · exact (within_of_mem_lexemes (by rw [hls]; simp [hl])).1

/-- The tokens of a text around a block: those that open the block, those in it, the brace that
closes it and, from `start` on, those behind it. -/
structure Layout (first name body last : String) where
  zone : Zone
  opening : List Lexeme
  inner : List Lexeme
  start : Position
  tokens : lex (enclose first name body last) =
    (lex first).dropLast ++ (opening ++ (inner ++ zone.wall :: zone.beyond))
  opens : opening.map (fun l => l.token.word) =
    [.ident "message", .ident name, .symbol "\x7b"]
  quiet : Quiet opening
  words_eq : inner.map (fun l => l.token.word) = words body
  contains : ∀ l ∈ inner, zone.Contains l
  proper : zone.Proper
  before : zone.before = []
  beyond : zone.beyond = lexemes start last.toList
  firstLine : zone.first = lineCount first + 2
  lastLine : zone.last = lineCount first + lineCount body + 2

theorem exists_layout {body : String} (hname : IsIdentifier name) (hfirst : Closed (lex first))
    (hbody : SelfContained body) (last : String) : Nonempty (Layout first name body last) := by
  let p₁ := Position.origin.advance (lined first).toList
  let p₂ := p₁.advance (lined ("message " ++ name ++ " \x7b")).toList
  let p₃ := p₂.advance (lined body).toList
  have hword : Lexes goesOn ("message " ++ name ++ " \x7b")
      [.ident "message", .ident name, .symbol "\x7b"] := lexes_opening (by decide) hname
  obtain ⟨opening, hopening, hopens, hquiet, _⟩ := exists_lexemes_lined hword p₁
    ((lined body).toList ++ ((lined "\x7d").toList ++ last.toList))
  obtain ⟨closing, hclosing, hcloses, hclean, hwithin⟩ := exists_lexemes_lined lexes_closing p₃
    last.toList
  obtain ⟨wall, rfl, hwall⟩ := map_eq_singleton_iff.mp hcloses
  have hclosed := hbody.closed.elsewhere p₂
  have hline₂ : p₂.line = lineCount first + 2 := by
    show (p₁.advance _).line = _
    rw [Position.line_advance, lined_opening, count_opening hname, Position.line_advance]
    show 1 + lineCount first + 1 = lineCount first + 2
    omega
  have hline₃ : p₃.line = lineCount first + lineCount body + 2 := by
    show (p₂.advance _).line = _
    rw [Position.line_advance, hline₂]
    show lineCount first + 2 + lineCount body = lineCount first + lineCount body + 2
    omega
  let zone : Zone := ⟨lineCount first + 2, lineCount first + lineCount body + 2, wall,
    lexemes (p₃.advance (lined "\x7d").toList) last.toList, []⟩
  have hbodyCovers : ∀ q, p₂.Within body.toList q → zone.Covers q := by
    intro q hq
    have hlines := hq.line
    have hcount := count_le_lineCount body
    show lineCount first + 2 ≤ q.line ∧ q.line ≤ lineCount first + lineCount body + 2
    omega
  have hwallCovers : zone.Contains wall := by
    have hlines := (hwithin wall (by simp)).line
    refine ⟨?_, by simp [hclean wall (by simp)]⟩
    show lineCount first + 2 ≤ wall.token.position.line ∧
      wall.token.position.line ≤ lineCount first + lineCount body + 2
    have hnone : "\x7d".toList.count '\n' = 0 := by decide
    omega
  exact ⟨{
    zone := zone
    opening := opening
    inner := (lexemes p₂ body.toList).dropLast
    start := p₃.advance (lined "\x7d").toList
    tokens := by
      have htext : (enclose first name body last).toList = (lined first).toList ++
          ((lined ("message " ++ name ++ " \x7b")).toList ++
            ((lined body).toList ++ ((lined "\x7d").toList ++ last.toList))) := by
        simp only [enclose, lined_opening, lined_closing, String.toList_append, append_assoc]
      rw [lex, htext, lexemes_lined hfirst, hopening, lexemes_lined hclosed, hclosing]
      rfl
    opens := hopens
    quiet := hquiet
    words_eq := by
      rw [map_dropLast, map_word_lexemes Position.origin p₂, ← map_dropLast]
      rfl
    contains := fun l hl =>
      have hl := within_of_mem_lexemes (dropLast_subset _ hl)
      ⟨hbodyCovers _ hl.1, fun d hd => hbodyCovers _ (hl.2 d hd)⟩
    proper := ⟨hwall, hwallCovers, lexemes_ne_nil _ _⟩
    before := rfl
    beyond := rfl
    firstLine := rfl
    lastLine := rfl }⟩

/-! ## Reading up to the block -/

theorem parts_of_end (hend : l.token.word = .endOfInput)
    (hrest : ∃ k ks, rest = k :: ks ∧ k.remarks = []) : Fork [l] rest :=
  ⟨congrArg (fun w : Word => some w.kind) hend, hrest⟩

theorem continues_of_words {rest' ls' : List Lexeme} (hparts : Fork rest rest')
    (hwords : ls'.map (fun l => l.token.word) = ls.map fun l => l.token.word)
    (hquiet : Quiet ls') : Continues rest rest' (ls ++ rest) (ls' ++ rest') := by
  induction ls generalizing ls' with
  | nil =>
    obtain rfl := map_eq_nil_iff.mp hwords
    exact .stop hparts
  | cons k ks ih =>
    obtain ⟨k', ks', rfl, hword, hmore⟩ := map_eq_cons_iff.mp hwords
    exact .step hword (hquiet k' (by simp)) (ih hmore fun x hx => hquiet x (by simp [hx]))

theorem continues_lexemes (hquiet : Quiet (lexemes q cs)) (p : Position) (rest : List Lexeme)
    (hrest : ∃ k ks, rest = k :: ks ∧ k.remarks = []) :
    ∃ l, l.token.word = .endOfInput ∧
      Continues [l] rest (lexemes p cs) ((lexemes q cs).dropLast ++ rest) := by
  obtain ⟨ls, l, hls, hend⟩ := exists_lexemes_concat p cs
  obtain ⟨ls', l', hls', _⟩ := exists_lexemes_concat q cs
  have hwords := map_word_lexemes p q cs
  rw [hls, hls', map_append, map_append] at hwords
  rw [hls'] at hquiet
  rw [hls, hls', dropLast_concat]
  exact ⟨l, hend, continues_of_words (parts_of_end hend hrest) (append_inj_left' hwords rfl)
    hquiet.of_append.1⟩

namespace Production

/-- Reading resumes behind every statement. -/
theorem runStatement_resume {σ : Type} (statement : Production σ Unit) (s : σ) (c : Cursor) :
    (runStatement .resume statement s c).1 = some () := by
  unfold runStatement
  generalize statement.run s c = outcome
  obtain ⟨_ | u, t, e⟩ := outcome <;> rfl

/-- Statements are read up to the end of the input. -/
theorem runStatements_resume {σ : Type} (statement : Production σ Unit) (s : σ) (c : Cursor) :
    ∃ t d, runStatements .resume statement s c = (some (), t, d) ∧ d.ahead = [] := by
  fun_induction runStatements .resume statement s c with
  | case1 s c hnil => exact ⟨s, c, rfl, hnil⟩
  | case2 _ _ _ _ _ _ ih => exact ih
  | case3 _ _ _ _ _ hresume => exact absurd rfl hresume
  | case4 _ _ _ _ _ _ _ ih => exact ih
  | case5 s c _ _ s₁ d hrun => cases hrun ▸ runStatement_resume statement s c

def language : Production File Unit := do
  if ← atWord "syntax" then tolerate .resume syntaxStatement

theorem run_language_eq (file : File) (c : Cursor) :
    language.run file c =
      if c.current.isWord "syntax" then (tolerate .resume syntaxStatement).run file c
      else (some (), file, c) := by
  show (if c.current.isWord "syntax" then tolerate .resume syntaxStatement else pure ()).run file
    c = _
  split <;> rfl

theorem run_language (file : File) (c : Cursor) :
    ∃ t d, language.run file c = (some (), t, d) := by
  rw [run_language_eq]
  split
  · generalize hstatement : syntaxStatement.run file c = outcome
    obtain ⟨_ | u, t, d⟩ := outcome
    · exact ⟨t, d.skipStatement, by simp [tolerate, hstatement]⟩
    · exact ⟨t, d, run_tolerate_some hstatement⟩
  · exact ⟨file, c, rfl⟩

theorem run_file {t : File}
    (h : language.run file (ofSource source).next = (some (), t, d)) :
    (Production.file .resume).run file (ofSource source) =
      runStatements .resume (topLevelStatement ⟨t.dialect, .resume⟩) t d := by
  have hrun : (Production.file .resume).run file (ofSource source) =
      (language >>= fun _ => built >>= fun f =>
        statements .resume (topLevelStatement ⟨f.dialect, .resume⟩)).run file
        (ofSource source).next := by
    rw [Production.file, run_open]
    unfold language
    simp only [atWord, look, run_bind]
    split <;> rfl
  rw [hrun, run_bind, h]
  rfl

/-- The language is named alike in two texts of the same words. A text without words names none. -/
theorem echo_language {f t : File} {c' : Cursor} (hend : l.token.word = .endOfInput) (hc : c.Clean)
    (hecho : c.Echo [l] rest c') (hhead : c.ahead = [] → c'.current.word ≠ .ident "syntax")
    (hrun : language.run f c = (some (), t, d)) (hquiet : d.diagnostics = []) :
    ∃ d', language.run f c' = (some (), t, d') ∧ d.Clean ∧ d.Echo [l] rest d' ∧
      Cursor.Alongside c d c' d' := by
  by_cases hnil : c.ahead = []
  · obtain ⟨⟨k, hk, hahead⟩, _⟩ := hecho.at_rest (by simp [hnil])
    have hno : ∀ {c : Cursor}, c.current.word ≠ .ident "syntax" →
        language.run f c = (some (), f, c) := by
      intro c hword
      rw [run_language_eq, if_neg fun h => hword (isWord_iff.mp h)]
    obtain ⟨rfl, _⟩ := List.cons.inj hahead
    rw [hno (by rw [← hk, hend]; decide)] at hrun
    cases hrun
    exact ⟨c', hno (hhead hnil), hc, hecho, .refl _ _⟩
  · have hlanguage : Alike Eq 0 1 language language := by
      unfold language
      infer_instance
    obtain ⟨_, t', d', hrun', hd, hecho', hside, _, rfl⟩ :=
      hlanguage.echoes rfl c c' () t d hc hecho (length_pos_iff.mpr hnil) hrun hquiet (by simp)
    exact ⟨d', hrun', hd, hecho', hside⟩

end Production

open Production

/-- Nothing is remarked on the tokens of a text that is read to its end without a complaint. -/
theorem Cursor.Onward.quiet_lex (h : (ofSource source).Onward d) (hnil : d.ahead = [])
    (hd : d.diagnostics = []) : Quiet (lex source) := by
  intro l hl
  rcases h.remarks l hl with hl | hl
  · rw [hnil] at hl
    cases hl
  · exact subset_nil.mp (hd ▸ hl)

theorem quiet_lex_of_parse (h : parse path source = .ok (file, locations)) :
    Quiet (lex source) := by
  obtain ⟨r, d, hrun, hquiet, _⟩ := parse_eq_ok_iff.mp h
  refine (onward_of_run hrun).quiet_lex ?_ hquiet
  obtain ⟨t, e, hlanguage⟩ := run_language { name := path } (ofSource source).next
  obtain ⟨t', d', hstatements, hnil⟩ :=
    runStatements_resume (topLevelStatement ⟨t.dialect, .resume⟩) t e
  rw [run_file hlanguage, hstatements] at hrun
  cases hrun
  exact hnil

/-- Behind a text without faults, reading goes on with what it declares. -/
theorem exists_run_behind (hparse : parse path first = .ok (file, locations))
    (hend : l.token.word = .endOfInput) (htext : Continues [l] rest (lex first) (lex source))
    (hhead : (lex first).length = 1 → ∀ k ∈ rest.head?, k.token.word ≠ .ident "syntax") :
    ∃ c, (Production.file .resume).run { name := path } (ofSource source) =
        runStatements .resume (topLevelStatement ⟨file.dialect, .resume⟩) file c ∧
      c.unread = rest ∧ c.diagnostics = [] ∧ c.unterminated = false := by
  have hquiet := quiet_lex_of_parse hparse
  obtain ⟨r, d, hrun, hdiag, _⟩ := parse_eq_ok_iff.mp hparse
  obtain ⟨k, ks, k', ks', hlex, hlex', hremarks⟩ := htext.exists_cons
  rw [hlex, hlex'] at htext
  have hnext := next_ofSource hlex
  have hnext' := next_ofSource hlex'
  have hclean : (ofSource first).next.Clean := by
    apply clean_next_ofSource
    rw [hnext]
    exact hquiet k (by simp [hlex])
  have hecho : (ofSource first).next.Echo [l] rest (ofSource source).next := by
    rw [hnext, hnext']
    exact ⟨k, k', rfl, rfl, htext⟩
  have hword : (ofSource first).next.ahead = [] →
      (ofSource source).next.current.word ≠ .ident "syntax" := by
    intro hnil
    rw [hnext] at hnil
    obtain rfl : ks = [] := hnil
    obtain ⟨_, rfl⟩ := htext.eq_of_length_le (by simp)
    rw [hnext']
    exact hhead (by rw [hlex]; rfl) k' rfl
  -- First the statement that names the language, then the statements of the file.
  obtain ⟨t, e, hlanguage⟩ := run_language { name := path } (ofSource first).next
  rw [run_file hlanguage] at hrun
  have he := (onward_of_run (p := statements .resume _) hrun).quiet hdiag
  obtain ⟨e', hlanguage', he, hecho, hside⟩ :=
    echo_language hend hclean hecho hword hlanguage he
  have hdiffer : File.Differ t.dialect [] [] t t := ⟨rfl, t.messages, rfl, rfl⟩
  obtain ⟨_, c', hrun', hnil, hecho, hside', hlanguage₂, more, hmessages, rfl⟩ :=
    echo_runStatements (h := alike_topLevelStatement) hdiffer he hecho hrun hdiag
  refine ⟨c', ?_, (hecho.at_rest (by simp [hnil])).2, ?_, ?_⟩
  · rw [run_file hlanguage', hrun', ← hlanguage₂, ← hmessages]
  · rw [hside'.diagnostics, hside.diagnostics, hnext']
    exact hremarks
  · rw [hside'.unterminated, hside.unterminated, hnext']

/-- What follows a place is read alike behind another, if it is without faults to its end. -/
theorem exists_run_elsewhere {p : Position} {c' : Cursor} (hc : c.unread = lexemes p cs)
    (hc' : c'.unread = lexemes q cs) (hquiet : Quiet (lexemes p cs)) {dialect : Dialect}
    {ms ms' : List Message} {f f' t : File} (hfile : File.Differ dialect ms ms' f f')
    {r : Option Unit}
    (hrun : runStatements .resume (topLevelStatement ⟨dialect, .resume⟩) f c = (r, t, d))
    (hd : d.diagnostics = []) :
    ∃ t' d', runStatements .resume (topLevelStatement ⟨dialect, .resume⟩) f' c' =
        (some (), t', d') ∧ File.Differ dialect ms ms' t t' ∧ c'.Silent d' := by
  have hquiet' := quiet_elsewhere hquiet q
  obtain ⟨ls, stop, htext, _⟩ := exists_lexemes_concat q cs
  obtain ⟨stop', _, hcontinues⟩ := continues_lexemes hquiet' p [stop]
    ⟨stop, [], rfl, hquiet' stop (by rw [htext]; simp)⟩
  have hecho : c.Echo [stop'] [stop] c' := by
    rw [htext, dropLast_concat, ← htext, ← hc, ← hc'] at hcontinues
    exact ⟨_, _, rfl, rfl, hcontinues⟩
  have hclean : c.Clean := by
    have hsound := sound_lexemes p cs
    rw [← hc] at hsound
    exact ⟨(onward_of_run (p := statements .resume _) hrun).quiet hd, hsound.1 rfl, hsound.2⟩
  obtain ⟨t', d', hsecond, hnil, hecho', hside, hfile'⟩ :=
    echo_runStatements (h := alike_topLevelStatement) hfile hclean hecho hrun hd
  have hend : d'.ahead = [] := (List.cons.inj (hecho'.at_rest (by simp [hnil])).2).2
  refine ⟨t', d', ?_, hfile', hside.diagnostics, hside.unterminated⟩
  rw [hsecond, runStatements, dif_pos hend]

/-! ## Reading the block -/

theorem Cursor.bump_cons (h : c.ahead = l :: ls) :
    c.bump.current = l.token ∧ c.bump.ahead = ls ∧ c.bump.diagnostics = c.diagnostics ++ l.remarks ∧
      c.bump.unterminated = c.unterminated := by
  rw [bump_of_cons h]
  exact ⟨rfl, rfl, rfl, rfl⟩

namespace Production

variable {σ : Type} {dialect : Dialect}

theorem run_identifier {what : String} (h : c.current.word = .ident name) (s : σ) :
    (identifier what).run s c = (some name, s, c.bump) := by
  have hkind : c.current.kind = .identifier := congrArg Word.kind h
  have htext : c.current.text = name := congrArg Word.text h
  simp [identifier, atKind, look, bump, move, run_bind, hkind, htext]

theorem run_symbol {x : String} (h : c.current.isSymbol x = true) (s : σ) :
    (symbol x).run s c = (some (), s, c.bump) := by
  simp [symbol, eatSymbol, atSymbol, look, bump, move, run_bind, h]

theorem run_message {budget : Nat} {path : List Int} {s : σ} {e : Cursor} {m : Message}
    (hname : c.bump.current.word = .ident name) (hopen : c.bump.bump.current.word = .symbol "\x7b")
    (hblock : (block .resume "message"
      (messageStatement ⟨dialect, .resume⟩ path (message ⟨dialect, .resume⟩ budget))).run { name }
      c.bump.bump.bump = (some (), m, e)) :
    (message ⟨dialect, .resume⟩ (budget + 1) path).run s c =
      (some m.withSyntheticOneofs, s, e.record path c.current.position) := by
  have hsymbol : c.bump.bump.current.isSymbol "\x7b" = true := isSymbol_iff.mpr hopen
  simp only [message, here, look, bump, move, run_bind, run_identifier hname, run_symbol hsymbol]
  rw [run_build, hblock]
  rfl

theorem run_topLevelStatement_message {f : File} {e : Cursor} {m : Message}
    (hword : c.current.word = .ident "message")
    (hmessage : (message ⟨dialect, .resume⟩ Message.maxNesting
      [Location.fileMessage, Int.ofNat f.messages.length]).run f c = (some m, f, e)) :
    (topLevelStatement ⟨dialect, .resume⟩).run f c =
      (some (), { f with messages := f.messages ++ [m] }, e) := by
  have hsemicolon : c.current.isSymbol ";" = false := by
    rw [← Bool.not_eq_true, isSymbol_iff, hword]
    exact Word.ident_ne_symbol _ _
  have hname : c.current.isWord "message" = true := isWord_iff.mpr hword
  simp only [topLevelStatement, eatSymbol, atSymbol, peek, look, built, run_bind, hsemicolon, hname,
    Bool.false_eq_true, if_false, if_true, run_pure, hmessage]
  rfl

end Production

namespace Layout

variable {first body last : String}

theorem inner_eq_nil (L : Layout first name "" last) : L.inner = [] := by
  have hwords : L.inner.map (fun l => l.token.word) = [] := by
    rw [L.words_eq, words, lex]
    show ((lexemes Position.origin []).dropLast).map _ = _
    rw [lexemes_nil]
    rfl
  exact map_eq_nil_iff.mp hwords

variable (L : Layout first name body last)

theorem inside (hbody : SelfContained body) (hl : l.token = c.current)
    (hahead : l :: c.ahead = L.inner ++ L.zone.wall :: L.zone.beyond)
    (hreports : c.diagnostics = l.remarks) (hterminated : c.unterminated = false) :
    L.zone.Inside 0 c := by
  refine ⟨⟨l, L.inner, hl, hahead, ?_, L.contains⟩, ⟨l.remarks, ?_, ?_⟩, hterminated⟩
  · rw [L.words_eq]
    exact hbody.balanced
  · rw [L.before, hreports]
    rfl
  · have hcontains : L.zone.Contains l := by
      cases hinner : L.inner with
      | nil =>
        rw [hinner] at hahead
        obtain ⟨rfl, _⟩ := List.cons.inj hahead
        exact L.proper.wall
      | cons k ks =>
        rw [hinner] at hahead
        obtain ⟨rfl, _⟩ := List.cons.inj hahead
        exact L.contains l (by simp [hinner])
    exact hcontains.2

/-- The cursor is at the first token behind the block, and all that has been reported before that
token is on lines of the block. -/
def Behind (L : Layout first name body last) (d : Cursor) : Prop :=
  ∃ l ds, l.token = d.current ∧ l :: d.ahead = L.zone.beyond ∧ d.diagnostics = ds ++ l.remarks ∧
    (∀ x ∈ ds, L.zone.Covers x.position) ∧ d.unterminated = false

/-- The block is read up to the brace that closes it. -/
theorem exists_run_block (hc : L.zone.Inside 0 c) (dialect : Dialect) (budget : Nat)
    (path : List Int) :
    ∃ m d, (block .resume "message" (messageStatement ⟨dialect, .resume⟩ path
        (message ⟨dialect, .resume⟩ budget))).run { name } c = (some (), m, d) ∧
      m.name = name ∧ (c.current.word = .symbol "\x7d" → m = { name }) ∧ L.Behind d := by
  have hkeeps : ∀ u, Keeps ((Zone.invariant L.proper).under () fun m : Message => m.name = name) 0 u
      (messageStatement ⟨dialect, .resume⟩ path (message ⟨dialect, .resume⟩ budget)) := fun _ =>
    keeps_messageStatement (Message.kept_name (· = name)) (fun _ _ _ _ => trivial) fun hword _ =>
      ⟨keeps_message (kind_of_isWord hword) fun _ _ => trivial, fun _ _ _ _ _ _ => trivial⟩
  obtain ⟨m, e, _, hrun, ⟨he, hname⟩, ⟨hclose, rfl⟩ | ⟨hnil, _⟩⟩ := keeps_runBlock
    hkeeps "message" (s := { name }) ⟨hc, rfl⟩
  case inr => exact absurd hnil (Zone.Inside.ahead_ne_nil L.proper he)
  refine ⟨m, e.bump, hrun, hname, fun hempty => ?_, ?_⟩
  · rw [runBlock, if_pos (isSymbol_iff.mpr hempty)] at hrun
    exact (Prod.mk.inj (Prod.mk.inj hrun).2).1.symm
  · obtain ⟨_, hahead⟩ := he.wall (isSymbol_iff.mp hclose)
    obtain ⟨l, ls, hbeyond⟩ := exists_cons_of_ne_nil L.proper.beyond
    obtain ⟨hcurrent, hbump, hdiagnostics, hterminated⟩ := bump_cons (hahead.trans hbeyond)
    obtain ⟨ds, hds, hcovers⟩ := he.reports
    refine ⟨l, ds, hcurrent.symm, hbump ▸ hbeyond.symm, ?_, hcovers,
      hterminated.trans he.terminated⟩
    rw [hdiagnostics, hds, L.before]
    rfl

/-- The message is read with all of its block. What it declares has its name, and is nothing else
if the block is empty. -/
theorem exists_run (hbody : SelfContained body) (file : File)
    (hahead : c.unread = L.opening ++ (L.inner ++ L.zone.wall :: L.zone.beyond))
    (hquiet : c.diagnostics = []) (hterminated : c.unterminated = false) :
    ∃ m d, m.name = name ∧ (body = "" → m = { name }) ∧ L.Behind d ∧
      runStatements .resume (topLevelStatement ⟨file.dialect, .resume⟩) file c =
        runStatements .resume (topLevelStatement ⟨file.dialect, .resume⟩)
          { file with messages := file.messages ++ [m] } d := by
  obtain ⟨k₁, _, hopening, hword₁, hopens⟩ := map_eq_cons_iff.mp L.opens
  obtain ⟨k₂, _, rfl, hword₂, hopens⟩ := map_eq_cons_iff.mp hopens
  obtain ⟨k₃, rfl, hword₃⟩ := map_eq_singleton_iff.mp hopens
  obtain ⟨k₄, ks, htext⟩ : ∃ k ks, L.inner ++ L.zone.wall :: L.zone.beyond = k :: ks :=
    exists_cons_of_ne_nil (by simp)
  have hquietOpening := L.quiet
  rw [hopening] at hahead hquietOpening
  rw [htext] at hahead
  obtain ⟨hcurrent, hahead₁⟩ := current_of_unread hahead
  -- Past the keyword, the name and the brace.
  obtain ⟨hcurrent₁, hahead₂, hdiag₁, hterm₁⟩ := bump_cons hahead₁
  obtain ⟨hcurrent₂, hahead₃, hdiag₂, hterm₂⟩ := bump_cons hahead₂
  obtain ⟨hcurrent₃, hahead₄, hdiag₃, hterm₃⟩ := bump_cons hahead₃
  have hin : L.zone.Inside 0 c.bump.bump.bump := by
    apply L.inside hbody hcurrent₃.symm (hahead₄ ▸ htext.symm)
    · rw [hdiag₃, hdiag₂, hdiag₁, hquiet, hquietOpening k₂ (by simp), hquietOpening k₃ (by simp)]
      rfl
    · rw [hterm₃, hterm₂, hterm₁, hterminated]
  let path := [Location.fileMessage, Int.ofNat file.messages.length]
  obtain ⟨m, d, hblock, hname, hempty, hbehind⟩ :=
    L.exists_run_block hin file.dialect (Message.maxNesting - 1) path
  have hmessage := run_message (s := file) (by rw [hcurrent₁, hword₂]) (by rw [hcurrent₂, hword₃])
    hblock
  have hstatement := run_topLevelStatement_message (by rw [hcurrent, hword₁]) hmessage
  refine ⟨m.withSyntheticOneofs, d.record path c.current.position, ?_, ?_, hbehind, ?_⟩
  · rw [Message.name_withSyntheticOneofs, hname]
  · rintro rfl
    rw [L.inner_eq_nil] at htext
    obtain ⟨hwall, _⟩ := List.cons.inj htext
    rw [hempty (by rw [hcurrent₃, ← hwall, L.proper.closing])]
    rfl
  · apply runStatements_step (by rw [hcurrent, hword₁]; exact Word.ident_ne_symbol _ _)
      (by simp [hahead₁])
    apply runStatement_of_run hstatement
    obtain ⟨k, _, _, hbeyond, _⟩ := hbehind
    have hlength := congrArg List.length htext
    have hlength' := congrArg List.length hbeyond
    rw [hahead₁]
    show d.ahead.length < _
    simp at hlength hlength' ⊢
    omega

/-- The text is read up to the end of the message as `first` is, and the message is added. -/
theorem exists_read (hbody : SelfContained body) {path : String}
    (hparse : parse path first = .ok (file, locations)) :
    ∃ m d, m.name = name ∧ (body = "" → m = { name }) ∧ L.Behind d ∧
      (Production.file .resume).run { name := path }
          (ofSource (enclose first name body last)) =
        runStatements .resume (topLevelStatement ⟨file.dialect, .resume⟩)
          { file with messages := file.messages ++ [m] } d := by
  obtain ⟨k, ks, hopening, hword, _⟩ := map_eq_cons_iff.mp L.opens
  obtain ⟨stop, hend, htext⟩ := continues_lexemes (quiet_lex_of_parse hparse) Position.origin
    (L.opening ++ (L.inner ++ L.zone.wall :: L.zone.beyond))
    ⟨k, _, by rw [hopening]; rfl, L.quiet k (by simp [hopening])⟩
  have hhead : ∀ l ∈ (L.opening ++ (L.inner ++ L.zone.wall :: L.zone.beyond)).head?,
      l.token.word ≠ .ident "syntax" := by
    rw [hopening]
    rintro l ⟨⟩
    rw [hword]
    decide
  have hencloses : Continues [stop] (L.opening ++ (L.inner ++ L.zone.wall :: L.zone.beyond))
      (lex first) (lex (enclose first name body last)) := by
    rw [L.tokens]
    exact htext
  obtain ⟨c, hrun, hahead, hquiet, hterminated⟩ :=
    exists_run_behind hparse hend hencloses fun _ => hhead
  obtain ⟨m, d, hname, hempty, hbehind, hrun'⟩ :=
    L.exists_run hbody file hahead hquiet hterminated
  exact ⟨m, d, hname, hempty, hbehind, hrun.trans hrun'⟩

/-- Behind the block of one text, reading goes on as behind that of another, if that is without
faults to its end. -/
theorem Behind.exists_run {body' : String} {L : Layout first name body last}
    {L' : Layout first name body' last} {c' : Cursor} (h : L.Behind c) (h' : L'.Behind c')
    (hquiet : Quiet L.zone.beyond) {dialect : Dialect} {ms ms' : List Message}
    {f f' t : File} (hfile : File.Differ dialect ms ms' f f') {r : Option Unit}
    (hrun : runStatements .resume (topLevelStatement ⟨dialect, .resume⟩) f c = (r, t, d))
    (hd : d.diagnostics = []) :
    ∃ t' d', runStatements .resume (topLevelStatement ⟨dialect, .resume⟩) f' c' =
        (some (), t', d') ∧ File.Differ dialect ms ms' t t' ∧
      (∀ x ∈ d'.diagnostics, L'.zone.Covers x.position) ∧ d'.unterminated = false := by
  obtain ⟨l, _, hl, hahead, _⟩ := h
  obtain ⟨l', ds, hl', hahead', hreports, hcovers, hterminated⟩ := h'
  rw [L.beyond] at hahead hquiet
  rw [L'.beyond] at hahead'
  have hl₀ := hquiet l (by rw [← hahead]; simp)
  have hremarks := quiet_elsewhere hquiet L'.start l' (by rw [← hahead']; simp)
  obtain ⟨t', d', hrun', hfile', hsilent⟩ := exists_run_elsewhere
    (unread_of_cons hl hahead hl₀) (unread_of_cons hl' hahead' hremarks) hquiet
    hfile hrun hd
  refine ⟨t', d', hrun', hfile', ?_, hsilent.unterminated.trans hterminated⟩
  rw [hsilent.diagnostics, hreports, hremarks, append_nil]
  exact hcovers

end Layout

/-! ## Errors stay inside the block -/

/-- Put a message between two texts that can be read with the message empty. Whatever stands in
its block, if the braces match and every comment ends there, the whole text is read to its end as if
the block were empty, but for what the message declares, and every error is on a line of the
block. -/
theorem readFile_enclose {path first name body last : String} {file whole : File}
    {locations locations' : List Location} (hname : IsIdentifier name)
    (hfirst : parse path first = .ok (file, locations))
    (hwhole : parse path (enclose first name "" last) = .ok (whole, locations'))
    (hbody : SelfContained body) :
    (readFile path (enclose first name body last)).complete = true ∧
      whole.messages[file.messages.length]? = some { name } ∧
      (∃ m : Message, m.name = name ∧ (readFile path (enclose first name body last)).file =
        { whole with messages := whole.messages.set file.messages.length m }) ∧
      ∀ d ∈ (readFile path (enclose first name body last)).diagnostics,
        lineCount first + 1 < d.position.line ∧
          d.position.line < lineCount first + lineCount body + 3 := by
  have hclosed := closed_of_quiet (quiet_lex_of_parse hfirst)
  obtain ⟨L₀⟩ := exists_layout hname hclosed selfContained_empty last
  obtain ⟨L⟩ := exists_layout hname hclosed hbody last
  obtain ⟨_, d₀, _, hempty, hbehind₀, hrun₀⟩ := L₀.exists_read selfContained_empty hfirst
  obtain ⟨m, d, hm, _, hbehind, hrun⟩ := L.exists_read hbody hfirst
  obtain rfl := hempty rfl
  obtain ⟨r, e, hrunWhole, hquiet, _⟩ := parse_eq_ok_iff.mp hwhole
  rw [hrun₀] at hrunWhole
  have hlast : Quiet L₀.zone.beyond := by
    intro l hl
    apply quiet_lex_of_parse hwhole
    simp [L₀.tokens, hl]
  have hdiffer : File.Differ file.dialect (file.messages ++ [{ name := name }])
      (file.messages ++ [m])
      { file with messages := file.messages ++ [{ name }] }
      { file with messages := file.messages ++ [m] } :=
    ⟨rfl, [], (List.append_nil _).symm, by rw [List.append_nil]⟩
  obtain ⟨t, d', hstatements, ⟨_, more, hmessages, rfl⟩, hcovers, hterminated⟩ :=
    hbehind₀.exists_run hbehind hlast hdiffer hrunWhole hquiet
  have hread : readFile path (enclose first name body last) =
      ⟨{ whole with messages := file.messages ++ [m] ++ more }, d'.diagnostics, d'.locations,
        !d'.unterminated⟩ := by
    rw [readFile, readInto, hrun, hstatements]
  rw [hread, hmessages]
  refine ⟨by rw [hterminated]; rfl, by simp, ⟨m, hm, by simp⟩, fun x hx => ?_⟩
  have hlines := hcovers x hx
  rw [Zone.Covers, L.firstLine, L.lastLine] at hlines
  omega

/-- Nothing in this text can be understood inside a message, and its blocks are closed. -/
def garbled : String :=
  "int32 = 1;\noneof \x7b ? \x7d\nmessage \x7b \x7b \x7d \x7d"

theorem readFile_enclose_garbled :
    parse "t" "package a;" = .ok ({ name := "t", package := some "a" }, []) ∧
      parse "t" (enclose "package a;" "M" "" "import 'b';") =
        .ok ({ name := "t", package := some "a", imports := ["b"], messages := [{ name := "M" }] },
          (readFile "t" (enclose "package a;" "M" "" "import 'b';")).locations) ∧
      SelfContained garbled ∧
      (readFile "t" (enclose "package a;" "M" garbled "import 'b';")).diagnostics ≠ [] ∧
      (readFile "t" (enclose "package a;" "M" garbled "import 'b';")).complete = true ∧
      (∃ m : Message, m.name = "M" ∧
        (readFile "t" (enclose "package a;" "M" garbled "import 'b';")).file =
          { name := "t", package := some "a", imports := ["b"], messages := [m] }) ∧
      ∀ d ∈ (readFile "t" (enclose "package a;" "M" garbled "import 'b';")).diagnostics,
        2 < d.position.line ∧ d.position.line < 7 := by
  have hname : IsIdentifier "M" := ⟨'M', [], by decide, by decide, by simp⟩
  have hfirst : parse "t" "package a;" = .ok ({ name := "t", package := some "a" }, []) := by
    decide +kernel
  have hwhole : parse "t" (enclose "package a;" "M" "" "import 'b';") =
      .ok ({ name := "t", package := some "a", imports := ["b"], messages := [{ name := "M" }] },
        (readFile "t" (enclose "package a;" "M" "" "import 'b';")).locations) := by
    decide +kernel
  have hbody : SelfContained garbled := by decide +kernel
  obtain ⟨hcomplete, _, hfile, hlines⟩ := readFile_enclose hname hfirst hwhole hbody
  have hcount : lineCount "package a;" = 1 ∧ lineCount garbled = 3 := by decide +kernel
  rw [hcount.1, hcount.2] at hlines
  exact ⟨hfirst, hwhole, hbody, by decide +kernel, hcomplete, hfile, hlines⟩

/-- Two texts that can be read alone need not be read together: a file names its package once. -/
theorem readFile_enclose_repeated_package :
    IsIdentifier "M" ∧ (parse "t" "package a;").isOk = true ∧
      (parse "t" "package b;").isOk = true ∧ .ident "syntax" ∉ words "package b;" ∧
      SelfContained "" ∧
      ∃ d ∈ (readFile "t" (enclose "package a;" "M" "" "package b;")).diagnostics,
        lineCount "package a;" + lineCount "" + 3 ≤ d.position.line :=
  ⟨⟨'M', [], by decide, by decide, by simp⟩, by decide +kernel⟩

end ProtoSchema
