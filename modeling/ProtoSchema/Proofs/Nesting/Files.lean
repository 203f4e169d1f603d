import ProtoSchema.Proofs.Nesting.Limits

/-!
Files read with another limit on how deep messages may be nested. A file that is read without a
complaint within some limit is cut into pieces, and what is left of it is read alike within the
limit of the language.
-/

namespace ProtoSchema

open Scan Production Piece List Token Cursor

namespace Production

def topLevelWithin (limit : Nat) (mode : Mode) : Production File Unit := do
  if ← atWord "message" then
    let index := (← built).messages.length
    let m ← message mode limit [Location.fileMessage, Int.ofNat index]
    edit fun f => { f with messages := f.messages ++ [m] }
  else topLevelStatement mode

def fileWithin (limit : Nat) : Production File Unit := do
  open_
  language
  let dialect := (← built).dialect
  statements .resume (topLevelWithin limit ⟨dialect, .resume⟩)

section Within

variable {limit : Nat} {mode : Mode} {f t : File} {c d : Cursor}

theorem run_topLevelWithin_message (h : c.current.isWord "message" = true) :
    (topLevelWithin limit mode).run f c =
      (message mode limit [Location.fileMessage, Int.ofNat f.messages.length] >>= fun m =>
        edit fun f => { f with messages := f.messages ++ [m] }).run f c := by
  simp only [topLevelWithin, atWord, look, built, run_bind, h, if_true]

theorem run_topLevelWithin_of_ne (h : c.current.isWord "message" = false) :
    (topLevelWithin limit mode).run f c = (topLevelStatement mode).run f c := by
  simp only [topLevelWithin, atWord, look, run_bind, h, Bool.false_eq_true, if_false]

instance moves_topLevelWithin : Moves (topLevelWithin limit mode) := by
  unfold topLevelWithin
  infer_instance

instance heard_topLevelWithin : Heard (topLevelWithin limit mode) := by
  unfold topLevelWithin
  infer_instance

/-- The limit of the language. -/
theorem topLevelWithin_maxNesting :
    topLevelWithin Message.maxNesting mode = topLevelStatement mode := by
  have hrun : (topLevelWithin Message.maxNesting mode).run = (topLevelStatement mode).run := by
    funext f c
    cases hword : c.current.isWord "message" with
    | false => exact run_topLevelWithin_of_ne hword
    | true =>
      have hsymbol : ¬c.current.isSymbol ";" = true := by
        rw [isSymbol_iff, isWord_iff.mp hword]
        exact Word.ident_ne_symbol _ _
      rw [run_topLevelWithin_message hword, topLevelStatement, run_bind (eatSymbol ";"),
        run_eatSymbol, if_neg hsymbol]
      simp only [peek, look, built, run_bind, hword, Bool.false_eq_true, if_false, if_true]
  generalize topLevelWithin Message.maxNesting mode = p at hrun ⊢
  obtain ⟨_, _⟩ := p
  cases hrun
  rfl

theorem run_fileWithin {source : String}
    (h : language.run f (ofSource source).next = (some (), t, d)) :
    (fileWithin limit).run f (ofSource source) =
      runStatements .resume (topLevelWithin limit ⟨t.dialect, .resume⟩) t d := by
  rw [fileWithin, run_open, run_bind, h]
  rfl

end Within

end Production

/-- Reads a text where messages may be nested `limit` deep. -/
def readWithin (limit : Nat) (path source : String) : Reading :=
  let (_, file, c) := (fileWithin limit).run { name := path } (ofSource source)
  ⟨file, c.diagnostics, c.locations, !c.unterminated⟩

theorem readWithin_of_run {limit : Nat} {path source : String} {r : Option Unit} {t : File}
    {d : Cursor}
    (h : (fileWithin limit).run { name := path } (ofSource source) = (r, t, d)) :
    readWithin limit path source = ⟨t, d.diagnostics, d.locations, !d.unterminated⟩ := by
  rw [readWithin, h]

theorem readWithin_maxNesting (path source : String) :
    readWithin Message.maxNesting path source = readFile path source := by
  obtain ⟨t, d, hlanguage⟩ := run_language { name := path } (ofSource source).next
  rw [readWithin, readFile, readInto, run_fileWithin hlanguage, run_file hlanguage,
    topLevelWithin_maxNesting]

/-! ## Statements of files -/

def File.SameButMessages (dialect : Dialect) (f f' : File) : Prop :=
  f.dialect = dialect ∧ f' = { f with messages := f'.messages }

section Statements

variable {source : String} {dialect : Dialect} {limit : Nat} {f f' t : File} {c d : Cursor}

theorem File.SameButMessages.differ (h : f.SameButMessages dialect f') :
    File.Differ dialect f.messages f'.messages f f' :=
  ⟨h.1, [], by simp, by rw [append_nil]; exact h.2⟩

variable (source dialect) in
def TopLevelCarries (f t : File) (c d : Cursor) : Prop :=
  t.dialect = dialect ∧ ∃ ps, Opens ps ∧ Splits ps c d ∧
    CarriesInto (File.SameButMessages dialect) (lex source) ps c d f t fun f' t' c' d' =>
      (topLevelStatement ⟨dialect, .resume⟩).run f' c' = (some (), t', d')

theorem carries_topLevel_plain (hc : c.Calm source) (hne : c.ahead ≠ [])
    (hf : f.dialect = dialect) (hword : c.current.isWord "message" = false)
    (hrun : (topLevelStatement ⟨dialect, .resume⟩).run f c = (some (), t, d))
    (hd : d.diagnostics = []) : TopLevelCarries source dialect f t c d := by
  have hlt := Moves.ahead_lt hne hrun
  obtain ⟨read, hread, hopens, hsplits⟩ := exists_splits hc (onward_of_run hrun) hlt
    (tooDeep_topLevelStatement hword hrun)
  have hechoes : ∀ {f'}, f.SameButMessages dialect f' → ∀ rest rest', Echoes rest rest' 0 1
      (topLevelStatement ⟨dialect, .resume⟩) (topLevelStatement ⟨dialect, .resume⟩) f f'
      fun _ _ t t' => File.Differ dialect f.messages f'.messages t t' :=
    fun hf' _ _ => .alike hf'.differ
  -- The language is kept, since the statement reads the same file from the same text.
  have hdialect : t.dialect = dialect := by
    have hself : f.SameButMessages dialect f := ⟨hf, rfl⟩
    obtain ⟨_, _, _, _, _, _, hdiffer⟩ := Echoes.exists_run (hechoes hself) hc.clean hc.bounded hrun
      hd hlt hread hread rfl (fun l hl => hc.remarks l (hc.text.subset hl)) d.unread_ne_nil
    exact hdiffer.1
  refine ⟨hdialect, _, hopens, hsplits, fun f' hf' => ?_⟩
  let t' : File := { t with messages := f'.messages ++ t.messages.drop f.messages.length }
  refine ⟨t', ⟨hdialect, rfl⟩, Echoes.carries (hechoes hf') ?_ hc hrun hd hlt hread⟩
  rintro _ _ ⟨_, more, hmessages, rfl⟩
  refine ⟨rfl, ?_⟩
  simp [t', hmessages]

theorem carries_topLevel_message (hc : c.Calm source) (hf : f.dialect = dialect)
    (hword : c.current.isWord "message" = true)
    (hrun : (topLevelWithin limit ⟨dialect, .resume⟩).run f c = (some (), t, d))
    (hd : d.diagnostics = []) : TopLevelCarries source dialect f t c d := by
  rw [run_topLevelWithin_message hword] at hrun
  obtain ⟨a, u, e, hmessage, hedit⟩ := exists_run_of_bind hrun
  cases hedit
  obtain ⟨rfl, ps, hopens, hsplits, hcarries⟩ := messageCarries (Message.maxNesting - 1)
    (k := 1) rfl rfl hc (isWord_iff.mp hword) hmessage hd
  refine ⟨hf, ps, hopens, hsplits, fun f' hf' => ?_⟩
  obtain ⟨a', ha'⟩ := hcarries [Location.fileMessage, Int.ofNat f'.messages.length]
  refine ⟨{ f' with messages := f'.messages ++ [a'] }, ⟨hf, ?_⟩,
    fun keep rest c' hahead hclear => ?_⟩
  · have hsame := hf'.2
    rw [hsame]
  · obtain ⟨d', hrun', hpassed⟩ := ha' keep rest c' hahead hclear
    have hword' : c'.current.word = .ident "message" := by
      rw [(hahead.head hsplits hopens).1, isWord_iff.mp hword]
    exact ⟨d', run_topLevelStatement_message hword' (hrun' f'), hpassed⟩

/-- The statements of a file, by induction on them. -/
theorem carries_statements {r : Option Unit} (hc : c.Calm source) (hf : f.dialect = dialect)
    (hrun : runStatements .resume (topLevelWithin limit ⟨dialect, .resume⟩) f c = (r, t, d))
    (hd : d.diagnostics = []) :
    ∃ ps, (ps = [] ∨ Opens ps) ∧ Splits ps c d ∧
      CarriesInto (File.SameButMessages dialect) (lex source) ps c d f t fun f' t' c' d' =>
        runStatements .resume (topLevelStatement ⟨dialect, .resume⟩) f' c' =
          runStatements .resume (topLevelStatement ⟨dialect, .resume⟩) t' d' := by
  fun_induction runStatements .resume (topLevelWithin limit ⟨dialect, .resume⟩) f c with
  | case1 f c _ =>
    cases hrun
    refine ⟨[], .inl rfl, ⟨rfl, by simp [places], by simp⟩, fun f' hf' => ⟨f', hf', ?_⟩⟩
    intro keep rest c' hahead _
    obtain ⟨read, hread, hwords⟩ := hahead.text
    obtain rfl : read = [] := map_eq_nil_iff.mp hwords
    exact ⟨c', rfl, hread, by simp [places], rfl⟩
  | case2 f c _ _ e _ ih =>
    have honward := e.bump_onward.trans (onward_of_run (p := statements .resume _) hrun)
    have he := honward.quiet hd
    simp [e, Cursor.report] at he
  | case3 _ _ _ _ _ hresume => exact absurd rfl hresume
  | case4 f c hne hclose f₁ e hstatement ih =>
    have he := (onward_of_run (p := statements .resume _) hrun).quiet hd
    have hfirst := run_of_runStatement hc.clean hne hstatement he
    obtain ⟨hdialect, ps, hopens, hsplits, hcarries⟩ : TopLevelCarries source dialect f f₁ c e := by
      cases hword : c.current.isWord "message" with
      | false =>
        rw [run_topLevelWithin_of_ne hword] at hfirst
        exact carries_topLevel_plain hc hne hf hword hfirst he
      | true => exact carries_topLevel_message hc hf hword hfirst he
    obtain ⟨qs, _, hsplits', hcarries'⟩ :=
      ih (hc.onward (onward_of_run hfirst) he) hdialect hrun
    have hopens' : Opens (ps ++ qs) := by
      obtain ⟨l, ls, more, rfl⟩ := hopens
      exact ⟨l, ls, more ++ qs, rfl⟩
    refine ⟨ps ++ qs, .inr hopens', hsplits.trans hsplits', ?_⟩
    have hclose' : c.current.word ≠ .symbol "\x7d" := fun hw => hclose (isSymbol_iff.mpr hw)
    exact (hcarries.imp fun h => h.followed runStatements_step hsplits hopens hclose').trans
      hcarries'
      hsplits .trans
  | case5 f c _ _ _ _ hstatement => cases hstatement ▸ runStatement_resume _ f c

end Statements

/-! ## Whole files -/

section Files

variable {source path : String} {limit : Nat} {f t : File} {c d : Cursor}

theorem carries_language (hc : c.Calm source)
    (hword : c.current.isWord "syntax" = true) (hrun : language.run f c = (some (), t, d))
    (hd : d.diagnostics = []) :
    ∃ ps, Opens ps ∧ Splits ps c d ∧
      Carries (lex source) ps c d fun c' d' => language.run f c' = (some (), t, d') := by
  have hkind := kind_of_isWord hword
  have hstatement : syntaxStatement.run f c = (some (), t, d) := by
    rw [run_language_eq, if_pos hword] at hrun
    exact run_of_tolerate hc.clean hrun hd
  have hmoves : Moves syntaxStatement := .bind_left
  have hlt := Moves.ahead_lt (hc.bounded.ahead_ne_nil (ne_endOfInput hkind)) hstatement
  have hkeeps : Keeps (c.tooDeepFrom.under () fun _ => True) 0 c.current syntaxStatement :=
    keeps_syntaxStatement hkind fun _ hf => hf
  obtain ⟨read, hread, hopens, hsplits⟩ := exists_splits hc (onward_of_run hrun) hlt
    (hkeeps.of_run (k := 0) ⟨rfl, trivial⟩ hstatement).1
  refine ⟨_, hopens, hsplits, fun keep rest c' hahead hclear => ?_⟩
  have hcarries : Carries (lex source) [⟨read, none⟩] c d fun c' d' =>
      syntaxStatement.run f c' = (some (), t, d') :=
    Echoes.carries (fun _ _ => .alike (S := Eq) rfl) (fun _ _ ht => ⟨rfl, ht.symm⟩) hc hstatement hd
      hlt hread
  obtain ⟨d', hrun', hpassed⟩ := hcarries keep rest c' hahead hclear
  have hword' : c'.current.isWord "syntax" = true := by
    rw [isWord_iff, (hahead.head hsplits hopens).1, isWord_iff.mp hword]
  refine ⟨d', ?_, hpassed⟩
  dsimp only
  rw [run_language_eq, if_pos hword', run_tolerate_some hrun']

/-- Nothing is remarked on the tokens of a text that is read without a complaint. -/
theorem quiet_of_readWithin (h : (readWithin limit path source).diagnostics = []) :
    Quiet (lex source) := by
  obtain ⟨t, e, hlanguage⟩ := run_language { name := path } (ofSource source).next
  obtain ⟨u, d, hstatements, hnil⟩ :=
    runStatements_resume (topLevelWithin limit ⟨t.dialect, .resume⟩) t e
  have hrun := (run_fileWithin hlanguage).trans hstatements
  rw [readWithin_of_run hrun] at h
  exact (onward_of_run hrun).quiet_lex hnil h

theorem calm_next_ofSource (h : Quiet (lex source)) :
    (ofSource source).next.unread = lex source ∧
      (ofSource source).next.Calm source := by
  obtain ⟨l, ls, hlex⟩ := exists_lex_cons source
  have hremarks : l.remarks = [] := h l (by simp [hlex])
  have hunread : (ofSource source).next.unread = lex source := by
    rw [next_ofSource hlex, hlex, Cursor.unread, ← hremarks]
  refine ⟨hunread, h, ?_, ?_, hunread ▸ suffix_refl _⟩
  · rw [next_ofSource hlex]
    exact hremarks
  · rw [next_ofSource hlex]

/-- The language is named alike, and the statements are read alike. -/
theorem carries_file {e : Cursor} {u : File} {r : Option Unit} (hc : c.Calm source)
    (hlanguage : language.run f c = (some (), t, e))
    (hrun : runStatements .resume (topLevelWithin limit ⟨t.dialect, .resume⟩) t e = (r, u, d))
    (hd : d.diagnostics = []) :
    ∃ ps u', Splits ps c d ∧ ∀ keep stop c', Ahead keep ps c d [stop] c' →
      stop.token.word = .endOfInput → (keep = true → ∀ r ∈ places ps, Clear (lex source) r.span) →
      ∃ e' d', language.run f c' = (some (), t, e') ∧
        runStatements .resume (topLevelStatement ⟨t.dialect, .resume⟩) t e' = (some (), u', d') ∧
        Passed keep ps [stop] c' d' := by
  have he : e.diagnostics = [] := (onward_of_run (p := statements .resume _) hrun).quiet hd
  obtain ⟨ps, hps, hsplits, hcarries⟩ :=
    carries_statements (hc.onward (onward_of_run hlanguage) he) rfl hrun hd
  obtain ⟨u', _, hstatements⟩ := hcarries t ⟨rfl, rfl⟩
  have hdone : ∀ {e' d' : Cursor} {stop : Lexeme},
      runStatements .resume (topLevelStatement ⟨t.dialect, .resume⟩) t e' =
        runStatements .resume (topLevelStatement ⟨t.dialect, .resume⟩) u' d' →
      d'.unread = [stop] →
      runStatements .resume (topLevelStatement ⟨t.dialect, .resume⟩) t e' = (some (), u', d') := by
    intro e' d' stop hrun' hunread
    have hnil : d'.ahead = [] := (List.cons.inj hunread).2
    rw [hrun', runStatements, dif_pos hnil]
  by_cases hword : c.current.isWord "syntax" = true
  · obtain ⟨qs, _, hsplits', hcarries'⟩ := carries_language hc hword hlanguage he
    refine ⟨qs ++ ps, u', hsplits'.trans hsplits, fun keep stop c' hahead _ hclear => ?_⟩
    have hboth : Carries (lex source) (qs ++ ps) c d fun c' d' => ∃ e',
        language.run f c' = (some (), t, e') ∧
          runStatements .resume (topLevelStatement ⟨t.dialect, .resume⟩) t e' =
            runStatements .resume (topLevelStatement ⟨t.dialect, .resume⟩) u' d' :=
      hcarries'.trans hstatements hsplits' fun _ e' _ h₁ h₂ => ⟨e', h₁, h₂⟩
    obtain ⟨d', ⟨e', hlanguage', hrun'⟩, hpassed⟩ := hboth keep [stop] c' hahead hclear
    exact ⟨e', d', hlanguage', hdone hrun' hpassed.unread, hpassed⟩
  · rw [run_language_eq, if_neg hword] at hlanguage
    cases hlanguage
    refine ⟨ps, u', hsplits, fun keep stop c' hahead hstop hclear => ?_⟩
    have hword' : ¬c'.current.isWord "syntax" = true := by
      rw [isWord_iff] at hword ⊢
      rcases hps with rfl | hopens
      · obtain ⟨read, hread, hwords⟩ := hahead.text
        obtain rfl : read = [] := map_eq_nil_iff.mp hwords
        rw [(current_of_unread hread).1, hstop]
        decide
      · rwa [(hahead.head hsplits hopens).1]
    obtain ⟨d', hrun', hpassed⟩ := hstatements keep [stop] c' hahead hclear
    exact ⟨c', d', by rw [run_language_eq, if_neg hword'], hdone hrun' hpassed.unread, hpassed⟩

/-- A text that is read without a complaint within some limit is cut into pieces. With the pieces
that are nested too deep it is read as without them, but for the reports on them. -/
theorem exists_pieces (h : (readWithin limit path source).diagnostics = []) :
    ∃ ps file, ∃ stop : Lexeme, lex source = text true ps ++ [stop] ∧
      places ps = (readWithin limit path source).locations.filter (fun l => l.TooDeep) ∧
      (∀ p ∈ ps, p.Fits) ∧
      ∀ keep other, Quiet (lex other) →
        (lex other).map (fun l => l.token.word) =
          (text keep ps).map (fun l => l.token.word) ++ [.endOfInput] →
        (keep = true → other = source ∧ ∀ r ∈ places ps, Clear (lex source) r.span) →
        ∃ locations, readFile path other =
          ⟨file, if keep then (places ps).map Location.report else [], locations, true⟩ := by
  have hquiet := quiet_of_readWithin h
  obtain ⟨hunread, hc⟩ := calm_next_ofSource hquiet
  obtain ⟨t, e, hlanguage⟩ := run_language { name := path } (ofSource source).next
  obtain ⟨u, d, hrun, hnil⟩ := runStatements_resume (topLevelWithin limit ⟨t.dialect, .resume⟩) t e
  have hread := readWithin_of_run ((run_fileWithin hlanguage).trans hrun)
  rw [hread] at h
  obtain ⟨ps, file, hsplits, hfile⟩ := carries_file hc hlanguage hrun h
  have hend : d.unread = [⟨d.current, []⟩] := congrArg _ hnil
  have htext : lex source = text true ps ++ [⟨d.current, []⟩] := by
    rw [← hunread, ← hend, hsplits.unread]
  refine ⟨ps, file, _, htext, ?_, hsplits.fits, fun keep other hquiet' hwords hkeep => ?_⟩
  · have hstart : (ofSource source).next.tooDeep = [] := by
      obtain ⟨l, ls, hlex⟩ := exists_lex_cons source
      rw [next_ofSource hlex]
      rfl
    rw [hread, ← Cursor.tooDeep, hsplits.tooDeep, hstart, nil_append]
  obtain ⟨hunread', hc'⟩ := calm_next_ofSource hquiet'
  obtain ⟨read, stop, hread', hstop⟩ := exists_lexemes_concat Position.origin other.toList
  have hother : (ofSource other).next.unread = read ++ [stop] := hunread'.trans hread'
  have hahead : Ahead keep ps (ofSource source).next d [stop] (ofSource other).next := by
    refine ⟨⟨read, hother, ?_⟩, fun hk => ?_, hunread' ▸ hquiet', by simp⟩
    · rw [← hunread', hother, map_append] at hwords
      exact append_inj_left' hwords rfl
    · obtain ⟨rfl, _⟩ := hkeep hk
      refine ⟨rfl, ?_⟩
      rw [hsplits.unread, hend] at hother
      rw [hend]
      exact (append_inj_right' hother rfl).symm
  obtain ⟨e', d', hlanguage', hrun', hpassed⟩ :=
    hfile keep stop _ hahead hstop fun hk => (hkeep hk).2
  refine ⟨d'.locations, ?_⟩
  rw [readFile, readInto, run_file hlanguage', hrun']
  dsimp only
  rw [hpassed.diagnostics, hpassed.unterminated, hc'.quiet, hc'.terminated]
  rfl

end Files

end ProtoSchema
