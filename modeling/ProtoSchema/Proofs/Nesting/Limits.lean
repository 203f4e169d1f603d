import ProtoSchema.Proofs.Grammar.Counters
import ProtoSchema.Proofs.Nesting.Pieces

/-!
Messages read with two limits on how deep they may be nested. The first reading has no complaint.
The second one stops at the limit and reads the same words otherwise. The induction is on the limit
of the second reading.
-/

namespace ProtoSchema

open Scan Production Piece List Token Cursor

variable {c d : Cursor}

def Cursor.opening (c : Cursor) : List Lexeme :=
  [⟨c.current, []⟩, ⟨c.bump.current, []⟩, ⟨c.bump.bump.current, []⟩]

/-- The cursor is in a text without remarks, and nothing has been reported on the way to it. -/
structure Cursor.Calm (source : String) (c : Cursor) : Prop where
  remarks : Quiet (lex source)
  quiet : c.diagnostics = []
  terminated : c.unterminated = false
  text : c.unread <:+ lex source

namespace Cursor.Calm

variable {source : String} (h : c.Calm source)
include h

theorem clean : c.Clean := by
  have hsound := (sound_lexemes Position.origin source.toList).of_suffix h.text
  exact ⟨h.quiet, hsound.1 rfl, hsound.2⟩

theorem bounded : c.Bounded := by
  obtain ⟨ls, l, hls, hend⟩ := exists_lexemes_concat Position.origin source.toList
  obtain ⟨before, htext⟩ := h.text
  have hlast : (lex source).getLast? = c.unread.getLast? := by
    rw [← htext, getLast?_append, Cursor.unread, getLast?_cons, Option.some_or]
  rw [Cursor.Bounded, show c.tokens = c.unread.map Lexeme.token from rfl, getLast?_map,
    ← hlast, lex, hls, getLast?_concat]
  exact congrArg (fun w : Word => some w.kind) hend

theorem ahead : Quiet c.ahead := fun l hl =>
  h.remarks l (h.text.subset (mem_cons_of_mem _ hl))

theorem onward (honward : c.Onward d) (hd : d.diagnostics = []) : d.Calm source := by
  obtain ⟨read, hread⟩ := honward.unread h.ahead
  exact ⟨h.remarks, hd, (honward.terminated hd).trans h.terminated,
    .trans ⟨read, hread.symm⟩ h.text⟩

theorem bump (hne : c.ahead ≠ []) :
    c.unread = ⟨c.current, []⟩ :: c.bump.unread ∧ c.bump.Calm source := by
  obtain ⟨l, ls, hahead⟩ := exists_cons_of_ne_nil hne
  have hunread : c.unread = ⟨c.current, []⟩ :: l :: ls := congrArg (_ :: ·) hahead
  obtain ⟨hbump, hsilent, _⟩ := unread_bump hunread (h.ahead l (by simp [hahead]))
  refine ⟨by rw [hunread, hbump], h.onward c.bump_onward ?_⟩
  rw [hsilent.diagnostics, h.quiet]

theorem opening {name : String} (hword : c.current.word = .ident "message")
    (hname : c.bump.current.word = .ident name)
    (hopen : c.bump.bump.current.word = .symbol "\x7b") :
    c.unread = c.opening ++ c.bump.bump.bump.unread ∧ c.bump.bump.bump.Calm source := by
  have hne : ∀ {e : Cursor} {w : Word}, e.Calm source → e.current.word = w →
      w.kind ≠ .endOfInput → e.ahead ≠ [] :=
    fun he hw hkind => he.bounded.ahead_ne_nil (by rw [← hw] at hkind; exact hkind)
  obtain ⟨hfirst, hcalm₁⟩ := h.bump (hne h hword (by decide))
  obtain ⟨hsecond, hcalm₂⟩ := hcalm₁.bump (hne hcalm₁ hname (by simp [Word.ident]))
  obtain ⟨hthird, hcalm₃⟩ := hcalm₂.bump (hne hcalm₂ hopen (by decide))
  exact ⟨by rw [hfirst, hsecond, hthird]; rfl, hcalm₃⟩

end Cursor.Calm

theorem Cursor.unread_bump_three {x y z : Lexeme} {ls : List Lexeme}
    (h : c.unread = x :: y :: z :: ls) (hquiet : Quiet c.unread) (hls : ls ≠ []) :
    c.bump.current = y.token ∧ c.bump.bump.current = z.token ∧ c.bump.bump.bump.unread = ls ∧
      c.Silent c.bump.bump.bump := by
  obtain ⟨k, ks, rfl⟩ := exists_cons_of_ne_nil hls
  rw [h] at hquiet
  obtain ⟨hy, hquiet⟩ := hquiet.of_cons.2.of_cons
  obtain ⟨hz, hquiet⟩ := hquiet.of_cons
  obtain ⟨hbump₁, hsilent₁, _⟩ := unread_bump h hy
  obtain ⟨hbump₂, hsilent₂, _⟩ := unread_bump hbump₁ hz
  obtain ⟨hbump₃, hsilent₃, _⟩ := unread_bump hbump₂ hquiet.of_cons.1
  exact ⟨(current_of_unread hbump₁).1, (current_of_unread hbump₂).1, hbump₃,
    (hsilent₁.trans hsilent₂).trans hsilent₃⟩

namespace Production

variable {σ : Type}

variable {s t : σ}

theorem run_identifier_inv {what name : String}
    (h : (identifier what).run s c = (some name, t, d)) :
    c.current.word = .ident name ∧ t = s ∧ d = c.bump := by
  by_cases hkind : c.current.kind = .identifier
  · have hword : c.current.word = .ident c.current.text := Word.ext hkind rfl
    rw [run_identifier hword] at h
    cases h
    exact ⟨hword, rfl, rfl⟩
  · have hnone : (identifier what).run s c = (expected what).run s c := by
      simp [identifier, atKind, look, run_bind, hkind]
    rw [hnone] at h
    cases h

theorem run_symbol_inv {x : String} (h : (symbol x).run s c = (some (), t, d)) :
    c.current.word = .symbol x ∧ t = s ∧ d = c.bump := by
  by_cases hsymbol : c.current.isSymbol x = true
  · rw [run_symbol hsymbol] at h
    cases h
    exact ⟨isSymbol_iff.mp hsymbol, rfl, rfl⟩
  · rw [symbol, run_bind, run_eatSymbol, if_neg hsymbol] at h
    cases h

/-- A message has a name and a block, and what is read in the block. -/
theorem run_message_inv {dialect : Dialect} {n : Nat} {path : List Int} {a : Message}
    (h : (message ⟨dialect, .resume⟩ n path).run s c = (some a, t, d)) :
    ∃ budget name m e, c.bump.current.word = .ident name ∧
      c.bump.bump.current.word = .symbol "\x7b" ∧
      (block .resume "message" (statementWithin dialect budget path)).run { name }
        c.bump.bump.bump = (some (), m, e) ∧
      t = s ∧ d = e.record path c.current.position := by
  cases n with
  | zero => cases h
  | succ budget =>
    rw [message] at h
    obtain ⟨_, _, _, hhere, h⟩ := exists_run_of_bind h
    cases hhere
    obtain ⟨_, _, _, hbump, h⟩ := exists_run_of_bind h
    cases hbump
    obtain ⟨name, _, _, hidentifier, h⟩ := exists_run_of_bind h
    obtain ⟨hname, rfl, rfl⟩ := run_identifier_inv hidentifier
    obtain ⟨_, _, _, hsymbol, h⟩ := exists_run_of_bind h
    obtain ⟨hopen, rfl, rfl⟩ := run_symbol_inv hsymbol
    obtain ⟨m, u, e, hblock, h⟩ := exists_run_of_bind h
    rw [run_build] at hblock
    split at hblock
    · next hrun =>
      cases hblock
      cases h
      exact ⟨budget, name, m, e, hname, hopen, hrun, rfl, rfl⟩
    · cases hblock

theorem Moves.ahead_lt {α : Type} {p : Production σ α} {a : α} [Moves p] (hne : c.ahead ≠ [])
    (hrun : p.run s c = (some a, t, d)) : d.ahead.length < c.ahead.length := by
  have hmoved := Moves.position_lt s t c d a hne hrun
  have hposition := (onward_of_run hrun).position
  omega

/-- Where nothing is reported, a statement has been understood. -/
theorem run_of_runStatement {statement : Production σ Unit} [Heard statement] [Moves statement]
    {r : Option Unit} (hc : c.Clean) (hne : c.ahead ≠ [])
    (hrun : runStatement .resume statement s c = (r, t, d)) (hd : d.diagnostics = []) :
    statement.run s c = (some (), t, d) := by
  unfold runStatement at hrun
  generalize hstatement : statement.run s c = outcome at hrun ⊢
  obtain ⟨_ | u, t₁, e⟩ := outcome
  · cases hrun
    have he := (e.skipStatement_onward.trans (unstick_onward _ _)).quiet hd
    obtain ⟨_, hsome, _⟩ := Heard.clean inferInstance hc hstatement he
    cases hsome
  · have hmoved := Moves.position_lt s t₁ c e u hne hstatement
    cases hrun
    rw [Cursor.unstick, if_neg (by omega)]

end Production

/-! ## Stretches that are not cut out -/

section Plain

variable {σ α : Type} {source : String} {ls read : List Lexeme} {ps : List Piece}

/-- The same words are read alike. -/
theorem Production.Echoes.carries {p p' : Production σ α} {s s' t t' : σ} {a a' : α}
    {Q : α → α → σ → σ → Prop} (h : ∀ rest rest', Echoes rest rest' 0 1 p p' s s' Q)
    (hQ : ∀ a'' t'', Q a a'' t t'' → a'' = a' ∧ t'' = t') (hc : c.Calm source)
    (hrun : p.run s c = (some a, t, d)) (hd : d.diagnostics = [])
    (hlt : d.ahead.length < c.ahead.length) (hread : c.unread = read ++ d.unread) :
    Carries ls [⟨read, none⟩] c d fun c' d' => p'.run s' c' = (some a', t', d') := by
  intro keep rest c' hahead _
  obtain ⟨read', hread', hwords⟩ := hahead.text
  have hwords : read'.map (fun l => l.token.word) = read.map fun l => l.token.word := by
    rw [hwords, text_plain]
    simp [Piece.text]
  obtain ⟨a'', t'', d', hrun', hunread, hsilent, hafter⟩ :=
    Echoes.exists_run h hc.clean hc.bounded hrun hd hlt hread hread' hwords hahead.quiet
      hahead.rest_ne_nil
  obtain ⟨rfl, rfl⟩ := hQ a'' t'' hafter
  exact ⟨d', hrun', hsilent.passed hunread⟩

/-- Something has been read, and nothing that is nested too deep. -/
theorem exists_splits (hc : c.Calm source) (honward : c.Onward d)
    (hlt : d.ahead.length < c.ahead.length) (hsame : d.tooDeep = c.tooDeep) :
    ∃ read, c.unread = read ++ d.unread ∧ Opens [⟨read, none⟩] ∧ Splits [⟨read, none⟩] c d := by
  obtain ⟨read, hread⟩ := honward.unread hc.ahead
  refine ⟨read, hread, ?_, splits_plain hread hsame⟩
  cases read with
  | nil =>
    have hlength := congrArg List.length hread
    rw [nil_append, length_unread, length_unread] at hlength
    omega
  | cons l ls => exact ⟨l, ls, [], rfl⟩

variable {statement : Production σ Unit} {s t : σ}

/-- In a loop over statements, one is followed by the next one. -/
theorem Carries.followed {loop : σ → Cursor → Option Unit × σ × Cursor}
    (hloop : ∀ {s t c d}, c.current.word ≠ .symbol "\x7d" → c.ahead ≠ [] →
      runStatement .resume statement s c = (some (), t, d) → loop s c = loop t d)
    (h : Carries ls ps c d fun c' d' => statement.run s c' = (some (), t, d'))
    (hps : Splits ps c d) (hopens : Opens ps) (hclose : c.current.word ≠ .symbol "\x7d") :
    Carries ls ps c d fun c' d' => loop s c' = loop t d' := by
  intro keep rest c' hahead hclear
  obtain ⟨hword, hlt⟩ := hahead.head hps hopens
  obtain ⟨d', hrun, hpassed⟩ := h keep rest c' hahead hclear
  rw [← hpassed.unread, length_unread, length_unread, Nat.add_lt_add_iff_right] at hlt
  refine ⟨d', hloop (hword ▸ hclose) ?_ (runStatement_of_run hrun hlt), hpassed⟩
  exact length_pos_iff.mp (Nat.zero_lt_of_lt hlt)

end Plain

/-! ## Statements of messages -/

def Message.SameButNested (m m' : Message) : Prop :=
  m' = { m with nested := m'.nested }

section Messages

variable {source : String} {dialect : Dialect} {n b k : Nat} {path : List Int} {m m' t : Message}

theorem Message.SameButNested.differ (h : m.SameButNested m') :
    Message.Differ m.nested m'.nested m m' :=
  ⟨[], by simp, by rw [append_nil]; exact h⟩

variable (source dialect) in
/-- A statement of a message may be cut into pieces, where messages may be nested `b` deep. -/
def StatementCarries (b : Nat) (m t : Message) (c d : Cursor) : Prop :=
  ∃ ps, Opens ps ∧ Splits ps c d ∧ ∀ path',
    CarriesInto Message.SameButNested (lex source) ps c d m t fun m' t' c' d' =>
      (statementWithin dialect b path').run m' c' = (some (), t', d')

variable (source dialect) in
def StepCarries (b : Nat) (m t : Message) (c d : Cursor) : Prop :=
  ∃ ps, Splits ps c d ∧ ∀ path',
    CarriesInto Message.SameButNested (lex source) ps c d m t fun m' t' c' d' =>
      runBlock .resume "message" (statementWithin dialect b path') m' c' =
        runBlock .resume "message" (statementWithin dialect b path') t' d'

theorem StatementCarries.step (h : StatementCarries source dialect b m t c d)
    (hclose : c.current.word ≠ .symbol "\x7d") : StepCarries source dialect b m t c d := by
  obtain ⟨ps, hopens, hsplits, hcarries⟩ := h
  exact ⟨ps, hsplits, fun path' => (hcarries path').imp fun hstatement =>
    hstatement.followed runBlock_step hsplits hopens hclose⟩

variable (hpath : Location.depth path = some k) (hc : c.Calm source)
  (hrun : (statementWithin dialect n path).run m c = (some (), t, d)) (hd : d.diagnostics = [])

include hpath hc hrun hd in
theorem carries_plain (hne : c.ahead ≠ []) (hword : c.current.isWord "message" = false) :
    StatementCarries source dialect b m t c d := by
  replace hrun : (statementWithin dialect b path).run m c = (some (), t, d) :=
    (run_messageStatement_congr hword).trans hrun
  have hlt := Moves.ahead_lt hne hrun
  obtain ⟨read, hread, hopens, hsplits⟩ := exists_splits hc (onward_of_run hrun) hlt
    (tooDeep_messageStatement hpath hword hrun)
  refine ⟨_, hopens, hsplits, fun path' m' hm => ?_⟩
  let t' : Message := { t with nested := m'.nested ++ t.nested.drop m.nested.length }
  refine ⟨t', rfl, ?_⟩
  refine Echoes.carries (fun _ _ => .alike hm.differ) ?_ hc hrun hd hlt hread
  rintro _ _ ⟨more, hnested, rfl⟩
  refine ⟨rfl, ?_⟩
  simp [t', hnested]

variable (source dialect) in
def BlockCarries (b : Nat) : Prop :=
  ∀ {n k : Nat} {path : List Int} {m t : Message} {c d : Cursor},
    Location.depth path = some k → k + b = Message.maxNesting → c.Calm source →
    (block .resume "message" (statementWithin dialect n path)).run m c = (some (), t, d) →
    d.diagnostics = [] →
    ∃ ps, Splits ps c d ∧ ∀ path',
      CarriesInto Message.SameButNested (lex source) ps c d m t fun m' t' c' d' =>
        (block .resume "message" (statementWithin dialect b path')).run m' c' = (some (), t', d')

variable (source dialect) in
def MessageCarries (b : Nat) : Prop :=
  ∀ {σ : Type} {n k : Nat} {path : List Int} {s t : σ} {a : Message} {c d : Cursor},
    Location.depth path = some k → k + b = Message.maxNesting → c.Calm source →
    c.current.word = .ident "message" →
    (message ⟨dialect, .resume⟩ n path).run s c = (some a, t, d) → d.diagnostics = [] →
    t = s ∧ ∃ ps, Opens ps ∧ Splits ps c d ∧ ∀ path', ∃ a',
      Carries (lex source) ps c d fun c' d' => ∀ {τ : Type} (s' : τ),
        (message ⟨dialect, .resume⟩ (b + 1) path').run s' c' = (some a', s', d')

theorem carries_opening {name : String} (hname : c.bump.current.word = .ident name)
    (hopen : c.bump.bump.current.word = .symbol "\x7b") :
    Carries (lex source) [⟨c.opening, none⟩] c d fun c' d' =>
      c'.bump.current.word = .ident name ∧ c'.bump.bump.current.word = .symbol "\x7b" ∧
        d' = c'.bump.bump.bump := by
  intro keep rest c' hahead _
  obtain ⟨read, hread, hwords⟩ := hahead.text
  rw [text_plain, show Piece.text keep [] = [] from rfl, append_nil] at hwords
  obtain ⟨x, _, rfl, _, hwords⟩ := map_eq_cons_iff.mp hwords
  obtain ⟨y, _, rfl, hy, hwords⟩ := map_eq_cons_iff.mp hwords
  obtain ⟨z, rfl, hz⟩ := map_eq_singleton_iff.mp hwords
  obtain ⟨hcurrent₁, hcurrent₂, hrest, hsilent⟩ :=
    unread_bump_three hread hahead.quiet hahead.rest_ne_nil
  refine ⟨_, ⟨?_, ?_, rfl⟩, hsilent.passed hrest⟩
  · rw [hcurrent₁]
    exact hy.trans hname
  · rw [hcurrent₂]
    exact hz.trans hopen

theorem messageCarries_of_block (h : BlockCarries source dialect b) :
    MessageCarries source dialect b := by
  intro σ n k path s t a c d hpath hb hc hword hrun hd
  obtain ⟨budget, name, m, e, hname, hopen, hblock, rfl, rfl⟩ := run_message_inv hrun
  obtain ⟨hunread, hcalm⟩ := hc.opening hword hname hopen
  obtain ⟨ps, hsplits, hcarries⟩ := h hpath hb hcalm hblock hd
  have hopening : Splits [⟨c.opening, none⟩] c c.bump.bump.bump :=
    splits_plain hunread (by simp [tooDeep_bump])
  have hwhole := hopening.trans hsplits
  -- A message is not nested too deep if another one may be nested in it.
  have hdepth : Location.depth path ≠ some (Message.maxNesting + 1) := by
    rw [hpath, Ne, Option.some.injEq]
    omega
  refine ⟨rfl, _, ⟨_, _, _, rfl⟩, ⟨hwhole.unread,
    (tooDeep_record hdepth).trans hwhole.tooDeep, hwhole.fits⟩, fun path' => ?_⟩
  obtain ⟨t', _, hblock'⟩ := hcarries path' { name } rfl
  refine ⟨t'.withSyntheticOneofs, fun keep rest c' hahead hclear => ?_⟩
  have hboth : Carries (lex source) (⟨c.opening, none⟩ :: ps) c e fun c' e' =>
      c'.bump.current.word = .ident name ∧ c'.bump.bump.current.word = .symbol "\x7b" ∧
        (block .resume "message" (statementWithin dialect b path')).run { name }
          c'.bump.bump.bump = (some (), t', e') := by
    refine (carries_opening hname hopen).trans hblock' hopening ?_
    rintro c' _ e' ⟨hname', hopen', rfl⟩ hrun'
    exact ⟨hname', hopen', hrun'⟩
  obtain ⟨e', ⟨hname', hopen', hrun'⟩, hpassed⟩ :=
    hboth keep rest c' ⟨hahead.text, hahead.same, hahead.quiet, hahead.rest_ne_nil⟩ hclear
  exact ⟨e'.record path' c'.current.position, fun s' => run_message hname' hopen' hrun',
    ⟨hpassed.unread, hpassed.diagnostics, hpassed.unterminated⟩⟩

include hpath hc hrun hd in
/-- A statement that declares a message in which others may be nested. -/
theorem carries_nested (h : MessageCarries source dialect b) (hb : k + (b + 1) = Message.maxNesting)
    (hword : c.current.isWord "message" = true) :
    StatementCarries source dialect (b + 1) m t c d := by
  rw [run_messageStatement_message hword] at hrun
  obtain ⟨a, u, e, hmessage, hedit⟩ := exists_run_of_bind hrun
  cases hedit
  obtain ⟨rfl, ps, hopens, hsplits, hcarries⟩ :=
    h (Location.depth_child hpath _) (by omega) hc (isWord_iff.mp hword) hmessage hd
  refine ⟨ps, hopens, hsplits, fun path' m' hm => ?_⟩
  obtain ⟨a', ha'⟩ := hcarries (Location.child path' Location.messageNested m'.nested.length)
  refine ⟨{ m' with nested := m'.nested ++ [a'] }, ?_, fun keep rest c' hahead hclear => ?_⟩
  · rw [Message.SameButNested] at hm ⊢
    rw [hm]
  · obtain ⟨d', hrun', hpassed⟩ := ha' keep rest c' hahead hclear
    have hword' : c'.current.isWord "message" = true := by
      rw [isWord_iff, (hahead.head hsplits hopens).1, ← isWord_iff, hword]
    refine ⟨d', ?_, hpassed⟩
    dsimp only
    rw [run_messageStatement_message hword', run_bind, hrun' m']
    rfl

/-! ## Messages that are nested too deep -/

/-- A message beyond the limit is reported and skipped. -/
theorem run_message_zero {σ : Type} (s : σ) (c : Cursor) (path : List Int) :
    (message ⟨dialect, .resume⟩ 0 path).run s c =
      (none, s, (c.report (.ofFault c.current.position .nestedTooDeep)).bump.skipStatement) :=
  rfl

/-- Skipping stops at once where a statement or the block ends or a statement begins. If it goes
past a semicolon, so would the next statement. -/
theorem runBlock_skipStatement {q : List Int → Production Message Message}
    (h : c.current.word ∈ [.symbol ";", .symbol "\x7d"] ∨ c.opensStatement = true) :
    runBlock .resume "message" (messageStatement ⟨dialect, .resume⟩ path q) m c.skipStatement =
      runBlock .resume "message" (messageStatement ⟨dialect, .resume⟩ path q) m c := by
  by_cases hnil : c.ahead = []
  · rw [Cursor.skipStatement, dif_pos hnil]
  by_cases hend : c.current.isSymbol ";" = true
  · have hskip : c.skipStatement = c.bump := by
      rw [Cursor.skipStatement, dif_neg hnil, if_pos hend]
    have hrun : (messageStatement ⟨dialect, .resume⟩ path q).run m c = (some (), m, c.bump) := by
      rw [messageStatement, run_bind, run_eatSymbol, if_pos hend]
      rfl
    have hclose : c.current.word ≠ .symbol "\x7d" := by
      rw [isSymbol_iff.mp hend]
      decide
    rw [hskip]
    exact (runBlock_step hclose hnil (runStatement_of_run hrun (bump_ahead_lt hnil))).symm
  · have hskip : c.skipStatement = c := by
      rw [Cursor.skipStatement, dif_neg hnil, if_neg hend]
      rcases h with hword | hopens
      · have hclose : c.current.word = .symbol "\x7d" := by
          rw [isSymbol_iff] at hend
          simpa [hend] using hword
        rw [if_neg, if_pos (isSymbol_iff.mpr hclose)]
        rw [isSymbol_iff, hclose]
        decide
      · have hkind : c.current.kind = .identifier := by
          simp only [Cursor.opensStatement, Bool.and_eq_true, decide_eq_true_eq] at hopens
          exact hopens.1.1
        have hsymbol : ∀ x, ¬c.current.isSymbol x = true := by
          simp [Token.isSymbol, hkind]
        rw [if_neg (hsymbol _), if_neg (hsymbol _), if_pos hopens]
    rw [hskip]

/-- The text of a message that is nested too deep goes up to the brace that closes it. -/
theorem exists_tooDeep {σ : Type} {s u : σ} {a : Message}
    (hpath : Location.depth path = some (Message.maxNesting + 1)) (hc : c.Calm source)
    (hword : c.current.word = .ident "message")
    (hrun : (message ⟨dialect, .resume⟩ n path).run s c = (some a, u, d))
    (hd : d.diagnostics = []) :
    u = s ∧ ∃ name inner close, c.bump.current.word = .ident name ∧
      c.bump.bump.current.word = .symbol "\x7b" ∧ close.token.word = .symbol "\x7d" ∧
      Balanced 0 (inner.map fun l => l.token.word) ∧
      c.unread = c.opening ++ (inner ++ close :: d.unread) ∧
      Splits [⟨c.opening ++ (inner ++ [close]),
        some ⟨path, c.current.position, close.token.finish⟩⟩] c d := by
  obtain ⟨budget, name, m, e, hname, hopen, hblock, rfl, rfl⟩ := run_message_inv hrun
  obtain ⟨hunread, hcalm⟩ := hc.opening hword hname hopen
  obtain ⟨inner, close, hinner, hclose, hbalanced, hlast⟩ :=
    exists_balanced hcalm.bounded hcalm.ahead hblock hd
  rw [hinner] at hunread
  have htooDeep : (e.record path c.current.position).tooDeep =
      c.tooDeep ++ [⟨path, c.current.position, close.token.finish⟩] := by
    have hinside : e.tooDeep = c.tooDeep := by
      rw [tooDeep_messageBlock hpath hblock, tooDeep_bump, tooDeep_bump, tooDeep_bump]
    rw [← hinside, ← hlast, Cursor.tooDeep, Cursor.record, filter_append]
    exact congrArg _ (filter_cons_of_pos (decide_eq_true hpath))
  refine ⟨rfl, name, inner, close, hname, hopen, hclose, hbalanced, hunread, ?_, ?_, ?_⟩
  · rw [hunread]
    simp [Piece.text, left]
    rfl
  · exact htooDeep
  · refine forall_mem_singleton.mpr fun r hr => ?_
    cases hr
    exact ⟨rfl, by rw [← append_assoc, getLast?_concat]; rfl⟩

/-- A message beyond the limit is reported where it stands. If the text is clear there, reading goes
on behind its block. -/
theorem runBlock_tooDeep {keyword name opening close : Lexeme} {inner rest : List Lexeme}
    {x : String} {ls : List Lexeme} {span : Span}
    (htext : c.unread = keyword :: name :: opening :: (inner ++ close :: rest))
    (hkeyword : keyword.token.word = .ident "message") (hname : name.token.word = .ident x)
    (hopening : opening.token.word = .symbol "\x7b")
    (hclose : close.token.word = .symbol "\x7d")
    (hbalanced : Balanced 0 (inner.map fun l => l.token.word)) (hquiet : Quiet c.unread)
    (hrest : rest ≠ []) (hsuffix : c.unread <:+ ls) (hstart : keyword.token.position = span.start)
    (hfinish : close.token.finish = span.finish) (hclear : Clear ls span) :
    ∃ e, runBlock .resume "message" (statementWithin dialect 0 path) m c =
        runBlock .resume "message" (statementWithin dialect 0 path) m e ∧ e.unread = rest ∧
      e.diagnostics = c.diagnostics ++ [.ofFault span.start .nestedTooDeep] ∧
      e.unterminated = c.unterminated := by
  obtain ⟨hcurrent, hahead⟩ := current_of_unread htext
  let r := c.report (.ofFault c.current.position .nestedTooDeep)
  have hreport : r.unread = keyword :: name :: opening :: (inner ++ close :: rest) := htext
  rw [htext] at hquiet hsuffix
  obtain ⟨hbump, hsilent, hlast⟩ := unread_bump hreport hquiet.of_cons.2.of_cons.1
  have hopens : r.bump.opensStatement = false := by
    have hpair := hclear.name _ (mem_zip_tail hsuffix) hstart
    rw [← hlast, ← (current_of_unread hbump).1] at hpair
    exact hpair
  obtain ⟨hskip, hsilent', hlast'⟩ := skipStatement_named hbump hname hopening hclose
    hbalanced (hbump ▸ hquiet.of_cons.2) hrest hopens
  let e := r.bump.skipStatement
  have hlt : e.ahead.length < c.ahead.length := by
    have hlength : e.ahead.length + 1 = rest.length := congrArg List.length hskip
    simp only [hahead, length_cons, length_append]
    omega
  refine ⟨e, ?_, hskip, ?_, hsilent'.unterminated.trans hsilent.unterminated⟩
  · have hword : c.current.isWord "message" = true := isWord_iff.mpr (hcurrent ▸ hkeyword)
    have hrun : (statementWithin dialect 0 path).run m c = (none, m, e) := by
      rw [run_messageStatement_message hword, run_bind, run_message_zero]
    have hstatement :=
      runStatement_of_fail hrun (Nat.lt_of_le_of_lt e.skipStatement_onward.length_le hlt)
    rw [runBlock_step (by rw [hcurrent, hkeyword]; decide) (by simp [hahead]) hstatement]
    apply runBlock_skipStatement
    obtain ⟨l, ls', rfl⟩ := exists_cons_of_ne_nil hrest
    have hbehind : close :: l :: ls' <:+ ls :=
      .trans ⟨keyword :: name :: opening :: inner, by simp⟩ hsuffix
    have hpair := hclear.behind _ (mem_zip_tail hbehind) hfinish
    rw [← hfinish, ← hlast', ← (current_of_unread hskip).1] at hpair
    exact hpair
  · rw [hsilent'.diagnostics, hsilent.diagnostics, ← hstart, ← hcurrent]
    rfl

include hpath hc hrun hd in
theorem carries_tooDeep (hk : k = Message.maxNesting) (hword : c.current.isWord "message" = true) :
    StepCarries source dialect 0 m t c d := by
  subst hk
  rw [run_messageStatement_message hword] at hrun
  obtain ⟨a, u, e, hmessage, hedit⟩ := exists_run_of_bind hrun
  cases hedit
  have hkeyword := isWord_iff.mp hword
  obtain ⟨rfl, name, inner, close, hname, hopen, hclose, hbalanced, htext, hsplits⟩ :=
    exists_tooDeep (Location.depth_child hpath _) hc hkeyword hmessage hd
  refine ⟨_, hsplits, fun path' m' hm => ⟨m', hm, fun keep rest c' hahead hclear => ?_⟩⟩
  cases keep with
  | false =>
    -- The message is not there.
    obtain ⟨read, hread, hwords⟩ := hahead.text
    obtain rfl : read = [] := map_eq_nil_iff.mp hwords
    exact ⟨c', rfl, hread, by simp, rfl⟩
  | true =>
    obtain ⟨hsame, rfl⟩ := hahead.same rfl
    have hclear' : Clear (lex source) ⟨c.current.position, close.token.finish⟩ :=
      hclear rfl _ (mem_singleton_self _)
    obtain ⟨e, hrun', hunread, hreport, hterminated⟩ := runBlock_tooDeep (c := c')
      (hsame.trans htext) hkeyword hname hopen hclose hbalanced hahead.quiet hahead.rest_ne_nil
      (hsame ▸ hc.text) rfl rfl hclear'
    exact ⟨e, hrun', hunread, hreport, hterminated⟩

/-! ## Blocks -/

include hpath hc hrun hd in
theorem carries_statement (h : ∀ b', b = b' + 1 → MessageCarries source dialect b')
    (hb : k + b = Message.maxNesting) (hne : c.ahead ≠ [])
    (hclose : c.current.word ≠ .symbol "\x7d") : StepCarries source dialect b m t c d := by
  cases hword : c.current.isWord "message" with
  | false => exact (carries_plain hpath hc hrun hd hne hword).step hclose
  | true =>
    cases b with
    | zero => exact carries_tooDeep hpath hc hrun hd hb hword
    | succ b => exact (carries_nested hpath hc hrun hd (h b rfl) hb hword).step hclose

/-- The brace that closes a block is the same everywhere. -/
theorem carries_close {σ : Type} {construct : String} {statement : Production σ Unit} {s : σ}
    (hclose : c.current.word = .symbol "\x7d") :
    Carries (lex source) [⟨[⟨c.current, []⟩], none⟩] c d fun c' d' =>
      runBlock .resume construct statement s c' = (some (), s, d') := by
  intro keep rest c' hahead _
  obtain ⟨read, hread, hwords⟩ := hahead.text
  rw [text_plain, show Piece.text keep [] = [] from rfl, append_nil] at hwords
  obtain ⟨x, rfl, hx⟩ := map_eq_singleton_iff.mp hwords
  obtain ⟨l, ls, rfl⟩ := exists_cons_of_ne_nil hahead.rest_ne_nil
  have hquiet := hahead.quiet
  rw [hread] at hquiet
  obtain ⟨hbump, hsilent, _⟩ := unread_bump hread hquiet.of_cons.2.of_cons.1
  have hclose' : c'.current.isSymbol "\x7d" = true := by
    rw [(current_of_unread hread).1, isSymbol_iff]
    exact hx.trans hclose
  refine ⟨c'.bump, ?_, hsilent.passed hbump⟩
  dsimp only
  rw [runBlock.eq_def, if_pos hclose']

/-- The statements of a message, by induction on them. -/
theorem blockCarries (h : ∀ b', b = b' + 1 → MessageCarries source dialect b') :
    BlockCarries source dialect b := by
  intro n k path m t c d hpath hb hc hrun hd
  simp only [block] at hrun
  fun_induction runBlock .resume "message" (statementWithin dialect n path) m c with
  | case1 m c hclose =>
    cases hrun
    have hne := hc.bounded.ahead_ne_nil (ne_endOfInput (kind_of_isSymbol hclose))
    have hunread : c.unread = [⟨c.current, []⟩] ++ c.bump.unread := (hc.bump hne).1
    refine ⟨_, splits_plain hunread (by simp [tooDeep_bump]), ?_⟩
    exact fun path' m' hm => ⟨m', hm, carries_close (isSymbol_iff.mp hclose)⟩
  | case2 m c =>
    have hd' := (Prod.mk.inj (Prod.mk.inj hrun).2).2
    simp +zetaDelta [← hd', Cursor.report, Cursor.markUnterminated] at hd
  | case3 m c hclose hne m₁ e hstatement ih =>
    have hword : c.current.word ≠ .symbol "\x7d" := fun hw => hclose (isSymbol_iff.mpr hw)
    have he : e.diagnostics = [] :=
      (onward_of_run (p := block .resume "message" (statementWithin dialect n path)) hrun).quiet hd
    have hfirst := run_of_runStatement hc.clean hne hstatement he
    obtain ⟨ps, hsplits, hcarries⟩ := carries_statement hpath hc hfirst he h hb hne hword
    obtain ⟨qs, hsplits', hcarries'⟩ := ih (hc.onward (onward_of_run hfirst) he) hrun
    exact ⟨ps ++ qs, hsplits.trans hsplits', fun path' =>
      (hcarries path').trans (hcarries' path') hsplits .trans⟩
  | case4 => cases hrun

/-- Messages in which others may be nested, by induction on how deep. -/
theorem messageCarries (b : Nat) : MessageCarries source dialect b := by
  induction b with
  | zero => exact messageCarries_of_block (blockCarries fun _ hb => by cases hb)
  | succ b ih =>
    refine messageCarries_of_block (blockCarries ?_)
    rintro _ ⟨⟩
    exact ih

end Messages

end ProtoSchema
