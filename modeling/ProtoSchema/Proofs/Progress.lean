import ProtoSchema.Proofs.Grammar.Building
import ProtoSchema.Proofs.Grammar.Counters

/-!
Reading comes to an end, whatever the text. Every round of a loop over statements leaves the loop or
reads a token, a file is read up to its last token, and nothing that is counted or looked up on the
way can go out of its range.
-/

namespace ProtoSchema

/-! ## Loops over statements -/

/-- A loop by its rounds. A round makes something of what is built and of the cursor, and there is
none where the loop is left. -/
structure Loop (σ : Type) where
  round : σ → Cursor → Option (σ × Cursor)
  leave : σ → Cursor → Option Unit × σ × Cursor

namespace Loop

variable {σ : Type} {l : Loop σ} {p : Production σ Unit} {s s' : σ} {c d : Cursor} {n : Nat}

def RunBy (l : Loop σ) (p : Production σ Unit) : Prop :=
  ∀ s c, p.run s c =
    match l.round s c with
    | some (s₁, d) => p.run s₁ d
    | none => l.leave s c

def Advances (l : Loop σ) : Prop :=
  ∀ s c s₁ d, l.round s c = some (s₁, d) → c.Onward d ∧ c.position < d.position

inductive Rounds (l : Loop σ) : Nat → σ → Cursor → σ → Cursor → Prop
  | none (s : σ) (c : Cursor) : Rounds l 0 s c s c
  | next {n : Nat} {s s₁ s' : σ} {c c₁ d : Cursor} (h : l.round s c = some (s₁, c₁))
      (k : Rounds l n s₁ c₁ s' d) : Rounds l (n + 1) s c s' d

/-- The production leaves the loop after some rounds, of which there are no more than tokens. -/
def LeftBy (l : Loop σ) (p : Production σ Unit) : Prop :=
  ∀ s c, ∃ n s' d, n ≤ c.ahead.length ∧ l.Rounds n s c s' d ∧ l.round s' d = none ∧
    p.run s c = l.leave s' d

theorem RunBy.leftBy (hrun : l.RunBy p) (h : l.Advances) : l.LeftBy p := by
  intro s c
  -- with every round there are fewer tokens ahead
  induction hlength : c.ahead.length using Nat.strongRecOn generalizing s c with
  | ind length ih =>
    cases hround : l.round s c with
    | none => exact ⟨0, s, c, Nat.zero_le _, .none s c, hround, by rw [hrun, hround]⟩
    | some next =>
      obtain ⟨s₁, c₁⟩ := next
      obtain ⟨honward, hlt⟩ := h s c s₁ c₁ hround
      have hsum := honward.position
      obtain ⟨n, s', d, hle, hrounds, hleft, heq⟩ := ih c₁.ahead.length (by omega) s₁ c₁ rfl
      refine ⟨n + 1, s', d, by omega, .next hround hrounds, hleft, ?_⟩
      rw [hrun, hround]
      exact heq

/-- What every round keeps is kept. -/
theorem Rounds.keeps {I : σ → Cursor → Prop}
    (h : ∀ s c s₁ d, I s c → l.round s c = some (s₁, d) → I s₁ d) (hrounds : l.Rounds n s c s' d)
    (hs : I s c) : I s' d := by
  induction hrounds with
  | none => exact hs
  | next hround _ ih => exact ih (h _ _ _ _ hs hround)

end Loop

namespace Production

variable {σ : Type}

def statementRound (recovery : Recovery) (statement : Production σ Unit) (s : σ) (c : Cursor) :
    Option (σ × Cursor) :=
  match runStatement recovery statement s c with
  | (some (), s₁, d) => some (s₁, d)
  | (none, _) => none

/-- The loop over the statements of a block: of a message, a oneof, an enum, a service, a method or
an `extend`. -/
def blockLoop (recovery : Recovery) (construct : String) (statement : Production σ Unit) :
    Loop σ where
  round s c :=
    if c.current.isSymbol "\x7d" ∨ c.ahead = [] then none
    else statementRound recovery statement s c
  leave s c :=
    if c.current.isSymbol "\x7d" then (some (), s, c.bump)
    else if c.ahead = [] then
      (if recovery = .resume then some () else none, s,
        (c.report (.ofFault c.current.position (.unclosedBlock construct))).markUnterminated)
    else (none, (runStatement recovery statement s c).2)

def fileLoop (recovery : Recovery) (statement : Production σ Unit) : Loop σ where
  round s c :=
    if c.ahead = [] then none
    else if c.current.isSymbol "\x7d" then
      if recovery = .resume then
        some (s, (c.report (.ofFault c.current.position .unmatchedBrace)).bump)
      else none
    else statementRound recovery statement s c
  leave s c :=
    if c.ahead = [] then (some (), s, c)
    else if c.current.isSymbol "\x7d" then
      (none, s, c.report (.ofFault c.current.position .unmatchedBrace))
    else (none, (runStatement recovery statement s c).2)

section Loops

variable (recovery : Recovery) (construct : String) (statement : Production σ Unit)

theorem runBy_block :
    (blockLoop recovery construct statement).RunBy (block recovery construct statement) := by
  intro s c
  simp only [block, blockLoop, statementRound]
  rw [runBlock_eq]
  by_cases hclose : c.current.isSymbol "\x7d" = true
  · simp only [hclose, true_or, if_true]
  · by_cases hnil : c.ahead = []
    · simp only [hclose, hnil, or_true, if_true]
    · simp only [hclose, hnil, or_self, Bool.false_eq_true, if_false]
      rcases runStatement recovery statement s c with ⟨_ | _, s₁, d⟩ <;> rfl

theorem runBy_statements :
    (fileLoop recovery statement).RunBy (statements recovery statement) := by
  intro s c
  simp only [statements, fileLoop, statementRound]
  rw [runStatements_eq]
  by_cases hnil : c.ahead = []
  · simp only [hnil, if_true]
  · by_cases hclose : c.current.isSymbol "\x7d" = true
    · cases recovery <;> simp [hnil, hclose]
    · simp only [hnil, hclose, Bool.false_eq_true, if_false]
      rcases runStatement recovery statement s c with ⟨_ | _, s₁, d⟩ <;> rfl

variable {recovery statement} {s s₁ : σ} {c d : Cursor}

/-- A cursor with fewer tokens ahead has read on. -/
theorem position_lt_of_ahead_lt (h : c.Onward d) (hlt : d.ahead.length < c.ahead.length) :
    c.position < d.position := by
  have hsum := h.position
  omega

theorem advances_statementRound (hne : c.ahead ≠ [])
    (h : statementRound recovery statement s c = some (s₁, d)) :
    c.Onward d ∧ c.position < d.position := by
  have honward := runStatement_onward recovery statement s c
  unfold statementRound at h
  split at h
  · next hrun =>
    cases h
    rw [hrun] at honward
    exact ⟨honward, position_lt_of_ahead_lt honward (runStatement_ahead_lt hne hrun)⟩
  · cases h

theorem advances_block : (blockLoop recovery construct statement).Advances := by
  intro s c s₁ d h
  simp only [blockLoop] at h
  split at h
  · cases h
  · next hgo => exact advances_statementRound (fun hnil => hgo (.inr hnil)) h

theorem advances_statements : (fileLoop recovery statement).Advances := by
  intro s c s₁ d h
  simp only [fileLoop] at h
  split at h
  · cases h
  · next hne =>
    split at h
    · split at h
      · cases h
        have honward := (c.report_onward (.ofFault c.current.position .unmatchedBrace)).trans
          (Cursor.bump_onward _)
        exact ⟨honward, position_lt_of_ahead_lt honward (Cursor.bump_ahead_lt hne)⟩
      · cases h
    · exact advances_statementRound hne h

end Loops

/-! ## The end of the input -/

/-- Where statements are skipped that are not understood, a file is left at its last token only. -/
theorem ahead_eq_nil_of_round {statement : Production σ Unit} {s : σ} {c : Cursor}
    (h : (fileLoop .resume statement).round s c = none) : c.ahead = [] := by
  simp only [fileLoop, statementRound, if_true] at h
  split at h
  · assumption
  · split at h
    · cases h
    · unfold runStatement at h
      generalize statement.run s c = outcome at h
      obtain ⟨_ | _, s', d⟩ := outcome <;> cases h

variable (statement : Production σ Unit) (s : σ) (c : Cursor)

theorem ahead_statements : ((statements .resume statement).run s c).2.2.ahead = [] := by
  obtain ⟨_, s', d, _, _, hleft, heq⟩ :=
    (runBy_statements .resume statement).leftBy advances_statements s c
  have hnil := ahead_eq_nil_of_round hleft
  rw [heq]
  simp only [fileLoop, hnil, if_true]

theorem exists_run_tolerate : ∃ s' d, (tolerate .resume statement).run s c = (some (), s', d) := by
  simp only [tolerate]
  rcases statement.run s c with ⟨_ | _, s', d⟩
  · exact ⟨s', d.skipStatement, rfl⟩
  · exact ⟨s', d, rfl⟩

theorem ahead_file (f : File) (c : Cursor) :
    ((Production.file .resume).run f c).2.2.ahead = [] := by
  have hrest : ∀ f c, ((built >>= fun file : File => statements .resume
      (topLevelStatement ⟨file.dialect, .resume⟩)).run f c).2.2.ahead = [] :=
    fun f c => ahead_statements _ f c
  rw [Production.file, run_bind]
  simp only [open_, move]
  generalize (if c.current.kind = .start then c.next else c) = c
  rw [run_bind]
  simp only [atWord, look]
  split
  · obtain ⟨f', d, hrun⟩ := exists_run_tolerate syntaxStatement f c
    rw [run_bind, hrun]
    exact hrest f' d
  · exact hrest f c

end Production

/-- Whatever else is built, a oneof that is open is there. -/
theorem Message.kept_open :
    Kept (fun _ => True) (fun _ => True) fun index m => index < m.oneofs.length where
  congr _ _ _ _ _ := trivial
  addNested _ _ := trivial
  addField _ _ := trivial
  openOneof {m} _ name := by simp
  addOption h _ := by simpa using h
  addMember h _ := by simpa [addField] using h
  closeOneof _ := trivial

namespace Production

theorem endOfInput_file (file : File) (source : String) :
    let d := ((Production.file .resume).run file (Cursor.ofSource source)).2.2
    d.current.kind = .endOfInput ∧ d.ahead = [] := by
  intro d
  have hbounded : d.Bounded := Cursor.Onward.bounded (Production.onward _ file _)
    ((Cursor.bounded_iff_of_suffix (Cursor.next_onward _).tokens).mpr
      (Cursor.bounded_next_ofSource source))
  have hnil : d.ahead = [] := ahead_file file _
  refine ⟨?_, hnil⟩
  by_contra hkind
  exact hbounded.ahead_ne_nil hkind hnil

/-! ## Oneofs -/

/-- What a statement of the oneof with the given index makes of a message. Both changes are made to
the oneof as it was before the statement. -/
inductive OneofStep (index : Nat) (m : Message) : Message → Prop
  | none : OneofStep index m m
  | option (t : Setting) : OneofStep index m
      { m with oneofs := m.oneofs.modify index fun o => { o with options := o.options ++ [t] } }
  | field (f : Field) (entry : Option Message) : OneofStep index m (m.addField (some index) f entry)

section Oneofs

variable {dialect : Dialect} {path : List Int} {index n : Nat} {m m' : Message} {c d : Cursor}

theorem oneofStep_oneofStatement (hc : c.Bounded) :
    OneofStep index m ((oneofStatement dialect path index).run m c).2.1 := by
  have hends : Ends (oneofStatement dialect path index) m c (fun _ m' _ => OneofStep index m m')
      (Still m c) := by
    refine .look (.ite (fun hword => ?_) fun _ => ?_)
    · refine .step (keeps_bump (Token.kind_of_isWord hword)) (still_refl m c) hc fun _ _ hd => ?_
      refine .step keeps_setting hd hc fun t _ hd => ?_
      exact .step keeps_symbol hd hc fun _ _ _ => .edit (.option t)
    · refine .step keeps_eatSymbol (still_refl m c) hc fun _ d hd => ?_
      refine .ite (fun _ => ?_) fun _ => ?_
      · exact .pure .none
      · refine .built (.bind (.mono (ends_field (hd.2.1.bounded hc)) ?_ ?_))
        · rintro ⟨f, entry⟩ _ e ⟨rfl, _⟩
          exact .edit (.field f entry)
        · rintro _ e ⟨rfl, htakes, hlocations⟩
          exact ⟨rfl, hd.2.1.trans htakes, hlocations.trans hd.2.2⟩
  unfold Ends at hends
  generalize (oneofStatement dialect path index).run m c = outcome at hends
  obtain ⟨_ | _, m', d⟩ := outcome
  · obtain rfl : m' = m := hends.1
    exact .none
  · exact hends

/-- While the statements of a oneof are read, the oneof is there. -/
theorem lt_length_of_rounds (hc : c.Bounded) (h : index < m.oneofs.length)
    (hrounds : (blockLoop .resume "oneof" (oneofStatement dialect path index)).Rounds n m c m' d) :
    index < m'.oneofs.length ∧ d.Bounded := by
  refine hrounds.keeps (I := fun m c => index < m.oneofs.length ∧ c.Bounded) ?_ ⟨h, hc⟩
  rintro m c m₁ d ⟨hlt, hc⟩ hround
  simp only [blockLoop, statementRound] at hround
  split at hround
  · cases hround
  · next hgo =>
    split at hround
    · next hrun =>
      cases hround
      have honward := runStatement_onward .resume (oneofStatement dialect path index) m c
      obtain ⟨_, _, heq, _, hlt'⟩ := keeps_runStatement (I := Invariant.any.under () _) (k := 0)
        (fun _ => keeps_oneofStatement Message.kept_open fun _ _ => trivial)
        ⟨trivial, hlt⟩ (fun hnil => hgo (.inr hnil)) fun hclose => hgo (.inl hclose)
      cases hrun.symm.trans heq
      rw [heq] at honward
      exact ⟨hlt', honward.bounded hc⟩
    · cases hround

end Oneofs

/-- Reading makes progress and ends, whatever the text.

* A file is read up to the token that ends the input.
* Every round of a loop over statements leaves the loop or moves the cursor on, and there are no
  more rounds than tokens.
* Nested messages are read as they would be with a counter for the levels that are left: it does
  not go below zero, and every message returns with as many levels as it began with.
* Braces can be counted from the first one on, and no more are closed than were opened.
* While a oneof is read, its index is one of the oneofs of the message, and only that oneof, as it
  was before a statement, is changed by it. -/
theorem reading_progresses :
    (∀ (file : File) (source : String),
      let d := ((Production.file .resume).run file (Cursor.ofSource source)).2.2
      d.current.kind = .endOfInput ∧ d.ahead = []) ∧
    (∀ (σ : Type) (recovery : Recovery) (construct : String) (statement : Production σ Unit),
      (blockLoop recovery construct statement).Advances ∧
      (blockLoop recovery construct statement).LeftBy (block recovery construct statement) ∧
      (fileLoop recovery statement).Advances ∧
      (fileLoop recovery statement).LeftBy (statements recovery statement)) ∧
    (∀ (σ : Type) (mode : Mode) (path : List Int) (levels calls : Nat), levels < calls →
      Counts levels (messageCounting mode calls path)
        (message mode levels path : Production σ Message)) ∧
    (∀ c : Cursor, c.skipBlockCounting 1 = some (c.skipBlock 0) ∧
      c.takeAggregateCounting 1 = some (c.takeAggregate 0)) ∧
    ∀ (dialect : Dialect) (path : List Int) (m : Message) (name : String) (c : Cursor),
      c.Bounded → ∀ n m' d,
        (blockLoop .resume "oneof" (oneofStatement dialect path m.oneofs.length)).Rounds n
          { m with oneofs := m.oneofs ++ [{ name }] } c m' d →
        m.oneofs.length < m'.oneofs.length ∧
          OneofStep m.oneofs.length m'
            ((oneofStatement dialect path m.oneofs.length).run m' d).2.1 := by
  refine ⟨endOfInput_file, fun σ recovery construct statement => ?_, ?_, fun c => ?_, ?_⟩
  · exact ⟨advances_block construct, (runBy_block recovery construct statement).leftBy
      (advances_block construct), advances_statements,
      (runBy_statements recovery statement).leftBy advances_statements⟩
  · exact fun σ mode path levels calls h => counts_message h
  · exact ⟨c.skipBlockCounting_succ 0, c.takeAggregateCounting_succ 0⟩
  · intro dialect path m name c hc n m' d hrounds
    obtain ⟨hlt, hd⟩ := lt_length_of_rounds hc (by simp) hrounds
    exact ⟨hlt, oneofStep_oneofStatement hd⟩

end Production

end ProtoSchema
