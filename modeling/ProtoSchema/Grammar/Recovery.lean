import ProtoSchema.Grammar.Production

/-!
Blocks of statements, and how reading goes on after a statement that could not be understood: past
its semicolon or its own block, or up to the end of the block around it, or up to a word that opens
a statement on a new line.
-/

namespace ProtoSchema

namespace Cursor

/-- Skips to the end of the current block, out of `depth` further blocks inside it. -/
def skipBlock (depth : Nat) (c : Cursor) : Cursor :=
  if _h : c.ahead = [] then c
  else if c.current.isSymbol "\x7b" then skipBlock (depth + 1) c.bump
  else if c.current.isSymbol "\x7d" then
    match depth with
    | 0 => c.bump
    | depth + 1 => skipBlock depth c.bump
  else skipBlock depth c.bump
termination_by c.ahead.length
decreasing_by all_goals exact bump_ahead_lt _h

theorem skipBlock_onward (depth : Nat) (c : Cursor) : c.Onward (c.skipBlock depth) := by
  fun_induction skipBlock depth c with
  | case1 => exact .refl _
  | case2 _ c _ _ ih => exact c.bump_onward.trans ih
  | case3 c => exact c.bump_onward
  | case4 c _ _ _ _ ih => exact c.bump_onward.trans ih
  | case5 _ c _ _ _ ih => exact c.bump_onward.trans ih

/-- The words that open a statement. -/
def statementWords : List String :=
  ["syntax", "package", "import", "option", "message", "enum", "service", "extend", "oneof", "rpc",
    "reserved", "extensions", "optional", "required", "repeated"]

/-- Whether the current token opens a statement on a line after the last consumed token. -/
def opensStatement (c : Cursor) : Bool :=
  c.current.kind = .identifier && c.lastEnd.line < c.current.position.line &&
    statementWords.contains c.current.text

def skipStatement (c : Cursor) : Cursor :=
  if _h : c.ahead = [] then c
  else if c.current.isSymbol ";" then c.bump
  else if c.current.isSymbol "\x7b" then c.bump.skipBlock 0
  else if c.current.isSymbol "\x7d" then c
  else if c.opensStatement then c
  else skipStatement c.bump
termination_by c.ahead.length
decreasing_by exact bump_ahead_lt _h

theorem skipStatement_onward (c : Cursor) : c.Onward c.skipStatement := by
  fun_induction skipStatement c with
  | case1 => exact .refl _
  | case2 c => exact c.bump_onward
  | case3 c => exact c.bump_onward.trans (skipBlock_onward 0 c.bump)
  | case4 => exact .refl _
  | case5 => exact .refl _
  | case6 c _ _ _ _ _ ih => exact c.bump_onward.trans ih

/-- Consumes a token if the cursor still stands where it stood `before`. -/
def unstick (c : Cursor) (before : Nat) : Cursor :=
  if c.position = before then c.bump else c

theorem unstick_onward (c : Cursor) (before : Nat) : c.Onward (c.unstick before) := by
  unfold unstick
  split
  · exact c.bump_onward
  · exact .refl c

theorem unstick_ahead_lt {c d : Cursor} (hc : c.ahead ≠ []) (h : c.Onward d) :
    (d.unstick c.position).ahead.length < c.ahead.length := by
  have hp := h.position
  have hpos := List.length_pos_iff.mpr hc
  unfold unstick
  split
  · rw [bump_ahead_length]
    omega
  · have := h.position_le
    omega

end Cursor

/-- What is done about a statement that could not be understood. -/
inductive Recovery where
  /-- It is skipped. -/
  | resume
  /-- Reading stops. -/
  | abandon
deriving DecidableEq, Repr

namespace Production

variable {σ : Type}

/-- One statement of a sequence. In the end it is understood, or skipped, and something has been
consumed. -/
def runStatement (recovery : Recovery) (statement : Production σ Unit) (s : σ) (c : Cursor) :
    Option Unit × σ × Cursor :=
  let (result, s, d) := statement.run s c
  match recovery, result with
  | .resume, some () => (some (), s, d.unstick c.position)
  | .resume, none => (some (), s, d.skipStatement.unstick c.position)
  | .abandon, some () => (if d.position = c.position then none else some (), s, d)
  | .abandon, none => (none, s, d)

theorem runStatement_onward (recovery : Recovery) (statement : Production σ Unit) (s : σ)
    (c : Cursor) : c.Onward (runStatement recovery statement s c).2.2 := by
  have h := statement.onward s c
  unfold runStatement
  dsimp only
  split
  · exact h.trans (Cursor.unstick_onward _ _)
  · exact (h.trans (Cursor.skipStatement_onward _)).trans (Cursor.unstick_onward _ _)
  · exact h
  · exact h

theorem runStatement_ahead_lt {recovery : Recovery} {statement : Production σ Unit} {s s₁ : σ}
    {c d : Cursor} (hc : c.ahead ≠ [])
    (h : runStatement recovery statement s c = (some (), s₁, d)) :
    d.ahead.length < c.ahead.length := by
  have hs := statement.onward s c
  unfold runStatement at h
  generalize statement.run s c = outcome at h hs
  obtain ⟨result, s₂, e⟩ := outcome
  dsimp only at h hs
  split at h
  · cases h
    exact Cursor.unstick_ahead_lt hc hs
  · cases h
    exact Cursor.unstick_ahead_lt hc (hs.trans (Cursor.skipStatement_onward _))
  · split at h
    · cases h
    · next hp =>
      cases h
      have := hs.position
      have := hs.position_le
      omega
  · cases h

/-- The statements of a block up to its closing brace. The input may end before it comes. -/
def runBlock (recovery : Recovery) (construct : String) (statement : Production σ Unit) (s : σ)
    (c : Cursor) : Option Unit × σ × Cursor :=
  if c.current.isSymbol "\x7d" then (some (), s, c.bump)
  else if _hc : c.ahead = [] then
    let d := (c.report (.ofFault c.current.position (.unclosedBlock construct))).markUnterminated
    (if recovery = .resume then some () else none, s, d)
  else
    match _h : runStatement recovery statement s c with
    | (some (), s₁, d) => runBlock recovery construct statement s₁ d
    | (none, s₁, d) => (none, s₁, d)
termination_by c.ahead.length
decreasing_by exact runStatement_ahead_lt _hc _h

theorem runBlock_onward (recovery : Recovery) (construct : String) (statement : Production σ Unit)
    (s : σ) (c : Cursor) : c.Onward (runBlock recovery construct statement s c).2.2 := by
  fun_induction runBlock recovery construct statement s c with
  | case1 _ c => exact c.bump_onward
  | case2 s c _ _ d =>
    exact (c.report_onward _).trans (Cursor.markUnterminated_onward (by simp [Cursor.report]))
  | case3 s c _ _ s₁ d h ih =>
    have hs := runStatement_onward recovery statement s c
    rw [h] at hs
    exact hs.trans ih
  | case4 s c _ _ s₁ d h =>
    have hs := runStatement_onward recovery statement s c
    rw [h] at hs
    exact hs

def block (recovery : Recovery) (construct : String) (statement : Production σ Unit) :
    Production σ Unit where
  run := runBlock recovery construct statement
  onward := runBlock_onward recovery construct statement

/-- Statements up to the end of the input. A closing brace between them closes nothing. -/
def runStatements (recovery : Recovery) (statement : Production σ Unit) (s : σ) (c : Cursor) :
    Option Unit × σ × Cursor :=
  if _hc : c.ahead = [] then (some (), s, c)
  else if c.current.isSymbol "\x7d" then
    let d := c.report (.ofFault c.current.position .unmatchedBrace)
    if recovery = .resume then runStatements recovery statement s d.bump else (none, s, d)
  else
    match _h : runStatement recovery statement s c with
    | (some (), s₁, d) => runStatements recovery statement s₁ d
    | (none, s₁, d) => (none, s₁, d)
termination_by c.ahead.length
decreasing_by
  · exact Cursor.bump_ahead_lt (c := d) _hc
  · exact runStatement_ahead_lt _hc _h

theorem runStatements_onward (recovery : Recovery) (statement : Production σ Unit) (s : σ)
    (c : Cursor) : c.Onward (runStatements recovery statement s c).2.2 := by
  fun_induction runStatements recovery statement s c with
  | case1 => exact .refl _
  | case2 s c _ _ d _ ih => exact ((c.report_onward _).trans d.bump_onward).trans ih
  | case3 s c _ _ d => exact c.report_onward _
  | case4 s c _ _ s₁ d h ih =>
    have hs := runStatement_onward recovery statement s c
    rw [h] at hs
    exact hs.trans ih
  | case5 s c _ _ s₁ d h =>
    have hs := runStatement_onward recovery statement s c
    rw [h] at hs
    exact hs

def statements (recovery : Recovery) (statement : Production σ Unit) : Production σ Unit where
  run := runStatements recovery statement
  onward := runStatements_onward recovery statement

/-- A statement that is skipped if it is not understood. -/
def tolerate (recovery : Recovery) (statement : Production σ Unit) : Production σ Unit where
  run s c :=
    match recovery, statement.run s c with
    | .resume, (none, s, d) => (some (), s, d.skipStatement)
    | _, result => result
  onward s c := by
    have h := statement.onward s c
    split
    · next heq =>
      rw [heq] at h
      exact h.trans (Cursor.skipStatement_onward _)
    · exact h

end Production

end ProtoSchema
