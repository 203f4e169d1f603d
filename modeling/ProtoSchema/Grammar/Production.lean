import ProtoSchema.Cursor

/-!
Productions: steps of reading that build up a declaration `σ` while they move a cursor. A
production either recognises a value or has already reported why it could not; what it built and
noted before is kept in both cases. That the cursor only moves onward is part of the type, so every
loop over productions ends.
-/

namespace ProtoSchema

structure Production (σ α : Type) where
  run : σ → Cursor → Option α × σ × Cursor
  onward : ∀ (s : σ) (c : Cursor), c.Onward (run s c).2.2

namespace Production

variable {σ τ α β : Type}

protected def pure (a : α) : Production σ α where
  run s c := (some a, s, c)
  onward _ c := .refl c

protected def bind (p : Production σ α) (f : α → Production σ β) : Production σ β where
  run s c :=
    match p.run s c with
    | (some a, s, c) => (f a).run s c
    | (none, s, c) => (none, s, c)
  onward s c := by
    have h := p.onward s c
    split
    · next a s' c' heq =>
      rw [heq] at h
      exact h.trans ((f a).onward s' c')
    · next s' c' heq =>
      rw [heq] at h
      exact h

instance : Monad (Production σ) where
  pure := Production.pure
  bind := Production.bind

@[simp]
theorem run_pure (a : α) (s : σ) (c : Cursor) :
    (pure a : Production σ α).run s c = (some a, s, c) :=
  rfl

theorem run_bind (p : Production σ α) (f : α → Production σ β) (s : σ) (c : Cursor) :
    (p >>= f).run s c =
      match p.run s c with
      | (some a, s, c) => (f a).run s c
      | (none, s, c) => (none, s, c) :=
  rfl

/-! ## Moving the cursor -/

/-- A move that only looks at the cursor. -/
def look (f : Cursor → α) : Production σ α where
  run s c := (some (f c), s, c)
  onward _ c := .refl c

/-- A move that always succeeds. -/
def move (f : Cursor → α × Cursor) (h : ∀ c : Cursor, c.Onward (f c).2) : Production σ α where
  run s c := (some (f c).1, s, (f c).2)
  onward _ c := h c

def peek : Production σ Token :=
  look Cursor.current

def here : Production σ Position :=
  look fun c => c.current.position

def bump : Production σ Token :=
  move (fun c => (c.current, c.bump)) Cursor.bump_onward

/-- Notes a declaration that began at `start` and has just ended. -/
def record (path : List Int) (start : Position) : Production σ Unit :=
  move (fun c => ((), c.record path start)) fun c => c.record_onward path start

/-- Reports a fault and goes on. -/
def report (place : Position) (fault : Fault) : Production σ Unit :=
  move (fun c => ((), c.report (.ofFault place fault))) fun c => c.report_onward _

/-- Gives up. A fault has been reported before. -/
def fail : Production σ α where
  run s c := (none, s, c)
  onward _ c := .refl c

/-- Reports a fault and gives up. -/
def reject (place : Position) (fault : Fault) : Production σ α := do
  report place fault
  fail

/-- Reports a fault at the current token and gives up. -/
def rejectHere (fault : Fault) : Production σ α := do
  reject (← here) fault

/-- Reports that something else was expected in place of the current token. -/
def expected (what : String) : Production σ α := do
  rejectHere (.expected what (← peek).describe)

/-! ## The declaration being built -/

def built : Production σ σ where
  run s c := (some s, s, c)
  onward _ c := .refl c

def edit (f : σ → σ) : Production σ Unit where
  run s c := (some (), f s, c)
  onward _ c := .refl c

/-- Builds a declaration of its own, starting from `init`. -/
def build (init : τ) (p : Production τ α) : Production σ τ where
  run s c :=
    match p.run init c with
    | (some _, t, c) => (some t, s, c)
    | (none, _, c) => (none, s, c)
  onward s c := by
    have h := p.onward init c
    split <;> (next heq => rw [heq] at h; exact h)

/-! ## Words and symbols -/

def atKind (kind : TokenKind) : Production σ Bool :=
  look fun c => c.current.kind = kind

def atSymbol (symbol : String) : Production σ Bool :=
  look fun c => c.current.isSymbol symbol

def atWord (word : String) : Production σ Bool :=
  look fun c => c.current.isWord word

/-- Consumes the symbol if it is current, and tells whether it was. -/
def eatSymbol (symbol : String) : Production σ Bool := do
  if ← atSymbol symbol then
    let _ ← bump
    return true
  else
    return false

theorem run_eatSymbol (symbol : String) (s : σ) (c : Cursor) :
    (eatSymbol symbol).run s c =
      if c.current.isSymbol symbol then (some true, s, c.bump) else (some false, s, c) := by
  rw [eatSymbol, run_bind]
  simp only [atSymbol, look]
  split <;> rfl

/-- Consumes the word if it is current, and tells whether it was. -/
def eatWord (word : String) : Production σ Bool := do
  if ← atWord word then
    let _ ← bump
    return true
  else
    return false

def quoted (text : String) : String :=
  "\"" ++ text ++ "\""

def symbol (symbol : String) : Production σ Unit := do
  if ← eatSymbol symbol then return () else expected (quoted symbol)

def word (word : String) : Production σ Unit := do
  if ← eatWord word then return () else expected (quoted word)

def identifier (what : String) : Production σ String := do
  if ← atKind .identifier then return (← bump).text else expected what

def endOfStatement : Production σ Unit :=
  symbol ";"

/-! ## Repetition -/

/-- Reads `item` behind each `separator`. -/
def runAfter (separator : String) (item : Production σ α) (s : σ) (c : Cursor) :
    Option (List α) × σ × Cursor :=
  if c.current.isSymbol separator then
    if _hc : c.ahead = [] then (some [], s, c)
    else
      match _h : item.run s c.bump with
      | (none, s₁, d) => (none, s₁, d)
      | (some a, s₁, d) =>
        match runAfter separator item s₁ d with
        | (some as, s₂, e) => (some (a :: as), s₂, e)
        | (none, s₂, e) => (none, s₂, e)
  else (some [], s, c)
termination_by c.ahead.length
decreasing_by
  have hlt := Cursor.bump_ahead_lt _hc
  have hle := (item.onward s c.bump).length_le
  rw [_h] at hle
  exact Nat.lt_of_le_of_lt hle hlt

theorem runAfter_onward (separator : String) (item : Production σ α) (s : σ) (c : Cursor) :
    c.Onward (runAfter separator item s c).2.2 := by
  fun_induction runAfter separator item s c with
  | case1 => exact .refl _
  | case2 s c _ _ s' d h =>
    have hi := item.onward s c.bump
    rw [h] at hi
    exact c.bump_onward.trans hi
  | case3 s c _ _ a s' d h as s'' e heq ih =>
    have hi := item.onward s c.bump
    rw [h] at hi
    rw [heq] at ih
    exact (c.bump_onward.trans hi).trans ih
  | case4 s c _ _ a s' d h s'' e heq ih =>
    have hi := item.onward s c.bump
    rw [h] at hi
    rw [heq] at ih
    exact (c.bump_onward.trans hi).trans ih
  | case5 => exact .refl _

/-- Zero or more items, a separator before each. -/
def after (separator : String) (item : Production σ α) : Production σ (List α) where
  run := runAfter separator item
  onward := runAfter_onward separator item

/-- One or more items with separators between them. -/
def sepBy (separator : String) (item : Production σ α) : Production σ (List α) := do
  let first ← item
  let rest ← after separator item
  return first :: rest

/-! ## Names -/

/-- The rest of a dotted name whose first part is given. -/
def restOfName (first : String) : Production σ String := do
  let rest ← after "." (identifier "identifier")
  return ".".intercalate (first :: rest)

/-- A dotted name that may be led by a dot. -/
def typeName : Production σ String := do
  let lead := if ← eatSymbol "." then "." else ""
  let first ← identifier "type name"
  restOfName (lead ++ first)

end Production

end ProtoSchema
