import ProtoSchema.Proofs.Grammar.Moves

/-!
Reading with counters that are written out. Where the grammar goes down into braces or into nested
messages, it could as well count up and down on the way. A counter that has to go below zero is
lost, and no counter is ever lost.
-/

namespace ProtoSchema

def spend : Nat → Option Nat
  | 0 => none
  | n + 1 => some n

namespace Cursor

/-! ## Braces

`depth` counts the braces that are open. The outcome is `none` if one is closed that was not
counted. -/

def skipBlockCounting (depth : Nat) (c : Cursor) : Option Cursor :=
  if _h : c.ahead = [] then some c
  else if c.current.isSymbol "\x7b" then skipBlockCounting (depth + 1) c.bump
  else if c.current.isSymbol "\x7d" then
    match spend depth with
    | none => none
    | some 0 => some c.bump
    | some (depth + 1) => skipBlockCounting (depth + 1) c.bump
  else skipBlockCounting depth c.bump
termination_by c.ahead.length
decreasing_by all_goals exact bump_ahead_lt _h

theorem skipBlockCounting_succ (depth : Nat) (c : Cursor) :
    c.skipBlockCounting (depth + 1) = some (c.skipBlock depth) := by
  fun_induction skipBlock depth c with
  | case1 _ c h => rw [skipBlockCounting, dif_pos h]
  | case2 _ c h hopen ih => rw [skipBlockCounting, dif_neg h, if_pos hopen, ih]
  | case3 c h hopen hclose =>
    rw [skipBlockCounting, dif_neg h, if_neg hopen, if_pos hclose]
    rfl
  | case4 c h hopen hclose depth ih =>
    rw [skipBlockCounting, dif_neg h, if_neg hopen, if_pos hclose, ← ih]
    rfl
  | case5 _ c h hopen hclose ih =>
    rw [skipBlockCounting, dif_neg h, if_neg hopen, if_neg hclose, ih]

def takeAggregateCounting (depth : Nat) (c : Cursor) : Option (Option (List String) × Cursor) :=
  if _h : c.ahead = [] then some (none, c)
  else
    let more := fun depth => (takeAggregateCounting depth c.bump).map fun (texts, d) =>
      (texts.map (c.current.text :: ·), d)
    if c.current.isSymbol "\x7d" then
      match spend depth with
      | none => none
      | some 0 => some (some [], c.bump)
      | some (depth + 1) => more (depth + 1)
    else if c.current.isSymbol "\x7b" then more (depth + 1)
    else more depth
termination_by c.ahead.length
decreasing_by exact bump_ahead_lt _h

theorem takeAggregateCounting_succ (depth : Nat) (c : Cursor) :
    c.takeAggregateCounting (depth + 1) = some (c.takeAggregate depth) := by
  fun_induction takeAggregate depth c with
  | case1 _ c h => rw [takeAggregateCounting, dif_pos h]
  | case2 c h hclose =>
    rw [takeAggregateCounting, dif_neg h]
    dsimp only
    rw [if_pos hclose]
    rfl
  | case3 c h hclose depth rest d heq ih =>
    rw [takeAggregateCounting, dif_neg h]
    dsimp only
    rw [if_pos hclose]
    change (takeAggregateCounting (depth + 1) c.bump).map _ = _
    rw [ih, heq]
    rfl
  | case4 depth c h hclose inner rest d heq ih =>
    have hinner : (if c.current.isSymbol "\x7b" then depth + 1 + 1 else depth + 1) = inner + 1 :=
      (apply_ite (· + 1) _ _ _).symm
    rw [takeAggregateCounting, dif_neg h]
    dsimp only
    rw [if_neg hclose, ← apply_ite (fun depth => Option.map _ (takeAggregateCounting depth c.bump)),
      hinner, ih, heq]
    rfl

end Cursor

namespace Production

variable {σ τ α β : Type}

/-! ## The budget for nested messages

The number of levels that are left stands beside what is built, and is lost (`none`) if a level is
taken that is not there. -/

def beside (p : Production σ α) : Production (σ × Option Nat) α where
  run s c := ((p.run s.1 c).1, ((p.run s.1 c).2.1, s.2), (p.run s.1 c).2.2)
  onward s c := p.onward s.1 c

def buildBeside (init : τ) (p : Production (τ × Option Nat) α) :
    Production (σ × Option Nat) τ where
  run s c :=
    match p.run (init, s.2) c with
    | (some _, t, c) => (some t.1, (s.1, t.2), c)
    | (none, t, c) => (none, (s.1, t.2), c)
  onward s c := by
    have h := p.onward (init, s.2) c
    split <;> (next heq => rw [heq] at h; exact h)

/-- Takes a level for a production and gives it back when that returns, with a value or without. -/
def oneLevelDown (p : Production (σ × Option Nat) α) : Production (σ × Option Nat) α where
  run s c :=
    match p.run (s.1, s.2.bind spend) c with
    | (r, t, d) => (r, (t.1, t.2.map (· + 1)), d)
  onward s c := p.onward (s.1, s.2.bind spend) c

def messageStatementCounting (mode : Mode) (path : List Int)
    (nested : List Int → Production (Message × Option Nat) Message) :
    Production (Message × Option Nat) Unit := do
  if ← atWord "message" then
    let index := (← built).1.nested.length
    let inner ← nested (Location.child path Location.messageNested index)
    edit fun s => ({ s.1 with nested := s.1.nested ++ [inner] }, s.2)
  else beside (messageStatement mode path fun _ => fail)

/-- A message that takes a level while its body is read. The levels are lost if messages nest
`calls` deep and there are still levels left. -/
def messageCounting (mode : Mode) :
    (calls : Nat) → {σ : Type} → List Int → Production (σ × Option Nat) Message
  | 0, _, _ => do
    edit fun s => (s.1, none)
    fail
  | calls + 1, _, path => do
    if (← built).2 = some 0 then beside (message mode 0 path)
    else
      let start ← here
      let _ ← bump
      let name ← identifier "message name"
      let m ← oneLevelDown do
        symbol "\x7b"
        buildBeside ({ name } : Message) (block mode.recovery "message"
          (messageStatementCounting mode path (messageCounting mode calls)))
      record path start
      return m.withSyntheticOneofs

/-- With some levels left, `p` does what `q` does, and as many are left in the end. -/
def Counts (levels : Nat) (p : Production (σ × Option Nat) α) (q : Production σ α) : Prop :=
  ∀ s c, p.run (s, some levels) c =
    ((q.run s c).1, ((q.run s c).2.1, some levels), (q.run s c).2.2)

namespace Counts

variable {levels : Nat} {p : Production (σ × Option Nat) α} {q : Production σ α}

theorem bind {f : α → Production (σ × Option Nat) β} {g : α → Production σ β}
    (h : Counts levels p q) (k : ∀ a, Counts levels (f a) (g a)) :
    Counts levels (p >>= f) (q >>= g) := by
  intro s c
  rw [run_bind, run_bind, h]
  rcases q.run s c with ⟨_ | a, s', d⟩
  · rfl
  · exact k a s' d

/-- A part that is read as a whole may be read step by step. -/
theorem bind_bind {γ : Type} {q : Production σ β} {q' : β → Production σ α}
    {f : α → Production (σ × Option Nat) γ} {g : α → Production σ γ}
    (h : Counts levels p (q >>= q')) (k : ∀ a, Counts levels (f a) (g a)) :
    Counts levels (p >>= f) (q >>= fun b => q' b >>= g) := by
  intro s c
  rw [h.bind k s c, run_bind, run_bind, run_bind]
  rcases q.run s c with ⟨_ | b, s', d⟩ <;> rfl

theorem ite {P : Prop} [Decidable P] {p' : Production (σ × Option Nat) α} {q' : Production σ α}
    (h : Counts levels p q) (k : Counts levels p' q') :
    Counts levels (if P then p else p') (if P then q else q') := by
  split
  · exact h
  · exact k

theorem pure (a : α) : Counts levels (Pure.pure a) (Pure.pure a : Production σ α) :=
  fun _ _ => rfl

theorem look (g : Cursor → α) :
    Counts levels (Production.look g) (Production.look g : Production σ α) :=
  fun _ _ => rfl

theorem move (f : Cursor → α × Cursor) (h : ∀ c : Cursor, c.Onward (f c).2) :
    Counts levels (Production.move f h) (Production.move f h : Production σ α) :=
  fun _ _ => rfl

theorem expected (what : String) :
    Counts levels (Production.expected what) (Production.expected what : Production σ α) :=
  fun _ _ => rfl

theorem symbol (x : String) :
    Counts levels (Production.symbol x) (Production.symbol x : Production σ Unit) := by
  have heat : Counts levels (Production.eatSymbol x) (Production.eatSymbol x : Production σ Bool) :=
    (look _).bind fun _ => .ite ((move _ _).bind fun _ => .pure _) (.pure _)
  exact heat.bind fun _ => .ite (.pure _) (.expected _)

theorem identifier (what : String) :
    Counts levels (Production.identifier what) (Production.identifier what : Production σ String) :=
  (look _).bind fun _ => .ite ((move _ _).bind fun _ => .pure _) (.expected _)

/-- A level is given back, whatever comes of what is read with it. -/
theorem oneLevelDown (h : Counts levels p q) :
    Counts (levels + 1) (Production.oneLevelDown p) q := by
  intro s c
  have hrun : p.run (s, (some (levels + 1)).bind spend) c = _ := h s c
  simp only [Production.oneLevelDown, hrun, Option.map_some]

theorem build {init : τ} {p : Production (τ × Option Nat) α} {q : Production τ α}
    (h : Counts levels p q) :
    Counts levels (Production.buildBeside init p) (Production.build init q : Production σ τ) := by
  intro s c
  simp only [Production.buildBeside, Production.build, h init c]
  rcases q.run init c with ⟨_ | a, t, d⟩ <;> rfl

end Counts

section Blocks

variable {levels : Nat} {p : Production (σ × Option Nat) Unit} {q : Production σ Unit}

theorem Counts.runStatement (h : Counts levels p q) (recovery : Recovery) (s : σ) (c : Cursor) :
    Production.runStatement recovery p (s, some levels) c =
      ((Production.runStatement recovery q s c).1,
        ((Production.runStatement recovery q s c).2.1, some levels),
        (Production.runStatement recovery q s c).2.2) := by
  unfold Production.runStatement
  rw [h]
  rcases q.run s c with ⟨_ | _, s', d⟩ <;> cases recovery <;> rfl

theorem Counts.block (h : Counts levels p q) (recovery : Recovery) (construct : String) :
    Counts levels (Production.block recovery construct p)
      (Production.block recovery construct q) := by
  intro s c
  simp only [Production.block]
  fun_induction runBlock recovery construct q s c with
  | case1 s c hend => rw [runBlock_eq, if_pos hend]
  | case2 s c hend hnil d => rw [runBlock_eq, if_neg hend, if_pos hnil]
  | case3 s c hend hnil s₁ d hrun ih =>
    rw [runBlock_eq, if_neg hend, if_neg hnil, h.runStatement, hrun]
    exact ih
  | case4 s c hend hnil s₁ d hrun =>
    rw [runBlock_eq, if_neg hend, if_neg hnil, h.runStatement, hrun]

end Blocks

section Messages

variable {mode : Mode} {path : List Int} {levels : Nat}

variable {q : List Int → Production Message Message} {m : Message} {c : Cursor}

/-- A nested message is looked for at the word alone. -/
theorem run_messageStatement_congr {q' : List Int → Production Message Message}
    (h : c.current.isWord "message" = false) :
    (messageStatement mode path q).run m c = (messageStatement mode path q').run m c := by
  rw [messageStatement, messageStatement, run_bind, run_bind, run_eatSymbol]
  by_cases hsemicolon : c.current.isSymbol ";" = true
  · rw [if_pos hsemicolon]
    rfl
  · rw [if_neg hsemicolon]
    simp only [peek, look, run_bind, h, Bool.false_eq_true, if_false]

theorem run_messageStatement_message (h : c.current.isWord "message" = true) :
    (messageStatement mode path q).run m c =
      (q (Location.child path Location.messageNested m.nested.length) >>= fun inner =>
        edit fun m => { m with nested := m.nested ++ [inner] }).run m c := by
  have hsymbol : ¬c.current.isSymbol ";" = true := by
    simp only [Token.isWord, Token.isSymbol, Bool.and_eq_true, decide_eq_true_eq] at h ⊢
    rintro ⟨hkind, _⟩
    rw [h.1] at hkind
    cases hkind
  rw [messageStatement, run_bind, run_eatSymbol, if_neg hsymbol]
  simp only [peek, look, run_bind, h, Bool.false_eq_true, if_false, if_true, built]

theorem counts_messageStatement {p : List Int → Production (Message × Option Nat) Message}
    (h : ∀ path, Counts levels (p path) (q path)) :
    Counts levels (messageStatementCounting mode path p) (messageStatement mode path q) := by
  intro m c
  rw [messageStatementCounting, run_bind]
  simp only [atWord, look]
  by_cases hword : c.current.isWord "message" = true
  · rw [if_pos hword, run_messageStatement_message hword, run_bind]
    refine Counts.bind (h _) (fun inner => ?_) m c
    exact fun _ _ => rfl
  · have hsame : (messageStatement mode path q).run m c =
        (messageStatement mode path fun _ => fail).run m c :=
      run_messageStatement_congr (Bool.eq_false_iff.mpr hword)
    rw [if_neg hword, hsame]
    rfl

/-- Messages are read alike with a counter. It is never lost if calls may nest deeper than there
are levels, and every call returns with as many levels as it was given. -/
theorem counts_message {calls : Nat} (h : levels < calls) :
    Counts levels (messageCounting mode calls path)
      (message mode levels path : Production σ Message) := by
  induction calls generalizing σ path levels with
  | zero => exact absurd h (Nat.not_lt_zero levels)
  | succ calls ih =>
    cases levels with
    | zero => exact fun _ _ => rfl
    | succ levels =>
      let counting := messageStatementCounting mode path (messageCounting mode calls)
      let statement := messageStatement mode path (message mode levels)
      have hstatement : Counts levels counting statement :=
        counts_messageStatement fun _ => ih (Nat.lt_of_succ_lt_succ h)
      have hbody : ∀ name, Counts levels (symbol "\x7b" >>= fun _ =>
            buildBeside ({ name } : Message) (block mode.recovery "message" counting))
          (symbol "\x7b" >>= fun _ =>
            build ({ name } : Message) (block mode.recovery "message" statement) :
              Production σ Message) :=
        fun name => (Counts.symbol _).bind fun _ => .build (hstatement.block _ _)
      -- there is a level left, so this is the branch that is taken
      have hrest : Counts (levels + 1) (do
            let start ← here
            let _ ← bump
            let name ← identifier "message name"
            let m ← oneLevelDown do
              symbol "\x7b"
              buildBeside ({ name } : Message) (block mode.recovery "message" counting)
            record path start
            return m.withSyntheticOneofs)
          (message mode (levels + 1) path : Production σ Message) :=
        (Counts.look _).bind fun _ => (Counts.move _ _).bind fun _ =>
          (Counts.identifier _).bind fun name => (hbody name).oneLevelDown.bind_bind fun _ =>
            (Counts.move _ _).bind fun _ => .pure _
      exact hrest

end Messages

end Production

end ProtoSchema
