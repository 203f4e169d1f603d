import ProtoSchema.Proofs.Grammar.Moves

/-!
What reading keeps, whatever comes of it. An `Invariant` speaks of the declaration that is being
built and of the cursor. It survives every single step of a cursor, so it survives what is made of
such steps: `Keeps` says so of a production, and the rules follow the productions.
-/

namespace ProtoSchema

open Token

variable {kind : TokenKind} {c : Cursor} {path : List Int} {x : String} {place : Position}
  {fault : Fault}

/-- Tokens of the kind come before the end of the input. -/
class TokenKind.Inner (kind : TokenKind) : Prop where
  ne_endOfInput : kind ≠ .endOfInput

/-- Tokens of the kind are no symbols either. -/
class TokenKind.Bare (kind : TokenKind) : Prop where
  ne_endOfInput : kind ≠ .endOfInput
  ne_symbol : kind ≠ .symbol

instance : TokenKind.symbol.Inner := ⟨by decide⟩

instance [kind.Bare] : kind.Inner := ⟨TokenKind.Bare.ne_endOfInput⟩

instance : TokenKind.identifier.Bare := ⟨by decide, by decide⟩

instance : TokenKind.integer.Bare := ⟨by decide, by decide⟩

instance : TokenKind.float.Bare := ⟨by decide, by decide⟩

instance : TokenKind.string.Bare := ⟨by decide, by decide⟩

/-- The symbol is no brace. -/
class Unbraced (x : String) : Prop where
  ne_open : x ≠ "\x7b"
  ne_close : x ≠ "\x7d"

instance : Unbraced "." := ⟨by decide, by decide⟩

instance : Unbraced "," := ⟨by decide, by decide⟩

instance : Unbraced ";" := ⟨by decide, by decide⟩

instance : Unbraced "-" := ⟨by decide, by decide⟩

instance : Unbraced "=" := ⟨by decide, by decide⟩

instance : Unbraced "(" := ⟨by decide, by decide⟩

instance : Unbraced ")" := ⟨by decide, by decide⟩

instance : Unbraced "[" := ⟨by decide, by decide⟩

instance : Unbraced "]" := ⟨by decide, by decide⟩

instance : Unbraced "<" := ⟨by decide, by decide⟩

instance : Unbraced ">" := ⟨by decide, by decide⟩

namespace Token

variable {t : Token}

theorem kind_of_isSymbol (h : t.isSymbol x = true) : t.kind = .symbol := by
  simp only [isSymbol, Bool.and_eq_true, decide_eq_true_eq] at h
  exact h.1

theorem kind_of_isWord (h : t.isWord x = true) : t.kind = .identifier := by
  simp only [isWord, Bool.and_eq_true, decide_eq_true_eq] at h
  exact h.1

theorem ne_endOfInput [kind.Inner] (h : t.kind = kind) : t.kind ≠ .endOfInput :=
  h ▸ TokenKind.Inner.ne_endOfInput

def Plain (t : Token) : Prop :=
  ¬t.isSymbol "\x7b" = true ∧ ¬t.isSymbol "\x7d" = true

theorem plain_of_kind [kind.Bare] (h : t.kind = kind) : t.Plain :=
  ⟨fun hopen => TokenKind.Bare.ne_symbol (h.symm.trans (kind_of_isSymbol hopen)),
    fun hclose => TokenKind.Bare.ne_symbol (h.symm.trans (kind_of_isSymbol hclose))⟩

theorem plain_of_isSymbol [hx : Unbraced x] (h : t.isSymbol x = true) : t.Plain := by
  simp only [isSymbol, Bool.and_eq_true, decide_eq_true_eq] at h
  simp [Plain, isSymbol, h.1, h.2, hx.ne_open, hx.ne_close]

end Token

theorem Cursor.Onward.ahead_ne_nil {d : Cursor} (h : c.Onward d) (hstill : d.position = c.position)
    (hne : c.ahead ≠ []) : d.ahead ≠ [] := by
  have hsum := h.position
  have hpos := List.length_pos_iff.mpr hne
  exact List.length_pos_iff.mp (by omega)

/-- Skipping a statement at an opening brace moves on. -/
theorem Cursor.position_lt_skipStatement (hne : c.ahead ≠ [])
    (hopen : c.current.isSymbol "\x7b" = true) : c.position < c.skipStatement.position := by
  have hskip : c.skipStatement = c.bump.skipBlock 0 := by
    have hsemicolon : ¬c.current.isSymbol ";" = true := fun h => (plain_of_isSymbol h).1 hopen
    rw [skipStatement, dif_neg hne, if_neg hsemicolon, if_pos hopen]
  have hmoved := c.bump_onward.position
  have hlt := bump_ahead_lt hne
  have hle := (c.bump.skipBlock_onward 0).position_le
  rw [hskip]
  omega

structure Invariant (σ : Type) where
  /-- What holds of the declaration and of the cursor if so many blocks are still open. -/
  Holds : σ → Nat → Cursor → Prop
  /-- The places at which something may be reported. -/
  Covers : Position → Prop
  /-- The paths under which something may be recorded. -/
  Records : List Int → Prop
  covers {s : σ} {k : Nat} {c : Cursor} : Holds s k c → Covers c.current.position
  bump {s : σ} {k : Nat} {c : Cursor} : Holds s k c →
    c.current.kind ≠ .endOfInput ∨ c.ahead ≠ [] → c.current.Plain → Holds s k c.bump
  enter {s : σ} {k : Nat} {c : Cursor} : Holds s k c → c.current.isSymbol "\x7b" = true →
    Holds s (k + 1) c.bump
  leave {s : σ} {k : Nat} {c : Cursor} : Holds s (k + 1) c → c.current.isSymbol "\x7d" = true →
    Holds s k c.bump
  report {s : σ} {k : Nat} {c : Cursor} {place : Position} {fault : Fault} : Holds s k c →
    Covers place → Holds s k (c.report (.ofFault place fault))
  record {s : σ} {k : Nat} {c : Cursor} {path : List Int} {start : Position} : Holds s k c →
    Records path → Holds s k (c.record path start)
  /-- At the end of the input all blocks end. -/
  finish {s : σ} {j : Nat} {c : Cursor} : Holds s j c → c.ahead = [] → ∀ k unterminated,
    Holds s k { c with unterminated }

namespace Invariant

variable {σ τ : Type} (I : Invariant σ) {s : σ} {k : Nat}

/-- What is declared in a declaration of its own is read with the one around it left alone. -/
def under (s : σ) (J : τ → Prop) : Invariant τ where
  Holds x k c := I.Holds s k c ∧ J x
  Covers := I.Covers
  Records := I.Records
  covers h := I.covers h.1
  bump h hne hplain := ⟨I.bump h.1 hne hplain, h.2⟩
  enter h hopen := ⟨I.enter h.1 hopen, h.2⟩
  leave h hclose := ⟨I.leave h.1 hclose, h.2⟩
  report h hplace := ⟨I.report h.1 hplace, h.2⟩
  record h hpath := ⟨I.record h.1 hpath, h.2⟩
  finish h hnil k unterminated := ⟨I.finish h.1 hnil k unterminated, h.2⟩

def any : Invariant σ where
  Holds _ _ _ := True
  Covers _ := True
  Records _ := True
  covers _ := trivial
  bump _ _ _ := trivial
  enter _ _ := trivial
  leave _ _ := trivial
  report _ _ := trivial
  record _ _ := trivial
  finish _ _ _ _ := trivial

/-- Whatever is in the declaration at the given path may be recorded, and the declaration itself. -/
def RecordsUnder (path : List Int) : Prop :=
  ∀ p, path <+: p → I.Records p

variable {I}

theorem RecordsUnder.self (h : I.RecordsUnder path) : I.Records path :=
  h path (List.prefix_refl path)

theorem RecordsUnder.append (h : I.RecordsUnder path) (more : List Int) :
    I.RecordsUnder (path ++ more) :=
  fun p hp => h p ((List.prefix_append path more).trans hp)

theorem RecordsUnder.child {tag : Int} (h : I.RecordsUnder (path ++ [tag])) (index : Nat) :
    I.RecordsUnder (Location.child path tag index) := by
  have hchild := h.append [Int.ofNat index]
  rwa [List.append_assoc] at hchild

/-! ## Skipping -/

theorem skipBlock (depth : Nat) (h : I.Holds s (k + depth + 1) c) :
    I.Holds s k (c.skipBlock depth) := by
  fun_induction Cursor.skipBlock depth c with
  | case1 _ c hnil => exact I.finish h hnil k c.unterminated
  | case2 depth c _ hopen ih => exact ih (I.enter h hopen)
  | case3 c _ _ hclose => exact I.leave h hclose
  | case4 c _ _ hclose depth ih => exact ih (I.leave h hclose)
  | case5 depth c hne hopen hclose ih => exact ih (I.bump h (.inr hne) ⟨hopen, hclose⟩)

theorem skipStatement (h : I.Holds s k c) : I.Holds s k c.skipStatement := by
  fun_induction Cursor.skipStatement c with
  | case1 => exact h
  | case2 c hne hend => exact I.bump h (.inr hne) (plain_of_isSymbol hend)
  | case3 c _ _ hopen => exact skipBlock 0 (I.enter h hopen)
  | case4 => exact h
  | case5 => exact h
  | case6 c hne _ hopen hclose _ ih => exact ih (I.bump h (.inr hne) ⟨hopen, hclose⟩)

theorem takeStrings (h : I.Holds s k c) : I.Holds s k c.takeStrings.2 := by
  fun_induction Cursor.takeStrings c with
  | case1 => exact h
  | case2 c hkind _ hne more d heq ih =>
    rw [heq] at ih
    exact ih (I.bump h (.inr hne) (plain_of_kind hkind))
  | case3 => exact h

/-- An aggregate ends at the brace that matches the one before it. -/
theorem takeAggregate (depth : Nat) (h : I.Holds s (k + depth + 1) c) :
    I.Holds s k (c.takeAggregate depth).2 := by
  fun_induction Cursor.takeAggregate depth c with
  | case1 _ c hnil => exact I.finish h hnil k c.unterminated
  | case2 c _ hclose => exact I.leave h hclose
  | case3 c _ hclose depth rest d heq ih =>
    rw [heq] at ih
    exact ih (I.leave h hclose)
  | case4 depth c hne hclose inner rest d heq ih =>
    rw [heq] at ih
    refine ih ?_
    unfold inner
    split
    · next hopen => exact I.enter h hopen
    · next hopen => exact I.bump h (.inr hne) ⟨hopen, hclose⟩

end Invariant

namespace Production

variable {σ τ α β : Type}

/-- Run at the token `t`, the production keeps the invariant, whether it recognises a value or not,
and closes `i` of the blocks that are open. -/
def Keeps (I : Invariant σ) (i : Nat) (t : Token) (p : Production σ α) : Prop :=
  ∀ (k : Nat) (s : σ) (c : Cursor), I.Holds s (k + i) c → c.current = t →
    I.Holds (p.run s c).2.1 k (p.run s c).2.2

section Rules

variable {I : Invariant σ} {i : Nat} {t : Token}

namespace Keeps

variable {p q : Production σ α} {f : α → Production σ β}

theorem of_run {k : Nat} {s s' : σ} {d : Cursor} {r : Option α} (h : Keeps I 0 c.current p)
    (hs : I.Holds s k c) (hrun : p.run s c = (r, s', d)) : I.Holds s' k d := by
  have hkept := h k s c hs rfl
  rwa [hrun] at hkept

/-- The value that is read may matter to what follows. -/
theorem bind_value {P : α → Prop} (h : Keeps I i t p)
    (hvalue : ∀ s c a s' d, p.run s c = (some a, s', d) → P a)
    (k : ∀ a u, P a → Keeps I 0 u (f a)) : Keeps I i t (p >>= f) := by
  intro n s c hs ht
  have hI := h n s c hs ht
  rw [run_bind]
  generalize hrun : p.run s c = outcome at hI
  obtain ⟨_ | a, s', d⟩ := outcome
  · exact hI
  · exact k a d.current (hvalue s c a s' d hrun) n s' d hI rfl

theorem bind (h : Keeps I i t p) (k : ∀ a u, Keeps I 0 u (f a)) : Keeps I i t (p >>= f) :=
  h.bind_value (P := fun _ => True) (fun _ _ _ _ _ _ => trivial) fun a u _ => k a u

theorem ite {P : Prop} [Decidable P] (h : P → Keeps I i t p) (k : ¬P → Keeps I i t q) :
    Keeps I i t (if P then p else q) := by
  split
  · next hP => exact h hP
  · next hP => exact k hP

theorem guarded {P : Prop} [Decidable P] {p : Production σ Unit} {f : Unit → Production σ β}
    (h : Keeps I 0 t p) (k : ∀ u, Keeps I 0 u (f ())) :
    Keeps I 0 t (if P then p >>= f else f ()) :=
  .ite (fun _ => h.bind fun _ u => k u) fun _ => k t

theorem either {P : Prop} [Decidable P] (h : Keeps I 0 t p) (h' : Keeps I 0 t q)
    (k : ∀ a u, Keeps I 0 u (f a)) : Keeps I 0 t (if P then p >>= f else q >>= f) :=
  .ite (fun _ => h.bind k) fun _ => h'.bind k

theorem look {g : Cursor → α}
    (h : ∀ c : Cursor, c.current = t → I.Covers t.position → Keeps I i t (f (g c))) :
    Keeps I i t (Production.look g >>= f) :=
  fun k s c hs ht => h c ht (ht ▸ I.covers hs) k s c hs ht

theorem peek {f : Token → Production σ β} (h : I.Covers t.position → Keeps I i t (f t)) :
    Keeps I i t (Production.peek >>= f) :=
  look fun _ ht hplace => ht ▸ h hplace

theorem here {f : Position → Production σ β}
    (h : I.Covers t.position → Keeps I i t (f t.position)) :
    Keeps I i t (Production.here >>= f) :=
  look fun _ ht hplace => ht ▸ h hplace

theorem atKind {f : Bool → Production σ β} (h : Keeps I i t (f (decide (t.kind = kind)))) :
    Keeps I i t (Production.atKind kind >>= f) :=
  look fun _ ht _ => ht ▸ h

theorem atSymbol {f : Bool → Production σ β} (h : Keeps I i t (f (t.isSymbol x))) :
    Keeps I i t (Production.atSymbol x >>= f) :=
  look fun _ ht _ => ht ▸ h

theorem atWord {f : Bool → Production σ β} (h : Keeps I i t (f (t.isWord x))) :
    Keeps I i t (Production.atWord x >>= f) :=
  look fun _ ht _ => ht ▸ h

theorem built {f : σ → Production σ β} (h : ∀ s, Keeps I i t (f s)) :
    Keeps I i t (Production.built >>= f) :=
  fun k s c hs ht => h s k s c hs ht

theorem report {f : Unit → Production σ β} (hplace : I.Covers place) (h : Keeps I i t (f ())) :
    Keeps I i t (Production.report place fault >>= f) :=
  fun k s _ hs ht => h k s _ (I.report hs hplace) ht

/-- A symbol that may be there or not. If it is not there, the token is still to be read. -/
theorem eatSymbol [Unbraced x] {f : Bool → Production σ β} (htrue : ∀ u, Keeps I 0 u (f true))
    (hfalse : Keeps I 0 t (f false)) : Keeps I 0 t (Production.eatSymbol x >>= f) := by
  intro k s c hs ht
  rw [run_bind, run_eatSymbol]
  by_cases h : c.current.isSymbol x = true
  · rw [if_pos h]
    refine htrue _ k s c.bump (I.bump hs (.inl ?_) ?_) rfl
    · exact ne_endOfInput (kind_of_isSymbol h)
    · exact plain_of_isSymbol h
  · rw [if_neg h]
    exact hfalse k s c hs ht

/-- Behind an opening brace there is one more block to close. -/
theorem opened {f : Token → Production σ β} (ht : t.isSymbol "\x7b" = true)
    (h : ∀ a u, Keeps I 1 u (f a)) : Keeps I 0 t (bump >>= f) :=
  fun k s c hs hc => h c.current c.bump.current k s c.bump (I.enter hs (hc ▸ ht)) rfl

theorem braced {f : Bool → Production σ β} (htrue : ∀ u, Keeps I 1 u (f true))
    (hfalse : Keeps I 0 t (f false)) : Keeps I 0 t (Production.eatSymbol "\x7b" >>= f) := by
  intro k s c hs ht
  rw [run_bind, run_eatSymbol]
  by_cases h : c.current.isSymbol "\x7b" = true
  · rw [if_pos h]
    exact htrue _ k s c.bump (I.enter hs h) rfl
  · rw [if_neg h]
    exact hfalse k s c hs ht

end Keeps

theorem keeps_pure (a : α) : Keeps I 0 t (pure a) :=
  fun _ _ _ hs _ => hs

theorem Keeps.map {p : Production σ α} {g : α → β} (h : Keeps I i t p) :
    Keeps I i t (p >>= fun a => pure (g a)) :=
  h.bind fun _ _ => keeps_pure _

theorem keeps_fail : Keeps I 0 t (fail : Production σ α) :=
  fun _ _ _ hs _ => hs

theorem keeps_edit {f : σ → σ} (h : ∀ {s k c}, I.Holds s k c → I.Holds (f s) k c) :
    Keeps I 0 t (edit f) :=
  fun _ _ _ hs _ => h hs

theorem keeps_move {f : Cursor → α × Cursor} {hf : ∀ c : Cursor, c.Onward (f c).2}
    (h : ∀ {k s c}, I.Holds s (k + i) c → c.current = t → I.Holds s k (f c).2) :
    Keeps I i t (move f hf) :=
  fun _ _ _ hs ht => h hs ht

theorem keeps_bump [kind.Bare] (h : t.kind = kind) : Keeps I 0 t bump :=
  keeps_move fun hs ht => I.bump hs (.inl (ht ▸ ne_endOfInput h)) (ht ▸ plain_of_kind h)

theorem keeps_record {start : Position} (h : I.Records path) : Keeps I 0 t (record path start) :=
  keeps_move fun hs _ => I.record hs h

theorem keeps_report (h : I.Covers place) : Keeps I 0 t (report place fault) :=
  keeps_move fun hs _ => I.report hs h

theorem keeps_reject (h : I.Covers place) : Keeps I 0 t (reject place fault : Production σ α) :=
  .report h keeps_fail

theorem keeps_rejectHere : Keeps I 0 t (rejectHere fault : Production σ α) :=
  .here keeps_reject

variable {what separator : String} {J : τ → Prop} {init : τ} {p : Production τ α} {k : Nat} {s : σ}
  {item : Production σ α}

theorem keeps_expected : Keeps I 0 t (expected what : Production σ α) :=
  .peek fun _ => keeps_rejectHere

theorem keeps_build (hinit : J init) (h : ∀ s, Keeps (I.under s J) i t p) :
    Keeps I i t (build init p) := by
  intro k s c hs ht
  have hkept := h s k init c ⟨hs, hinit⟩ ht
  simp only [build]
  generalize p.run init c = outcome at hkept
  obtain ⟨_ | a, x, d⟩ := outcome
  · exact hkept.1
  · exact hkept.1

/-- What is kept of a declaration of its own holds of the one that is built. -/
theorem Keeps.of_run_build {x : τ} {s' : σ} {d : Cursor} (h : Keeps (I.under s J) i c.current p)
    (hs : I.Holds s (k + i) c) (hinit : J init) (hrun : (build init p).run s c = (some x, s', d)) :
    J x := by
  have hkept := h k init c ⟨hs, hinit⟩ rfl
  simp only [build] at hrun
  generalize p.run init c = outcome at hkept hrun
  obtain ⟨_ | a, y, e⟩ := outcome
  · cases hrun
  · cases hrun
    exact hkept.2

/-! ## Words and symbols -/

theorem keeps_eatSymbol [Unbraced x] : Keeps I 0 t (eatSymbol x) := by
  refine .atSymbol (.ite (fun h => ?_) fun _ => keeps_pure _)
  refine .bind (keeps_move fun hs ht => I.bump hs (.inl ?_) ?_) fun _ _ => keeps_pure _
  · exact ht ▸ ne_endOfInput (kind_of_isSymbol h)
  · exact ht ▸ plain_of_isSymbol h

theorem keeps_eatWord : Keeps I 0 t (eatWord x) :=
  .atWord (.ite (fun h => (keeps_bump (kind_of_isWord h)).map) fun _ => keeps_pure _)

theorem keeps_symbol [Unbraced x] : Keeps I 0 t (symbol x) :=
  keeps_eatSymbol.bind fun _ _ => .ite (fun _ => keeps_pure _) fun _ => keeps_expected

theorem keeps_word : Keeps I 0 t (word x) :=
  keeps_eatWord.bind fun _ _ => .ite (fun _ => keeps_pure _) fun _ => keeps_expected

theorem keeps_identifier : Keeps I 0 t (identifier what) :=
  .atKind (.ite (fun h => (keeps_bump (of_decide_eq_true h)).map) fun _ => keeps_expected)

theorem Keeps.brace {f : Unit → Production σ β} (h : ∀ u, Keeps I 1 u (f ())) :
    Keeps I 0 t (symbol "\x7b" >>= f) := by
  intro k s c hs ht
  rw [run_bind, symbol, run_bind, run_eatSymbol]
  by_cases hopen : c.current.isSymbol "\x7b" = true
  · rw [if_pos hopen]
    exact h _ k s c.bump (I.enter hs hopen) rfl
  · rw [if_neg hopen]
    exact keeps_expected k s c hs ht

/-! ## Repetition -/

theorem keeps_after [Unbraced separator] (h : ∀ u, Keeps I 0 u item) :
    Keeps I 0 t (after separator item) := by
  intro k s c hs ht
  clear ht
  have hitem : ∀ {s c}, I.Holds s k c → c.current.isSymbol separator = true → c.ahead ≠ [] →
      ∀ {r s₁ d}, item.run s c.bump = (r, s₁, d) → I.Holds s₁ k d := fun hs hsep hne _ _ _ hrun =>
    (h _).of_run (I.bump hs (.inr hne) (plain_of_isSymbol hsep)) hrun
  simp only [after]
  fun_induction runAfter separator item s c with
  | case1 => exact hs
  | case2 s c hsep hne s₁ d hrun => exact hitem hs hsep hne hrun
  | case3 s c hsep hne a s₁ d hrun as s₂ e hrest ih =>
    rw [hrest] at ih
    exact ih (hitem hs hsep hne hrun)
  | case4 s c hsep hne a s₁ d hrun s₂ e hrest ih =>
    rw [hrest] at ih
    exact ih (hitem hs hsep hne hrun)
  | case5 => exact hs

theorem keeps_sepBy [Unbraced separator] (h : ∀ u, Keeps I 0 u item) :
    Keeps I 0 t (sepBy separator item) :=
  (h t).bind fun _ _ => (keeps_after h).map

/-! ## Blocks of statements -/

variable {statement : Production σ Unit} [Moves statement] (h : ∀ u, Keeps I 0 u statement)
include h

/-- A statement is understood or skipped. A token is consumed by force only if it is no brace. -/
theorem keeps_runStatement (hs : I.Holds s k c) (hne : c.ahead ≠ [])
    (hclose : ¬c.current.isSymbol "\x7d" = true) :
    ∃ s' d, runStatement .resume statement s c = (some (), s', d) ∧ I.Holds s' k d := by
  have hkept := h c.current k s c hs rfl
  have honward := statement.onward s c
  unfold runStatement
  generalize hrun : statement.run s c = outcome at hkept honward
  obtain ⟨_ | u, s₁, d⟩ := outcome <;> dsimp only at hkept honward
  · refine ⟨s₁, _, rfl, ?_⟩
    have hskip := honward.trans d.skipStatement_onward
    unfold Cursor.unstick
    split
    · next hposition =>
      have hcurrent : d.skipStatement.current = c.current := hskip.current_eq hposition
      refine I.bump (Invariant.skipStatement hkept) (.inr (hskip.ahead_ne_nil hposition hne))
        ⟨fun hopen => ?_, hcurrent ▸ hclose⟩
      -- what is skipped at an opening brace is the whole block
      have hle := honward.position_le
      have hle' := d.skipStatement_onward.position_le
      have hstill : d.position = c.position := by omega
      rw [hcurrent, ← honward.current_eq hstill] at hopen
      have hlt := d.position_lt_skipStatement (honward.ahead_ne_nil hstill hne) hopen
      omega
    · exact Invariant.skipStatement hkept
  · refine ⟨s₁, _, rfl, ?_⟩
    have hlt := Moves.position_lt s s₁ c d u hne hrun
    rw [Cursor.unstick, if_neg (Nat.ne_of_gt hlt)]
    exact hkept

/-- The statements of a block end at the brace that closes it, or with the input. -/
theorem keeps_runBlock (construct : String) (hs : I.Holds s k c) :
    ∃ s' e d, runBlock .resume construct statement s c = (some (), s', d) ∧ I.Holds s' k e ∧
      (e.current.isSymbol "\x7d" = true ∧ d = e.bump ∨
        e.ahead = [] ∧ d = (e.report (.ofFault e.current.position
          (.unclosedBlock construct))).markUnterminated) := by
  fun_induction runBlock .resume construct statement s c with
  | case1 s c hclose => exact ⟨s, c, _, rfl, hs, .inl ⟨hclose, rfl⟩⟩
  | case2 s c _ hnil => exact ⟨s, c, _, rfl, hs, .inr ⟨hnil, rfl⟩⟩
  | case3 s c hclose hne s₁ d hrun ih =>
    obtain ⟨_, _, heq, hd⟩ := keeps_runStatement h hs hne hclose
    cases hrun.symm.trans heq
    exact ih hd
  | case4 s c hclose hne s₁ d hrun =>
    obtain ⟨_, _, heq, _⟩ := keeps_runStatement h hs hne hclose
    cases hrun.symm.trans heq

theorem keeps_block {construct : String} : Keeps I 1 t (block .resume construct statement) := by
  intro k s c hs _
  obtain ⟨s', e, d, hrun, he, hend⟩ := keeps_runBlock h construct hs
  rw [show (block .resume construct statement).run s c = (some (), s', d) from hrun]
  rcases hend with ⟨hclose, rfl⟩ | ⟨hnil, rfl⟩
  · exact I.leave he hclose
  · exact I.finish (I.report he (I.covers he)) hnil k true

/-- A closing brace between the statements of a file closes nothing. -/
theorem keeps_statements (hstray : ∀ {s k c}, I.Holds s k c → I.Holds s (k + 1) c) :
    Keeps I 0 t (statements .resume statement) := by
  intro k s c hs ht
  clear ht
  simp only [statements]
  fun_induction runStatements .resume statement s c with
  | case1 s c => exact hs
  | case2 s c hne hclose d _ ih =>
    exact ih (I.leave (c := d) (hstray (I.report hs (I.covers hs))) hclose)
  | case3 s c _ _ d hresume => exact absurd rfl hresume
  | case4 s c hne hclose s₁ d hrun ih =>
    obtain ⟨_, _, heq, hd⟩ := keeps_runStatement h hs hne hclose
    cases hrun.symm.trans heq
    exact ih hd
  | case5 s c hne hclose s₁ d hrun =>
    obtain ⟨_, _, heq, _⟩ := keeps_runStatement h hs hne hclose
    cases hrun.symm.trans heq

omit h [Moves statement]

theorem keeps_tolerate (h : Keeps I 0 t statement) : Keeps I 0 t (tolerate .resume statement) := by
  intro k s c hs ht
  have hkept := h k s c hs ht
  simp only [tolerate]
  generalize statement.run s c = outcome at hkept
  obtain ⟨_ | u, s', d⟩ := outcome
  · exact Invariant.skipStatement hkept
  · exact hkept

end Rules

end Production

end ProtoSchema
