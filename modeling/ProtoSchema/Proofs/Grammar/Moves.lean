import ProtoSchema.Grammar.File

/-!
Statements move on. A statement that is understood has consumed something, so a loop over statements
never has to force a token out of the way of one.
-/

namespace ProtoSchema

namespace Production

variable {σ α β : Type}

/-- Before the end of the input the production recognises nothing without consuming something. -/
class Moves (p : Production σ α) : Prop where
  position_lt : ∀ (s s' : σ) (c d : Cursor) (a : α), c.ahead ≠ [] → p.run s c = (some a, s', d) →
    c.position < d.position

variable {p : Production σ α} {s s' t : σ} {c d : Cursor} {statement : Production σ Unit}
  (recovery : Recovery)

theorem exists_run_of_bind {f : α → Production σ β} {b : β}
    (h : (p >>= f).run s c = (some b, s', d)) :
    ∃ a t e, p.run s c = (some a, t, e) ∧ (f a).run t e = (some b, s', d) := by
  rw [run_bind] at h
  generalize p.run s c = r at h
  obtain ⟨_ | a, t, e⟩ := r
  · cases h
  · exact ⟨a, t, e, rfl, h⟩

theorem onward_of_run {r : Option α} (h : p.run s c = (r, s', d)) : c.Onward d := by
  have honward := p.onward s c
  rwa [h] at honward

theorem runStatement_of_run (hrun : statement.run s c = (some (), t, d))
    (hlt : d.ahead.length < c.ahead.length) :
    runStatement .resume statement s c = (some (), t, d) := by
  have hposition := (onward_of_run hrun).position
  have hmoved : d.position ≠ c.position := by omega
  simp [runStatement, hrun, Cursor.unstick, hmoved]

theorem runStatement_of_fail (hrun : statement.run s c = (none, t, d))
    (hlt : d.skipStatement.ahead.length < c.ahead.length) :
    runStatement .resume statement s c = (some (), t, d.skipStatement) := by
  have hposition := ((onward_of_run hrun).trans d.skipStatement_onward).position
  have hmoved : d.skipStatement.position ≠ c.position := by omega
  simp [runStatement, hrun, Cursor.unstick, hmoved]

theorem runBlock_eq (construct : String) (statement : Production σ Unit) (s : σ) (c : Cursor) :
    runBlock recovery construct statement s c =
      if c.current.isSymbol "\x7d" then (some (), s, c.bump)
      else if c.ahead = [] then
        (if recovery = .resume then some () else none, s,
          (c.report (.ofFault c.current.position (.unclosedBlock construct))).markUnterminated)
      else
        match runStatement recovery statement s c with
        | (some (), s₁, d) => runBlock recovery construct statement s₁ d
        | (none, s₁, d) => (none, s₁, d) := by
  rw [runBlock]
  split
  · rfl
  · split
    · rfl
    · split <;> (next h => rw [h])

theorem runStatements_eq (statement : Production σ Unit) (s : σ) (c : Cursor) :
    runStatements recovery statement s c =
      if c.ahead = [] then (some (), s, c)
      else if c.current.isSymbol "\x7d" then
        let d := c.report (.ofFault c.current.position .unmatchedBrace)
        if recovery = .resume then runStatements recovery statement s d.bump else (none, s, d)
      else
        match runStatement recovery statement s c with
        | (some (), s₁, d) => runStatements recovery statement s₁ d
        | (none, s₁, d) => (none, s₁, d) := by
  rw [runStatements]
  split
  · rfl
  · split
    · rfl
    · split <;> (next h => rw [h])

namespace Moves

variable {p q : Production σ α} {f : α → Production σ β}

instance bind_left [Moves p] : Moves (p >>= f) := by
  refine ⟨fun s s' c d b hc hrun => ?_⟩
  obtain ⟨a, t, e, hp, hf⟩ := exists_run_of_bind hrun
  exact Nat.lt_of_lt_of_le (position_lt s t c e a hc hp) (onward_of_run hf).position_le

instance bind_right [∀ a, Moves (f a)] : Moves (p >>= f) := by
  refine ⟨fun s s' c d b hc hrun => ?_⟩
  obtain ⟨a, t, e, hp, hf⟩ := exists_run_of_bind hrun
  have hle := (onward_of_run hp).position_le
  have hsum := (onward_of_run hp).position
  by_cases he : e.ahead = []
  · -- everything has been consumed on the way to `e`
    have hpos := List.length_pos_iff.mpr hc
    have hle' := (onward_of_run hf).position_le
    rw [he, List.length_nil] at hsum
    omega
  · exact Nat.lt_of_le_of_lt hle (position_lt t s' e d b he hf)

instance ite {P : Prop} [Decidable P] [Moves p] [Moves q] : Moves (if P then p else q) := by
  split <;> infer_instance

instance fail : Moves (fail : Production σ α) := by
  refine ⟨fun s s' c d a _ hrun => ?_⟩
  cases hrun

instance bump : Moves (bump : Production σ Token) := by
  refine ⟨fun s s' c d a hc hrun => ?_⟩
  cases hrun
  have hpos := List.length_pos_iff.mpr hc
  have hlength := c.bump_ahead_length
  have hsum := c.bump_onward.position
  dsimp only
  omega

instance reject {place : Position} {fault : Fault} :
    Moves (reject place fault : Production σ α) :=
  bind_right

instance rejectHere {fault : Fault} : Moves (rejectHere fault : Production σ α) :=
  bind_right

instance expected {what : String} : Moves (expected what : Production σ α) :=
  bind_right

/-- A symbol that may be there or not. If it is there, it is consumed. -/
instance eatSymbol {x : String} [Moves q] : Moves (do if ← eatSymbol x then p else q) := by
  refine ⟨fun s s' c d b hc hrun => ?_⟩
  obtain ⟨a, t, e, heat, hf⟩ := exists_run_of_bind hrun
  obtain ⟨_, _, _, hat, heat⟩ := exists_run_of_bind heat
  cases hat
  split at heat
  · exact Nat.lt_of_lt_of_le (bump.bind_left.position_lt s t c e a hc heat)
      (onward_of_run hf).position_le
  · cases heat
    exact position_lt (p := q) s s' c d b hc hf

instance symbol {x : String} : Moves (symbol x : Production σ Unit) :=
  eatSymbol

instance identifier {what : String} : Moves (identifier what : Production σ String) := by
  unfold Production.identifier
  infer_instance

/-! ## Statements -/

instance optionStatement {add : Setting → σ → σ} : Moves (optionStatement add) :=
  bind_left

instance reservedStatement {rules : ReservedRules} {addRange : ReservedRange → σ → σ}
    {addName : String → σ → σ} : Moves (reservedStatement rules addRange addName) :=
  bind_left

/-- A value ends with a semicolon. -/
instance enumValue {path : List Int} : Moves (enumValue path) := by
  unfold Production.enumValue endOfStatement
  infer_instance

instance enumStatement {path : List Int} : Moves (enumStatement path) := by
  unfold Production.enumStatement
  infer_instance

instance methodStatement : Moves methodStatement := by
  unfold Production.methodStatement
  infer_instance

instance method {recovery : Recovery} {path : List Int} :
    Moves (method recovery path : Production σ Method) := by
  unfold Production.method
  infer_instance

instance serviceStatement {recovery : Recovery} {path : List Int} :
    Moves (serviceStatement recovery path) := by
  unfold Production.serviceStatement
  infer_instance

section Messages

variable {mode : Mode} {dialect : Dialect} {path : List Int}

instance field {inOneof : Bool} :
    Moves (field dialect path inOneof : Production σ (Field × Option Message)) := by
  unfold Production.field
  infer_instance

instance extendStatement {extendee : String} : Moves (extendStatement dialect extendee path) := by
  unfold Production.extendStatement
  infer_instance

instance messageField {oneof : Option Nat} : Moves (messageField dialect path oneof) := by
  unfold Production.messageField
  infer_instance

instance oneofStatement {index : Nat} : Moves (oneofStatement dialect path index) := by
  unfold Production.oneofStatement
  infer_instance

instance enum {recovery : Recovery} : Moves (enum recovery path : Production σ Enum) := by
  unfold Production.enum
  infer_instance

instance extend {extensions : List Field} :
    Moves (extend mode path extensions : Production σ (List Field)) :=
  bind_left

instance messageStatement {nested : List Int → Production Message Message}
    [∀ path, Moves (nested path)] : Moves (messageStatement mode path nested) := by
  unfold Production.messageStatement extensionsStatement oneof
  infer_instance

instance message {budget : Nat} : Moves (message mode budget path : Production σ Message) := by
  cases budget <;> unfold Production.message <;> infer_instance

end Messages

instance service {recovery : Recovery} {path : List Int} :
    Moves (service recovery path : Production σ Service) := by
  unfold Production.service
  infer_instance

instance importStatement : Moves importStatement :=
  bind_left

instance packageStatement : Moves packageStatement := by
  unfold Production.packageStatement
  infer_instance

instance topLevelStatement {mode : Mode} : Moves (topLevelStatement mode) := by
  unfold Production.topLevelStatement
  infer_instance

end Moves

end Production

end ProtoSchema
