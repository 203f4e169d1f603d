import ProtoSchema.Proofs.Grammar.Moves
import ProtoSchema.Proofs.RoundTrip

/-!
What a production does not understand has been reported. `Heard` says that a production recognises
a value where nothing is reported. For a block without recovery its statements have to move on,
since it gives up at one that consumes nothing.
-/

namespace ProtoSchema

variable {path : List Int} {x : String} {recovery : Recovery}

namespace Production

variable {σ τ α β : Type}

/-! ## Everything that fails has been reported -/

/-- In a text without faults the production recognises a value or reports something. -/
class Heard (p : Production σ α) : Prop where
  yields : ∀ s w, Yields p s w fun _ _ _ => True

namespace Heard

variable {p q : Production σ α} {f : α → Production σ β}

instance bind [Heard p] [∀ a, Heard (f a)] : Heard (p >>= f) :=
  ⟨fun s w => (yields s w).bind fun _ s' w' _ => yields s' w'⟩

instance ite {P : Prop} [Decidable P] [Heard p] [Heard q] : Heard (if P then p else q) := by
  split <;> infer_instance

theorem clean {s s' : σ} {c d : Cursor} {r : Option α} (h : Heard p) (hc : c.Clean)
    (hrun : p.run s c = (r, s', d)) (hquiet : d.diagnostics = []) :
    ∃ a, r = some a ∧ d.Clean := by
  obtain ⟨a, hr, hd, _⟩ := (h.yields s _).elim hc rfl hrun hquiet
  exact ⟨a, hr, hd⟩

end Heard

instance heard_pure (a : α) : Heard (pure a : Production σ α) :=
  ⟨fun _ _ => yields_pure trivial⟩

instance heard_here : Heard (here : Production σ Position) :=
  ⟨fun _ _ => yields_here fun _ => trivial⟩

instance heard_peek : Heard (peek : Production σ Token) :=
  ⟨fun _ _ => yields_peek fun _ _ => trivial⟩

instance heard_bump : Heard (bump : Production σ Token) :=
  ⟨fun _ _ => yields_bump fun _ _ _ => trivial⟩

instance heard_report {place : Position} {fault : Fault} :
    Heard (report place fault : Production σ Unit) :=
  ⟨fun _ _ => yields_report⟩

instance heard_rejectHere {fault : Fault} : Heard (rejectHere fault : Production σ α) :=
  ⟨fun _ _ => yields_rejectHere⟩

instance heard_expected {what : String} : Heard (expected what : Production σ α) :=
  ⟨fun _ _ => yields_expected⟩

instance heard_record {start : Position} : Heard (record path start : Production σ Unit) :=
  ⟨fun _ _ => yields_record trivial⟩

instance heard_built : Heard (built : Production σ σ) :=
  ⟨fun _ _ => yields_built trivial⟩

instance heard_edit {f : σ → σ} : Heard (edit f) :=
  ⟨fun _ _ => yields_edit trivial⟩

instance heard_build {init : τ} {p : Production τ α} [Heard p] :
    Heard (build init p : Production σ τ) :=
  ⟨fun _ w => yields_build (Heard.yields init w)⟩

instance heard_atSymbol : Heard (atSymbol x : Production σ Bool) :=
  ⟨fun _ _ => yields_atSymbol trivial⟩

instance heard_atWord : Heard (atWord x : Production σ Bool) :=
  ⟨fun _ _ => yields_atWord trivial⟩

instance heard_eatSymbol : Heard (eatSymbol x : Production σ Bool) :=
  ⟨fun _ _ => yields_eatSymbol_any fun _ _ => trivial⟩

instance heard_symbol : Heard (symbol x : Production σ Unit) :=
  ⟨fun _ _ => yields_symbol fun _ _ => trivial⟩

instance heard_endOfStatement : Heard (endOfStatement : Production σ Unit) :=
  heard_symbol

instance heard_word : Heard (word x : Production σ Unit) :=
  ⟨fun _ _ => yields_word fun _ _ => trivial⟩

instance heard_identifier {what : String} : Heard (identifier what : Production σ String) :=
  ⟨fun _ _ => yields_identifier fun _ _ _ _ => trivial⟩

instance heard_typeName : Heard (typeName : Production σ String) :=
  ⟨fun _ _ => yields_typeName fun _ _ _ => trivial⟩

instance heard_int32 {allowSign : Bool} {what : String} :
    Heard (int32 allowSign what : Production σ Int32) :=
  ⟨fun _ _ => yields_int32 fun _ _ _ => trivial⟩

instance heard_bracketedOptions : Heard (bracketedOptions : Production σ Options) :=
  ⟨fun _ _ => yields_bracketedOptions fun _ _ _ => trivial⟩

instance heard_optionalOptions : Heard (optionalOptions : Production σ Options) :=
  ⟨fun _ _ => yields_optionalOptions fun _ _ _ => trivial⟩

instance heard_optionStatement {add : Setting → σ → σ} : Heard (optionStatement add) :=
  ⟨fun _ _ => yields_optionStatement fun _ _ _ => trivial⟩

section Reserved

variable {rules : ReservedRules} {addRange : ReservedRange → σ → σ} {addName : String → σ → σ}

theorem heard_reservedStatement (hmax : 0 ≤ rules.max.toInt) :
    Heard (reservedStatement rules addRange addName) :=
  ⟨fun _ _ => yields_reservedStatement (I := fun _ => True) hmax (fun _ _ _ _ => trivial)
    (fun _ _ _ => trivial) trivial⟩

instance heard_reservedStatement_enum : Heard (reservedStatement .enum addRange addName) :=
  heard_reservedStatement (by decide)

instance heard_reservedStatement_message : Heard (reservedStatement .message addRange addName) :=
  heard_reservedStatement (by decide)

end Reserved

instance heard_field {dialect : Dialect} {inOneof : Bool} :
    Heard (field dialect path inOneof : Production σ (Field × Option Message)) :=
  ⟨fun _ _ => yields_field (fun _ _ _ _ _ _ => trivial) fun _ _ _ _ _ _ _ _ _ => trivial⟩

instance heard_methodType : Heard (methodType : Production σ (Bool × String)) :=
  ⟨fun _ _ => yields_methodType fun _ _ _ _ => trivial⟩

instance heard_sepBy {separator : String} {item : Production σ α} [Heard item] :
    Heard (sepBy separator item) :=
  ⟨fun _ _ => (yields_sepBy (I := fun _ => True) (P := fun _ => True)
    (fun s w _ => (Heard.yields s w).mono fun _ _ _ _ => ⟨trivial, trivial⟩)
    trivial).mono fun _ _ _ _ => trivial⟩

/-! A statement of a block without recovery must consume something, and a block without recovery
must be closed. -/

section Blocks

variable {statement : Production σ Unit} [Moves statement] [Heard statement]

theorem clean_runStatement_abandon {s s' : σ} {c d : Cursor} {r : Option Unit} (hc : c.Clean)
    (hne : c.ahead ≠ []) (hrun : runStatement .abandon statement s c = (r, s', d))
    (hquiet : d.diagnostics = []) : r = some () ∧ d.Clean := by
  have h : Heard statement := inferInstance
  unfold runStatement at hrun
  generalize hstatement : statement.run s c = outcome at hrun
  obtain ⟨_ | u, t, e⟩ := outcome
  · cases hrun
    obtain ⟨_, hsome, _⟩ := h.clean hc hstatement hquiet
    cases hsome
  · have hlt := Moves.position_lt s t c e u hne hstatement
    obtain ⟨rfl, rfl, rfl⟩ : some () = r ∧ t = s' ∧ e = d := by
      simpa [Nat.ne_of_gt hlt] using hrun
    obtain ⟨_, _, hd⟩ := h.clean hc hstatement hquiet
    exact ⟨rfl, hd⟩

theorem heard_block_abandon {construct : String} : Heard (block .abandon construct statement) := by
  refine ⟨fun s w c hc hw hquiet => ?_⟩
  clear hw
  simp only [block] at hquiet ⊢
  fun_induction runBlock .abandon construct statement s c with
  | case1 s c => exact ⟨_, _, _, rfl, hc.bump hquiet, trivial⟩
  | case2 s c _ _ d => simp [d, Cursor.report, Cursor.markUnterminated] at hquiet
  | case3 s c _ hne s₁ d hrun ih =>
    have hd := runBlock_onward .abandon construct statement s₁ d
    obtain ⟨_, hclean⟩ := clean_runStatement_abandon hc hne hrun (hd.quiet hquiet)
    exact ih hclean hquiet
  | case4 s c _ hne s₁ d hrun =>
    obtain ⟨hsome, _⟩ := clean_runStatement_abandon hc hne hrun hquiet
    cases hsome

instance heard_block {construct : String} : Heard (block recovery construct statement) := by
  cases recovery with
  | resume =>
    exact ⟨fun _ _ => yields_block (I := fun _ => True) (fun s w _ _ => Heard.yields s w) trivial⟩
  | abandon => exact heard_block_abandon

instance heard_statements_abandon : Heard (statements .abandon statement) := by
  refine ⟨fun s w c hc hw hquiet => ?_⟩
  clear hw
  simp only [statements] at hquiet ⊢
  fun_induction runStatements .abandon statement s c with
  | case1 s c => exact ⟨_, _, _, rfl, hc, trivial⟩
  | case2 s c _ _ d hresume => cases hresume
  | case3 s c _ _ d => simp [d, Cursor.report] at hquiet
  | case4 s c hne _ s₁ d hrun ih =>
    have hd := runStatements_onward .abandon statement s₁ d
    obtain ⟨_, hclean⟩ := clean_runStatement_abandon hc hne hrun (hd.quiet hquiet)
    exact ih hclean hquiet
  | case5 s c hne _ s₁ d hrun =>
    obtain ⟨hsome, _⟩ := clean_runStatement_abandon hc hne hrun hquiet
    cases hsome

end Blocks

/-! ## Enums and services -/

set_option synthInstance.maxSize 512

instance heard_enumStatement : Heard (enumStatement path) := by
  unfold enumStatement enumValue
  infer_instance

instance heard_enum : Heard (enum recovery path : Production σ Enum) := by
  unfold enum
  infer_instance

instance heard_methodStatement : Heard methodStatement := by
  unfold methodStatement
  infer_instance

instance heard_method : Heard (method recovery path : Production σ Method) := by
  unfold method
  infer_instance

instance heard_serviceStatement : Heard (serviceStatement recovery path) := by
  unfold serviceStatement
  infer_instance

instance heard_service : Heard (service recovery path : Production σ Service) := by
  unfold service
  infer_instance

/-! ## Messages -/

section Messages

variable {mode : Mode} {dialect : Dialect}

instance heard_extendStatement {extendee : String} :
    Heard (extendStatement dialect extendee path) := by
  unfold extendStatement
  infer_instance

instance heard_extend {extensions : List Field} :
    Heard (extend mode path extensions : Production σ (List Field)) := by
  unfold extend
  infer_instance

instance heard_messageField {oneof : Option Nat} : Heard (messageField dialect path oneof) := by
  unfold messageField
  infer_instance

instance heard_oneofStatement {index : Nat} : Heard (oneofStatement dialect path index) := by
  unfold oneofStatement
  infer_instance

instance heard_oneof : Heard (oneof mode path) := by
  unfold oneof
  infer_instance

instance heard_extensionRange : Heard extensionRange :=
  ⟨fun _ _ => yields_extensionRange fun _ _ _ => trivial⟩

instance heard_extensionsStatement : Heard extensionsStatement := by
  unfold extensionsStatement
  infer_instance

instance heard_messageStatement {nested : List Int → Production Message Message}
    [∀ path, Heard (nested path)] : Heard (messageStatement mode path nested) := by
  unfold messageStatement
  infer_instance

instance heard_message {budget : Nat} :
    Heard (message mode budget path : Production σ Message) := by
  induction budget generalizing σ path with
  | zero => exact ⟨fun _ _ => .step (yields_here fun _ => .step yields_report)⟩
  | succ budget ih =>
    unfold message
    infer_instance

end Messages

/-! ## Files -/

instance heard_syntaxStatement : Heard syntaxStatement :=
  ⟨fun _ _ => yields_syntaxStatement fun _ _ => trivial⟩

instance heard_importStatement : Heard importStatement :=
  ⟨fun _ _ => yields_importStatement fun _ _ _ _ => trivial⟩

instance heard_packageStatement : Heard packageStatement :=
  ⟨fun _ _ => yields_packageStatement fun _ _ _ _ _ => trivial⟩

instance heard_topLevelStatement {mode : Mode} : Heard (topLevelStatement mode) := by
  unfold topLevelStatement
  infer_instance

theorem heard_fileBody : Heard (do
    if ← atWord "syntax" then tolerate .abandon syntaxStatement
    let dialect := (← built).dialect
    statements .abandon (topLevelStatement ⟨dialect, .abandon⟩)) := by
  have htolerate : Heard (tolerate .abandon syntaxStatement) := ⟨heard_syntaxStatement.yields⟩
  infer_instance

end Production

end ProtoSchema
