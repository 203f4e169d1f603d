import ProtoSchema.Proofs.Grammar.Invariant

/-!
The productions that hold no declarations keep every invariant. Statements that add to the
declaration around them need to know that what they add does not matter to it.
-/

namespace ProtoSchema.Production

variable {what : String} {dialect : Dialect}

variable {σ : Type} {I : Invariant σ} {t : Token}

/-! ## Names and literals -/

theorem keeps_restOfName {first : String} : Keeps I 0 t (restOfName first) :=
  (keeps_after fun _ => keeps_identifier).map

theorem keeps_typeName : Keeps I 0 t typeName :=
  keeps_eatSymbol.bind fun _ _ => keeps_identifier.bind fun _ _ => keeps_restOfName

theorem keeps_integer : Keeps I 0 t (integer what) := by
  refine .peek fun hplace => .ite (fun _ => keeps_expected) fun h => ?_
  have hbump : Keeps I 0 t bump := keeps_bump (Decidable.not_not.mp h)
  split
  · exact hbump.map
  · exact .report hplace (hbump.bind fun _ _ => keeps_fail)
  · exact hbump.bind fun _ _ => keeps_fail

theorem keeps_int32 {allowSign : Bool} : Keeps I 0 t (int32 allowSign what) :=
  .here fun hstart => .either keeps_eatSymbol (keeps_pure _) fun _ _ =>
    keeps_integer.bind fun _ _ => .ite (fun _ => keeps_reject hstart) fun _ => keeps_pure _

theorem keeps_stringBytes : Keeps I 0 t (stringBytes what) :=
  .atKind (.ite (fun _ => keeps_move fun hs _ => Invariant.takeStrings hs) fun _ => keeps_expected)

theorem keeps_utf8String : Keeps I 0 t (utf8String what) := by
  refine .here fun hstart => keeps_stringBytes.bind fun bytes _ => ?_
  cases Utf8.string? bytes with
  | some text => exact keeps_pure _
  | none => exact keeps_reject hstart

/-! ## Options -/

theorem keeps_aggregate (h : t.isSymbol "\x7b" = true) : Keeps I 0 t aggregate := by
  refine .opened h fun _ _ => .bind (keeps_move fun hs _ => Invariant.takeAggregate 0 hs)
    fun texts _ => ?_
  cases texts with
  | some texts => exact keeps_pure _
  | none => exact keeps_rejectHere

theorem keeps_negativeValue {start : Position} (hstart : I.Covers start) :
    Keeps I 0 t (negativeValue start) := by
  refine .peek fun _ => .ite (fun _ => ?_) fun _ => .ite (fun h => ?_) fun _ => .ite (fun h => ?_)
    fun _ => .ite (fun h => ?_) fun _ => keeps_expected
  · exact keeps_integer.bind fun _ _ => .ite (fun _ => keeps_reject hstart) fun _ => keeps_pure _
  · exact (keeps_bump h).map
  · exact (keeps_bump (Token.kind_of_isWord h)).map
  · exact (keeps_bump (Token.kind_of_isWord h)).map

theorem keeps_optionValue : Keeps I 0 t optionValue := by
  refine .here fun hstart => keeps_eatSymbol.bind fun _ u => .ite
    (fun _ => keeps_negativeValue hstart) fun _ => .peek fun _ => ?_
  split
  · exact keeps_integer.map
  · next h => exact (keeps_bump h).map
  · exact keeps_stringBytes.map
  · next h =>
    exact (keeps_bump h).bind fun _ _ =>
      .ite (fun _ => keeps_pure _) fun _ => .ite (fun _ => keeps_pure _) fun _ => keeps_pure _
  · exact .ite (fun h => keeps_aggregate h) fun _ => keeps_expected

theorem keeps_setting : Keeps I 0 t setting := by
  have hpart : ∀ u, Keeps I 0 u optionNamePart := fun _ => keeps_eatSymbol.bind fun _ _ => .ite
    (fun _ => keeps_typeName.bind fun _ _ => keeps_symbol.map)
    fun _ => keeps_identifier
  refine .bind ((keeps_sepBy hpart).map) fun _ _ => ?_
  exact keeps_symbol.bind fun _ _ => keeps_optionValue.map

theorem keeps_optionStatement {add : Setting → σ → σ} (h : t.kind = .identifier)
    (hadd : ∀ x {s k c}, I.Holds s k c → I.Holds (add x s) k c) :
    Keeps I 0 t (optionStatement add) :=
  (keeps_bump h).bind fun _ _ => keeps_setting.bind fun x _ => keeps_symbol.bind fun _ _ =>
    keeps_edit (hadd x)

theorem keeps_bracketedOptions : Keeps I 0 t bracketedOptions :=
  keeps_symbol.bind fun _ _ => (keeps_sepBy fun _ => keeps_setting).bind fun _ _ =>
    keeps_symbol.map

theorem keeps_optionalOptions : Keeps I 0 t optionalOptions :=
  .atSymbol (.ite (fun _ => keeps_bracketedOptions) fun _ => keeps_pure _)

/-! ## Reserved names and numbers -/

theorem keeps_rangeEnd {rules : ReservedRules} {start : Int32} :
    Keeps I 0 t (rangeEnd rules start) :=
  keeps_eatWord.bind fun _ _ => .ite
    (fun _ => keeps_eatWord.bind fun _ _ => .ite (fun _ => keeps_pure _) fun _ => keeps_int32)
    fun _ => keeps_pure _

theorem keeps_reservedStatement {rules : ReservedRules} {addRange : ReservedRange → σ → σ}
    {addName : String → σ → σ} (h : t.kind = .identifier)
    (hrange : ∀ x {s k c}, I.Holds s k c → I.Holds (addRange x s) k c)
    (hname : ∀ x {s k c}, I.Holds s k c → I.Holds (addName x s) k c) :
    Keeps I 0 t (reservedStatement rules addRange addName) := by
  have hnames : ∀ u, Keeps I 0 u (reservedName addName) := fun _ =>
    .atKind (.atSymbol (.ite (fun _ => keeps_rejectHere) fun _ =>
      keeps_utf8String.bind fun x _ => keeps_edit (hname x)))
  have hranges : ∀ u, Keeps I 0 u (reservedRange rules addRange) := fun _ =>
    .atKind (.ite (fun _ => keeps_rejectHere) fun _ => keeps_int32.bind fun _ _ =>
      keeps_rangeEnd.bind fun _ _ => keeps_edit (hrange _))
  refine (keeps_bump h).bind fun _ u => .atKind (.ite (fun _ => ?_) fun _ => ?_)
  · exact (keeps_sepBy hnames).bind fun _ _ => keeps_symbol
  · exact (keeps_sepBy hranges).bind fun _ _ => keeps_symbol

/-! ## Types, labels and method types -/

theorem keeps_fieldType : Keeps I 0 t fieldType := by
  refine .peek fun _ => ?_
  split
  · next type h =>
    have hkind : t.kind = .identifier := (Option.ite_none_right_eq_some.mp h).1
    exact (keeps_bump hkind).map
  · exact keeps_typeName.map

theorem keeps_declaredType : Keeps I 0 t declaredType := by
  have hmap : ∀ u, Keeps I 0 u mapTypes := fun _ => keeps_symbol.bind fun _ _ =>
    keeps_fieldType.bind fun _ _ => keeps_symbol.bind fun _ _ => keeps_fieldType.bind fun _ _ =>
      keeps_symbol.map
  refine keeps_eatWord.bind fun _ u => .ite (fun _ => ?_) fun _ => ?_
  · refine .atSymbol (.ite (fun _ => ?_) fun _ => ?_)
    · exact (hmap u).map
    · exact keeps_restOfName.map
  · exact keeps_fieldType.map

theorem keeps_label? : Keeps I 0 t label? := by
  refine .peek fun _ => ?_
  split
  · next label h =>
    have hkind : t.kind = .identifier := (Option.ite_none_right_eq_some.mp h).1
    exact (keeps_bump hkind).map
  · exact keeps_pure _

theorem keeps_checkLabel {inOneof : Bool} {start : Position} {label : Option Label}
    (hstart : I.Covers start) : Keeps I 0 t (checkLabel dialect inOneof start label) := by
  have hrequired : ∀ u, Keeps I 0 u (if label = some .required && dialect = .proto3 then
      report start .requiredField else pure ()) :=
    fun _ => .ite (fun _ => keeps_report hstart) fun _ => keeps_pure _
  refine .ite (fun _ => ?_) fun _ => .ite (fun _ => .atWord ?_) fun _ => hrequired _
  · exact (keeps_report hstart).bind fun _ _ => hrequired _
  · refine .ite (fun _ => .here fun hplace => ?_) fun _ => hrequired _
    exact (keeps_report hplace).bind fun _ _ => hrequired _

theorem keeps_methodType : Keeps I 0 t methodType :=
  keeps_symbol.bind fun _ _ => keeps_eatWord.bind fun _ _ => keeps_typeName.bind fun _ _ =>
    keeps_symbol.map

/-! ## Defaults -/

private theorem kind_of_isWord_or {x y : String} (h : (t.isWord x || t.isWord y) = true) :
    t.kind = .identifier :=
  ((Bool.or_eq_true _ _).mp h).elim Token.kind_of_isWord Token.kind_of_isWord

theorem keeps_floatDefault : Keeps I 0 t floatDefault := by
  refine keeps_eatSymbol.bind fun _ u => .peek fun _ => .ite (fun _ => ?_) fun _ =>
    .ite (fun h => ?_) fun _ => .ite (fun h => ?_) fun _ => keeps_expected
  · exact keeps_integer.map
  · exact (keeps_bump h).map
  · exact (keeps_bump (kind_of_isWord_or h)).map

theorem keeps_integerDefault {type : FieldType} : Keeps I 0 t (integerDefault type) :=
  .here fun hstart => keeps_eatSymbol.bind fun _ _ => .ite (fun _ => keeps_reject hstart) fun _ =>
    keeps_integer.bind fun _ _ => .ite (fun _ => keeps_reject hstart) fun _ => keeps_pure _

theorem keeps_defaultValue {type : Option FieldType} : Keeps I 0 t (defaultValue type) := by
  unfold defaultValue
  split
  · exact .atKind (.ite (fun h => (keeps_bump (of_decide_eq_true h)).map) fun _ => keeps_rejectHere)
  · exact keeps_utf8String
  · exact keeps_stringBytes.map
  · exact .peek fun _ => .ite (fun h => (keeps_bump (kind_of_isWord_or h)).map) fun _ =>
      keeps_expected
  · exact keeps_floatDefault
  · exact keeps_floatDefault
  · exact keeps_rejectHere
  · exact keeps_rejectHere
  · exact keeps_integerDefault

theorem keeps_skip : Keeps I 0 t skip :=
  keeps_move fun hs _ => Invariant.skipStatement hs

/-! ## Options of fields -/

section FieldOptions

variable {I : Invariant Field} (h : ∀ {f k c} defaultValue jsonName options, I.Holds f k c →
  I.Holds { f with defaultValue, jsonName, options } k c)
include h

theorem keeps_fieldOption : Keeps I 0 t (fieldOption dialect) := by
  refine .here fun hstart => keeps_eatWord.bind fun _ u => .ite (fun _ => ?_) fun _ =>
    keeps_eatWord.bind fun _ u => .ite (fun _ => ?_) fun _ => ?_
  · refine keeps_symbol.bind fun _ _ => .guarded (keeps_report hstart) fun _ => .built fun f => ?_
    refine .guarded (keeps_report hstart) fun _ => keeps_defaultValue.bind fun _ _ => ?_
    exact keeps_edit fun hf => h _ _ _ hf
  · refine keeps_symbol.bind fun _ _ => .built fun f => .guarded (keeps_report hstart) fun _ => ?_
    exact keeps_utf8String.bind fun _ _ => keeps_edit fun hf => h _ _ _ hf
  · exact keeps_setting.bind fun _ _ => keeps_edit fun hf => h _ _ _ hf

theorem keeps_fieldOptions : Keeps I 0 t (fieldOptions dialect) :=
  keeps_symbol.bind fun _ _ => (keeps_sepBy fun _ => keeps_fieldOption h).bind fun _ _ =>
    keeps_symbol

end FieldOptions

/-! ## Statements that record nothing -/

theorem keeps_methodStatement {I : Invariant Method}
    (h : ∀ {m k c} options, I.Holds m k c → I.Holds { m with options } k c) :
    Keeps I 0 t methodStatement :=
  keeps_eatSymbol.bind fun _ _ => .ite (fun _ => keeps_pure _) fun _ => .atWord (.ite
    (fun hword => keeps_optionStatement (Token.kind_of_isWord hword) fun _ _ _ _ hm => h _ hm)
    fun _ => keeps_expected)

theorem keeps_extensionsStatement {I : Invariant Message}
    (h : ∀ {m k c} extensionRanges, I.Holds m k c → I.Holds { m with extensionRanges } k c)
    (ht : t.kind = .identifier) : Keeps I 0 t extensionsStatement := by
  have hrange : ∀ u, Keeps I 0 u extensionRange := fun _ => keeps_int32.bind fun _ _ =>
    keeps_rangeEnd.bind fun _ _ => keeps_edit fun hm => h _ hm
  refine (keeps_bump ht).bind fun _ _ => .built fun _ => (keeps_sepBy hrange).bind fun _ _ => ?_
  refine .atSymbol (.ite (fun _ => ?_) fun _ => keeps_symbol)
  exact keeps_bracketedOptions.bind fun _ _ => .bind (keeps_edit fun hm => h _ hm) fun _ _ =>
    keeps_symbol

section FileStatements

variable {I : Invariant File}

theorem keeps_syntaxStatement (ht : t.kind = .identifier)
    (h : ∀ {f k c} dialect, I.Holds f k c → I.Holds { f with dialect } k c) :
    Keeps I 0 t syntaxStatement := by
  refine (keeps_bump ht).bind fun _ _ => keeps_symbol.bind fun _ _ => .here fun hstart => ?_
  refine keeps_utf8String.bind fun name _ => ?_
  cases Dialect.ofKeyword? name with
  | none => exact keeps_reject hstart
  | some dialect => exact (keeps_edit fun hf => h _ hf).bind fun _ _ => keeps_symbol

theorem keeps_packageStatement (ht : t.kind = .identifier)
    (h : ∀ {f k c} package, I.Holds f k c → I.Holds { f with package } k c) :
    Keeps I 0 t packageStatement := by
  refine .here fun hstart => (keeps_bump ht).bind fun _ _ => .built fun _ => ?_
  refine .guarded (keeps_report hstart) fun _ => keeps_identifier.bind fun _ _ => ?_
  exact keeps_restOfName.bind fun _ _ => .bind (keeps_edit fun hf => h _ hf) fun _ _ => keeps_symbol

/-- A file is imported once. -/
theorem keeps_importStatement (ht : t.kind = .identifier)
    (h : ∀ kind path {f k c}, I.Holds f k c → path ∉ f.imports →
      I.Holds (f.addImport kind path) k c) : Keeps I 0 t importStatement := by
  have hkind : ∀ u, Keeps I 0 u importKind := fun _ => keeps_eatWord.bind fun _ _ =>
    .ite (fun _ => keeps_pure _) fun _ => keeps_eatWord.bind fun _ _ =>
      .ite (fun _ => keeps_pure _) fun _ => keeps_pure _
  refine (keeps_bump ht).bind fun _ _ => (hkind _).bind fun kind v => .here fun hstart => ?_
  refine keeps_utf8String.bind fun path u k f c hf hu => ?_
  rw [run_bind, show built.run f c = (some f, f, c) from rfl]
  by_cases hpath : f.imports.contains path = true
  · have hreport : Keeps I 0 u (do
        report v.position (.repeatedImport path)
        endOfStatement) := (keeps_report hstart).bind fun _ _ => keeps_symbol
    simp only [hpath, if_true]
    exact hreport k f c hf hu
  · simp only [hpath]
    have hadded := h kind path hf (by simpa using hpath)
    exact (keeps_symbol : Keeps I 0 u endOfStatement) k _ c hadded hu

end FileStatements

end ProtoSchema.Production
