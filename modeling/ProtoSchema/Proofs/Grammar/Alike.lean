import ProtoSchema.Proofs.Grammar.Echo

/-!
Everything that can be declared is read alike from the same words, wherever they stand and whatever
follows. The rules follow the productions. Of what was built before, only what a declaration looks
at has to be the same.
-/

namespace ProtoSchema

variable {what : String} {path path' : List Int} {dialect : Dialect}

namespace Token

/-! Tests of a token do not look at its place. -/

variable (kind : TokenKind) (text : String) (p q : Position)

theorem isWord_place : isWord ⟨kind, text, p⟩ = isWord ⟨kind, text, q⟩ :=
  rfl

theorem isSymbol_place : isSymbol ⟨kind, text, p⟩ = isSymbol ⟨kind, text, q⟩ :=
  rfl

end Token

namespace Cursor

variable {rest rest' : List Lexeme} {c c' : Cursor}

theorem Echo.takeStrings (h : c.Echo rest rest' c')
    (hle : rest.length ≤ c.takeStrings.2.ahead.length) :
    c'.takeStrings.1 = c.takeStrings.1 ∧ c.takeStrings.2.Echo rest rest' c'.takeStrings.2 ∧
      Alongside c c.takeStrings.2 c' c'.takeStrings.2 := by
  have hlength := hle.trans c.takeStrings_onward.length_le
  revert c'
  fun_induction Cursor.takeStrings c with
  | case1 c hkind bytes hnil =>
    intro c' h
    have hpos := h.rest_length_pos
    rw [hnil, List.length_nil] at hlength
    omega
  | case2 c hkind bytes hne more d heq ih =>
    intro c' h
    rw [heq] at ih
    have honward := c.bump.takeStrings_onward
    rw [heq] at honward
    obtain ⟨hecho, hside⟩ := h.bump hlength
    obtain ⟨hbytes, hecho', hside'⟩ := ih hle (hle.trans honward.length_le) hecho
    have hsame := h.word hlength
    have hkind' : c'.current.kind = .string := (congrArg Word.kind hsame).trans hkind
    have htext : c'.current.text = c.current.text := congrArg Word.text hsame
    rw [Cursor.takeStrings.eq_def c', if_pos hkind', dif_neg (h.ahead_ne_nil hlength)]
    dsimp only at hbytes hecho' hside' ⊢
    rw [hbytes, htext]
    exact ⟨rfl, hecho', hside.trans hside'⟩
  | case3 c hkind =>
    intro c' h
    have hkind' : c'.current.kind = c.current.kind := congrArg Word.kind (h.word hlength)
    rw [Cursor.takeStrings.eq_def c', if_neg (by rwa [hkind'])]
    exact ⟨rfl, h, .refl c c'⟩

theorem Echo.takeAggregate {depth : Nat} {texts : List String} (h : c.Echo rest rest' c')
    (hle : rest.length ≤ (c.takeAggregate depth).2.ahead.length)
    (htexts : (c.takeAggregate depth).1 = some texts) :
    (c'.takeAggregate depth).1 = some texts ∧
      (c.takeAggregate depth).2.Echo rest rest' (c'.takeAggregate depth).2 ∧
      Alongside c (c.takeAggregate depth).2 c' (c'.takeAggregate depth).2 := by
  have hlength := hle.trans (c.takeAggregate_onward depth).length_le
  revert c' texts
  fun_induction Cursor.takeAggregate depth c with
  | case1 =>
    intro c' texts h htexts
    cases htexts
  | case2 c hne hclose =>
    intro c' texts h htexts
    obtain ⟨hecho, hside⟩ := h.bump hlength
    rw [Cursor.takeAggregate.eq_def 0 c', dif_neg (h.ahead_ne_nil hlength),
      if_pos (by rwa [h.isSymbol hlength])]
    exact ⟨htexts, hecho, hside⟩
  | case3 c hne hclose depth more d heq ih =>
    intro c' texts h htexts
    obtain ⟨hecho, hside⟩ := h.bump hlength
    obtain ⟨texts', htexts', rfl⟩ := Option.map_eq_some_iff.mp htexts
    have honward := c.bump.takeAggregate_onward depth
    rw [heq] at ih honward
    obtain ⟨hmore, hecho', hside'⟩ := ih hle (hle.trans honward.length_le) hecho htexts'
    have htext : c'.current.text = c.current.text := congrArg Word.text (h.word hlength)
    rw [Cursor.takeAggregate.eq_def (depth + 1) c', dif_neg (h.ahead_ne_nil hlength),
      if_pos (by rwa [h.isSymbol hlength])]
    dsimp only at hecho' hside' ⊢
    rw [hmore, htext]
    exact ⟨rfl, hecho', hside.trans hside'⟩
  | case4 depth c hne hclose inner more d heq ih =>
    intro c' texts h htexts
    obtain ⟨hecho, hside⟩ := h.bump hlength
    obtain ⟨texts', htexts', rfl⟩ := Option.map_eq_some_iff.mp htexts
    have honward := c.bump.takeAggregate_onward inner
    rw [heq] at ih honward
    obtain ⟨hmore, hecho', hside'⟩ := ih hle (hle.trans honward.length_le) hecho htexts'
    have htext : c'.current.text = c.current.text := congrArg Word.text (h.word hlength)
    rw [Cursor.takeAggregate.eq_def depth c', dif_neg (h.ahead_ne_nil hlength),
      if_neg (by rwa [h.isSymbol hlength])]
    dsimp only at hecho' hside' ⊢
    rw [h.isSymbol hlength, htext]
    exact ⟨congrArg (Option.map (c.current.text :: ·)) hmore, hecho', hside.trans hside'⟩

end Cursor

/-- Messages that agree but for the messages nested in them, of which the first are `first` in one
and `first'` in the other. -/
def Message.Differ (first first' : List Message) (m m' : Message) : Prop :=
  ∃ more, m.nested = first ++ more ∧ m' = { m with nested := first' ++ more }

theorem Message.differ_nil_iff {m m' : Message} : Message.Differ [] [] m m' ↔ m' = m := by
  constructor
  · rintro ⟨more, hnested, rfl⟩
    cases m
    cases hnested
    rfl
  · rintro rfl
    cases m'
    exact ⟨_, rfl, rfl⟩

/-- Files of one language that agree but for the messages they begin with, `first` in one and
`first'` in the other. -/
def File.Differ (dialect : Dialect) (first first' : List Message) (f f' : File) : Prop :=
  f.dialect = dialect ∧
    ∃ more, f.messages = first ++ more ∧ f' = { f with messages := first' ++ more }

namespace Production

variable {σ : Type} {S : σ → σ → Prop}

set_option synthInstance.maxSize 512

/-! ## Names, numbers and strings -/

instance alike_restOfName {first : String} : Alike S 0 0 (restOfName first) (restOfName first) := by
  unfold restOfName
  infer_instance

instance alike_typeName : Alike S 0 0 typeName typeName := by
  unfold typeName
  infer_instance

instance alike_integer : Alike S 0 0 (integer what) (integer what) := by
  refine alike_token fun kind text _ _ => ?_
  dsimp only
  split
  · infer_instance
  split <;> infer_instance

instance alike_int32 {allowSign : Bool} :
    Alike S 0 0 (int32 allowSign what) (int32 allowSign what) := by
  unfold int32
  cases allowSign <;> infer_instance

instance {what : String} : Consumes (stringBytes what : Production σ (List UInt8)) := by
  refine ⟨fun s t c d bytes hc hrun _ => ?_⟩
  obtain ⟨_, _, _, hat, hrun⟩ := exists_run_of_bind hrun
  cases hat
  split at hrun
  · next hkind =>
    cases hrun
    have hstring := of_decide_eq_true hkind
    have hne := hc.ahead_ne_nil (Token.ne_endOfInput hstring)
    rw [Cursor.takeStrings, if_pos hstring, dif_neg hne]
    exact Nat.lt_of_le_of_lt c.bump.takeStrings_onward.length_le (Cursor.bump_ahead_lt hne)
  · cases hrun

instance {what : String} : Consumes (utf8String what : Production σ String) :=
  inferInstanceAs (Consumes (here >>= _))

instance alike_stringBytes : Alike S 0 0 (stringBytes what) (stringBytes what) := by
  have hstrings : Alike S 0 0 (move Cursor.takeStrings Cursor.takeStrings_onward)
      (move Cursor.takeStrings Cursor.takeStrings_onward) := by
    refine ⟨fun {rest rest' s s'} hs c c' bytes t d hc hecho _ hrun hquiet hle => ?_⟩
    cases hrun
    obtain ⟨hbytes, hecho', hside⟩ := hecho.takeStrings hle
    exact ⟨_, s', _, rfl, clean_takeStrings hc hquiet, hecho', hside, hbytes, hs⟩
  unfold stringBytes
  infer_instance

instance alike_utf8String : Alike S 0 0 (utf8String what) (utf8String what) := by
  refine ⟨fun hs => .here fun start start' => .step (.of_alike fun bytes => ?_)⟩
  split
  · exact Alike.echoes hs
  · exact .of_complains

/-! ## Options -/

instance alike_aggregate : Alike S 0 0 aggregate aggregate := by
  refine ⟨fun hs => .step (echoes_bump fun _ _ _ => ?_)⟩
  intro c c' v t d hc hecho _ hrun hquiet hle
  rw [run_move_bind] at hrun ⊢
  cases htexts : (c.takeAggregate 0).1 with
  | none =>
    rw [htexts] at hrun
    cases hrun
  | some texts =>
    rw [htexts] at hrun
    cases hrun
    obtain ⟨htexts', hecho', hside⟩ := hecho.takeAggregate hle htexts
    refine ⟨_, _, _, ?_, (Cursor.clean_takeAggregate hc hquiet).1, hecho', hside, rfl, hs⟩
    rw [htexts']
    rfl

instance alike_negativeValue {start start' : Position} :
    Alike S 0 0 (negativeValue start) (negativeValue start') := by
  refine alike_token fun kind text place place' => ?_
  rw [Token.isWord_place kind text place' place]
  infer_instance

instance alike_optionValue : Alike S 0 0 optionValue optionValue := by
  refine ⟨fun hs => .here fun start start' => .step (.of_alike fun _ => ?_)⟩
  split
  · exact Alike.echoes hs
  refine (alike_token fun kind text place place' => ?_).echoes hs
  rw [Token.isSymbol_place kind text place' place]
  dsimp only
  split <;> infer_instance

instance alike_optionNamePart : Alike S 0 0 optionNamePart optionNamePart := by
  unfold optionNamePart
  infer_instance

instance alike_setting : Alike S 0 0 setting setting := by
  unfold setting optionName
  infer_instance

theorem echoes_optionStatement {add : Setting → σ → σ} {Q : Unit → Unit → σ → σ → Prop}
    (h : ∀ t, Q () () (add t s) (add t s')) :
    Echoes rest rest' 0 1 (optionStatement add) (optionStatement add) s s' Q := by
  refine .close (echoes_bump fun _ _ _ => .close (.of_alike fun t => ?_))
  exact .step (.of_alike fun _ => echoes_edit (h t))

instance alike_bracketedOptions : Alike S 0 0 bracketedOptions bracketedOptions := by
  unfold bracketedOptions
  infer_instance

instance alike_optionalOptions : Alike S 0 0 optionalOptions optionalOptions := by
  unfold optionalOptions
  infer_instance

/-! ## Reserved names and numbers, enums -/

instance alike_rangeEnd {rules : ReservedRules} {start : Int32} :
    Alike S 0 0 (rangeEnd rules start) (rangeEnd rules start) := by
  unfold rangeEnd
  infer_instance

theorem alike_reservedStatement {rules : ReservedRules} {addRange : ReservedRange → σ → σ}
    {addName : String → σ → σ} (hrange : ∀ r s s', S s s' → S (addRange r s) (addRange r s'))
    (hname : ∀ n s s', S s s' → S (addName n s) (addName n s')) :
    Alike S 0 1 (reservedStatement rules addRange addName)
      (reservedStatement rules addRange addName) := by
  have hnames : ∀ n, Alike S 0 0 (edit (addName n)) (edit (addName n)) :=
    fun n => ⟨fun hs => echoes_edit ⟨rfl, hname n _ _ hs⟩⟩
  have hranges : ∀ r, Alike S 0 0 (edit (addRange r)) (edit (addRange r)) :=
    fun r => ⟨fun hs => echoes_edit ⟨rfl, hrange r _ _ hs⟩⟩
  unfold reservedStatement reservedName reservedRange
  infer_instance

instance alike_optionStatement {add : Setting → σ → σ} :
    Alike Eq 0 1 (optionStatement add) (optionStatement add) := by
  unfold optionStatement
  infer_instance

instance alike_enumStatement : Alike Eq 0 1 (enumStatement path) (enumStatement path') := by
  have hreserved : ∀ {addRange : ReservedRange → Enum → Enum} {addName : String → Enum → Enum},
      Alike Eq 0 1 (reservedStatement .enum addRange addName)
        (reservedStatement .enum addRange addName) :=
    alike_reservedStatement (fun _ _ _ => congrArg _) fun _ _ _ => congrArg _
  unfold enumStatement enumValue
  infer_instance

instance alike_enum : Alike S 0 1 (enum .resume path) (enum .resume path') := by
  unfold enum
  infer_instance

/-! ## Fields -/

instance alike_fieldType : Alike S 0 0 fieldType fieldType := by
  refine alike_token fun kind text _ _ => ?_
  dsimp only
  cases if kind = .identifier then FieldType.ofKeyword? text else none <;> infer_instance

instance alike_declaredType : Alike S 0 0 declaredType declaredType := by
  unfold declaredType mapTypes
  infer_instance

instance alike_floatDefault : Alike S 0 0 floatDefault floatDefault := by
  refine ⟨fun hs => .step (.of_alike fun negative => ?_)⟩
  refine (alike_token fun kind text place place' => ?_).echoes hs
  rw [Token.isWord_place kind text place' place]
  infer_instance

instance alike_integerDefault {type : FieldType} :
    Alike S 0 0 (integerDefault type) (integerDefault type) := by
  unfold integerDefault
  infer_instance

instance alike_defaultValue {type : Option FieldType} :
    Alike S 0 0 (defaultValue type) (defaultValue type) := by
  have hbool : Alike S 0 0 (defaultValue (some .bool)) (defaultValue (some .bool)) := by
    refine alike_token fun kind text place place' => ?_
    rw [Token.isWord_place kind text place' place]
    infer_instance
  unfold defaultValue at hbool ⊢
  split <;> infer_instance

instance alike_fieldOption : Alike Eq 0 0 (fieldOption dialect) (fieldOption dialect) := by
  unfold fieldOption
  dsimp only
  infer_instance

instance alike_fieldOptions : Alike Eq 0 0 (fieldOptions dialect) (fieldOptions dialect) := by
  unfold fieldOptions
  infer_instance

instance alike_label? : Alike S 0 0 label? label? := by
  refine alike_token fun kind text _ _ => ?_
  dsimp only
  cases if kind = .identifier then Label.ofKeyword? text else none <;> infer_instance

instance alike_checkLabel {inOneof : Bool} {start start' : Position} {label : Option Label} :
    Alike S 0 0 (checkLabel dialect inOneof start label)
      (checkLabel dialect inOneof start' label) := by
  unfold checkLabel
  dsimp only
  infer_instance

instance alike_field {inOneof : Bool} :
    Alike S 0 1 (field dialect path inOneof) (field dialect path' inOneof) := by
  unfold field fieldNumber
  dsimp only
  refine ⟨fun hs => .here fun start start' => .close (.of_alike fun label => ?_)⟩
  refine .close (.of_alike fun _ => .atWord fun _ => ?_)
  split
  · exact .of_complains
  refine .close (.of_alike fun type => .close (.of_alike fun name =>
    .close (.of_alike fun _ => ?_)))
  refine .close (.of_alike fun number => ?_)
  split
  · exact .of_complains
  split
  · exact .of_complains
  · exact Alike.echoes hs

instance alike_extend {extensions : List Field} :
    Alike S 0 1 (extend ⟨dialect, .resume⟩ path extensions)
      (extend ⟨dialect, .resume⟩ path' extensions) := by
  unfold extend extendStatement
  dsimp only
  infer_instance

/-! ## Messages -/

section Message

variable {first first' : List Message} {m m' : Message}

instance alike_messageField {oneof : Option Nat} : Alike (Message.Differ first first') 0 1
    (messageField dialect path oneof) (messageField dialect path' oneof) := by
  refine ⟨?_⟩
  rintro _ _ m _ ⟨more, hnested, rfl⟩
  refine .built (.step (.of_alike fun ⟨f, entry⟩ =>
    echoes_edit ⟨rfl, more ++ entry.toList, ?_, ?_⟩))
  · rw [← List.append_assoc, ← hnested]
    rfl
  · rw [← List.append_assoc]
    rfl

instance alike_oneof : Alike (Message.Differ first first') 0 1 (oneof ⟨dialect, .resume⟩ path)
    (oneof ⟨dialect, .resume⟩ path') := by
  have hstatement : ∀ index, Alike (Message.Differ first first') 0 1
      (oneofStatement dialect path index) (oneofStatement dialect path' index) := by
    refine fun index => ⟨?_⟩
    rintro _ _ m _ ⟨more, hnested, rfl⟩
    refine .atWord fun _ => ?_
    split
    · exact echoes_optionStatement fun _ => ⟨rfl, more, hnested, rfl⟩
    · exact Alike.echoes ⟨more, hnested, rfl⟩
  refine ⟨?_⟩
  rintro _ _ m _ ⟨more, hnested, rfl⟩
  refine .here fun start start' => .close (echoes_bump fun _ _ _ =>
    .close (.of_alike fun name => ?_))
  refine .close (.of_alike fun _ => .built (.edit (.step ?_)))
  refine .imp ((alike_block (h := hstatement _)).echoes ⟨more, hnested, rfl⟩) ?_
  rintro _ _ m _ ⟨rfl, more, hnested, rfl⟩
  refine .built ?_
  dsimp only
  split
  · exact .of_complains
  · exact Alike.echoes ⟨more, hnested, rfl⟩

instance alike_extensionsStatement :
    Alike (Message.Differ first first') 0 1 extensionsStatement extensionsStatement := by
  have hrange : Alike (Message.Differ first first') 0 0 extensionRange extensionRange := by
    refine ⟨?_⟩
    rintro _ _ m _ ⟨more, hnested, rfl⟩
    unfold extensionRange fieldNumber
    refine .step (.of_alike fun _ => .step (.of_alike fun _ => ?_))
    exact echoes_edit ⟨rfl, more, hnested, rfl⟩
  refine ⟨?_⟩
  rintro _ _ m _ ⟨more, hnested, rfl⟩
  refine .close (echoes_bump fun _ _ _ => .built (.close ?_))
  refine (Alike.echoes (S := Message.Differ first first') ⟨more, hnested, rfl⟩).imp ?_
  rintro _ _ m _ ⟨rfl, more, hnested, rfl⟩
  refine .atSymbol fun _ => ?_
  dsimp only
  split
  · exact .close (.of_alike fun _ => .edit (Alike.echoes ⟨more, hnested, rfl⟩))
  · exact Alike.echoes ⟨more, hnested, rfl⟩

/-- What a nested message is read as depends on its words. -/
instance alike_messageStatement {nested nested' : List Int → Production Message Message}
    [∀ path path' (S : Message → Message → Prop), Alike S 0 1 (nested path) (nested' path')] :
    Alike (Message.Differ first first') 0 1 (messageStatement ⟨dialect, .resume⟩ path nested)
      (messageStatement ⟨dialect, .resume⟩ path' nested') := by
  refine ⟨?_⟩
  rintro _ _ m _ ⟨more, hmore, rfl⟩
  have hm : ∀ {n}, n.nested = first ++ more →
      Message.Differ first first' n { n with nested := first' ++ more } := fun hn => ⟨more, hn, rfl⟩
  refine .eatSymbol (alike_pure.echoes (hm hmore)) (.token fun kind text place place' => ?_)
  rw [Token.isWord_place kind text place' place]
  split
  · refine .built (.step (.of_alike fun n => echoes_edit ⟨rfl, more ++ [n], ?_, ?_⟩))
    · rw [hmore, List.append_assoc]
    · rw [← List.append_assoc]
  split
  · exact .built (.step (.of_alike fun _ => echoes_edit ⟨rfl, hm hmore⟩))
  split
  · exact Alike.echoes (hm hmore)
  split
  · refine (alike_reservedStatement ?_ ?_).echoes (hm hmore)
    · rintro _ _ _ ⟨more, hmore, rfl⟩
      exact ⟨more, hmore, rfl⟩
    · rintro _ _ _ ⟨more, hmore, rfl⟩
      exact ⟨more, hmore, rfl⟩
  split
  · exact .built (.step (.of_alike fun _ => echoes_edit ⟨rfl, hm hmore⟩))
  split
  · exact echoes_optionStatement fun _ => ⟨rfl, hm hmore⟩
  split <;> exact Alike.echoes (hm hmore)

instance alike_message {budget : Nat} :
    Alike S 0 1 (message ⟨dialect, .resume⟩ budget path)
      (message ⟨dialect, .resume⟩ budget path') := by
  induction budget generalizing σ path path' S with
  | zero =>
    unfold message
    infer_instance
  | succ budget ih =>
    have hblock : Alike Eq 0 1
        (block .resume "message" (messageStatement ⟨dialect, .resume⟩ path
          (message ⟨dialect, .resume⟩ budget)))
        (block .resume "message" (messageStatement ⟨dialect, .resume⟩ path'
          (message ⟨dialect, .resume⟩ budget))) := by
      refine ⟨?_⟩
      rintro _ _ m _ rfl
      have hnested : ∀ path path' (S : Message → Message → Prop), Alike S 0 1
        (message ⟨dialect, .resume⟩ budget path) (message ⟨dialect, .resume⟩ budget path') :=
        fun _ _ _ => ih
      refine (alike_block.echoes (Message.differ_nil_iff.mpr rfl)).imp ?_
      rintro _ _ _ _ ⟨rfl, hm⟩
      exact ⟨rfl, (Message.differ_nil_iff.mp hm).symm⟩
    unfold message
    infer_instance

end Message

/-! ## Services -/

instance alike_methodType : Alike S 0 0 methodType methodType := by
  unfold methodType
  infer_instance

instance alike_method : Alike S 0 1 (method .resume path) (method .resume path') := by
  have hstatement : Alike Eq 0 1 methodStatement methodStatement := by
    unfold methodStatement
    infer_instance
  unfold method
  dsimp only
  refine ⟨fun hs => .here fun _ _ => .close (echoes_bump fun _ _ _ =>
    .close (.of_alike fun _ => ?_))⟩
  refine .close (.of_alike fun _ => .close (.of_alike fun _ => .close (.of_alike fun _ => ?_)))
  refine .close (.of_alike fun _ => ?_)
  split <;> exact Alike.echoes hs

instance alike_service : Alike S 0 1 (service .resume path) (service .resume path') := by
  have hstatement :
      Alike Eq 0 1 (serviceStatement .resume path) (serviceStatement .resume path') := by
    unfold serviceStatement
    infer_instance
  unfold service
  infer_instance

/-! ## Files -/

instance alike_syntaxStatement : Alike Eq 0 1 syntaxStatement syntaxStatement := by
  have : ∀ (start : Position) (name : String), Consumes (match Dialect.ofKeyword? name with
      | none => reject start (.unknownSyntax name)
      | some dialect => do
        edit fun f : File => { f with dialect }
        endOfStatement) := by
    intro start name
    cases Dialect.ofKeyword? name <;> infer_instance
  refine ⟨?_⟩
  rintro _ _ f _ rfl
  refine .close (echoes_bump fun _ _ _ => .close (.of_alike fun _ => .here fun _ _ => ?_))
  refine .close (.of_alike fun name => ?_)
  cases Dialect.ofKeyword? name with
  | none => exact .of_complains
  | some dialect => exact .edit (Alike.echoes rfl)

/-- Where nothing is reported, a statement that is tolerated has been understood. -/
theorem run_of_tolerate {statement : Production σ Unit} [Heard statement] {s t : σ} {c d : Cursor}
    (hc : c.Clean)
    (hrun : (tolerate .resume statement).run s c = (some (), t, d)) (hd : d.diagnostics = []) :
    statement.run s c = (some (), t, d) := by
  generalize hstatement : statement.run s c = outcome
  obtain ⟨_ | u, t₁, e⟩ := outcome
  · have hskip : (tolerate .resume statement).run s c = (some (), t₁, e.skipStatement) := by
      simp [tolerate, hstatement]
    cases hskip.symm.trans hrun
    obtain ⟨_, hsome, _⟩ :=
      Heard.clean inferInstance hc hstatement (e.skipStatement_onward.quiet hd)
    cases hsome
  · exact (run_tolerate_some hstatement).symm.trans hrun

instance alike_tolerate {statement : Production σ Unit} [Heard statement]
    [h : Alike S 0 1 statement statement] :
    Alike S 0 1 (tolerate .resume statement) (tolerate .resume statement) := by
  refine ⟨fun hs c c' u t d hc hecho hle hrun hquiet hle' => ?_⟩
  obtain ⟨a', t', d', hrun', hafter⟩ :=
    h.echoes hs c c' u t d hc hecho hle (run_of_tolerate hc hrun hquiet) hquiet hle'
  exact ⟨a', t', d', run_tolerate_some hrun', hafter⟩

instance alike_importKind {S : File → File → Prop} : Alike S 0 0 importKind importKind := by
  unfold importKind
  infer_instance

instance alike_importStatement {first first' : List Message} :
    Alike (File.Differ dialect first first') 0 1 importStatement importStatement := by
  refine ⟨?_⟩
  rintro _ _ f _ ⟨hlanguage, more, hmessages, rfl⟩
  unfold importStatement
  dsimp only
  refine .close (echoes_bump fun _ _ _ => .close (.of_alike fun kind => ?_))
  refine .here fun _ _ => .close (.of_alike fun path => .built ?_)
  split
  · exact .of_complains
  · exact .edit (Alike.echoes ⟨hlanguage, more, hmessages, rfl⟩)

instance alike_packageStatement {first first' : List Message} :
    Alike (File.Differ dialect first first') 0 1 packageStatement packageStatement := by
  refine ⟨?_⟩
  rintro _ _ f _ ⟨hlanguage, more, hmessages, rfl⟩
  unfold packageStatement
  dsimp only
  refine .here fun _ _ => .close (echoes_bump fun _ _ _ => .built ?_)
  split
  · exact .of_complains
  refine .close (.of_alike fun _ => .close (.of_alike fun _ => ?_))
  exact .edit (Alike.echoes ⟨hlanguage, more, hmessages, rfl⟩)

instance alike_topLevelStatement {first first' : List Message} :
    Alike (File.Differ dialect first first') 0 1 (topLevelStatement ⟨dialect, .resume⟩)
      (topLevelStatement ⟨dialect, .resume⟩) := by
  refine ⟨?_⟩
  rintro _ _ f _ ⟨hlanguage, more, hmessages, rfl⟩
  have hf : ∀ {g}, g.dialect = dialect → g.messages = first ++ more →
      File.Differ dialect first first' g { g with messages := first' ++ more } :=
    fun hdialect hg => ⟨hdialect, more, hg, rfl⟩
  refine .eatSymbol (alike_pure.echoes (hf hlanguage hmessages))
    (.token fun kind text place place' => ?_)
  rw [Token.isWord_place kind text place' place]
  split
  · refine .built (.step (.of_alike fun m => echoes_edit ⟨rfl, hlanguage, more ++ [m], ?_, ?_⟩))
    · rw [hmessages, List.append_assoc]
    · rw [List.append_assoc]
  split
  · exact .built (.step (.of_alike fun _ => echoes_edit ⟨rfl, hf hlanguage hmessages⟩))
  split
  · exact .built (.step (.of_alike fun _ => echoes_edit ⟨rfl, hf hlanguage hmessages⟩))
  split
  · exact .built (.step (.of_alike fun _ => echoes_edit ⟨rfl, hf hlanguage hmessages⟩))
  split
  · exact Alike.echoes (hf hlanguage hmessages)
  split
  · exact Alike.echoes (hf hlanguage hmessages)
  split
  · exact echoes_optionStatement fun _ => ⟨rfl, hf hlanguage hmessages⟩
  split <;> exact .of_complains

end Production

end ProtoSchema
