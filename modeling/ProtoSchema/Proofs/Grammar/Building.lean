import ProtoSchema.Proofs.Grammar.Recorded
import ProtoSchema.Proofs.RoundTrip
import ProtoSchema.Proofs.Token.Lines

/-!
What stays true of messages and files while they are built, whatever is wrong with the text. The
statements change a declaration in a few ways only, so an invariant that survives these is kept by
every statement, next to what is kept of the cursor, and by reading as a whole.
-/

namespace ProtoSchema

open Token Location

/-- What is kept between the statements of a message (`I`), and between those of the oneof with a
given index that is still open (`J`). `inner` holds of the messages that are declared inside. -/
structure Message.Kept (inner I : Message → Prop) (J : Nat → Message → Prop) : Prop where
  congr : ∀ {m m' : Message}, I m → m'.name = m.name → m'.fields = m.fields →
    m'.oneofs = m.oneofs → m'.nested = m.nested → I m'
  addNested : ∀ {m n : Message}, I m → inner n → I { m with nested := m.nested ++ [n] }
  addField : ∀ {m : Message} {f : Field} {entry : Option Message}, I m →
    Production.FieldRead false f entry → I (m.addField none f entry)
  openOneof : ∀ {m : Message}, I m → ∀ name,
    J m.oneofs.length { m with oneofs := m.oneofs ++ [{ name }] }
  addOption : ∀ {index : Nat} {m : Message}, J index m → ∀ t, J index
    { m with oneofs := m.oneofs.modify index fun o => { o with options := o.options ++ [t] } }
  addMember : ∀ {index : Nat} {m : Message} {f : Field} {entry : Option Message}, J index m →
    Production.FieldRead true f entry → J index (m.addField (some index) f entry)
  closeOneof : ∀ {index : Nat} {m : Message}, J index m → I m

theorem Message.kept_name (P : String → Prop) :
    Kept (fun _ => True) (fun m => P m.name) fun _ m => P m.name where
  congr h hname _ _ _ := hname ▸ h
  addNested h _ := h
  addField h _ := h
  openOneof h _ := h
  addOption h _ := h
  addMember h _ := h
  closeOneof h := h

structure File.Kept (inner : Message → Prop) (I : File → Prop) : Prop where
  congr : ∀ {file file' : File}, I file → file'.messages = file.messages →
    file'.imports = file.imports → file'.publicImports = file.publicImports →
    file'.weakImports = file.weakImports → I file'
  addMessage : ∀ {file : File} {m : Message}, I file → inner m →
    I { file with messages := file.messages ++ [m] }
  addImport : ∀ {file : File} {path : String}, I file → path ∉ file.imports →
    ∀ kind, I (file.addImport kind path)

theorem File.kept_true : Kept (fun _ => True) fun _ => True :=
  ⟨fun _ _ _ _ _ => trivial, fun _ _ => trivial, fun _ _ _ => trivial⟩

namespace Production

variable {σ τ α : Type} {I : Invariant σ} {s : σ} {t : Token} {dialect : Dialect} {path : List Int}

/-! ## Declarations without messages -/

theorem keeps_field {inOneof : Bool} (h : I.Records path) :
    Keeps I 0 t (field dialect path inOneof) := by
  refine .here fun hstart => keeps_label?.bind fun _ _ => ?_
  refine (keeps_checkLabel hstart).bind fun _ _ => ?_
  refine .atWord (.guarded keeps_rejectHere fun _ => keeps_declaredType.bind fun _ _ => ?_)
  refine keeps_identifier.bind fun _ _ => keeps_symbol.bind fun _ _ => ?_
  refine keeps_int32.bind fun _ _ => .guarded (keeps_report hstart) fun _ => ?_
  refine .guarded (keeps_report hstart) fun _ => ?_
  refine .atSymbol (.either ?_ (keeps_pure _) fun _ _ => ?_)
  · exact keeps_build (J := fun _ => True) trivial fun _ => keeps_fieldOptions fun _ _ _ h => h
  · exact keeps_symbol.bind fun _ _ => (keeps_record h).map

theorem keeps_method (ht : t.kind = .identifier) (h : I.Records path) :
    Keeps I 0 t (method .resume path) := by
  have hend : ∀ (m : Method) start u, Keeps I 0 u (do
      record path start
      return m) := fun _ _ _ => (keeps_record h).map
  refine .here fun _ => (keeps_bump ht).bind fun _ _ => keeps_identifier.bind fun _ _ => ?_
  refine keeps_methodType.bind fun _ _ => keeps_word.bind fun _ _ => ?_
  refine keeps_methodType.bind fun _ _ => .braced (fun _ => ?_) ?_
  · refine .bind (keeps_build (J := fun _ => True) trivial fun _ => ?_) fun m _ => hend m _ _
    exact keeps_block fun _ => keeps_methodStatement fun _ h => h
  · exact keeps_symbol.bind fun _ _ => (keeps_pure _).bind fun m _ => hend m _ _

theorem keeps_declaration {what construct : String} {J : τ → Prop} {init : String → τ}
    {statement : Production τ Unit} [Moves statement] {finish : τ → α} (ht : t.kind = .identifier)
    (hpath : I.Records path) (hinit : ∀ name, J (init name))
    (h : ∀ s u, Keeps (I.under s J) 0 u statement) :
    Keeps I 0 t (do
      let start ← here
      let _ ← bump
      let name ← identifier what
      symbol "\x7b"
      let x ← build (init name) (block .resume construct statement)
      record path start
      return finish x) := by
  refine .here fun _ => (keeps_bump ht).bind fun _ _ => keeps_identifier.bind fun name _ => ?_
  refine .brace fun _ => .bind (keeps_build (hinit name) fun s => keeps_block (h s)) ?_
  exact fun _ _ => (keeps_record hpath).map

section Blocks

variable (ht : t.kind = .identifier) (h : I.RecordsUnder path)
include h

theorem keeps_enumStatement : Keeps (I.under s fun _ => True) 0 t (enumStatement path) := by
  refine keeps_eatSymbol.bind fun _ u => .ite (fun _ => keeps_pure _) fun _ => .atWord ?_
  refine .ite (fun hword => ?_) fun _ => .atWord (.ite (fun hword => ?_) fun _ => ?_)
  · exact keeps_optionStatement (kind_of_isWord hword) fun _ _ _ _ h => h
  · exact keeps_reservedStatement (kind_of_isWord hword) (fun _ _ _ _ h => h) fun _ _ _ _ h => h
  · refine .here fun _ => keeps_identifier.bind fun _ _ => keeps_symbol.bind fun _ _ => ?_
    refine keeps_int32.bind fun _ _ => keeps_optionalOptions.bind fun _ _ => ?_
    refine keeps_symbol.bind fun _ _ => .built fun _ => ?_
    exact .bind (keeps_record (h.append _).self) fun _ _ => keeps_edit fun h => h

theorem keeps_serviceStatement :
    Keeps (I.under s fun _ => True) 0 t (serviceStatement .resume path) := by
  refine keeps_eatSymbol.bind fun _ u => .ite (fun _ => keeps_pure _) fun _ => .atWord ?_
  refine .ite (fun hword => ?_) fun _ => .atWord (.ite (fun hword => ?_) fun _ => keeps_expected)
  · exact keeps_optionStatement (kind_of_isWord hword) fun _ _ _ _ h => h
  · exact .built fun _ => .bind (keeps_method (kind_of_isWord hword) (h.append _).self)
      fun _ _ => keeps_edit fun h => h

theorem keeps_extendStatement {extendee : String} :
    Keeps (I.under s fun _ => True) 0 t (extendStatement dialect extendee path) := by
  refine keeps_eatSymbol.bind fun _ u => .ite (fun _ => keeps_pure _) fun _ => ?_
  refine .here fun hstart => .built fun _ => .bind (keeps_field (h.append _).self) fun _ _ => ?_
  exact .guarded (keeps_report hstart) fun _ => keeps_edit fun h => h

include ht

theorem keeps_enum : Keeps I 0 t (enum .resume path) :=
  keeps_declaration ht h.self (fun _ => trivial) fun _ _ => keeps_enumStatement h

theorem keeps_service : Keeps I 0 t (service .resume path) :=
  keeps_declaration ht h.self (fun _ => trivial) fun _ _ => keeps_serviceStatement h

theorem keeps_extend {extensions : List Field} :
    Keeps I 0 t (extend ⟨dialect, .resume⟩ path extensions) := by
  refine (keeps_bump ht).bind fun _ _ => keeps_typeName.bind fun _ _ => .brace fun _ => ?_
  exact keeps_build (J := fun _ => True) trivial fun _ =>
    keeps_block fun _ => keeps_extendStatement h

end Blocks

/-! ## Messages -/

section Messages

theorem keeps_messageField {K : Message → Prop} {oneof : Option Nat}
    (h : I.RecordsUnder (path ++ [Location.messageField]))
    (hadd : ∀ m f entry, K m → FieldRead oneof.isSome f entry → K (m.addField oneof f entry)) :
    Keeps (I.under s K) 0 t (messageField dialect path oneof) := by
  refine .built fun m => .bind_value (keeps_field ?_) (fun _ _ _ _ _ => fieldRead_of_run) ?_
  · exact (h.child _).self
  · exact fun _ _ hf => keeps_edit fun hm => ⟨hm.1, hadd _ _ _ hm.2 hf⟩

variable {inner K : Message → Prop} {J : Nat → Message → Prop} (h : Message.Kept inner K J)
include h

theorem keeps_oneofStatement {index : Nat}
    (hfield : I.RecordsUnder (path ++ [Location.messageField])) :
    Keeps (I.under s (J index)) 0 t (oneofStatement dialect path index) := by
  refine .atWord (.ite (fun hword => ?_) fun _ => keeps_eatSymbol.bind fun _ _ =>
    .ite (fun _ => keeps_pure _) fun _ => ?_)
  · exact keeps_optionStatement (kind_of_isWord hword) fun x _ _ _ hm =>
      ⟨hm.1, h.addOption hm.2 x⟩
  · exact keeps_messageField hfield fun _ _ _ hm hf => h.addMember hm hf

theorem keeps_oneof (ht : t.kind = .identifier)
    (hfield : I.RecordsUnder (path ++ [Location.messageField]))
    (honeof : I.RecordsUnder (path ++ [messageOneof])) :
    Keeps (I.under s K) 0 t (oneof ⟨dialect, .resume⟩ path) := by
  refine .here fun hstart => (keeps_bump ht).bind fun _ _ => keeps_identifier.bind fun name _ => ?_
  refine .brace fun u k m c hm hu => ?_
  -- while the block is read, the new oneof is open
  have hopen : Keeps (I.under s (J m.oneofs.length)) 1 u (do
      block .resume "oneof" (oneofStatement dialect path m.oneofs.length)
      if ((← built).oneofs[m.oneofs.length]?.map fun o => o.fields.isEmpty).getD true then
        report t.position .emptyOneof
      record (child path messageOneof m.oneofs.length) t.position) := by
    refine .bind (keeps_block fun _ => keeps_oneofStatement h hfield) ?_
    refine fun _ _ => .built fun _ => .guarded (keeps_report hstart) fun _ => keeps_record ?_
    exact (honeof.child _).self
  have hend := hopen k _ c ⟨hm.1, h.openOneof hm.2 name⟩ hu
  exact ⟨hend.1, h.closeOneof hend.2⟩

def MessageRead (R : Message → Prop) (p : Production σ Message) : Prop :=
  ∀ s c m s' d, p.run s c = (some m, s', d) → R m

theorem keeps_messageStatement {nested : List Int → Production Message Message}
    (hpath : ∀ tag, tag ≠ messageNested → I.RecordsUnder (path ++ [tag]))
    (hnested : t.isWord "message" = true → ∀ i,
      Keeps (I.under s K) 0 t (nested (child path messageNested i)) ∧
        MessageRead inner (nested (child path messageNested i))) :
    Keeps (I.under s K) 0 t (messageStatement ⟨dialect, .resume⟩ path nested) := by
  refine .eatSymbol (fun _ => keeps_pure _) (.peek fun _ => ?_)
  refine .ite (fun hword => ?_) fun _ => .ite (fun hword => ?_) fun _ =>
    .ite (fun hword => ?_) fun _ => .ite (fun hword => ?_) fun _ => .ite (fun hword => ?_) fun _ =>
    .ite (fun hword => ?_) fun _ => .ite (fun hword => ?_) fun _ => ?_
  · refine .built fun m => ?_
    obtain ⟨hkeeps, hread⟩ := hnested hword m.nested.length
    exact hkeeps.bind_value hread fun _ _ hn => keeps_edit fun hm => ⟨hm.1, h.addNested hm.2 hn⟩
  · refine .built fun _ => .bind (keeps_enum (kind_of_isWord hword) ?_) fun _ _ => ?_
    · exact (hpath messageEnum (by decide)).child _
    · exact keeps_edit fun hm => ⟨hm.1, h.congr hm.2 rfl rfl rfl rfl⟩
  · exact keeps_extensionsStatement (fun _ hm => ⟨hm.1, h.congr hm.2 rfl rfl rfl rfl⟩)
      (kind_of_isWord hword)
  · exact keeps_reservedStatement (kind_of_isWord hword)
      (fun _ _ _ _ hm => ⟨hm.1, h.congr hm.2 rfl rfl rfl rfl⟩)
      fun _ _ _ _ hm => ⟨hm.1, h.congr hm.2 rfl rfl rfl rfl⟩
  · refine .built fun _ => .bind (keeps_extend (kind_of_isWord hword) ?_) fun _ _ => ?_
    · exact hpath messageExtension (by decide)
    · exact keeps_edit fun hm => ⟨hm.1, h.congr hm.2 rfl rfl rfl rfl⟩
  · exact keeps_optionStatement (kind_of_isWord hword) fun _ _ _ _ hm =>
      ⟨hm.1, h.congr hm.2 rfl rfl rfl rfl⟩
  · exact keeps_oneof h (kind_of_isWord hword) (hpath _ (by decide)) (hpath _ (by decide))
  · exact keeps_messageField (hpath _ (by decide)) fun _ _ _ hm hf => h.addField hm hf

end Messages

theorem keeps_message {budget : Nat} (ht : t.kind = .identifier) (h : I.RecordsUnder path) :
    Keeps I 0 t (message ⟨dialect, .resume⟩ budget path) := by
  induction budget generalizing σ path t with
  | zero =>
    exact .here fun hplace => .report hplace ((keeps_bump ht).bind fun _ _ =>
      keeps_skip.bind fun _ _ => keeps_fail)
  | succ budget ih =>
    refine keeps_declaration (J := fun _ => True) ht h.self (fun _ => trivial) fun s u => ?_
    exact keeps_messageStatement (Message.kept_name fun _ => True) (fun _ _ => h.append _)
      fun hword _ => ⟨ih (kind_of_isWord hword) (h.append _), fun _ _ _ _ _ _ => trivial⟩

/-- What is known of messages may depend on how deep others can nest in them. -/
theorem messageRead_message {R K : Nat → Message → Prop} {J : Nat → Nat → Message → Prop}
    (h : ∀ budget, Message.Kept (R budget) (K budget) (J budget))
    (hbegin : ∀ budget name, K budget { name })
    (hdone : ∀ budget m, K budget m → R (budget + 1) m.withSyntheticOneofs) {budget : Nat} :
    MessageRead (R budget) (message ⟨dialect, .resume⟩ budget path : Production σ Message) := by
  induction budget generalizing σ path with
  | zero =>
    intro s c m s' d hrun
    iterate 4 obtain ⟨_, _, _, _, hrun⟩ := exists_run_of_bind hrun
    cases hrun
  | succ budget ih =>
    intro s c m s' d hrun
    iterate 2 obtain ⟨_, _, _, _, hrun⟩ := exists_run_of_bind hrun
    obtain ⟨name, _, _, _, hrun⟩ := exists_run_of_bind hrun
    obtain ⟨_, _, _, _, hrun⟩ := exists_run_of_bind hrun
    obtain ⟨x, _, _, hbuild, hrun⟩ := exists_run_of_bind hrun
    obtain ⟨_, _, _, _, hrun⟩ := exists_run_of_bind hrun
    cases hrun
    refine hdone budget x (Keeps.of_run_build (I := .any) (k := 0) (keeps_block fun _ => ?_)
      trivial (hbegin budget name) hbuild)
    exact keeps_messageStatement (h budget) (fun _ _ _ _ => trivial) fun hword _ =>
      ⟨keeps_message (kind_of_isWord hword) fun _ _ => trivial, ih⟩

/-! ## Files -/

section Files

variable {inner : Message → Prop} {K : File → Prop} (h : File.Kept inner K)
include h

theorem keeps_topLevelStatement
    (hpath : ∀ tag, tag ≠ fileMessage → I.RecordsUnder [tag])
    (hmessage : t.isWord "message" = true → I.RecordsUnder [fileMessage] ∧
      ∀ path, MessageRead inner
        (message ⟨dialect, .resume⟩ Message.maxNesting path : Production File Message)) :
    Keeps (I.under s K) 0 t (topLevelStatement ⟨dialect, .resume⟩) := by
  refine .eatSymbol (fun _ => keeps_pure _) (.peek fun _ => ?_)
  refine .ite (fun hword => ?_) fun _ => .ite (fun hword => ?_) fun _ =>
    .ite (fun hword => ?_) fun _ => .ite (fun hword => ?_) fun _ => .ite (fun hword => ?_) fun _ =>
    .ite (fun hword => ?_) fun _ => .ite (fun hword => ?_) fun _ =>
    .ite (fun _ => keeps_rejectHere) fun _ => keeps_rejectHere
  · obtain ⟨hrecords, hread⟩ := hmessage hword
    refine .built fun _ => .bind_value (keeps_message (kind_of_isWord hword) ?_) (hread _) ?_
    · exact hrecords.append [_]
    · exact fun _ _ hm => keeps_edit fun hfile => ⟨hfile.1, h.addMessage hfile.2 hm⟩
  · refine .built fun _ => .bind (keeps_enum (kind_of_isWord hword) ?_) fun _ _ => ?_
    · exact (hpath fileEnum (by decide)).append [_]
    · exact keeps_edit fun hfile => ⟨hfile.1, h.congr hfile.2 rfl rfl rfl rfl⟩
  · refine .built fun _ => .bind (keeps_service (kind_of_isWord hword) ?_) fun _ _ => ?_
    · exact (hpath fileService (by decide)).append [_]
    · exact keeps_edit fun hfile => ⟨hfile.1, h.congr hfile.2 rfl rfl rfl rfl⟩
  · refine .built fun _ => .bind (keeps_extend (kind_of_isWord hword) ?_) fun _ _ => ?_
    · exact hpath fileExtension (by decide)
    · exact keeps_edit fun hfile => ⟨hfile.1, h.congr hfile.2 rfl rfl rfl rfl⟩
  · exact keeps_importStatement (kind_of_isWord hword) fun kind _ _ _ _ hfile hpath =>
      ⟨hfile.1, h.addImport hfile.2 hpath kind⟩
  · exact keeps_packageStatement (kind_of_isWord hword) fun _ hfile =>
      ⟨hfile.1, h.congr hfile.2 rfl rfl rfl rfl⟩
  · exact keeps_optionStatement (kind_of_isWord hword) fun _ _ _ _ hfile =>
      ⟨hfile.1, h.congr hfile.2 rfl rfl rfl rfl⟩

theorem keeps_fileBody (hstray : ∀ {k c}, I.Holds s k c → I.Holds s (k + 1) c)
    (hpath : ∀ tag, I.RecordsUnder [tag])
    (hmessage : ∀ dialect path, MessageRead inner
      (message ⟨dialect, .resume⟩ Message.maxNesting path : Production File Message)) :
    Keeps (I.under s K) 0 t (do
      if ← atWord "syntax" then tolerate .resume syntaxStatement
      let dialect := (← built).dialect
      statements .resume (topLevelStatement ⟨dialect, .resume⟩)) := by
  have hrest : ∀ u, Keeps (I.under s K) 0 u (do
      let dialect := (← built).dialect
      statements .resume (topLevelStatement ⟨dialect, .resume⟩)) := fun _ => .built fun _ =>
    keeps_statements (fun _ => keeps_topLevelStatement h (fun _ _ => hpath _)
      fun _ => ⟨hpath _, hmessage _⟩) fun hs => ⟨hstray hs.1, hs.2⟩
  refine .atWord (.ite (fun hword => .bind (keeps_tolerate ?_) fun _ _ => hrest _) fun _ => hrest _)
  exact keeps_syntaxStatement (kind_of_isWord hword) fun _ hfile =>
    ⟨hfile.1, h.congr hfile.2 rfl rfl rfl rfl⟩

end Files

end Production

theorem Cursor.bounded_next_ofSource (source : String) : (Cursor.ofSource source).next.Bounded := by
  obtain ⟨l, ls, hlex⟩ := Cursor.exists_lex_cons source
  obtain ⟨before, last, hlast, hend⟩ := Scan.exists_lexemes_concat Position.origin source.toList
  have htokens : l.token :: ls.map Lexeme.token = before.map Lexeme.token ++ [last.token] := by
    rw [← List.map_cons, ← hlex, lex, hlast, List.map_append, List.map_singleton]
  rw [Cursor.Bounded, Cursor.tokens, Cursor.next_ofSource hlex, htokens, List.getLast?_concat]
  exact congrArg some (congrArg Word.kind hend :)

/-- What the statements of a file keep is kept by reading a text into it. -/
theorem File.Kept.readInto {inner : Message → Prop} {K : File → Prop} (h : File.Kept inner K)
    (hmessage : ∀ dialect path, Production.MessageRead inner
      (.message ⟨dialect, .resume⟩ Message.maxNesting path : Production File Message))
    {file : File} (hfile : K file) (source : String) :
    K (ProtoSchema.readInto file (Cursor.ofSource source)).file :=
  (Production.keeps_fileBody (I := .any (σ := Unit)) (s := ()) h (fun _ => trivial)
    (fun _ _ _ => trivial) hmessage 0 file (Cursor.ofSource source).next ⟨trivial, hfile⟩ rfl).2

end ProtoSchema
