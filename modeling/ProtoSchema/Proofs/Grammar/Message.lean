import ProtoSchema.Proofs.Grammar.Extension
import ProtoSchema.Proofs.Schema.Group
import ProtoSchema.Proofs.Schema.Maps

/-!
Messages, with all that can be declared inside them, read and printed. A message is read statement
by statement; the invariant is that what has been built can be printed, and keeps its fields in the
groups in which they were declared.
-/

namespace ProtoSchema

open Scan List

variable {Q : Unit → Message → Word → Prop} {m : Message} {ws ws' : List Word}
  {siblings : List Message}

/-- The words that open a statement of a message. No field without a label begins with one. -/
def Message.statementWords : List String :=
  ["message", "enum", "extensions", "reserved", "extend", "option", "oneof"]

structure Field.Member (dialect : Dialect) (f : Field) : Prop where
  written : f.Written dialect
  head : f.Headed dialect true (· ≠ .ident "option")
  extendee : f.extendee = none

inductive FieldGroup.Written (dialect : Dialect) (nested : List Message) : FieldGroup → Prop
  | plain {f : Field} :
    f.Written dialect → f.extendee = none →
    f.Headed dialect false (fun w => ∀ x ∈ Message.statementWords, w ≠ .ident x) →
    Written dialect nested (.single f)
  | map {f : Field} {entry : Message} :
    f.Written dialect → f.extendee = none → f.IsMap → entry ∈ nested → PairType f.name entry →
    Written dialect nested (.single f)
  | oneof {name : String} {options : Options} {members : List Field} :
    IsIdentifier name → options.Written → members ≠ [] → (∀ f ∈ members, f.Member dialect) →
    Written dialect nested (.oneof name options members)

theorem FieldGroup.Written.mono {dialect : Dialect} {nested nested' : List Message} {g : FieldGroup}
    (h : g.Written dialect nested) (hle : ∀ m ∈ nested, m ∈ nested') :
    g.Written dialect nested' := by
  cases h with
  | plain hf hnone hhead => exact .plain hf hnone hhead
  | map hf hnone hmap hentry hpair => exact .map hf hnone hmap (hle _ hentry) hpair
  | oneof hname hoptions hne hmembers => exact .oneof hname hoptions hne hmembers

namespace Message

/-- A message as it is declared, with its fields in groups. `inner` says which messages can be
declared in it. -/
structure Declared (dialect : Dialect) (inner : Message → Prop) (gs : List FieldGroup)
    (m : Message) : Prop where
  name : IsIdentifier m.name
  fields : m.fields = (FieldGroup.placeAll gs).1
  oneofs : m.oneofs = (FieldGroup.placeAll gs).2
  groups : ∀ g ∈ gs, g.Written dialect m.nested
  nested : ∀ n ∈ m.nested, inner n ∨ ∃ name, PairType name n
  enums : ∀ e ∈ m.enums, e.Written
  extensions : ∀ f ∈ m.extensions, f.Extending dialect
  extensionRanges : ∀ r ∈ m.extensionRanges, r.Written
  reservedRanges : ∀ r ∈ m.reservedRanges, ReservedRules.message.Written r
  options : Options.Written m.options

/-- A message that can be read, with messages nested `budget` deep, itself counted. -/
def Written (dialect : Dialect) : Nat → Message → Prop
  | 0, _ => False
  | budget + 1, m =>
    ∃ (raw : Message) (gs : List FieldGroup),
      raw.Declared dialect (Written dialect budget) gs ∧ m = raw.withSyntheticOneofs

end Message

namespace Production

variable {σ : Type} {s : σ} {w : Word} {dialect : Dialect} {path : List Int}

def OneofBuilt (dialect : Dialect) (name : String) (m m' : Message) : Prop :=
  ∃ options members, Options.Written options ∧ (∀ f ∈ members, Field.Member dialect f) ∧
    m' = m.addGroup (.oneof name options members)

theorem yields_oneofStatement {name : String} {m' : Message} (h : OneofBuilt dialect name m m') :
    Yields (oneofStatement dialect path m.oneofs.length) m' w fun _ m'' _ =>
      OneofBuilt dialect name m m'' := by
  obtain ⟨options, members, hoptions, hmembers, rfl⟩ := h
  refine .step (yields_atWord ?_)
  split
  · refine yields_optionStatement fun t w' ht => ⟨_, members, hoptions.concat ht, hmembers, ?_⟩
    rw [m.modify_oneofs_addGroup]
    rfl
  next hoption =>
  refine .step (yields_eatSymbol (fun _ w' => ?_) fun _ => ?_)
  · exact yields_pure ⟨_, _, hoptions, hmembers, rfl⟩
  refine .step (yields_built (.step (yields_field (fun f w' hf hhead hext _ => ?_) ?_)))
  · have hmember : f.Member dialect :=
      ⟨hf, hhead.mono fun _ hv hw => hoption (by simp [← hw, hv]), hext⟩
    exact yields_edit ⟨options, members ++ [f], hoptions, forall_mem_concat hmembers hmember,
      m.addField_some name options members f⟩
  · intro _ _ _ _ _ _ hin
    cases hin

theorem yields_oneof (h : ∀ g w', g.Written dialect m.nested → Q () (m.addGroup g) w') :
    Yields (oneof ⟨dialect, .resume⟩ path) m w Q := by
  refine .step (yields_here fun start => .step (yields_bump fun _ w' _ => ?_))
  refine .step (yields_identifier fun name w'' _ hname => .step (yields_symbol fun _ w₃ => ?_))
  refine .step (yields_built (.step (yields_edit ?_)))
  have hinit : OneofBuilt dialect name m { m with oneofs := m.oneofs ++ [{ name }] } :=
    ⟨[], [], Options.written_nil, forall_mem_nil _, by simp [Message.addGroup, FieldGroup.place]⟩
  have hblock : Yields (block .resume "oneof" (oneofStatement dialect path m.oneofs.length)) _ w₃
      fun _ m' _ => OneofBuilt dialect name m m' :=
    yields_block (fun m' w hm' _ => yields_oneofStatement hm') hinit
  refine hblock.bind ?_
  rintro _ _ w₄ ⟨options, members, hoptions, hmembers, rfl⟩
  refine .step (yields_built ?_)
  dsimp only
  split
  · exact .step yields_report
  next hsome =>
  have hne : members ≠ [] := by
    rintro rfl
    simp [Message.addGroup, FieldGroup.place] at hsome
  exact yields_record (h _ w₄ (.oneof hname hoptions hne hmembers))

theorem yields_messageField (hword : ∀ x ∈ Message.statementWords, w ≠ .ident x)
    (h : ∀ f (entry : Option Message) w',
      FieldGroup.Written dialect (m.nested ++ entry.toList) (.single f) →
      (∀ e ∈ entry.toList, ∃ name, PairType name e) →
      Q () { m.addGroup (.single f) with nested := m.nested ++ entry.toList } w') :
    Yields (messageField dialect path none) m w Q := by
  refine .step (yields_built (.step (yields_field ?_ ?_)))
  · intro f w' hf hhead hext _
    refine yields_edit (h f none w' (.plain hf hext (hhead.mono fun v hv => ?_)) (by simp))
    exact hv ▸ hword
  · intro f entry w' hf hmap hpair _ hext _
    refine yields_edit (h f (some entry) w' (.map hf hext hmap (by simp) hpair) ?_)
    simpa using ⟨f.name, hpair⟩

end Production

namespace Message.Declared

variable {dialect : Dialect} {inner : Message → Prop} {gs : List FieldGroup}

theorem addGroup {g : FieldGroup} {entries : List Message} (h : m.Declared dialect inner gs)
    (hg : g.Written dialect (m.nested ++ entries))
    (hentries : ∀ e ∈ entries, ∃ name, PairType name e) :
    Declared dialect inner (gs ++ [g]) { m.addGroup g with nested := m.nested ++ entries } := by
  refine { h with fields := ?_, oneofs := ?_, groups := ?_, nested := ?_ }
  · rw [FieldGroup.placeAll_concat]
    simp only [Message.addGroup, h.fields, h.oneofs]
  · rw [FieldGroup.placeAll_concat]
    simp only [Message.addGroup, h.fields, h.oneofs]
  · refine forall_mem_concat (fun g' hg' => ?_) hg
    exact (h.groups g' hg').mono fun n hn => mem_append_left _ hn
  · exact forall_mem_append.mpr ⟨h.nested, fun e he => .inr (hentries e he)⟩

theorem addNested {n : Message} (h : m.Declared dialect inner gs) (hn : inner n) :
    Declared dialect inner gs { m with nested := m.nested ++ [n] } := by
  refine { h with groups := fun g hg => ?_, nested := ?_ }
  · exact (h.groups g hg).mono fun n hn => mem_append_left _ hn
  · exact forall_mem_concat h.nested (.inl hn)

end Message.Declared

namespace Production

open Message

variable {σ : Type} {s : σ} {w : Word} {dialect : Dialect} {inner : Message → Prop}
  {gs : List FieldGroup} {path : List Int}

theorem yields_messageStatement {nested : List Int → Production Message Message}
    (hnested : ∀ path (m : Message) w {Q : Message → Message → Word → Prop},
      (∀ n w', inner n → Q n m w') → Yields (nested path) m w Q)
    (h : m.Declared dialect inner gs) :
    Yields (messageStatement ⟨dialect, .resume⟩ path nested) m w fun _ m' _ =>
      ∃ gs', m'.Declared dialect inner gs' := by
  refine .step (yields_eatSymbol (fun _ w' => yields_pure ⟨gs, h⟩) fun _ => ?_)
  refine .step (yields_peek fun t ht => ?_)
  subst ht
  split
  · refine .step (yields_built (.step (hnested _ _ _ fun n w' hn => yields_edit ?_)))
    exact ⟨gs, h.addNested hn⟩
  next hmessage =>
  split
  · refine .step (yields_built (.step (yields_enum fun e w' he => yields_edit ⟨gs, ?_⟩)))
    exact { h with enums := forall_mem_concat h.enums he }
  next henum =>
  split
  · exact yields_extensionsStatement h.extensionRanges fun ranges w' hranges =>
      ⟨gs, { h with extensionRanges := hranges }⟩
  next hextensions =>
  split
  · refine yields_reservedStatement (I := fun m : Message => ∃ gs, m.Declared dialect inner gs)
      (by decide) ?_ ?_ ⟨gs, h⟩
    · rintro r m hr ⟨gs, h⟩
      exact ⟨gs, { h with reservedRanges := forall_mem_concat h.reservedRanges hr }⟩
    · rintro name m ⟨gs, h⟩
      exact ⟨gs, { h with }⟩
  next hreserved =>
  split
  · refine .step (yields_built (.step (yields_extend h.extensions fun fields w' hfields => ?_)))
    exact yields_edit ⟨gs, { h with extensions := hfields }⟩
  next hextend =>
  split
  · exact yields_optionStatement fun t w' ht => ⟨gs, { h with options := h.options.concat ht }⟩
  next hoption =>
  split
  · refine yields_oneof fun g w' hg => ⟨gs ++ [g], ?_⟩
    rw [← append_nil m.nested] at hg
    have hadded := h.addGroup hg (forall_mem_nil _)
    rwa [append_nil] at hadded
  next honeof =>
  have hword : ∀ x ∈ Message.statementWords, t.word ≠ .ident x := by
    simp only [Message.statementWords, forall_mem_cons, ne_eq, ← Token.isWord_iff]
    exact ⟨hmessage, henum, hextensions, hreserved, hextend, hoption, honeof, forall_mem_nil _⟩
  exact yields_messageField hword fun f entry w' hg hentry =>
    ⟨gs ++ [.single f], h.addGroup hg hentry⟩

theorem yields_message {budget : Nat} {Q : Message → σ → Word → Prop}
    (h : ∀ m w', m.Written dialect budget → Q m s w') :
    Yields (message ⟨dialect, .resume⟩ budget path) s w Q := by
  induction budget generalizing σ w path with
  | zero => exact .step (yields_here fun _ => .step yields_report)
  | succ budget ih =>
    refine yields_declaration
      (I := fun m => ∃ gs, m.Declared dialect (Message.Written dialect budget) gs)
      (fun name hname => ⟨[], ?_⟩) ?_ fun m w' ⟨gs, hm⟩ => h _ w' ⟨m, gs, hm, rfl⟩
    · exact ⟨hname, rfl, rfl, forall_mem_nil _, forall_mem_nil _, forall_mem_nil _,
        forall_mem_nil _, forall_mem_nil _, forall_mem_nil _, Options.written_nil⟩
    · exact fun m w ⟨gs, hm⟩ => yields_messageStatement (fun _ _ _ _ h => ih h) hm

/-! ## Reading statements -/

section Dispatch

variable {nested : List Int → Production Message Message}

theorem dispatches_message_reserved :
    Dispatches (messageStatement ⟨dialect, .resume⟩ path nested)
      (reservedStatement .message (fun r m => { m with reservedRanges := m.reservedRanges ++ [r] })
        fun n m => { m with reservedNames := m.reservedNames ++ [n] }) "reserved" := by
  intro m m' ws ws' hfront hreads
  refine .word hfront fun t ht => ?_
  simp only [ht]
  exact hreads

theorem dispatches_message_option :
    Dispatches (messageStatement ⟨dialect, .resume⟩ path nested)
      (optionStatement fun s m => { m with options := m.options ++ [s] }) "option" := by
  intro m m' ws ws' hfront hreads
  refine .word hfront fun t ht => ?_
  simp only [ht]
  exact hreads

theorem dispatches_message_extensions :
    Dispatches (messageStatement ⟨dialect, .resume⟩ path nested) extensionsStatement
      "extensions" := by
  intro m m' ws ws' hfront hreads
  refine .word hfront fun t ht => ?_
  simp only [ht]
  exact hreads

theorem dispatches_message_oneof :
    Dispatches (messageStatement ⟨dialect, .resume⟩ path nested) (oneof ⟨dialect, .resume⟩ path)
      "oneof" := by
  intro m m' ws ws' hfront hreads
  refine .word hfront fun t ht => ?_
  simp only [ht]
  exact hreads

/-- A statement that begins with none of the words that open one is a field. -/
theorem reads_messageStatement_of_field {m' : Message} (hsymbol : Word.front ws ≠ .symbol ";")
    (hword : ∀ x ∈ Message.statementWords, Word.front ws ≠ .ident x)
    (h : Reads (messageField dialect path none) m ws () m' ws') :
    Reads (messageStatement ⟨dialect, .resume⟩ path nested) m ws () m' ws' := by
  refine (reads_eatSymbol_of_ne hsymbol).bind (.peek fun t ht => ?_)
  have hno : ∀ x ∈ Message.statementWords, ¬ t.isWord x = true := by
    intro x hx
    rw [Token.isWord_iff, ht]
    exact hword x hx
  simp only [Message.statementWords, forall_mem_cons] at hno
  obtain ⟨hmessage, henum, hextensions, hreserved, hextend, hoption, honeof, _⟩ := hno
  rw [if_neg hmessage, if_neg henum, if_neg hextensions, if_neg hreserved, if_neg hextend,
    if_neg hoption, if_neg honeof]
  exact h

theorem reads_messageField {f : Field} {entry : Option Message} (hext : f.extendee = none)
    (h : Reads (field dialect (Location.child path Location.messageField m.fields.length) false) m
      ws ({ f with extendee := none, oneofIndex := none }, entry) m ws') :
    Reads (messageField dialect path none) m ws ()
      { m.addGroup (.single f) with nested := m.nested ++ entry.toList } ws' := by
  have hsame : m.addField none { f with extendee := none, oneofIndex := none } entry =
      { m.addGroup (.single f) with nested := m.nested ++ entry.toList } := by
    rw [← hext]
    rfl
  rw [← hsame]
  exact .built (h.bind (reads_edit _))

abbrev RunsInMessage (dialect : Dialect) (path : List Int)
    (nested : List Int → Production Message Message) :=
  Runs (messageStatement ⟨dialect, .resume⟩ path nested)

theorem runs_plainField {f : Field} (hf : f.Written dialect) (hext : f.extendee = none)
    (hhead : f.Headed dialect false fun w => ∀ x ∈ Message.statementWords, w ≠ .ident x)
    (hs : Options.Signed f.options) (hentry : f.entryIn? siblings = none) (m : Message) :
    RunsInMessage dialect path nested m [f.line siblings dialect false]
      { m.addGroup (.single f) with nested := m.nested ++ [] } := by
  obtain ⟨w, ws, hlex, hw, hreads⟩ := hhead.exists_reads hf hs hentry
    (Location.child path Location.messageField m.fields.length) m
  have hword : ∀ x ∈ Message.statementWords, w ≠ .ident x := by
    rcases hw with ⟨l, rfl⟩ | ⟨_, hword⟩
    · cases l <;> simp [Message.statementWords, Label.keyword]
    · exact hword
  refine .single hlex (Field.ne_symbol_of_first hw (by decide)) fun rest => ?_
  refine reads_messageStatement_of_field ?_ hword (reads_messageField hext (hreads rest))
  exact Field.ne_symbol_of_first hw (by decide)

theorem runs_mapField {f : Field} {entry : Message} (hf : f.Written dialect)
    (hext : f.extendee = none) (hmap : f.IsMap) (hs : Options.Signed f.options)
    (hentry : f.entryIn? siblings = some entry) (hpair : PairType f.name entry) (m : Message) :
    RunsInMessage dialect path nested m [f.line siblings dialect false]
      { m.addGroup (.single f) with nested := m.nested ++ [entry] } := by
  obtain ⟨ws, hlex, hreads⟩ := hmap.exists_reads hf hs hentry hpair
    (Location.child path Location.messageField m.fields.length) m
  refine .single hlex (by simp) fun rest => reads_messageStatement_of_field (by simp) ?_
    (reads_messageField hext (hreads rest))
  simp [Message.statementWords]

theorem dispatches_oneof_option (index : Nat) :
    Dispatches (oneofStatement dialect path index) (optionStatement fun s m =>
      { m with oneofs := m.oneofs.modify index fun o => { o with options := o.options ++ [s] } })
      "option" := by
  intro m m' ws ws' hfront hreads
  refine (reads_atWord "option").bind ?_
  rw [if_pos (by simp [hfront])]
  exact hreads

theorem runs_oneofMember {f : Field} (hf : f.Member dialect) (hs : Options.Signed f.options)
    (hentry : f.entryIn? siblings = none) (m : Message) (name : String) (options : Options)
    (done : List Field) :
    Runs (oneofStatement dialect path m.oneofs.length) (m.addGroup (.oneof name options done))
      [f.line siblings dialect true] (m.addGroup (.oneof name options (done ++ [f]))) := by
  let before := m.addGroup (.oneof name options done)
  obtain ⟨w, ws, hlex, hw, hreads⟩ := hf.head.exists_reads hf.written hs hentry
    (Location.child path Location.messageField before.fields.length) before
  have hoption : w ≠ .ident "option" := by
    rcases hw with ⟨l, rfl⟩ | ⟨_, hoption⟩
    · cases l <;> simp [Label.keyword]
    · exact hoption
  have hsame : (m.addGroup (.oneof name options done)).addField (some m.oneofs.length)
      { f with extendee := none, oneofIndex := none } none =
      m.addGroup (.oneof name options (done ++ [f])) := by
    rw [m.addField_some, ← hf.extendee]
    simp [Message.addGroup, FieldGroup.place]
  refine .single hlex (Field.ne_symbol_of_first hw (by decide)) fun rest => ?_
  have hfront : Word.front (w :: ws ++ rest) ≠ .symbol ";" :=
    Field.ne_symbol_of_first hw (by decide)
  refine (reads_atWord "option").bind ?_
  rw [if_neg (by simp [hoption])]
  refine (reads_eatSymbol_of_ne hfront).bind (.built ((hreads rest).bind ?_))
  rw [← hsame]
  exact reads_edit _

theorem runs_oneof {name : String} {options : Options} {members : List Field}
    (hname : IsIdentifier name) (hoptions : options.Written) (hs : options.Signed)
    (hne : members ≠ []) (hmembers : ∀ f ∈ members, f.Member dialect ∧ Options.Signed f.options ∧
      f.entryIn? siblings = none) (m : Message) :
    RunsInMessage dialect path nested m
      (FieldGroup.lines siblings dialect (.oneof name options members))
      (m.addGroup (.oneof name options members)) := by
  have hopts : Runs (oneofStatement dialect path m.oneofs.length) (m.addGroup (.oneof name [] []))
      (Options.lines options) (m.addGroup (.oneof name options [])) := by
    refine runs_options hoptions hs (dispatches_oneof_option m.oneofs.length)
      (fun done => m.addGroup (.oneof name done [])) (fun done t => ?_) []
    rw [m.modify_oneofs_addGroup]
    rfl
  have hfields : Runs (oneofStatement dialect path m.oneofs.length)
      (m.addGroup (.oneof name options [])) (members.map fun f => f.line siblings dialect true)
      (m.addGroup (.oneof name options members)) := by
    refine Runs.map (fun done => m.addGroup (.oneof name options done)) (fun done f hf => ?_) []
    obtain ⟨hmember, hsigned, hentry⟩ := hmembers f hf
    exact runs_oneofMember hmember hsigned hentry m name options done
  obtain ⟨ws, hlex, hsteps⟩ := hopts.append hfields
  have hlines : LinesLex (FieldGroup.lines siblings dialect (.oneof name options members))
      (.ident "oneof" :: (.ident name :: .symbol "\x7b" :: (ws ++ [.symbol "\x7d"]))) :=
    .block (lexes_opening (by decide) hname) hlex lexes_closing
  refine .single hlines (by simp) fun rest => dispatches_message_oneof rfl ?_
  simp only [cons_append, append_assoc, nil_append]
  refine .here fun start => .bump fun _ _ => (reads_identifier name _).bind ?_
  refine (reads_symbol "\x7b").bind (.built ((reads_edit _).bind ?_))
  have hempty : { m with oneofs := m.oneofs ++ [{ name }] } = m.addGroup (.oneof name [] []) := by
    simp [Message.addGroup, FieldGroup.place]
  rw [hempty]
  refine (hsteps.reads_block _ rest).bind (.built ?_)
  dsimp only
  rw [if_neg ?_]
  · exact reads_record _ _
  · simpa [Message.addGroup, FieldGroup.place] using hne

theorem runs_messageEnum {e : Enum} (he : e.Written) (hs : Options.Signed e.settings)
    (m : Message) :
    RunsInMessage dialect path nested m e.lines
      { m with enums := m.enums ++ [e] } := by
  obtain ⟨ws, hlex, hreads⟩ := he.exists_reads hs
    (Location.child path Location.messageEnum m.enums.length) m
  refine .single hlex (by simp) fun rest => .word rfl fun t ht => ?_
  simp only [ht]
  exact .built ((hreads rest).bind (reads_edit _))

theorem runs_messageNested {n : Message}
    (hlex : LinesLex (n.lines dialect) (.ident "message" :: ws))
    (hreads : ∀ rest, Reads (nested (Location.child path Location.messageNested m.nested.length)) m
      (.ident "message" :: ws ++ rest) n m rest) :
    RunsInMessage dialect path nested m (n.lines dialect)
      { m with nested := m.nested ++ [n] } := by
  refine .single hlex (by simp) fun rest => .word rfl fun t ht => ?_
  simp only [ht]
  exact .built ((hreads rest).bind (reads_edit _))

theorem reads_messageExtend {extensions : List Field} (hfront : Word.front ws = .ident "extend")
    (h : Reads (extend ⟨dialect, .resume⟩ (path ++ [Location.messageExtension]) m.extensions) m ws
      extensions m ws') :
    Reads (messageStatement ⟨dialect, .resume⟩ path nested) m ws () { m with extensions } ws' := by
  refine .word hfront fun t ht => ?_
  simp only [ht]
  exact .built (h.bind (reads_edit _))

end Dispatch

end Production

/-! ## Reading groups of fields -/

namespace FieldGroup

def pairType? (nested : List Message) : FieldGroup → Option Message
  | single f => f.entryIn? nested
  | oneof _ _ _ => none

/-- Fields that are printed as they were declared, next to the given nested messages. -/
inductive Printable (dialect : Dialect) (nested : List Message) : FieldGroup → Prop
  | plain {f : Field} :
    f.Written dialect → f.extendee = none →
    f.Headed dialect false (fun w => ∀ x ∈ Message.statementWords, w ≠ .ident x) →
    Options.Signed f.options → f.entryIn? nested = none → Printable dialect nested (.single f)
  | map {f : Field} {entry : Message} :
    f.Written dialect → f.extendee = none → f.IsMap → Options.Signed f.options →
    f.entryIn? nested = some entry → PairType f.name entry → Printable dialect nested (.single f)
  | oneof {name : String} {options : Options} {members : List Field} :
    IsIdentifier name → options.Written → options.Signed → members ≠ [] →
    (∀ f ∈ members, f.Member dialect ∧ Options.Signed f.options ∧ f.entryIn? nested = none) →
    Printable dialect nested (.oneof name options members)

variable {dialect : Dialect} {nested : List Message} {g : FieldGroup}

theorem Printable.proper (h : g.Printable dialect nested) : g.Proper := by
  cases h with
  | plain => trivial
  | map => trivial
  | oneof _ _ _ hne hmembers =>
    refine ⟨hne, fun f hf => ?_⟩
    obtain ⟨label, hlabel⟩ := (hmembers f hf).1.head.label
    simpa using hlabel.marked

theorem Printable.runs (h : g.Printable dialect nested) {path : List Int}
    {inner : List Int → Production Message Message} (m : Message) :
    Production.RunsInMessage dialect path inner m
      (g.lines nested dialect)
      { m.addGroup g with nested := m.nested ++ (g.pairType? nested).toList } := by
  cases h with
  | plain hf hext hhead hs hentry =>
    simp only [pairType?, hentry]
    exact Production.runs_plainField hf hext hhead hs hentry m
  | map hf hext hmap hs hentry hpair =>
    simp only [pairType?, hentry]
    exact Production.runs_mapField hf hext hmap hs hentry hpair m
  | oneof hname hoptions hs hne hmembers =>
    simp only [pairType?, Option.toList, append_nil]
    exact Production.runs_oneof hname hoptions hs hne hmembers m

end FieldGroup

end ProtoSchema
