import ProtoSchema.Proofs.Grammar.Building
import ProtoSchema.Proofs.Schema.CrossIndex

/-!
The indexes of a file that was read. Whatever is wrong with the texts, fields and oneofs point at
each other in every message, and the lists of public and weak imports point at imports. Each
production keeps an invariant of what is built: a message under construction comes from groups of
fields, the last of which may still be open.
-/

namespace ProtoSchema

open List FieldGroup

variable {m : Message} {entry : Option Message}

/-- The imports are distinct, and the public and the weak ones are among them. -/
structure File.ImportsIndexed (file : File) : Prop where
  distinct : file.imports.Nodup
  shared : file.publicImports.Pairwise (· < ·) ∧ ∀ i ∈ file.publicImports, i < file.imports.length
  weak : file.weakImports.Pairwise (· < ·) ∧ ∀ i ∈ file.weakImports, i < file.imports.length
  disjoint : ∀ i ∈ file.publicImports, i ∉ file.weakImports

theorem File.ImportsIndexed.addImport {file : File} (h : file.ImportsIndexed) {path : String}
    (hpath : path ∉ file.imports) (kind : File.ImportKind) :
    (file.addImport kind path).ImportsIndexed := by
  have hplaces : ∀ {P : Prop} [Decidable P] (places : List Nat),
      (places.Pairwise (· < ·) ∧ ∀ i ∈ places, i < file.imports.length) →
      (places ++ if P then [file.imports.length] else []).Pairwise (· < ·) ∧
        ∀ i ∈ places ++ if P then [file.imports.length] else [],
          i < (file.imports ++ [path]).length := by
    rintro P _ places ⟨hsorted, hrange⟩
    split
    · refine ⟨pairwise_append.mpr ⟨hsorted, by simp, ?_⟩, ?_⟩
      · simpa using hrange
      · intro i hi
        rcases mem_append.mp hi with hi | hi
        · have hlt := hrange i hi
          simp only [length_append]
          omega
        · simp [mem_singleton.mp hi]
    · rw [append_nil]
      refine ⟨hsorted, fun i hi => ?_⟩
      have hlt := hrange i hi
      simp only [length_append]
      omega
  refine ⟨?_, hplaces _ h.shared, hplaces _ h.weak, ?_⟩
  · have hnew : (file.imports ++ [path]).Nodup := by
      simpa [nodup_append, h.distinct] using fun p hp => fun heq : p = path => hpath (heq ▸ hp)
    exact hnew
  · intro i hi hi'
    simp only [File.addImport, mem_append] at hi hi'
    rcases hi with hi | hi
    · rcases hi' with hi' | hi'
      · exact h.disjoint i hi hi'
      · split at hi'
        · have hlt := h.shared.2 i hi
          rw [mem_singleton.mp hi'] at hlt
          omega
        · cases hi'
    · rcases hi' with hi' | hi'
      · split at hi
        · have hlt := h.weak.2 i hi'
          rw [mem_singleton.mp hi] at hlt
          omega
        · cases hi
      · cases kind <;> simp at hi hi'

namespace Message

/-- Every message inside the message, itself included, has its oneofs in order. -/
def IndexedWithin (m : Message) : Prop :=
  ∀ n ∈ m.within, n.CrossIndexed

def Growing (m : Message) : Prop :=
  (∃ gs, m.FromGroups gs) ∧ ∀ n ∈ m.nested, n.IndexedWithin

/-- A message under construction whose last oneof, the one with the given index, may still get
members. -/
def GrowingIn (index : Nat) (m : Message) : Prop :=
  (∃ gs name options members, m.FromGroups (gs ++ [.oneof name options members]) ∧
    (FieldGroup.placeAll gs).2.length = index) ∧ ∀ n ∈ m.nested, n.IndexedWithin

theorem indexedWithin_iff : m.IndexedWithin ↔ m.CrossIndexed ∧ ∀ n ∈ m.nested, n.IndexedWithin := by
  constructor
  · intro h
    refine ⟨h m m.mem_within_self, fun n hn k hk => h k ?_⟩
    exact mem_within_of_nested hn hk
  · rintro ⟨hm, hnested⟩ n hn
    rcases mem_within_iff.mp hn with rfl | ⟨k, hk, hn⟩
    · exact hm
    · exact hnested k hk n hn

variable {f : Field} {index : Nat} (name : String)

theorem indexedWithin_mapEntry (key value : TypeRef) : (mapEntry name key value).IndexedWithin := by
  refine indexedWithin_iff.mpr ⟨⟨⟨fun i f hf k => ?_, fun o ho => by cases ho⟩,
    [], [], rfl, fun i f hf => ?_, by simp, by simp, by simp, by simp⟩, fun n hn => by cases hn⟩
  all_goals
    have hplain : f.oneofIndex = none ∧ f.proto3Optional = false := by
      match i, hf with
      | 0, hf => cases hf; exact ⟨rfl, rfl⟩
      | 1, hf => cases hf; exact ⟨rfl, rfl⟩
    simp [mapEntry, hplain.1, hplain.2]

theorem growing_new : ({ name } : Message).Growing :=
  ⟨⟨[], rfl, by simp⟩, fun _ hn => by cases hn⟩

/-- Of a message under construction only the fields, the oneofs and the messages inside matter. -/
theorem Growing.congr {m' : Message} (h : m.Growing) (hfields : m'.fields = m.fields)
    (honeofs : m'.oneofs = m.oneofs) (hnested : m'.nested = m.nested) : m'.Growing := by
  obtain ⟨⟨gs, hgs⟩, hn⟩ := h
  refine ⟨⟨gs, ?_⟩, by rwa [hnested]⟩
  rwa [FromGroups, hfields, honeofs]

theorem Growing.addNested {n : Message} (h : m.Growing) (hn : n.IndexedWithin) :
    ({ m with nested := m.nested ++ [n] } : Message).Growing :=
  ⟨h.1, forall_mem_append.mpr ⟨h.2, forall_mem_singleton.mpr hn⟩⟩

theorem forall_nested_addField {inOneof : Bool} {oneof : Option Nat}
    (h : ∀ n ∈ m.nested, n.IndexedWithin) (hf : Production.FieldRead inOneof f entry) :
    ∀ n ∈ (m.addField oneof f entry).nested, n.IndexedWithin := by
  refine forall_mem_append.mpr ⟨h, fun n hn => ?_⟩
  obtain ⟨key, value, rfl⟩ := (hf.pairType n (by simpa using hn)).entry
  exact indexedWithin_mapEntry _ key value

theorem Growing.addField (h : m.Growing) (hf : Production.FieldRead false f entry) :
    (m.addField none f entry).Growing := by
  refine ⟨?_, forall_nested_addField h.2 hf⟩
  obtain ⟨⟨gs, hplaced, hplain⟩, _⟩ := h
  refine ⟨gs ++ [.single f], ?_, ?_⟩
  · rw [placeAll_concat, ← hplaced]
    rfl
  · exact forall_mem_append.mpr ⟨hplain, forall_mem_singleton.mpr trivial⟩

theorem Growing.openOneof (h : m.Growing) (name : String) :
    ({ m with oneofs := m.oneofs ++ [{ name }] } : Message).GrowingIn m.oneofs.length := by
  obtain ⟨⟨gs, hplaced, hplain⟩, hnested⟩ := h
  refine ⟨⟨gs, name, [], [], ⟨?_, ?_⟩, ?_⟩, hnested⟩
  · rw [placeAll_concat, ← hplaced]
    simp [FieldGroup.place]
  · refine forall_mem_append.mpr ⟨hplain, forall_mem_singleton.mpr ?_⟩
    exact fun f hf => by cases hf
  · rw [← hplaced]

theorem GrowingIn.growing (h : m.GrowingIn index) : m.Growing := by
  obtain ⟨⟨gs, name, options, members, hgs, _⟩, hnested⟩ := h
  exact ⟨⟨_, hgs⟩, hnested⟩

theorem GrowingIn.addOption (h : m.GrowingIn index) (t : Setting) :
    ({ m with oneofs := m.oneofs.modify index fun o => { o with options := o.options ++ [t] } }
      : Message).GrowingIn index := by
  obtain ⟨⟨gs, name, options, members, ⟨hplaced, hplain⟩, hindex⟩, hnested⟩ := h
  rw [placeAll_concat, FieldGroup.place, Prod.mk.injEq] at hplaced
  refine ⟨⟨gs, name, options ++ [t], members, ⟨?_, ?_⟩, hindex⟩, hnested⟩
  · rw [placeAll_concat, FieldGroup.place]
    simp only [hplaced.1, hplaced.2, ← hindex, modify_length_concat]
  · rw [forall_mem_append, forall_mem_singleton] at hplain ⊢
    exact hplain

theorem GrowingIn.addField (h : m.GrowingIn index) (hf : Production.FieldRead true f entry) :
    (m.addField (some index) f entry).GrowingIn index := by
  refine ⟨?_, forall_nested_addField h.2 hf⟩
  obtain ⟨⟨gs, name, options, members, ⟨hplaced, hplain⟩, hindex⟩, _⟩ := h
  rw [placeAll_concat, FieldGroup.place, Prod.mk.injEq] at hplaced
  refine ⟨gs, name, options, members ++ [f], ⟨?_, ?_⟩, hindex⟩
  · rw [placeAll_concat, FieldGroup.place]
    simp [Message.addField, hplaced.1, hplaced.2, ← hindex, modify_length_concat, range'_concat]
  · rw [forall_mem_append, forall_mem_singleton] at hplain ⊢
    refine ⟨hplain.1, forall_mem_append.mpr ⟨hplain.2, forall_mem_singleton.mpr ?_⟩⟩
    exact hf.unmarked rfl

/-- A complete message has its oneofs in order. -/
theorem Growing.indexedWithin (h : m.Growing) : m.withSyntheticOneofs.IndexedWithin := by
  obtain ⟨⟨gs, hgs⟩, hnested⟩ := h
  refine indexedWithin_iff.mpr ⟨(crossIndexed_withSyntheticOneofs hgs).1, ?_⟩
  rwa [nested_withSyntheticOneofs]

theorem kept_growing : Kept IndexedWithin Growing GrowingIn where
  congr h _ := h.congr
  addNested h hn := h.addNested hn
  addField h hf := h.addField hf
  openOneof h name := h.openOneof name
  addOption h t := h.addOption t
  addMember h hf := h.addField hf
  closeOneof h := h.growing

end Message

theorem Production.messageRead_indexedWithin {σ : Type} {dialect : Dialect} {path : List Int}
    {budget : Nat} :
    MessageRead Message.IndexedWithin
      (message ⟨dialect, .resume⟩ budget path : Production σ Message) :=
  messageRead_message (R := fun _ => Message.IndexedWithin) (fun _ => Message.kept_growing)
    (fun _ => Message.growing_new) fun _ _ => Message.Growing.indexedWithin

/-! ## Files -/

/-- All indexes of the file are right: in every message at any depth, and in the imports. -/
def File.Indexed (file : File) : Prop :=
  (∀ m ∈ file.allMessages, m.CrossIndexed) ∧ file.ImportsIndexed

namespace File.Indexed

variable {file file' : File}

theorem congr (h : file.Indexed) (hmessages : file'.messages = file.messages)
    (himports : file'.imports = file.imports) (hshared : file'.publicImports = file.publicImports)
    (hweak : file'.weakImports = file.weakImports) : file'.Indexed := by
  refine ⟨?_, ?_, ?_, ?_, ?_⟩
  · rw [File.allMessages, hmessages]
    exact h.1
  · rw [himports]
    exact h.2.distinct
  · rw [hshared, himports]
    exact h.2.shared
  · rw [hweak, himports]
    exact h.2.weak
  · rw [hshared, hweak]
    exact h.2.disjoint

theorem addMessage (h : file.Indexed) (hm : m.IndexedWithin) :
    ({ file with messages := file.messages ++ [m] } : File).Indexed := by
  refine ⟨fun n hn => ?_, h.2.distinct, h.2.shared, h.2.weak, h.2.disjoint⟩
  simp only [File.allMessages, flatMap_append, mem_append] at hn
  rcases hn with hn | hn
  · exact h.1 n hn
  · exact hm n (by simpa using hn)

theorem addImport (h : file.Indexed) {path : String} (hpath : path ∉ file.imports)
    (kind : File.ImportKind) : (file.addImport kind path).Indexed :=
  ⟨h.1, h.2.addImport hpath kind⟩

end File.Indexed

theorem File.indexed_new (path : String) : ({ name := path } : File).Indexed :=
  ⟨fun m hm => (by cases hm), ⟨nodup_nil, ⟨.nil, by simp⟩, ⟨.nil, by simp⟩, by simp⟩⟩

theorem File.kept_indexed : Kept Message.IndexedWithin Indexed where
  congr := .congr
  addMessage h hm := h.addMessage hm
  addImport h hpath kind := h.addImport hpath kind

/-- Reading a text into a file keeps its indexes right. -/
theorem indexed_readInto {file : File} (h : file.Indexed) (source : String) :
    (readInto file (Cursor.ofSource source)).file.Indexed :=
  File.kept_indexed.readInto (fun _ _ => Production.messageRead_indexedWithin) h source

/-- Whatever texts are read one after the other into a file, and whatever is wrong with them: in
every message at any depth fields and oneofs point at each other, the members of a oneof stand side
by side, and the fields marked optional are those in the oneofs made for one field each, behind the
declared ones and with names of their own. The imports are distinct, and the lists of the public and
of the weak ones are sorted, in range and without a common member. -/
theorem indexed_foldl_readInto (path : String) (sources : List String) :
    (sources.foldl (fun file source => (readInto file (Cursor.ofSource source)).file)
      { name := path }).Indexed := by
  induction sources using List.reverseRecOn with
  | nil => exact File.indexed_new path
  | append_singleton sources source ih =>
    rw [List.foldl_append]
    exact indexed_readInto ih source

end ProtoSchema
