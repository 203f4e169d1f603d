import ProtoSchema.Proofs.Indexes
import ProtoSchema.Proofs.Schema.Outline

/-!
What is recorded while a file is read. `ReadBy` says which production reads a declaration, and
`Noting` that what has been recorded since a declaration began is a table of all that has been read
into it. Each statement keeps `Noting`, and so does what is skipped.
-/

namespace ProtoSchema

open Production List Token Location

/-- The declaration is what its production reads from `c` on, up to `d`. -/
inductive ReadBy (dialect : Dialect) : Item → Option Message → Cursor → Cursor → Prop
  | message {σ : Type} {s s' : σ} {budget : Nat} {path : List Int} {m : Message} {c d : Cursor}
      (h : (message ⟨dialect, .resume⟩ budget path).run s c = (some m, s', d)) :
      ReadBy dialect (.message m) none c d
  | enum {σ : Type} {s s' : σ} {path : List Int} {e : Enum} {c d : Cursor}
      (h : (enum .resume path).run s c = (some e, s', d)) : ReadBy dialect (.enum e) none c d
  | service {σ : Type} {s s' : σ} {path : List Int} {v : Service} {c d : Cursor}
      (h : (service .resume path).run s c = (some v, s', d)) : ReadBy dialect (.service v) none c d
  | method {σ : Type} {s s' : σ} {path : List Int} {m : Method} {c d : Cursor}
      (h : (method .resume path).run s c = (some m, s', d)) : ReadBy dialect (.method m) none c d
  | value {e : Enum} {path : List Int} {v : EnumValue} {c d : Cursor}
      (h : (enumValue path).run e c = (some (), { e with values := e.values ++ [v] }, d)) :
      ReadBy dialect (.value v) none c d
  | field {σ : Type} {s s' : σ} {path : List Int} {inOneof : Bool} {f : Field}
      {pair : Option Message} {c d : Cursor}
      (h : (field dialect path inOneof).run s c = (some (f, pair), s', d)) :
      ReadBy dialect (.field f.unplaced) pair c d
  | extension {σ : Type} {s s' : σ} {path : List Int} {f : Field} {pair : Option Message}
      {extendee : String} {c d : Cursor}
      (h : (field dialect path false).run s c = (some (f, pair), s', d)) :
      ReadBy dialect (.extension { f with extendee := some extendee }) none c d
  | oneof {m m' : Message} {path : List Int} {o : Oneof} {c d : Cursor}
      (h : (oneof ⟨dialect, .resume⟩ path).run m c = (some (), m', d))
      (ho : m'.oneofs[m.oneofs.length]? = some o) : ReadBy dialect (.oneof o false) none c d

/-- The declaration is read from the tokens from `first` up to `past`, and the span goes from the
first character of the first of them to just past the last character of the last one. -/
def ReadAt (tokens : List Token) (dialect : Dialect) : Readings := fun z pair span first past =>
  first < past ∧ tokens[first]?.map Token.position = some span.start ∧
    tokens[past - 1]?.map Token.finish = some span.finish ∧
    ∃ c d, c.tokens = tokens.drop first ∧ d.tokens = tokens.drop past ∧ ReadBy dialect z pair c d

namespace Cursor

variable {c d : Cursor} {tokens : List Token}

/-- The number of the current token among all tokens. -/
def place (tokens : List Token) (c : Cursor) : Nat :=
  tokens.length - c.tokens.length

theorem tokens_eq_drop (h : c.tokens <:+ tokens) : c.tokens = tokens.drop (c.place tokens) :=
  suffix_iff_eq_drop.mp h

theorem getElem?_place (h : c.tokens <:+ tokens) : tokens[c.place tokens]? = some c.current := by
  have hhead := congrArg List.head? (tokens_eq_drop h)
  rw [head?_drop] at hhead
  exact hhead.symm

theorem Takes.place_le (h : c.Takes d) : c.place tokens ≤ d.place tokens := by
  have hle := h.length_le
  unfold place
  omega

/-- A cursor stands behind a token that was consumed last. -/
theorem Takes.getElem?_pred (h : c.Takes d) (hc : c.tokens <:+ tokens)
    (hlt : d.tokens.length < c.tokens.length) :
    c.place tokens < d.place tokens ∧
      tokens[d.place tokens - 1]?.map Token.finish = some d.lastEnd := by
  have hdrop := tokens_eq_drop hc
  have hle := hc.length_le
  obtain ⟨read, htokens, hend⟩ := h
  have hlength := congrArg List.length htokens
  rw [length_append] at hlength
  have hplace : d.place tokens = c.place tokens + read.length := by
    unfold place
    omega
  refine ⟨by omega, ?_⟩
  have hlast : tokens[c.place tokens + (read.length - 1)]? = read.getLast? := by
    rw [← getElem?_drop, ← hdrop, htokens, getElem?_append_left (by omega), getLast?_eq_getElem?]
  have hne : read ≠ [] := length_pos_iff.mp (by omega)
  obtain ⟨t, ht⟩ := Option.ne_none_iff_exists'.mp (mt getLast?_eq_none_iff.mp hne)
  rw [hplace, Nat.add_sub_assoc (by omega), hlast, hend, ht]
  rfl

end Cursor

/-- Optional fields get their oneofs when the message is complete. -/
theorem Message.Growing.unfurnished {m : Message} (h : m.Growing) : m.Unfurnished := by
  obtain ⟨⟨gs, hgs⟩, _⟩ := h
  exact hgs.unfurnished

namespace Production

variable {σ α : Type}

theorem Ends.run {p : Production σ α} {s : σ} {c : Cursor} {Q : α → σ → Cursor → Prop}
    {E : σ → Cursor → Prop} (h : Ends p s c Q E) :
    Ends p s c (fun a s' d => Q a s' d ∧ p.run s c = (some a, s', d)) E := by
  unfold Ends at h ⊢
  generalize p.run s c = outcome at h
  obtain ⟨_ | a, s', d⟩ := outcome
  · exact h
  · exact ⟨h, rfl⟩

section Tables

variable (tokens : List Token) (dialect : Dialect)

/-- Between `c` and `d` a declaration has been read, and what has been recorded is the table of what
is in it and then its own location. -/
structure Declares (path : List Int) (z : Item) (c d : Cursor) : Prop where
  takes : c.Takes d
  lt : d.tokens.length < c.tokens.length
  table : ∃ es, Noted (ReadAt tokens dialect) z (c.place tokens) (d.place tokens) es ∧
    d.locations = c.locations ++ (es.map (Entry.location path) ++
      [⟨path, c.current.position, d.lastEnd⟩])

/-- What has been recorded since `c₀` is a table of what is in the item that is being built. -/
structure Noting (base : List Int) (item : σ → Item) (c₀ : Cursor) (s : σ) (c : Cursor) : Prop where
  takes : c₀.Takes c
  inside : c₀.tokens <:+ tokens
  table : ∃ es, Noted (ReadAt tokens dialect) (item s) (c₀.place tokens) (c.place tokens) es ∧
    c.locations = c₀.locations ++ es.map (Entry.location base)

end Tables

section Noting

variable {tokens : List Token} {dialect : Dialect} {base path : List Int} {item : σ → Item}
  {c₀ c d : Cursor} {s s' : σ} {z : Item} {pair : Option Message}

variable (tokens dialect base item c₀) in
theorem stable_noting : Stable (Noting tokens dialect base item c₀) := by
  rintro s c d ⟨htakes, hinside, es, hnoted, hlocations⟩ hd hsame
  exact ⟨htakes.trans hd, hinside, es, hnoted.mono (Nat.le_refl _) hd.place_le,
    hsame.trans hlocations⟩

theorem noting_start (htakes : c₀.Takes c) (hlocations : c.locations = c₀.locations)
    (hc₀ : c₀.tokens <:+ tokens) (hempty : ∀ tag, (item s).children tag = []) :
    Noting tokens dialect base item c₀ s c :=
  ⟨htakes, hc₀, [], .nil hempty, by simpa using hlocations⟩

theorem Noting.congr {τ : Type} {item' : τ → Item} {t : τ}
    (h : Noting tokens dialect base item c₀ s c)
    (hsame : ∀ tag, (item' t).children tag = (item s).children tag) :
    Noting tokens dialect base item' c₀ t c := by
  obtain ⟨htakes, hinside, es, hnoted, hlocations⟩ := h
  exact ⟨htakes, hinside, es, hnoted.congr hsame, hlocations⟩

theorem Recorded.declares (h : Recorded path c d) (hempty : ∀ tag, z.children tag = []) :
    Declares tokens dialect path z c d :=
  ⟨h.takes, h.lt, [], .nil hempty, by simpa using h.locations⟩

private theorem location_behind (base : List Int) (tag : Int) (n : Nat) (a : Entry) :
    (a.behind (tag, n)).location base = a.location (child base tag n) := by
  simp [Entry.location, Entry.behind, Edge.encode, child]

theorem readAt_of_takes (htakes : c.Takes d) (hlt : d.tokens.length < c.tokens.length)
    (hreads : ReadBy dialect z pair c d) (hc : c.tokens <:+ tokens) :
    ReadAt tokens dialect z pair ⟨c.current.position, d.lastEnd⟩ (c.place tokens)
      (d.place tokens) := by
  obtain ⟨hplace, hfinish⟩ := htakes.getElem?_pred hc hlt
  exact ⟨hplace, by rw [Cursor.getElem?_place hc]; rfl, hfinish, c, d, Cursor.tokens_eq_drop hc,
    Cursor.tokens_eq_drop (htakes.suffix.trans hc), hreads⟩

variable (h : Noting tokens dialect base item c₀ s c)
include h

/-- A declaration that began at `b` is complete at `d`. Since `c` its own parts have been noted and
then the declaration, as the one with the index `n` under its tag. -/
theorem Noting.complete {τ : Type} {item' : τ → Item} {u : τ} {b : Cursor} {tag : Int} {n : Nat}
    {es' : List Entry} (hb : c₀.Takes b) (hbc : b.Takes c) (hcd : c.Takes d)
    (hlt : d.tokens.length < b.tokens.length)
    (hz : Noted (ReadAt tokens dialect) z (b.place tokens) (d.place tokens) es')
    (hlocations' : d.locations = c.locations ++ (es'.map (Entry.location
      (child base tag n)) ++ [⟨child base tag n, b.current.position, d.lastEnd⟩]))
    (hreads : ReadBy dialect z none b d) (hdeclared : z.IsDeclared)
    (hn : ((item s).children tag).length = n)
    (hthere : (item' u).children tag = (item s).children tag ++ [z])
    (hother : ∀ t, t ≠ tag → (item' u).children t = (item s).children t) :
    Noting tokens dialect base item' c₀ u d := by
  subst hn
  have hadds := Item.adds_of hthere hother
  obtain ⟨htakes, hinside, es, hnoted, hlocations⟩ := h
  have hwide : Noted (ReadAt tokens dialect) (item s) (c₀.place tokens) (d.place tokens) es :=
    hnoted.mono (Nat.le_refl _) hcd.place_le
  let own : Entry := ⟨[(tag, ((item s).children tag).length)], ⟨b.current.position, d.lastEnd⟩,
    b.place tokens, d.place tokens, none⟩
  refine ⟨htakes.trans hcd, hinside, _,
    hwide.add (a := own) hadds hz hb.place_le (Nat.le_refl _) rfl rfl hdeclared
      (readAt_of_takes (hbc.trans hcd) hlt hreads (hb.suffix.trans hinside)), ?_⟩
  have hpaths : (es'.map (Entry.behind (tag, ((item s).children tag).length))).map
      (Entry.location base) =
      es'.map (Entry.location (child base tag ((item s).children tag).length)) := by
    rw [map_map]
    exact map_congr_left fun a _ => location_behind base tag _ a
  rw [hlocations', hlocations, append_assoc, map_append, map_append, hpaths]
  simp [own, Entry.location, Edge.encode, child]

theorem Noting.add {tag : Int} {n : Nat}
    (hz : Declares tokens dialect (child base tag n) z c d)
    (hreads : ReadBy dialect z none c d) (hdeclared : z.IsDeclared)
    (hn : ((item s).children tag).length = n)
    (hthere : (item s').children tag = (item s).children tag ++ [z])
    (hother : ∀ t, t ≠ tag → (item s').children t = (item s).children t) :
    Noting tokens dialect base item c₀ s' d := by
  obtain ⟨es', hnoted', hlocations'⟩ := hz.table
  exact h.complete h.takes (.refl c) hz.takes hz.lt hnoted' hlocations' hreads hdeclared hn hthere
    hother

/-- A map field has been read into the item, and its pair type made. -/
theorem Noting.addMap {f : Field} {n : Message} {k : Nat}
    (hrecorded : Recorded (child base Location.messageField k) c d)
    (hreads : ReadBy dialect (.field f) (some n) c d)
    (hk : ((item s).children Location.messageField).length = k)
    (hadds : (item s).Adds (item s') fun t => if t = Location.messageField then [.field f]
      else if t = messageNested then [.message n] else []) :
    Noting tokens dialect base item c₀ s' d := by
  subst hk
  obtain ⟨htakes, hinside, es, hnoted, hlocations⟩ := h
  have hwide : Noted (ReadAt tokens dialect) (item s) (c₀.place tokens) (d.place tokens) es :=
    hnoted.mono (Nat.le_refl _) hrecorded.takes.place_le
  let own : Entry := ⟨[(Location.messageField, ((item s).children Location.messageField).length)],
    ⟨c.current.position, d.lastEnd⟩, c.place tokens, d.place tokens,
    some [(messageNested, ((item s).children messageNested).length)]⟩
  refine ⟨htakes.trans hrecorded.takes, hinside, _,
    hwide.addMap (a := own) hadds htakes.place_le (Nat.le_refl _) rfl rfl
      (readAt_of_takes hrecorded.takes hrecorded.lt hreads (htakes.suffix.trans hinside)), ?_⟩
  rw [hrecorded.locations, hlocations, append_assoc, map_append]
  simp [own, Entry.location, Edge.encode, child]

end Noting

/-! ## Enums and services -/

section Blocks

variable {tokens : List Token} {dialect : Dialect} {base path : List Int} {b c₀ c : Cursor} {s : σ}
  {t : Token}

theorem noting_enumStatement :
    Keeps ((stable_noting tokens dialect base Item.enum c₀).since b) 0 t (enumStatement base) := by
  have hI := stable_noting tokens dialect base Item.enum c₀
  refine keeps_eatSymbol.bind fun _ u => .ite (fun _ => keeps_pure _) fun _ => .atWord ?_
  refine .ite (fun h => ?_) fun _ => .atWord (.ite (fun h => ?_) fun _ => ?_)
  · exact keeps_optionStatement (kind_of_isWord h) fun _ _ _ _ he =>
      ⟨he.1.congr fun _ => rfl, he.2⟩
  · exact keeps_reservedStatement (kind_of_isWord h)
      (fun _ _ _ _ he => ⟨he.1.congr fun _ => rfl, he.2⟩)
      fun _ _ _ _ he => ⟨he.1.congr fun _ => rfl, he.2⟩
  · refine .of_ends fun e c he hc _ => .mono (ends_enumValue hc).run ?_ fun _ _ hd => hI.still he hd
    rintro _ _ d ⟨⟨v, rfl, hrecorded⟩, hrun⟩
    refine ⟨he.add (hrecorded.declares fun _ => rfl) (.value hrun) trivial
      (length_map _) map_append fun tag htag => ?_, hrecorded.takes⟩
    simp only [Item.children, if_neg htag]

theorem noting_serviceStatement :
    Keeps ((stable_noting tokens dialect base Item.service c₀).since b) 0 t
      (serviceStatement .resume base) := by
  have hI := stable_noting tokens dialect base Item.service c₀
  refine keeps_eatSymbol.bind fun _ u => .ite (fun _ => keeps_pure _) fun _ => .atWord ?_
  refine .ite (fun h => ?_) fun _ => .atWord (.ite (fun h => ?_) fun _ => keeps_expected)
  · exact keeps_optionStatement (kind_of_isWord h) fun _ _ _ _ hv =>
      ⟨hv.1.congr fun _ => rfl, hv.2⟩
  · refine .of_ends fun v c hv hc ht => .built (.bind (.mono (ends_method hc ?_).run ?_ ?_))
    · exact ht ▸ kind_of_isWord h
    · rintro m _ d ⟨⟨rfl, hrecorded⟩, hrun⟩
      refine .edit ⟨hv.add (hrecorded.declares fun _ => rfl) (.method hrun) trivial
        (length_map _) map_append fun tag htag => ?_, hrecorded.takes⟩
      simp only [Item.children, if_neg htag]
    · exact fun _ _ hd => hI.still hv hd

section Declaration

variable (hc : c.Bounded) (ht : c.current.kind = .identifier) (hinside : c.tokens <:+ tokens)
include hc ht hinside

/-- A declaration with a name and a block. What is read into the declaration is noted, and then the
declaration itself. -/
theorem ends_declaration {J : τ → Cursor → Prop} {item : τ → Item} {what construct : String}
    {statement : Production τ Unit} [Moves statement] {init : String → τ} (finish : τ → τ)
    {hJ : Stable J} (hstatement : ∀ b u, Keeps (hJ.since b) 0 u statement)
    (hempty : ∀ name tag, (item (init name)).children tag = [])
    (hinit : ∀ name d, Noting tokens dialect path item c (init name) d → J (init name) d)
    (hfinish : ∀ x e, J x e → Noting tokens dialect path item c (finish x) e) :
    Ends (do
      let start ← here
      let _ ← bump
      let name ← identifier what
      symbol "\x7b"
      let x ← build (init name) (block .resume construct statement)
      record path start
      return finish x) s c
      (fun x s' d => s' = s ∧ Declares tokens dialect path (item x) c d) (Still s c) := by
  refine .look (.step (keeps_bump ht) (still_refl s c) hc fun _ _ hd => ?_)
  refine .name hd hc fun name _ hd => .next (stable_named s c).keeps_symbol hd hc fun _ d hd => ?_
  have hstart := hinit name d (noting_start hd.1.2.1 hd.1.2.2 hinside (hempty name))
  refine .bind (.build (.mono (ends_block (hstatement d) hstart (hd.1.2.1.bounded hc)) ?_
    fun _ _ h => h))
  rintro _ x e ⟨hx, htakes⟩
  obtain ⟨htakes₀, _, es, hnoted, hlocations⟩ := hfinish x e hx
  refine ⟨rfl, htakes₀.trans (.of_notes rfl rfl rfl), ?_, es, hnoted, ?_⟩
  · exact Nat.lt_of_le_of_lt htakes.length_le hd.2
  · simp [Cursor.record, hlocations]

variable (dialect) in
theorem ends_enum :
    Ends (enum .resume path) s c
      (fun e s' d => s' = s ∧ Declares tokens dialect path (.enum e) c d) (Still s c) :=
  ends_declaration hc ht hinside id (fun _ _ => noting_enumStatement)
    (fun _ tag => by simp [Item.children]) (fun _ _ h => h) fun _ _ h => h

variable (dialect) in
theorem ends_service :
    Ends (service .resume path) s c
      (fun v s' d => s' = s ∧ Declares tokens dialect path (.service v) c d) (Still s c) :=
  ends_declaration hc ht hinside id (fun _ _ => noting_serviceStatement)
    (fun _ tag => by simp [Item.children]) (fun _ _ h => h) fun _ _ h => h

end Declaration

end Blocks

/-! ## Extensions -/

section Extensions

variable {tokens : List Token} {dialect : Dialect} {base : List Int} {b c₀ c : Cursor} {s : σ}
  {t : Token}

structure HoldsExtensions (item : List Field → Item) (tag : Int) : Prop where
  children : ∀ fields, (item fields).children tag = fields.map Item.extension
  others : ∀ fields fields' t, t ≠ tag → (item fields').children t = (item fields).children t

variable {item : List Field → Item} {tag : Int}

theorem noting_extendStatement (hitem : HoldsExtensions item tag) {extendee : String} :
    Keeps ((stable_noting tokens dialect base item c₀).since b) 0 t
      (extendStatement dialect extendee (base ++ [tag])) := by
  have hI := stable_noting tokens dialect base item c₀
  refine keeps_eatSymbol.bind fun _ u => .ite (fun _ => keeps_pure _) fun _ => .here fun _ => ?_
  refine .of_ends fun fields c hfields hc _ => .built ?_
  have hpath : base ++ [tag] ++ [Int.ofNat fields.length] = child base tag fields.length := by
    simp [child]
  rw [hpath]
  refine .bind (.mono (ends_field hc).run ?_ fun _ _ hd => hI.still hfields hd)
  rintro ⟨f, pair⟩ fields d ⟨⟨rfl, hrecorded⟩, hrun⟩
  have hadded : Noting tokens dialect base item c₀
      (fields ++ [{ f with extendee := some extendee }]) d := by
    have hreads : ReadBy dialect (.extension { f with extendee := some extendee }) none c d :=
      .extension hrun
    refine hfields.add (hrecorded.declares fun _ => rfl) hreads trivial ?_ ?_ (hitem.others _ _)
    · rw [hitem.children, length_map]
    · rw [hitem.children, hitem.children, map_append, map_singleton]
  refine .ite (fun _ => .report (.edit ?_)) fun _ => .edit ⟨hadded, hrecorded.takes⟩
  exact ⟨hI _ _ _ hadded (.of_notes rfl rfl rfl) rfl,
    hrecorded.takes.trans (.of_notes rfl rfl rfl)⟩

theorem ends_extend (hitem : HoldsExtensions item tag) {fields : List Field} (hc : c.Bounded)
    (ht : c.current.kind = .identifier) (hfields : Noting tokens dialect base item c₀ fields c) :
    Ends (extend ⟨dialect, .resume⟩ (base ++ [tag]) fields) s c
      (fun fields' s' d => s' = s ∧ c.Takes d ∧ Noting tokens dialect base item c₀ fields' d)
      (Still s c) := by
  refine .step (keeps_bump ht) (still_refl s c) hc fun _ _ hd => ?_
  refine .step keeps_typeName hd hc fun extendee _ hd => ?_
  refine .step (stable_still s c).keeps_symbol hd hc fun _ e he => .build ?_
  refine .mono (ends_block (fun _ => noting_extendStatement hitem)
    (stable_noting _ _ _ _ _ _ _ _ hfields he.2.1 he.2.2) (he.2.1.bounded hc)) ?_ fun _ _ h => h
  rintro _ fields' d ⟨hd, htakes⟩
  exact ⟨rfl, he.2.1.trans htakes, hd⟩

end Extensions

/-! ## Messages -/

section Messages

variable {tokens : List Token} {dialect : Dialect} {base path : List Int} {b c₀ c : Cursor} {s : σ}
  {t : Token}

/-- What is noted together with what is known of the message that is being built. -/
theorem stable_and {I : σ → Cursor → Prop} (hI : Stable I) (K : σ → Prop) :
    Stable fun s c => I s c ∧ K s :=
  fun s c d h hd hsame => ⟨hI s c d h.1 hd hsame, h.2⟩

theorem noting_messageField {K : Message → Prop} {item : Message → Item} {oneof : Option Nat}
    (hK : ∀ m f entry, K m → FieldRead oneof.isSome f entry → K (m.addField oneof f entry))
    (hlength : ∀ m, ((item m).children Location.messageField).length = m.fields.length)
    (hadds : ∀ m f entry, K m → FieldRead oneof.isSome f entry →
      (item m).Adds (item (m.addField oneof f entry)) fun t =>
        if t = Location.messageField then [.field f.unplaced]
        else if t = messageNested then entry.toList.map .message else []) :
    Keeps ((stable_and (stable_noting tokens dialect base item c₀) K).since b) 0 t
      (messageField dialect base oneof) := by
  refine .of_ends fun m c hm hc _ => .built (.bind (.mono (ends_field hc).run ?_ ?_))
  · rintro ⟨f, entry⟩ m d ⟨⟨rfl, hrecorded⟩, hrun⟩
    have hf := fieldRead_of_run hrun
    have hreads : ReadBy dialect (.field f.unplaced) entry c d := .field hrun
    have hadd := hadds m f entry hm.2 hf
    refine .edit ⟨⟨?_, hK m f entry hm.2 hf⟩, hrecorded.takes⟩
    cases entry with
    | none =>
      refine hm.1.add (hrecorded.declares fun _ => rfl) hreads trivial (hlength m) (hadd _) ?_
      intro tag htag
      simp [hadd tag, htag]
    | some n => exact hm.1.addMap hrecorded hreads (hlength m) hadd
  · exact fun _ _ hd => (stable_and (stable_noting _ _ _ _ _) K).still hm hd

/-- A message without its oneofs from the given index on. -/
def upTo (index : Nat) (m : Message) : Item :=
  .message { m with oneofs := m.oneofs.take index }

private theorem take_modify_self (xs : List α) (i : Nat) (change : α → α) :
    (xs.modify i change).take i = xs.take i := by
  refine ext_getElem? fun k => ?_
  rw [getElem?_take, getElem?_take]
  split
  · next hlt => rw [getElem?_modify_ne _ _ (by omega)]
  · rfl

variable {index : Nat} {m : Message}

theorem noting_oneofStatement :
    Keeps ((stable_and (stable_noting tokens dialect base (upTo index) c₀)
      (Message.GrowingIn index)).since b) 0 t
      (oneofStatement dialect base index) := by
  refine .atWord (.ite (fun h => ?_) fun _ => ?_)
  · refine keeps_optionStatement (kind_of_isWord h) fun x m _ _ hm =>
      ⟨⟨hm.1.1.congr fun tag => ?_, hm.1.2.addOption x⟩, hm.2⟩
    simp only [upTo, take_modify_self]
  · refine keeps_eatSymbol.bind fun _ _ => .ite (fun _ => keeps_pure _) fun _ => ?_
    refine noting_messageField (fun _ _ _ hm hf => hm.addField hf) (fun _ => length_map _) ?_
    intro m f entry hm hf
    have hfree : m.Unfurnished := hm.growing.unfurnished
    have hfree' : (m.addField (some index) f entry).Unfurnished :=
      (hm.addField hf).growing.unfurnished
    exact Message.adds_field (f := { f with oneofIndex := some index }) rfl rfl rfl rfl
      (take_modify_self _ _ _) hfree hfree'

/-- The oneof that is open is the last one. -/
theorem exists_of_growingIn (h : m.GrowingIn index) :
    ∃ o, m.oneofs = m.oneofs.take index ++ [o] ∧ m.oneofs[index]? = some o ∧
      (m.oneofs.take index).length = index := by
  obtain ⟨⟨gs, name, options, members, ⟨hplaced, _⟩, hindex⟩, _⟩ := h
  rw [FieldGroup.placeAll_concat, FieldGroup.place, Prod.mk.injEq] at hplaced
  refine ⟨⟨name, List.range' (FieldGroup.placeAll gs).1.length members.length, options⟩, ?_, ?_, ?_⟩
  · rw [hplaced.2, ← hindex, take_left]
  · rw [hplaced.2, ← hindex]
    simp
  · rw [hplaced.2, ← hindex, take_left]

/-- Up to its record a oneof is read next to the table of all that stands before it. -/
theorem ends_oneof (hm : Noting tokens dialect base Item.message c₀ m c) (hgrowing : m.Growing)
    (hc : c.Bounded) (ht : c.current.kind = .identifier) :
    Ends (oneof ⟨dialect, .resume⟩ base) m c
      (fun _ m' d => ∃ e, d = e.record (child base messageOneof m.oneofs.length)
          c.current.position ∧ c.Takes e ∧ e.tokens.length < c.tokens.length ∧
        Noting tokens dialect base (upTo m.oneofs.length) c₀ m' e ∧
        m'.GrowingIn m.oneofs.length) (Still m c) := by
  refine .look (.step (keeps_bump ht) (still_refl m c) hc fun _ _ hd => ?_)
  refine .name hd hc fun name _ hd => .next (stable_named m c).keeps_symbol hd hc ?_
  intro _ e he
  refine .built (.bind (.edit ?_))
  have hopen : Noting tokens dialect base (upTo m.oneofs.length) c₀
      { m with oneofs := m.oneofs ++ [{ name }] } e := by
    refine Noting.congr (stable_noting _ _ _ _ _ _ _ _ hm he.1.2.1 he.1.2.2) fun tag => ?_
    simp only [upTo, take_left]
    rfl
  refine .bind (.mono (ends_block (fun _ => noting_oneofStatement)
    ⟨hopen, hgrowing.openOneof name⟩ (he.1.2.1.bounded hc)) ?_ fun _ _ h => h)
  rintro _ m' d ⟨⟨hd, hgrowing'⟩, htakes⟩
  have hd' : c.Takes d ∧ d.tokens.length < c.tokens.length :=
    ⟨he.1.2.1.trans htakes, Nat.lt_of_le_of_lt htakes.length_le he.2⟩
  refine .built (.ite (fun _ => .report ?_) fun _ => ?_)
  · have hnotes : d.Takes (d.report (.ofFault c.current.position .emptyOneof)) :=
      .of_notes rfl rfl rfl
    exact ⟨_, rfl, hd'.1.trans hnotes, hd'.2, stable_noting _ _ _ _ _ _ _ _ hd hnotes rfl,
      hgrowing'⟩
  · exact ⟨d, rfl, hd'.1, hd'.2, hd, hgrowing'⟩

theorem noting_oneof (h : t.kind = .identifier) :
    Keeps ((stable_and (stable_noting tokens dialect base Item.message c₀) Message.Growing).since b)
      0 t
      (oneof ⟨dialect, .resume⟩ base) := by
  refine .of_ends fun m c hm hc ht => ?_
  refine .mono (ends_oneof hm.1 hm.2 hc (ht ▸ h)).run ?_ fun _ _ hd =>
    (stable_and (stable_noting _ _ _ _ _) Message.Growing).still hm hd
  rintro _ m' _ ⟨⟨e, rfl, htakes, hlt, hnoting, hgrowing⟩, hrun⟩
  obtain ⟨o, honeofs, ho, hlength⟩ := exists_of_growingIn hgrowing
  have hfree : m'.Unfurnished := hgrowing.growing.unfurnished
  have hopen : (upTo m.oneofs.length m').children messageOneof =
      (m'.oneofs.take m.oneofs.length).map (Item.oneof · false) :=
    Message.Unfurnished.children_oneof (m := { m' with oneofs := m'.oneofs.take m.oneofs.length })
      hfree
  have hnotes : e.Takes (e.record (child base messageOneof m.oneofs.length)
      c.current.position) := .of_notes rfl rfl rfl
  -- nothing is declared in a oneof: its members are fields of the message
  have hinner : Noted (ReadAt tokens dialect) (.oneof o false) (c.place tokens) (e.place tokens)
      [] := .nil fun _ => rfl
  refine ⟨⟨hnoting.complete hm.1.takes htakes hnotes hlt hinner rfl (.oneof hrun ho) rfl ?_ ?_ ?_,
    hgrowing.growing⟩, htakes.trans hnotes⟩
  · rw [hopen, length_map, hlength]
  · rw [hfree.children_oneof, hopen]
    nth_rewrite 1 [honeofs]
    rw [map_append, map_singleton]
  · intro tag htag
    simp only [upTo, Item.children, if_neg htag]

def MessageLocated (tokens : List Token) (dialect : Dialect) (path : List Int)
    (p : Production σ Message) : Prop :=
  ∀ s c, c.Bounded → c.current.kind = .identifier → c.tokens <:+ tokens →
    Ends p s c (fun m s' d => s' = s ∧ Declares tokens dialect path (.message m) c d ∧
      ReadBy dialect (.message m) none c d ∧ m.IndexedWithin) (Still s c)

theorem Noting.suffix {item : σ → Item} (h : Noting tokens dialect base item c₀ s c) :
    c.tokens <:+ tokens :=
  h.takes.suffix.trans h.inside

variable (c₀) in
theorem noting_messageStatement {nested : List Int → Production Message Message}
    (hnested : ∀ path, MessageLocated tokens dialect path (nested path)) :
    Keeps ((stable_and (stable_noting tokens dialect base Item.message c₀) Message.Growing).since b)
      0 t (messageStatement ⟨dialect, .resume⟩ base nested) := by
  have hI := stable_and (stable_noting tokens dialect base Item.message c₀) Message.Growing
  -- numbers set aside, reserved names and options are not declarations
  have hcongr : ∀ {m m' : Message} {k c}, m'.fields = m.fields → m'.oneofs = m.oneofs →
      m'.nested = m.nested →
      (∀ tag, (Item.message m').children tag = (Item.message m).children tag) →
      (hI.since b).Holds m k c → (hI.since b).Holds m' k c :=
    fun hfields honeofs hnested hsame hm =>
      ⟨⟨hm.1.1.congr hsame, hm.1.2.congr hfields honeofs hnested⟩, hm.2⟩
  refine keeps_eatSymbol.bind fun _ u => .ite (fun _ => keeps_pure _) fun _ => .peek fun _ => ?_
  refine .ite (fun h => ?_) fun _ => .ite (fun h => ?_) fun _ => .ite (fun h => ?_) fun _ =>
    .ite (fun h => ?_) fun _ => .ite (fun h => ?_) fun _ => .ite (fun h => ?_) fun _ =>
    .ite (fun h => ?_) fun _ => ?_
  · refine .of_ends fun m c hm hc ht =>
      .built (.bind (.mono (hnested _ m c hc ?_ hm.1.suffix) ?_ fun _ _ hd => hI.still hm hd))
    · exact ht ▸ kind_of_isWord h
    · rintro n m d ⟨rfl, hn, hreads, hindexed⟩
      refine .edit ⟨⟨hm.1.add hn hreads trivial (length_map _) map_append fun tag htag =>
        ?_, hm.2.addNested hindexed⟩, hn.takes⟩
      simp only [Item.children, if_neg htag]
      rfl
  · refine .of_ends fun m c hm hc ht =>
      .built (.bind (.mono (ends_enum dialect hc ?_ hm.1.suffix).run ?_
        fun _ _ hd => hI.still hm hd))
    · exact ht ▸ kind_of_isWord h
    · rintro e m d ⟨⟨rfl, he⟩, hrun⟩
      refine .edit ⟨⟨hm.1.add he (.enum hrun) trivial (length_map _) map_append
        fun tag htag => ?_, hm.2.congr rfl rfl rfl⟩, he.takes⟩
      simp only [Item.children, if_neg htag]
      rfl
  · exact keeps_extensionsStatement (fun _ => hcongr rfl rfl rfl fun _ => rfl)
      (kind_of_isWord h)
  · exact keeps_reservedStatement (kind_of_isWord h)
      (fun _ _ _ _ => hcongr rfl rfl rfl fun _ => rfl)
      fun _ _ _ _ => hcongr rfl rfl rfl fun _ => rfl
  · refine .of_ends fun m c hm hc ht => .built ?_
    have hitem : HoldsExtensions (fun extensions => .message { m with extensions })
        messageExtension :=
      ⟨fun _ => rfl, fun _ _ tag htag => by simp only [Item.children, if_neg htag]; rfl⟩
    refine .bind (.mono (ends_extend hitem hc ?_ (hm.1.congr fun _ => rfl)) ?_
      fun _ _ hd => hI.still hm hd)
    · exact ht ▸ kind_of_isWord h
    · rintro extensions m d ⟨rfl, htakes, hextensions⟩
      exact .edit ⟨⟨hextensions.congr fun _ => rfl, hm.2.congr rfl rfl rfl⟩, htakes⟩
  · exact keeps_optionStatement (kind_of_isWord h) fun _ _ _ _ => hcongr rfl rfl rfl fun _ => rfl
  · exact noting_oneof (kind_of_isWord h)
  · refine noting_messageField (fun _ _ _ hm hf => hm.addField hf) (fun _ => length_map _) ?_
    intro m f entry hm hf
    exact Message.adds_field (f := { f with oneofIndex := none }) rfl rfl rfl rfl rfl
      hm.unfurnished (hm.addField hf).unfurnished

theorem messageLocated_message {budget : Nat} :
    MessageLocated tokens dialect path
      (message ⟨dialect, .resume⟩ budget path : Production σ Message) := by
  induction budget generalizing σ path with
  | zero =>
    intro s c hc ht _
    have hnotes : Still s c s (c.report (.ofFault c.current.position .nestedTooDeep)) :=
      stable_still s c s c _ (still_refl s c) (.of_notes rfl rfl rfl) rfl
    refine .look (.report (.step (keeps_bump ht) hnotes hc fun _ _ hd => ?_))
    exact .step keeps_skip hd hc fun _ _ hd => hd
  | succ budget ih =>
    intro s c hc ht hinside
    have hends : Ends (message ⟨dialect, .resume⟩ (budget + 1) path) s c
        (fun m s' d => s' = s ∧ Declares tokens dialect path (.message m) c d) (Still s c) := by
      refine ends_declaration hc ht hinside Message.withSyntheticOneofs
        (fun _ _ => noting_messageStatement c fun _ => ih) (fun _ tag => by simp [Item.children])
        (fun name _ h => ⟨h, Message.growing_new name⟩) ?_
      rintro m e ⟨⟨htakes, hin, es, hnoted, hlocations⟩, ⟨gs, hgs⟩, _⟩
      obtain ⟨made, hadds⟩ := Message.adds_withSyntheticOneofs hgs
      refine ⟨htakes, hin, es, hnoted.pad hadds fun tag z hz => ?_, hlocations⟩
      -- all that is made is oneofs
      split at hz
      · obtain ⟨o, _, rfl⟩ := mem_map.mp hz
        exact ⟨Bool.noConfusion, fun _ => rfl⟩
      · cases hz
    refine .mono hends.run ?_ fun _ _ hd => hd
    rintro m s' d ⟨⟨rfl, hdeclares⟩, hrun⟩
    exact ⟨rfl, hdeclares, .message hrun, messageRead_indexedWithin _ _ _ _ _ hrun⟩

end Messages

/-! ## Files -/

section Files

variable {tokens : List Token} {dialect : Dialect} {b c₀ c : Cursor} {t : Token}

theorem noting_topLevelStatement :
    Keeps ((stable_and (stable_noting tokens dialect [] Item.file c₀)
      (File.dialect · = dialect)).since b) 0 t (topLevelStatement ⟨dialect, .resume⟩) := by
  have hI := stable_and (stable_noting tokens dialect [] Item.file c₀) (File.dialect · = dialect)
  refine keeps_eatSymbol.bind fun _ u => .ite (fun _ => keeps_pure _) fun _ => .peek fun _ => ?_
  refine .ite (fun h => ?_) fun _ => .ite (fun h => ?_) fun _ => .ite (fun h => ?_) fun _ =>
    .ite (fun h => ?_) fun _ => .ite (fun h => ?_) fun _ => .ite (fun h => ?_) fun _ =>
    .ite (fun h => ?_) fun _ => .ite (fun _ => keeps_rejectHere) fun _ => keeps_rejectHere
  · refine .of_ends fun f c hf hc ht => .built (.bind (.mono
      (messageLocated_message f c hc ?_ hf.1.suffix) ?_ fun _ _ hd => hI.still hf hd))
    · exact ht ▸ kind_of_isWord h
    · rintro m f d ⟨rfl, hm, hreads, _⟩
      refine .edit ⟨⟨hf.1.add hm hreads trivial (length_map _) map_append
        fun tag htag => ?_, hf.2⟩, hm.takes⟩
      simp only [Item.children, if_neg htag]
  · refine .of_ends fun f c hf hc ht =>
      .built (.bind (.mono (ends_enum dialect hc ?_ hf.1.suffix).run ?_
        fun _ _ hd => hI.still hf hd))
    · exact ht ▸ kind_of_isWord h
    · rintro e f d ⟨⟨rfl, he⟩, hrun⟩
      refine .edit ⟨⟨hf.1.add he (.enum hrun) trivial (length_map _) map_append
        fun tag htag => ?_, hf.2⟩, he.takes⟩
      simp only [Item.children, if_neg htag]
  · refine .of_ends fun f c hf hc ht =>
      .built (.bind (.mono (ends_service dialect hc ?_ hf.1.suffix).run ?_
        fun _ _ hd => hI.still hf hd))
    · exact ht ▸ kind_of_isWord h
    · rintro v f d ⟨⟨rfl, hv⟩, hrun⟩
      refine .edit ⟨⟨hf.1.add hv (.service hrun) trivial (length_map _) map_append
        fun tag htag => ?_, hf.2⟩, hv.takes⟩
      simp only [Item.children, if_neg htag]
  · refine .of_ends fun f c hf hc ht => .built ?_
    have hitem : HoldsExtensions (fun extensions => .file { f with extensions }) fileExtension :=
      ⟨fun _ => rfl, fun _ _ tag htag => by simp only [Item.children, if_neg htag]⟩
    have hextensions : Noting tokens dialect [] (fun extensions => .file { f with extensions }) c₀
        f.extensions c := hf.1.congr fun _ => rfl
    have hends := ends_extend (s := f) hitem hc (ht ▸ kind_of_isWord h) hextensions
    refine .bind (.mono hends ?_ fun _ _ hd => hI.still hf hd)
    rintro extensions f d ⟨rfl, htakes, hextensions⟩
    exact .edit ⟨⟨hextensions.congr fun _ => rfl, hf.2⟩, htakes⟩
  · exact keeps_importStatement (kind_of_isWord h) fun _ _ _ _ _ hf _ =>
      ⟨⟨hf.1.1.congr fun _ => rfl, hf.1.2⟩, hf.2⟩
  · exact keeps_packageStatement (kind_of_isWord h) fun _ hf =>
      ⟨⟨hf.1.1.congr fun _ => rfl, hf.1.2⟩, hf.2⟩
  · exact keeps_optionStatement (kind_of_isWord h) fun _ _ _ _ hf =>
      ⟨⟨hf.1.1.congr fun _ => rfl, hf.1.2⟩, hf.2⟩

/-- A file from its first token on. Nothing is recorded before its language is known. -/
theorem ends_fileBody {f : File} (hc : c.Bounded) (hinside : c.tokens <:+ tokens)
    (hempty : ∀ tag, (Item.file f).children tag = []) :
    Ends (do
      if ← atWord "syntax" then tolerate .resume syntaxStatement
      let dialect := (← built).dialect
      statements .resume (topLevelStatement ⟨dialect, .resume⟩)) f c
      (fun _ f' d => Noting tokens f'.dialect [] Item.file c f' d)
      fun f' d => Noting tokens f'.dialect [] Item.file c f' d := by
  have hstart : ∀ dialect, Noting tokens dialect [] Item.file c f c := fun _ =>
    noting_start (.refl c) rfl hinside hempty
  have hrest : ∀ f' d, d.Bounded → (∀ dialect, Noting tokens dialect [] Item.file c f' d) → Ends (do
        let dialect := (← built).dialect
        statements .resume (topLevelStatement ⟨dialect, .resume⟩)) f' d
        (fun _ f' d => Noting tokens f'.dialect [] Item.file c f' d)
        fun f' d => Noting tokens f'.dialect [] Item.file c f' d := by
    intro f' d hd hnoting
    refine .built (.of_keeps (keeps_statements (fun _ => noting_topLevelStatement) id)
      ⟨hnoting _, rfl⟩ hd ?_ ?_)
    · rintro _ f'' e ⟨hnoting, hdialect⟩ _
      rwa [hdialect]
    · rintro f'' e ⟨hnoting, hdialect⟩ _
      rwa [hdialect]
  refine .look (.ite (fun h => ?_) fun _ => hrest f c hc hstart)
  have hI : Stable fun f' d => ∀ dialect, Noting tokens dialect [] Item.file c f' d :=
    fun _ _ _ h htakes hsame dialect => stable_noting _ _ _ _ _ _ _ _ (h dialect) htakes hsame
  have hsyntax : Keeps (hI.since c) 0 c.current (tolerate .resume syntaxStatement) :=
    keeps_tolerate (keeps_syntaxStatement (kind_of_isWord h) fun _ hf =>
      ⟨fun dialect => (hf.1 dialect).congr fun _ => rfl, hf.2⟩)
  refine .bind (.of_keeps hsyntax hstart hc ?_ fun _ _ hf _ => hf _)
  exact fun _ f' d hf htakes => hrest f' d (htakes.bounded hc) hf

end Files

end Production

end ProtoSchema
