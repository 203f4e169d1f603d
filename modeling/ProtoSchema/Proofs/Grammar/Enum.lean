import ProtoSchema.Grammar.Enum
import ProtoSchema.Proofs.Grammar.Option

/-!
Enums, and reserved names and numbers, read and printed.
-/

namespace ProtoSchema

open Scan List

/-! ## Reserved names and numbers -/

namespace ReservedRules

def Allows (rules : ReservedRules) (n : Int32) : Prop :=
  rules.allowSign = true ∨ 0 ≤ n.toInt

structure Written (rules : ReservedRules) (r : ReservedRange) : Prop where
  start : rules.Allows r.start
  stop : ∃ last, rules.Allows last ∧ rules.stop last = r.stop

end ReservedRules

def rangeWords (start last : Int32) : List Word :=
  intWords start.toInt ++ if last = start then [] else .ident "to" :: intWords last.toInt

theorem ReservedRange.lexes_render (r : ReservedRange) (last : Int32) :
    Lexes goesOn (r.render last) (rangeWords r.start last) := by
  unfold ReservedRange.render rangeWords
  split
  · rw [append_nil]
    exact lexes_int _
  · rw [String.append_assoc]
    exact (lexes_int _).joined [.ident "to"] (by decide) (lexes_int _)

private theorem kind_front_intWords (n : Int) (rest : List Word) :
    (Word.front (intWords n ++ rest)).kind = .symbol ∨
      (Word.front (intWords n ++ rest)).kind = .integer := by
  unfold intWords
  split
  · exact .inl rfl
  · exact .inr rfl

namespace Production

variable {σ : Type} {s : σ} {w : Word} {rest : List Word} {rules : ReservedRules}

theorem yields_rangeEnd {start : Int32} {Q : Int32 → σ → Word → Prop}
    (hmax : 0 ≤ rules.max.toInt) (hstart : rules.Allows start)
    (h : ∀ last w', rules.Allows last → Q last s w') : Yields (rangeEnd rules start) s w Q := by
  refine .step (yields_eatWord (fun _ w' => ?_) fun _ => yields_pure (h start w hstart))
  refine .step (yields_eatWord (fun _ w'' => yields_pure (h _ w'' (.inr hmax))) fun _ => ?_)
  exact yields_int32 fun last w'' hlast => h last w'' hlast

theorem reads_rangeEnd (start : Int32) {last : Int32} (hlast : rules.Allows last)
    (hrest : Word.front rest ≠ .ident "to") :
    Reads (rangeEnd rules start) s
      ((if last = start then [] else .ident "to" :: intWords last.toInt) ++ rest) last s rest := by
  split
  · next heq =>
    rw [heq]
    exact (reads_eatWord_of_ne hrest).bind (reads_pure _)
  · refine (reads_eatWord "to").bind ((reads_eatWord_of_ne ?_).bind (reads_int32 hlast _))
    intro hmax
    have hkind := congrArg Word.kind hmax
    rcases kind_front_intWords last.toInt rest with h | h <;> cases h.symm.trans hkind

theorem yields_reservedRange {add : ReservedRange → σ → σ} {Q : Unit → σ → Word → Prop}
    (hmax : 0 ≤ rules.max.toInt) (h : ∀ r w', rules.Written r → Q () (add r s) w') :
    Yields (reservedRange rules add) s w Q := by
  refine .step (yields_atKind ?_)
  split
  · exact yields_rejectHere
  · refine .step (yields_int32 fun start w' hstart => ?_)
    refine .step (yields_rangeEnd hmax hstart fun last w'' hlast => ?_)
    exact yields_edit (h _ w'' ⟨hstart, last, hlast, rfl⟩)

theorem reads_reservedRange {r : ReservedRange} {last : Int32} (hstart : rules.Allows r.start)
    (hlast : rules.Allows last) (hstop : rules.stop last = r.stop) (add : ReservedRange → σ → σ)
    (hrest : Word.front rest ≠ .ident "to") :
    Reads (reservedRange rules add) s (rangeWords r.start last ++ rest) () (add r s) rest := by
  rw [rangeWords, append_assoc]
  refine (reads_atKind .string).bind ?_
  rw [if_neg ?_]
  · refine (reads_int32 hstart _).bind ((reads_rangeEnd r.start hlast hrest).bind ?_)
    rw [hstop]
    exact reads_edit _
  · have hkind := kind_front_intWords r.start.toInt
      ((if last = r.start then [] else .ident "to" :: intWords last.toInt) ++ rest)
    rcases hkind with h | h <;> simp [h]

variable {addRange : ReservedRange → σ → σ} {addName : String → σ → σ}
  {statement : Production σ Unit}

theorem yields_reservedStatement {I : σ → Prop} (hmax : 0 ≤ rules.max.toInt)
    (hrange : ∀ r s, rules.Written r → I s → I (addRange r s))
    (hname : ∀ n s, I s → I (addName n s)) (hs : I s) :
    Yields (reservedStatement rules addRange addName) s w fun _ s' _ => I s' := by
  refine .step (yields_bump fun _ w' _ => .step (yields_atKind ?_))
  split
  · have hitem : ∀ s w, I s → Yields (reservedName addName) s w fun _ s' _ => True ∧ I s' := by
      intro s w hs
      refine .step (yields_atKind (.step (yields_atSymbol ?_)))
      split
      · exact yields_rejectHere
      · exact .step (yields_utf8String fun name w' => yields_edit ⟨trivial, hname name s hs⟩)
    refine (yields_sepBy hitem hs).bind fun _ s' w'' ⟨_, hs'⟩ => ?_
    exact yields_symbol fun _ _ => hs'
  · have hitem : ∀ s w, I s → Yields (reservedRange rules addRange) s w fun _ s' _ => True ∧ I s' :=
      fun s w hs => yields_reservedRange hmax fun r w' hr => ⟨trivial, hrange r s hr hs⟩
    refine (yields_sepBy hitem hs).bind fun _ s' w'' ⟨_, hs'⟩ => ?_
    exact yields_symbol fun _ _ => hs'

theorem runs_reserved {p item : Production σ Unit} {t : String} {ts : List String} {us : List Word}
    {as : List Unit} {s₁ s₂ : σ} (hstatement : Dispatches statement p "reserved")
    (ht : Lexes goesOn t us)
    (hfirst : ∀ rest, (Word.front rest).kind = .symbol → Reads item s (us ++ rest) () s₁ rest)
    (hmore : RecoversItems item s₁ ts as s₂)
    (hp : ∀ ws rest, Reads (sepBy "," item) s (us ++ ws ++ .symbol ";" :: rest) (() :: as) s₂
        (.symbol ";" :: rest) →
      Reads p s (.ident "reserved" :: (us ++ ws ++ .symbol ";" :: rest)) () s₂ rest) :
    Runs statement s (ReservedRange.statement (t :: ts)) s₂ := by
  have hcomma : Lexes never ", " [.symbol ","] := lexes_plain (by decide)
  obtain ⟨ws, hlex, hreads⟩ := hmore.exists_sepBy ht hfirst hcomma
    (fits_of_head (c := ',') (by decide) rfl) (fun t _ => fits_never _ t) rfl
  have hline : Lexes goesOn ("reserved " ++ commaSeparated (t :: ts) ++ ";")
      (.ident "reserved" :: (us ++ ws ++ [.symbol ";"])) := by
    rw [String.append_assoc]
    exact ((hlex.followed [.symbol ";"] (by decide)).behind [.ident "reserved"] (by decide)).any
  refine .single (.of hline) (by simp) fun rest => hstatement rfl ?_
  rw [cons_append, append_assoc]
  exact hp ws rest (hreads _ rfl (by simp))

/-- Reserved ranges in the lines of a block, each with its last number. -/
theorem runs_reservedRanges
    (hstatement : Dispatches statement (reservedStatement rules addRange addName) "reserved")
    {ranges : List ReservedRange} {last : ReservedRange → Int32}
    (hranges : ∀ r ∈ ranges,
      rules.Allows r.start ∧ rules.Allows (last r) ∧ rules.stop (last r) = r.stop)
    (state : List ReservedRange → σ)
    (hadd : ∀ done r, addRange r (state done) = state (done ++ [r])) :
    Runs statement (state [])
      (ReservedRange.statement ((ranges.map fun r => (r, last r)).map fun (r, last) =>
        r.render last)) (state ranges) := by
  have hone : ∀ done, ∀ r ∈ ranges, ∀ rest, (Word.front rest).kind = .symbol →
      Reads (reservedRange rules addRange) (state done) (rangeWords r.start (last r) ++ rest) ()
        (state (done ++ [r])) rest := by
    intro done r hr rest hrest
    obtain ⟨hstart, hlast, hstop⟩ := hranges r hr
    rw [← hadd]
    refine reads_reservedRange hstart hlast hstop addRange fun hto => ?_
    rw [hto] at hrest
    cases hrest
  rw [map_map]
  cases ranges with
  | nil => exact .nil
  | cons r ranges =>
    have hitem : ∀ done, ∀ q ∈ ranges, RecoversItem
        (reservedRange rules addRange) (state done) (q.render (last q)) () (state (done ++ [q])) :=
      fun done q hq => ⟨_, q.lexes_render (last q), hone done q (by simp [hq])⟩
    refine runs_reserved hstatement (r.lexes_render (last r)) (hone [] r (by simp))
      (recoversAll_map state hitem [r]) ?_
    intro ws rest hreads
    refine .bump fun _ _ => (reads_atKind .string).bind ?_
    rw [if_neg ?_]
    · exact hreads.bind (reads_symbol ";")
    · have hkind := kind_front_intWords r.start.toInt
        ((if last r = r.start then [] else .ident "to" :: intWords (last r).toInt) ++
          (ws ++ .symbol ";" :: rest))
      rw [rangeWords, append_assoc, append_assoc]
      rcases hkind with h | h <;> simp [h]

theorem runs_reservedNames
    (hstatement : Dispatches statement (reservedStatement rules addRange addName) "reserved")
    (names : List String) (state : List String → σ)
    (hadd : ∀ done name, addName name (state done) = state (done ++ [name])) :
    Runs statement (state []) (ReservedRange.statement (names.map literal)) (state names) := by
  have hone : ∀ done name rest, (Word.front rest).kind = .symbol →
      Reads (reservedName addName) (state done) ([⟨.string, literal name⟩] ++ rest) ()
        (state (done ++ [name])) rest := by
    intro done name rest hrest
    rw [← hadd]
    refine (reads_atKind .integer).bind ((reads_atSymbol "-").bind ?_)
    rw [if_neg (by simp [Word.symbol])]
    refine (reads_utf8String name _ fun h => ?_).bind (reads_edit _)
    cases hrest.symm.trans h
  cases names with
  | nil => exact .nil
  | cons name names =>
    have hitem : ∀ done, ∀ n ∈ names, RecoversItem
        (reservedName addName) (state done) (literal n) () (state (done ++ [n])) :=
      fun done n _ => ⟨_, (lexes_literal n).any, hone done n⟩
    refine runs_reserved hstatement (lexes_literal name).any (hone [] name)
      (recoversAll_map state hitem [name]) ?_
    intro ws rest hreads
    refine .bump fun _ _ => (reads_atKind .string).bind ?_
    rw [if_pos (by rfl)]
    exact hreads.bind (reads_symbol ";")

end Production

/-! ## Enums -/

structure EnumValue.Written (v : EnumValue) : Prop where
  name : IsIdentifier v.name
  word : v.name ∉ ["option", "reserved"]
  options : Options.Written v.options

structure Enum.Written (e : Enum) : Prop where
  name : IsIdentifier e.name
  values : ∀ v ∈ e.values, v.Written
  ranges : ∀ r ∈ e.reservedRanges, ReservedRules.enum.Written r
  options : Options.Written e.options

def Enum.settings (e : Enum) : Options :=
  e.options ++ e.values.flatMap EnumValue.options

namespace Production

variable {σ : Type} {s : σ} {w : Word}

variable {e : Enum} (path : List Int)

theorem yields_enumValue {path : List Int} (he : e.Written) (hoption : w ≠ .ident "option")
    (hreserved : w ≠ .ident "reserved") : Yields (enumValue path) e w fun _ e' _ => e'.Written := by
  refine .step (yields_here fun start => .step (yields_identifier fun name w' hw hname => ?_))
  refine .step (yields_symbol fun _ w'' => .step (yields_int32 fun number w₃ _ => ?_))
  refine .step (yields_optionalOptions fun options w₄ hoptions => ?_)
  refine .step (yields_symbol fun _ w₅ => .step (yields_built (.step (yields_record ?_))))
  subst hw
  exact yields_edit { he with values := forall_mem_concat he.values ⟨hname, by simp_all, hoptions⟩ }

theorem yields_enumStatement {path : List Int} (he : e.Written) :
    Yields (enumStatement path) e w fun _ e' _ => e'.Written := by
  refine .step (yields_eatSymbol (fun _ w' => yields_pure he) fun _ => .step (yields_atWord ?_))
  split
  · exact yields_optionStatement fun t w' ht => { he with options := he.options.concat ht }
  · next hoption =>
    refine .step (yields_atWord ?_)
    split
    · refine yields_reservedStatement (by decide) (fun r e hr he => ?_) (fun n e he => ?_) he
      · exact { he with ranges := forall_mem_concat he.ranges hr }
      · exact { he with }
    · next hreserved =>
      exact yields_enumValue he (by simpa using hoption) (by simpa using hreserved)

theorem yields_enum {path : List Int} {Q : Enum → σ → Word → Prop}
    (h : ∀ e w', e.Written → Q e s w') : Yields (enum .resume path) s w Q := by
  refine yields_declaration (fun name hname => ?_) (fun e w he => yields_enumStatement he) h
  exact ⟨hname, forall_mem_nil _, forall_mem_nil _, Options.written_nil⟩

theorem dispatches_enum_option :
    Dispatches (enumStatement path)
      (optionStatement fun s e => { e with options := e.options ++ [s] }) "option" := by
  intro e e' ws ws' hfront hreads
  refine (reads_eatSymbol_of_ne (by simp [hfront])).bind ((reads_atWord "option").bind ?_)
  rw [if_pos (by simp [hfront])]
  exact hreads

theorem dispatches_enum_reserved :
    Dispatches (enumStatement path)
      (reservedStatement .enum (fun r e => { e with reservedRanges := e.reservedRanges ++ [r] })
        fun n e => { e with reservedNames := e.reservedNames ++ [n] }) "reserved" := by
  intro e e' ws ws' hfront hreads
  refine (reads_eatSymbol_of_ne (by simp [hfront])).bind ((reads_atWord "option").bind ?_)
  rw [if_neg (by simp [hfront])]
  refine (reads_atWord "reserved").bind ?_
  rw [if_pos (by simp [hfront])]
  exact hreads

theorem runs_enumValue {v : EnumValue} (hv : v.Written) (hs : Options.Signed v.options)
    (path : List Int) (e : Enum) :
    Runs (enumStatement path) e [Enum.valueLine v] { e with values := e.values ++ [v] } := by
  obtain ⟨ws, hlex, hreads⟩ := exists_reads_optionalOptions hv.options hs e
  have hline : Lexes goesOn
      (v.name ++ " = " ++ toString v.number.toInt ++ Options.bracketed v.options [] ++ ";")
      (.ident v.name :: (.symbol "=" :: (intWords v.number.toInt ++ (ws ++ [.symbol ";"])))) := by
    simp only [String.append_assoc]
    have hnumber := (lexes_int v.number.toInt).append (hlex.followed [.symbol ";"] (by decide))
      (fits_bracketed _ _ _)
    exact ((lexes_ident hv.name).joined [.symbol "="] (by decide) hnumber).any
  refine .single (.of hline) (by simp) fun rest => ?_
  obtain ⟨hoption, hreserved⟩ : v.name ≠ "option" ∧ v.name ≠ "reserved" := by simpa using hv.word
  simp only [cons_append, append_assoc, nil_append]
  refine (reads_eatSymbol_of_ne (by simp)).bind ((reads_atWord "option").bind ?_)
  rw [if_neg (by simpa using hoption)]
  refine (reads_atWord "reserved").bind ?_
  rw [if_neg (by simpa using hreserved)]
  refine .here fun start => (reads_identifier v.name _).bind ((reads_symbol "=").bind ?_)
  refine (reads_int32 (.inl rfl) _).bind ((hreads _ (by simp)).bind ((reads_symbol ";").bind ?_))
  exact .built ((reads_record _ _).bind (reads_edit _))

theorem runs_enum (h : e.Written) (hs : Options.Signed e.settings) (path : List Int) :
    Runs (enumStatement path) { name := e.name }
      (Options.lines e.options ++ e.values.map Enum.valueLine ++
        ReservedRange.lines (e.reservedRanges.map fun r => (r, r.stop)) e.reservedNames) e := by
  have hsigned : Options.Signed e.options := fun t ht => hs t (mem_append_left _ ht)
  have hvalues : ∀ v ∈ e.values, Options.Signed v.options := fun v hv t ht =>
    hs t (mem_append_right _ (mem_flatMap.mpr ⟨v, hv, ht⟩))
  have hranges : ∀ r ∈ e.reservedRanges, ReservedRules.enum.Allows r.start ∧
      ReservedRules.enum.Allows r.stop ∧ ReservedRules.enum.stop r.stop = r.stop :=
    fun r _ => ⟨.inl rfl, .inl rfl, rfl⟩
  let base : Enum := { name := e.name, options := e.options, values := e.values }
  have hopts := runs_options h.options hsigned (dispatches_enum_option path)
    (fun done => { name := e.name, options := done }) (fun _ _ => rfl) []
  have hvals := Runs.map (fun done => { base with values := done })
    (fun done v hv => runs_enumValue (h.values v hv) (hvalues v hv) path _) []
  have hnums := runs_reservedRanges (dispatches_enum_reserved path) hranges
    (fun done => { base with reservedRanges := done }) (fun _ _ => rfl)
  have hnames := runs_reservedNames (dispatches_enum_reserved path) e.reservedNames
    (fun done => { base with reservedRanges := e.reservedRanges, reservedNames := done })
    (fun _ _ => rfl)
  exact (hopts.append hvals).append (hnums.append hnames)

end Production

open Production

theorem Enum.Written.exists_reads {σ : Type} {e : Enum} (h : e.Written)
    (hs : Options.Signed e.settings) (path : List Int) (s : σ) :
    ∃ ws, LinesLex e.lines (.ident "enum" :: ws) ∧
      ∀ rest, Reads (enum .resume path) s (.ident "enum" :: ws ++ rest) e s rest :=
  (runs_enum h hs path).exists_reads (fun name => ({ name } : Enum)) h.name (by decide) s

end ProtoSchema
