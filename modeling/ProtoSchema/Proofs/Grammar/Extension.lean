import Mathlib.Data.List.SplitBy
import ProtoSchema.Grammar.Message
import ProtoSchema.Proofs.Grammar.Enum
import ProtoSchema.Proofs.Grammar.Field

/-!
Extensions, and the numbers left open to them, read and printed. Extensions of one message that
follow each other are printed in one block, and each range of numbers in a statement of its own.
-/

namespace ProtoSchema

open Scan List

variable {extendee : String} {Q : Unit → Message → Word → Prop}

variable {w : Word} {x : String} {type : TypeRef} {dialect : Dialect}

theorem TypeName.ne_symbol {name : String} (h : TypeName w name) (hx : x ≠ ".") :
    w ≠ .symbol x := by
  cases h with
  | relative => simp
  | absolute => simpa using hx.symm

theorem TypeRef.Written.ne_symbol (h : TypeRef.Written w type) (hx : x ≠ ".") : w ≠ .symbol x := by
  cases h with
  | scalar => simp
  | named hname => exact hname.ne_symbol hx

/-- A field begins with no symbol but the dot of its type. -/
theorem Field.ne_symbol_of_first {ok : Prop}
    (h : (∃ l : Label, w = .ident l.keyword) ∨ TypeRef.Written w type ∧ ok) (hx : x ≠ ".") :
    w ≠ .symbol x := by
  rcases h with ⟨l, rfl⟩ | ⟨htype, _⟩
  · simp
  · exact htype.ne_symbol hx

theorem Field.Headed.mono {f : Field} {inOneof : Bool} {ok ok' : Word → Prop}
    (h : f.Headed dialect inOneof ok) (hle : ∀ w, ok w → ok' w) : f.Headed dialect inOneof ok' := by
  obtain ⟨hlabel, v, htype, hgroup, hword⟩ := h
  exact ⟨hlabel, v, htype, hgroup, fun hnone => (hword hnone).imp_right (hle v)⟩

/-! ## Extensions -/

structure Field.Extending (dialect : Dialect) (f : Field) : Prop where
  written : f.Written dialect
  head : f.Headed dialect false fun _ => True
  extendee : ∃ w name, f.extendee = some name ∧ TypeName w name
  outside : f.oneofIndex = none

namespace Production

variable {σ : Type} {s : σ} {w : Word} {dialect : Dialect} {fields : List Field}

theorem yields_extendStatement {v : Word} {parent : List Int} (hname : TypeName v extendee)
    (hfields : ∀ f ∈ fields, f.Extending dialect) :
    Yields (extendStatement dialect extendee parent) fields w fun _ fields' _ =>
      ∀ f ∈ fields', f.Extending dialect := by
  refine .step (yields_eatSymbol (fun _ w' => yields_pure hfields) fun _ => ?_)
  refine .step (yields_here fun start => .step (yields_built ?_))
  refine .step (yields_field (fun f w' hf hhead _ hin => ?_) fun f entry w' _ _ _ _ _ _ => ?_)
  · refine yields_edit (forall_mem_concat hfields ?_)
    obtain ⟨⟨label, hlabel⟩, htype⟩ := hhead.mono fun _ _ => trivial
    exact ⟨⟨hf.name, hf.number, hf.default, hf.options⟩,
      ⟨⟨label, hlabel.kept, hlabel.marked, hlabel.outside, hlabel.allowed⟩, htype⟩,
      ⟨v, extendee, rfl, hname⟩, hin⟩
  · exact .step yields_report

theorem yields_extend {path : List Int} {Q : List Field → σ → Word → Prop}
    (hfields : ∀ f ∈ fields, f.Extending dialect)
    (h : ∀ fields' w', (∀ f ∈ fields', f.Extending dialect) → Q fields' s w') :
    Yields (extend ⟨dialect, .resume⟩ path fields) s w Q := by
  refine .step (yields_bump fun _ w' _ => .step (yields_typeName fun extendee w'' hname => ?_))
  refine .step (yields_symbol fun _ w₃ => yields_build ?_)
  have hblock : Yields (block .resume "extend" (extendStatement dialect extendee path)) fields w₃
      fun _ fields' _ => ∀ f ∈ fields', f.Extending dialect :=
    yields_block (fun fields' w hfields' _ => yields_extendStatement hname hfields') hfields
  exact hblock.mono fun _ fields' w₄ hfields' => h fields' w₄ hfields'

end Production

open Production

namespace Field

variable {σ : Type} {dialect : Dialect} {f : Field}

theorem Extending.runs (hf : f.Extending dialect) (hs : Options.Signed f.options)
    (hname : f.extendee = some extendee) (parent : List Int) (done : List Field) :
    Runs (extendStatement dialect extendee parent) done [f.line [] dialect false]
      (done ++ [f]) := by
  have hentry : f.entryIn? [] = none := rfl
  obtain ⟨w, ws, hlex, hw, hreads⟩ := hf.head.exists_reads hf.written hs hentry
    (parent ++ [Int.ofNat done.length]) done
  have hsame : { f with extendee := some extendee, oneofIndex := none } = f := by
    rw [← hname, ← hf.outside]
  refine .single hlex (ne_symbol_of_first hw (by decide)) fun rest => ?_
  have hfront : Word.front (w :: ws ++ rest) ≠ .symbol ";" := ne_symbol_of_first hw (by decide)
  refine (reads_eatSymbol_of_ne hfront).bind (.here fun start => .built ((hreads rest).bind ?_))
  rw [show done ++ [f] = done ++ [{ f with extendee := some extendee, oneofIndex := none }] by
    rw [hsame]]
  exact reads_edit _

/-- The extensions of a group extend the same message. -/
theorem extendee_of_mem_splitBy {fields rest : List Field}
    (h : f :: rest ∈ fields.splitBy fun f g => f.extendee.getD "" == g.extendee.getD "") :
    ∀ g ∈ rest, g.extendee.getD "" = f.extendee.getD "" := by
  have hchain : (f :: rest).IsChain fun f g => g.extendee.getD "" = f.extendee.getD "" :=
    (isChain_of_mem_splitBy h).imp fun f g hfg => (beq_iff_eq.mp hfg).symm
  have htrans : IsTrans Field fun f g => g.extendee.getD "" = f.extendee.getD "" :=
    ⟨fun _ _ _ hab hbc => hbc.trans hab⟩
  exact (pairwise_cons.mp (isChain_iff_pairwise.mp hchain)).1

theorem exists_reads_extendBlock {group : List Field} {v : Word}
    (hgroup : ∀ f ∈ group, f.Extending dialect ∧ Options.Signed f.options ∧
      f.extendee = some extendee) (hhead : (group.head?.bind Field.extendee).getD "" = extendee)
    (hname : TypeName v extendee) (path : List Int) (done : List Field) (s : σ) :
    ∃ ws, LinesLex (extendBlock dialect group) (.ident "extend" :: ws) ∧
      ∀ rest, Reads (extend ⟨dialect, .resume⟩ path done) s (.ident "extend" :: ws ++ rest)
        (done ++ group) s rest := by
  have hfields : Runs (extendStatement dialect extendee path) done
      (group.map fun f => f.line [] dialect false) (done ++ group) := by
    refine Runs.map id (fun done f hf => ?_) done
    obtain ⟨hext, hs, hsame⟩ := hgroup f hf
    exact hext.runs hs hsame path done
  obtain ⟨us, hus, hreads⟩ := hname.exists_reads s
  obtain ⟨ws, hlex, hsteps⟩ := hfields
  have hopening : Lexes goesOn ("extend " ++ extendee ++ " \x7b")
      (.ident "extend" :: (v :: us ++ [.symbol "\x7b"])) := by
    rw [String.append_assoc]
    exact ((hus.followed [.symbol "\x7b"] (by decide)).behind [.ident "extend"] (by decide)).any
  refine ⟨v :: us ++ .symbol "\x7b" :: (ws ++ [.symbol "\x7d"]), ?_, fun rest => ?_⟩
  · have hlines := LinesLex.block hopening hlex lexes_closing
    rw [extendBlock, hhead]
    simpa only [cons_append, append_assoc, nil_append] using hlines
  · simp only [cons_append, append_assoc, nil_append]
    refine .bump fun _ _ => (hreads _ (by simp)).bind ((reads_symbol "\x7b").bind ?_)
    exact reads_build (hsteps.reads_block _ rest)

end Field

/-- Extensions in the lines of a block or a file. -/
theorem runs_extendLines {σ : Type} {statement : Production σ Unit} {fields : List Field}
    {path : List Int} (hfields : ∀ f ∈ fields, f.Extending dialect ∧ Options.Signed f.options)
    (state : List Field → σ)
    (hstatement : ∀ {done fields ws ws'}, Word.front ws = .ident "extend" →
      Reads (extend ⟨dialect, .resume⟩ path done) (state done) ws fields (state done) ws' →
      Reads statement (state done) ws () (state fields) ws') :
    Runs statement (state []) (Field.extendLines dialect fields) (state fields) := by
  have hgroup : ∀ done,
      ∀ group ∈ fields.splitBy fun f g => f.extendee.getD "" == g.extendee.getD "",
      Runs statement (state (List.flatten done)) (Field.extendBlock dialect group)
        (state (List.flatten (done ++ [group]))) := by
    intro done group hmem
    obtain ⟨f, rest, rfl⟩ := exists_cons_of_ne_nil (ne_nil_of_mem_splitBy hmem)
    have hin : ∀ g ∈ f :: rest, g ∈ fields := by
      intro g hg
      rw [← flatten_splitBy (fun f g => f.extendee.getD "" == g.extendee.getD "") fields]
      exact mem_flatten_of_mem hmem hg
    obtain ⟨v, extendee, hf, hname⟩ := (hfields f (hin f (by simp))).1.extendee
    have hsame : ∀ g ∈ f :: rest, g.extendee = some extendee := by
      intro g hg
      rcases mem_cons.mp hg with rfl | hg
      · exact hf
      · obtain ⟨_, other, hother, _⟩ := (hfields g (hin g (by simp [hg]))).1.extendee
        have heq := Field.extendee_of_mem_splitBy hmem g hg
        rw [hother, hf] at heq
        rw [hother]
        exact congrArg some heq
    obtain ⟨ws, hlex, hreads⟩ := Field.exists_reads_extendBlock
      (fun g hg => ⟨(hfields g (hin g hg)).1, (hfields g (hin g hg)).2, hsame g hg⟩)
      (by simp [hf]) hname path done.flatten (state done.flatten)
    rw [flatten_concat]
    exact .single hlex (by simp) fun rest => hstatement rfl (hreads rest)
  have hall := Runs.flatMap (fun groups => state groups.flatten) hgroup []
  rwa [nil_append, flatten_splitBy] at hall

/-! ## Numbers left open -/

structure ExtensionRange.Written (r : ExtensionRange) : Prop where
  range : ReservedRules.message.Written ⟨r.start, r.stop⟩
  options : Options.Written r.options

/-- The last number of a range, from the number after it. -/
theorem ReservedRules.Written.last {r : ReservedRange} (h : message.Written r) :
    message.Allows (r.stop - 1) ∧ message.stop (r.stop - 1) = r.stop := by
  obtain ⟨_, last, hlast, hstop⟩ := h
  rw [← hstop]
  change message.Allows (afterNumber last - 1) ∧
    afterNumber (afterNumber last - 1) = afterNumber last
  by_cases hmax : last = Int32.maxValue
  · subst hmax
    exact ⟨.inr (by decide), by decide⟩
  · have hbefore : afterNumber last - 1 = last := by
      rw [afterNumber, if_neg hmax, Int32.add_sub_cancel]
    rw [hbefore]
    exact ⟨hlast, rfl⟩

namespace Production

variable {w : Word} {m : Message}

theorem yields_extensionRange
    (h : ∀ r w', r.Written → Q () { m with extensionRanges := m.extensionRanges ++ [r] } w') :
    Yields extensionRange m w Q := by
  refine .step (yields_int32 fun start w' hstart => ?_)
  refine .step (yields_rangeEnd (by decide) hstart fun last w'' hlast => yields_edit ?_)
  exact h _ w'' ⟨⟨hstart, last, hlast, rfl⟩, Options.written_nil⟩

theorem yields_extensionsStatement (hm : ∀ r ∈ m.extensionRanges, r.Written)
    (h : ∀ ranges w', (∀ r ∈ ranges, ExtensionRange.Written r) →
      Q () { m with extensionRanges := ranges } w') : Yields extensionsStatement m w Q := by
  let I (m' : Message) : Prop :=
    ∃ ranges, (∀ r ∈ ranges, ExtensionRange.Written r) ∧ m' = { m with extensionRanges := ranges }
  have hitem : ∀ m' w, I m' → Yields extensionRange m' w fun _ m'' _ => True ∧ I m'' := by
    rintro _ w ⟨ranges, hranges, rfl⟩
    exact yields_extensionRange fun r w' hr => ⟨trivial, _, forall_mem_concat hranges hr, rfl⟩
  refine .step (yields_bump fun _ w' _ => .step (yields_built ?_))
  dsimp only
  have hinit : I m := ⟨_, hm, by cases m; rfl⟩
  refine (yields_sepBy hitem hinit).bind ?_
  rintro _ _ w'' ⟨_, ranges, hranges, rfl⟩
  refine .step (yields_atSymbol ?_)
  split
  · refine .step (yields_bracketedOptions fun options w₃ hoptions => .step (yields_edit ?_))
    refine yields_symbol fun _ w₄ => h _ w₄ (forall_mem_append.mpr ⟨?_, ?_⟩)
    · exact fun r hr => hranges r (mem_of_mem_take hr)
    · refine forall_mem_map.mpr fun r hr => ?_
      exact ⟨(hranges r (mem_of_mem_drop hr)).range, hoptions⟩
  · exact yields_symbol fun _ w₃ => h ranges w₃ hranges

def boundWords (start last : Int32) : List Word :=
  if last = Field.maxNumber then [.ident "to", .ident "max"]
  else if last = start then [] else .ident "to" :: intWords last.toInt

theorem reads_bound {σ : Type} {s : σ} {rest : List Word} (start : Int32) {last : Int32}
    (hlast : ReservedRules.message.Allows last) (hrest : Word.front rest ≠ .ident "to") :
    Reads (rangeEnd .message start) s (boundWords start last ++ rest) last s rest := by
  unfold boundWords
  split
  · next hmax =>
    rw [hmax]
    exact (reads_eatWord "to").bind ((reads_eatWord "max").bind (reads_pure _))
  · exact reads_rangeEnd start hlast hrest

/-- A single range left open, before its options. -/
theorem reads_extensionRanges {start last : Int32} {rest : List Word}
    (hstart : ReservedRules.message.Allows start) (hlast : ReservedRules.message.Allows last)
    (hto : Word.front rest ≠ .ident "to") (hcomma : Word.front rest ≠ .symbol ",") (m : Message) :
    Reads (sepBy "," extensionRange) m (intWords start.toInt ++ (boundWords start last ++ rest))
      [()] { m with extensionRanges := m.extensionRanges ++ [⟨start, afterNumber last, []⟩] }
      rest := by
  have hrange : Reads extensionRange m (intWords start.toInt ++ (boundWords start last ++ rest)) ()
      { m with extensionRanges := m.extensionRanges ++ [⟨start, afterNumber last, []⟩] } rest :=
    (reads_int32 hstart _).bind ((reads_bound start hlast hto).bind (reads_edit _))
  have hnone : After "," extensionRange (fun _ => True)
      { m with extensionRanges := m.extensionRanges ++ [⟨start, afterNumber last, []⟩] } [] [] _ :=
    .nil
  exact hrange.bind ((hnone.reads trivial trivial hcomma).bind (reads_pure _))

end Production

/-- The options of a single range left open, up to the end of the statement. -/
theorem exists_reads_rangeOptions (start stop : Int32) {options : Options}
    (hw : Options.Written options) (hs : Options.Signed options) (m : Message) :
    ∃ us, Lexes never (Options.bracketed options []) us ∧
      (∀ rest, (Word.front (us ++ .symbol ";" :: rest)).kind = .symbol ∧
        Word.front (us ++ .symbol ";" :: rest) ≠ .symbol ",") ∧
      ∀ rest, Reads (do
        if ← atSymbol "[" then
          let options ← bracketedOptions
          edit fun m' : Message =>
            { m' with
              extensionRanges :=
                m'.extensionRanges.take m.extensionRanges.length ++
                  (m'.extensionRanges.drop m.extensionRanges.length).map fun r =>
                    { r with options } }
        endOfStatement : Production Message Unit)
        { m with extensionRanges := m.extensionRanges ++ [⟨start, stop, []⟩] }
        (us ++ .symbol ";" :: rest) ()
        { m with extensionRanges := m.extensionRanges ++ [⟨start, stop, options⟩] } rest := by
  by_cases hne : options = []
  · subst hne
    refine ⟨[], .empty never, fun rest => ⟨rfl, by simp⟩, fun rest => (reads_atSymbol "[").bind ?_⟩
    rw [if_neg (by simp)]
    exact reads_symbol ";"
  · let bare : Message := { m with extensionRanges := m.extensionRanges ++ [⟨start, stop, []⟩] }
    obtain ⟨us, hus, hreads⟩ := exists_reads_bracketedOptions hw hs hne bare
    refine ⟨_, hus, fun rest => ⟨rfl, by simp⟩, fun rest => (reads_atSymbol "[").bind ?_⟩
    rw [if_pos (by simp)]
    refine (hreads _).bind ((reads_edit _).bind ?_)
    simp only [bare, List.take_left, List.drop_left, List.map_cons, List.map_nil]
    exact reads_symbol ";"

theorem ExtensionRange.lexes_bound (start last : Int32) :
    Lexes goesOn (toString start.toInt ++
      if last = Field.maxNumber then " to max"
      else if last = start then ""
      else " to " ++ toString last.toInt) (intWords start.toInt ++ boundWords start last) := by
  unfold boundWords
  split
  · have hmax : Lexes isWordChar " to max" [.ident "to", .ident "max"] :=
      lexes_plain_word (by decide)
    exact (lexes_int _).append hmax.goesOn (fits_of_head (c := ' ') (by simp) rfl)
  · split
    · simpa using lexes_int start.toInt
    · exact (lexes_int _).joined [.ident "to"] (by decide) (lexes_int _)

/-- A range left open is read from its line. -/
theorem ExtensionRange.Written.exists_reads {r : ExtensionRange} (h : r.Written)
    (hs : Options.Signed r.options) (m : Message) :
    ∃ ws, LinesLex [r.line] (.ident "extensions" :: ws) ∧
      ∀ rest, Reads extensionsStatement m (.ident "extensions" :: ws ++ rest) ()
        { m with extensionRanges := m.extensionRanges ++ [r] } rest := by
  obtain ⟨hlast, hstop⟩ := h.range.last
  replace hstop : afterNumber (r.stop - 1) = r.stop := hstop
  obtain ⟨us, hus, hfront, hoptions⟩ :=
    exists_reads_rangeOptions r.start r.stop h.options hs m
  refine ⟨intWords r.start.toInt ++ (boundWords r.start (r.stop - 1) ++ (us ++ [.symbol ";"])), ?_,
    fun rest => ?_⟩
  · have hword : Lexes never "extensions " [.ident "extensions"] := lexes_plain (by decide)
    have hnumber := (lexes_bound r.start (r.stop - 1)).append
      (hus.followed (u := ";") [.symbol ";"] (by decide)) (fits_bracketed _ _ _)
    have hline := hword.append hnumber (fits_never _ _)
    simp only [← String.append_assoc, append_assoc] at hline
    exact .of hline.any
  · simp only [cons_append, append_assoc, nil_append]
    obtain ⟨hkind, hcomma⟩ := hfront rest
    have hranges := reads_extensionRanges h.range.start hlast
      (fun hto => by rw [hto] at hkind; cases hkind) hcomma m
    rw [hstop] at hranges
    exact .bump fun _ _ => .built (hranges.bind (hoptions rest))

end ProtoSchema
