import ProtoSchema.Proofs.Decimal.Spelled
import ProtoSchema.Proofs.Grammar.Literal

/-!
Options and their values, read and printed. Every value that can be read is read again from what it
is printed as, except an integer zero with a minus sign, which is printed without the sign.
-/

namespace ProtoSchema

open Scan List Token

variable {ws : List Word} {options : Options}

/-! ## Aggregates -/

/-- Words whose braces match, once `depth` further braces have been opened before them. -/
inductive Balanced : Nat → List Word → Prop
  | nil : Balanced 0 []
  | close {depth : Nat} {ws : List Word} :
    Balanced depth ws → Balanced (depth + 1) (.symbol "\x7d" :: ws)
  | opening {depth : Nat} {ws : List Word} :
    Balanced (depth + 1) ws → Balanced depth (.symbol "\x7b" :: ws)
  | other {depth : Nat} {w : Word} {ws : List Word} :
    w ≠ .symbol "\x7b" → w ≠ .symbol "\x7d" → Balanced depth ws → Balanced depth (w :: ws)

namespace Cursor

theorem clean_takeAggregate {depth : Nat} {c : Cursor} (hc : c.Clean)
    (hquiet : (c.takeAggregate depth).2.diagnostics = []) :
    (c.takeAggregate depth).2.Clean ∧ ∀ texts, (c.takeAggregate depth).1 = some texts →
      ∃ ws : List Word, (∀ w ∈ ws, w.Valid) ∧ Balanced depth ws ∧ texts = ws.map Word.text := by
  fun_induction takeAggregate depth c with
  | case1 => exact ⟨hc, fun texts h => by cases h⟩
  | case2 c =>
    refine ⟨hc.bump hquiet, fun texts h => ?_⟩
    cases h
    exact ⟨[], by simp, .nil, rfl⟩
  | case3 c hne hclose depth rest d heq ih =>
    have hd := c.bump.takeAggregate_onward depth
    rw [heq] at ih hd
    obtain ⟨hclean, hwords⟩ := ih (hc.bump (hd.quiet hquiet)) hquiet
    refine ⟨hclean, fun texts h => ?_⟩
    obtain ⟨texts', htexts, rfl⟩ := Option.map_eq_some_iff.mp h
    obtain ⟨ws, hvalid, hbalanced, rfl⟩ := hwords texts' htexts
    have hword := isSymbol_iff.mp hclose
    refine ⟨c.current.word :: ws, ?_, ?_, rfl⟩
    · simpa using ⟨hc.current.resolve_right fun h => hne h.2, hvalid⟩
    · rw [hword]
      exact .close hbalanced
  | case4 depth c hne hclose inner rest d heq ih =>
    have hd := c.bump.takeAggregate_onward inner
    rw [heq] at ih hd
    obtain ⟨hclean, hwords⟩ := ih (hc.bump (hd.quiet hquiet)) hquiet
    refine ⟨hclean, fun texts h => ?_⟩
    obtain ⟨texts', htexts, rfl⟩ := Option.map_eq_some_iff.mp h
    obtain ⟨ws, hvalid, hbalanced, rfl⟩ := hwords texts' htexts
    refine ⟨c.current.word :: ws, ?_, ?_, rfl⟩
    · simpa using ⟨hc.current.resolve_right fun h => hne h.2, hvalid⟩
    · unfold inner at hbalanced
      split at hbalanced
      · next hopen =>
        rw [isSymbol_iff.mp hopen]
        exact .opening hbalanced
      · next hopen =>
        exact .other (fun h => hopen (isSymbol_iff.mpr h))
          (fun h => hclose (isSymbol_iff.mpr h)) hbalanced

theorem Offers.takeAggregate {depth : Nat} {rest : List Word} (h : Balanced depth ws) {c : Cursor}
    (hc : c.Offers (ws ++ .symbol "\x7d" :: rest)) :
    ∃ d : Cursor, c.takeAggregate depth = (some (ws.map Word.text), d) ∧ d.Offers rest ∧
      d.diagnostics = c.diagnostics ∧ d.unterminated = c.unterminated := by
  induction h generalizing c with
  | nil =>
    refine ⟨c.bump, ?_, hc.bump⟩
    rw [Cursor.takeAggregate, dif_neg hc.ahead_ne_nil, if_pos (isSymbol_iff.mpr hc.current)]
    rfl
  | @close depth ws _ ih =>
    obtain ⟨hbump, hdiag, hterm⟩ := hc.bump
    obtain ⟨d, htake, hd, hdiag', hterm'⟩ := ih hbump
    refine ⟨d, ?_, hd, hdiag'.trans hdiag, hterm'.trans hterm⟩
    rw [Cursor.takeAggregate, dif_neg hc.ahead_ne_nil, if_pos (isSymbol_iff.mpr hc.current)]
    simp only [htake, Option.map_some, map_cons]
    rw [show c.current.text = _ from congrArg Word.text hc.current]
    rfl
  | @opening depth ws _ ih =>
    obtain ⟨hbump, hdiag, hterm⟩ := hc.bump
    obtain ⟨d, htake, hd, hdiag', hterm'⟩ := ih hbump
    refine ⟨d, ?_, hd, hdiag'.trans hdiag, hterm'.trans hterm⟩
    have hopen : c.current.word = .symbol "\x7b" := hc.current
    rw [Cursor.takeAggregate.eq_def, dif_neg hc.ahead_ne_nil,
      if_neg (by rw [isSymbol_iff, hopen]; decide), if_pos (isSymbol_iff.mpr hopen)]
    simp only [htake, Option.map_some, map_cons]
    rw [show c.current.text = _ from congrArg Word.text hopen]
  | @other depth w ws hopen hclose _ ih =>
    obtain ⟨hbump, hdiag, hterm⟩ := hc.bump
    obtain ⟨d, htake, hd, hdiag', hterm'⟩ := ih hbump
    refine ⟨d, ?_, hd, hdiag'.trans hdiag, hterm'.trans hterm⟩
    have hword : c.current.word = w := hc.current
    rw [Cursor.takeAggregate.eq_def, dif_neg hc.ahead_ne_nil,
      if_neg (by rwa [isSymbol_iff, hword]), if_neg (by rwa [isSymbol_iff, hword])]
    simp only [htake, Option.map_some, map_cons]
    rw [show c.current.text = _ from congrArg Word.text hword]

end Cursor

theorem lexes_intercalate_blank (h : ∀ w ∈ ws, w.Valid) :
    Lexes goesOn (" ".intercalate (ws.map Word.text)) ws := by
  induction ws with
  | nil => exact .empty goesOn
  | cons w ws ih =>
    have hw := (h w (by simp)).lexes
    have hws := ih fun v hv => h v (by simp [hv])
    cases ws with
    | nil => simpa [String.intercalate_singleton] using hw
    | cons v vs =>
      rw [map_cons, map_cons, String.intercalate_cons_cons, String.append_assoc]
      exact hw.joined [] (by decide) hws

/-! ## Values -/

inductive OptionValue.Written : OptionValue → Prop
  | identifier {name : String} :
    IsIdentifier name → name ≠ "inf" → name ≠ "nan" → Written (.identifier name)
  | uint (value : UInt64) : Written (.uint value)
  | int {value : Int64} : value.toInt ≤ 0 → Written (.int value)
  | float (value : Double) : Written (.float value)
  | string (text : String) : Written (.string text)
  | aggregate {ws : List Word} :
    (∀ w ∈ ws, w.Valid) → Balanced 0 ws → Written (.aggregate (" ".intercalate (ws.map Word.text)))

namespace Production

variable {σ : Type} {s : σ} {w : Word}

theorem yields_aggregate {Q : OptionValue → σ → Word → Prop}
    (h : ∀ v w', v.Written → Q v s w') : Yields aggregate s w Q := by
  refine .step (yields_bump fun _ w' _ => .step (yields_move fun c hc _ hquiet => ?_))
  obtain ⟨hclean, hwords⟩ := Cursor.clean_takeAggregate hc hquiet
  refine ⟨hclean, ?_⟩
  split
  · next texts htexts =>
    obtain ⟨ws, hvalid, hbalanced, rfl⟩ := hwords texts htexts
    exact yields_pure (h _ _ (.aggregate hvalid hbalanced))
  · exact yields_rejectHere

theorem yields_negativeValue {start : Position} {Q : OptionValue → σ → Word → Prop}
    (h : ∀ v w', v.Written → Q v s w') : Yields (negativeValue start) s w Q := by
  refine .step (yields_peek fun t _ => ?_)
  split
  · refine .step (yields_integer fun n w' _ => ?_)
    split
    · exact yields_reject
    · next hn =>
      rw [Nat.pow_eq] at hn
      refine yields_pure (h _ _ (.int ?_))
      rw [Int64.toInt_ofInt_of_le (by omega) (by omega)]
      omega
  · split
    · exact .step (yields_bump fun _ w' _ => yields_pure (h _ w' (.float _)))
    · split
      · exact .step (yields_bump fun _ w' _ => yields_pure (h _ w' (.float _)))
      · split
        · exact .step (yields_bump fun _ w' _ => yields_pure (h _ w' (.float _)))
        · exact yields_expected

theorem yields_optionValue {Q : OptionValue → σ → Word → Prop}
    (h : ∀ v w', v.Written → Q v s w') : Yields optionValue s w Q := by
  refine .step (yields_here fun start => .step (yields_eatSymbol (fun _ w' => ?_) fun _ => ?_))
  · exact yields_negativeValue h
  · refine .of_inText fun hw => .step (yields_peek fun t ht => ?_)
    split
    · exact .step (yields_integer fun n w' _ => yields_pure (h _ w' (.uint _)))
    · exact .step (yields_bump fun _ w' _ => yields_pure (h _ w' (.float _)))
    · exact .step (yields_stringBytes fun _ w' => yields_pure (h _ w' (.string _)))
    · next hk =>
      refine .step (yields_bump fun _ w' _ => ?_)
      split
      · exact yields_pure (h _ w' (.float _))
      · next hinf =>
        split
        · exact yields_pure (h _ w' (.float _))
        · next hnan =>
          subst ht
          exact yields_pure (h _ w' (.identifier (hw.isIdentifier hk) hinf hnan))
    · split
      · exact yields_aggregate h
      · exact yields_expected

end Production

namespace OptionValue

open Production

variable {σ : Type} {s : σ} {rest : List Word}

theorem reads_identifier {name : String} (hinf : name ≠ "inf") (hnan : name ≠ "nan") :
    Reads optionValue s (.ident name :: rest) (.identifier name) s rest := by
  refine .here fun _ => (reads_eatSymbol_of_ne (by simp)).bind (.token fun t hkind htext => ?_)
  simp only [hkind, htext]
  refine .bump fun _ _ => ?_
  rw [if_neg hinf, if_neg hnan]
  exact reads_pure _

theorem reads_uint (value : UInt64) :
    Reads optionValue s (⟨.integer, toString value.toNat⟩ :: rest) (.uint value) s rest := by
  refine .here fun _ => (reads_eatSymbol_of_ne (by simp [Word.symbol])).bind ?_
  refine .token fun t hkind _ => ?_
  simp only [hkind]
  refine (reads_integer value.toNat_lt _).bind ?_
  rw [UInt64.ofNat_toNat]
  exact reads_pure _

theorem reads_int {value : Int64} (h : value.toInt < 0) :
    Reads optionValue s (intWords value.toInt ++ rest) (.int value) s rest := by
  rw [intWords, if_pos h]
  refine .here fun _ => (reads_eatSymbol "-").bind (.token fun t hkind _ => ?_)
  have hlow := value.le_toInt
  have hnat : value.toInt.natAbs < IntegerLiteral.limit := by
    rw [IntegerLiteral.limit, Nat.pow_eq]
    omega
  have hneg : -(value.toInt.natAbs : Int) = value.toInt := by omega
  rw [if_pos hkind]
  refine (reads_integer hnat _).bind ?_
  rw [if_neg (by rw [Nat.pow_eq]; omega), hneg, Int64.ofInt_toInt]
  exact reads_pure _

theorem reads_float {text : String} {value : Double} (h : floatValue text = value) :
    Reads optionValue s (⟨.float, text⟩ :: rest) (.float value) s rest := by
  refine .here fun _ => (reads_eatSymbol_of_ne (by simp [Word.symbol])).bind ?_
  refine .token fun t hkind htext => ?_
  simp only [hkind, htext, h]
  exact .bump fun _ _ => reads_pure _

theorem reads_negFloat {text : String} {value : Double} (h : floatValue text = value) :
    Reads optionValue s (.symbol "-" :: ⟨.float, text⟩ :: rest) (.float value.neg) s rest := by
  refine .here fun _ => (reads_eatSymbol "-").bind (.token fun t hkind htext => ?_)
  rw [if_neg (by simp [hkind]), if_pos hkind, htext, h]
  exact .bump fun _ _ => reads_pure _

theorem reads_nan : Reads optionValue s (.ident "nan" :: rest) (.float .nan) s rest := by
  refine .here fun _ => (reads_eatSymbol_of_ne (by simp)).bind (.token fun t hkind htext => ?_)
  simp only [hkind, htext]
  exact .bump fun _ _ => reads_pure _

theorem reads_inf :
    Reads optionValue s (.ident "inf" :: rest) (.float (.infinite false)) s rest := by
  refine .here fun _ => (reads_eatSymbol_of_ne (by simp)).bind (.token fun t hkind htext => ?_)
  simp only [hkind, htext]
  exact .bump fun _ _ => reads_pure _

theorem reads_negInf :
    Reads optionValue s (.symbol "-" :: .ident "inf" :: rest) (.float (.infinite true)) s rest := by
  refine .here fun _ => (reads_eatSymbol "-").bind (.peek fun t ht => ?_)
  have hkind : t.kind = .identifier := congrArg Word.kind ht
  rw [if_neg (by simp [hkind]), if_neg (by simp [hkind]), if_pos (isWord_iff.mpr ht)]
  exact .bump fun _ _ => reads_pure _

theorem reads_string (text : String) (hrest : (Word.front rest).kind ≠ .string) :
    Reads optionValue s (⟨.string, literal text⟩ :: rest) (.string text) s rest := by
  refine .here fun _ => (reads_eatSymbol_of_ne (by simp [Word.symbol])).bind ?_
  refine .token fun t hkind _ => ?_
  simp only [hkind]
  refine (reads_stringBytes _ _ hrest).bind ?_
  rw [literal, Escape.unescape_doubleQuoted, Utf8.lossy_bytes]
  exact reads_pure _

theorem reads_aggregate (h : Balanced 0 ws) :
    Reads optionValue s (.symbol "\x7b" :: ws ++ .symbol "\x7d" :: rest)
      (.aggregate (" ".intercalate (ws.map Word.text))) s rest := by
  refine .here fun _ => (reads_eatSymbol_of_ne ?_).bind (.peek fun t ht => ?_)
  · simp
  · have hkind : t.kind = .symbol := congrArg Word.kind ht
    simp only [hkind]
    rw [if_pos (isSymbol_iff.mpr ht)]
    refine .bump fun _ _ => (reads_move fun c hc => hc.takeAggregate h).bind ?_
    exact reads_pure _

theorem recovers_float (value : Double) :
    Recovers goesOn (fun _ => True) optionValue s (OptionValue.float value).render (.float value)
      s := by
  cases value with
  | nan =>
    exact ⟨[.ident "nan"], (lexes_plain_word (by decide)).goesOn, fun rest _ => reads_nan⟩
  | infinite negative =>
    cases negative with
    | true =>
      exact ⟨[.symbol "-", .ident "inf"], (lexes_plain_word (by decide)).goesOn,
        fun rest _ => reads_negInf⟩
    | false =>
      exact ⟨[.ident "inf"], (lexes_plain_word (by decide)).goesOn, fun rest _ => reads_inf⟩
  | finite negative magnitude =>
    obtain ⟨body, hbody, hspell⟩ := DoubleFormat.exists_spell (f := doubleFormat) (by decide)
      (by decide) (by decide) negative magnitude
    have hlex : Lexes goesOn (String.ofList body) [⟨.float, String.ofList body⟩] :=
      lexes_number (by rw [String.toList_ofList]; exact hbody.text)
    rw [render, hspell]
    cases negative with
    | true =>
      refine ⟨[.symbol "-", ⟨.float, String.ofList body⟩], ?_, ?_⟩
      · rw [if_pos rfl, ← singleton_append, String.ofList_append]
        exact hlex.behind [.symbol "-"] (by decide)
      · exact fun rest _ => reads_negFloat hbody.floatValue_eq
    | false => exact ⟨_, hlex, fun rest _ => reads_float hbody.floatValue_eq⟩

/-- A value is read from what it is printed as. A minus sign in front of an integer zero is lost. -/
theorem Written.recovers {v : OptionValue} (h : v.Written) (hzero : v ≠ .int 0) :
    RecoversItem optionValue s v.render v s := by
  cases h with
  | identifier hname hinf hnan =>
    exact ⟨_, (lexes_ident hname).goesOn, fun rest _ => reads_identifier hinf hnan⟩
  | uint value => exact ⟨_, lexes_nat _, fun rest _ => reads_uint value⟩
  | @int value hle =>
    refine ⟨_, lexes_int _, fun rest _ => reads_int (lt_of_le_of_ne hle fun h => hzero ?_)⟩
    rw [Int64.toInt_inj.mp (h.trans Int64.toInt_zero.symm)]
  | float value =>
    obtain ⟨ws, hlex, hreads⟩ := recovers_float (s := s) value
    exact ⟨ws, hlex, fun rest _ => hreads rest trivial⟩
  | string text =>
    refine ⟨_, (lexes_literal text).any, fun rest hrest => reads_string text ?_⟩
    exact fun h => absurd (hrest.symm.trans h) (by decide)
  | @aggregate ws hvalid hbalanced =>
    refine ⟨.symbol "\x7b" :: ws ++ [.symbol "\x7d"], ?_, fun rest _ => ?_⟩
    · have hwords := lexes_intercalate_blank hvalid
      rw [render, String.append_assoc]
      exact ((hwords.followed [.symbol "\x7d"] (by decide)).behind [.symbol "\x7b"] (by decide)).any
    · rw [append_assoc]
      exact reads_aggregate hbalanced

end OptionValue

/-! ## Settings -/

inductive OptionNamePart : Word → String → Prop
  | plain {name : String} : IsIdentifier name → OptionNamePart (.ident name) name
  | extension {w : Word} {name : String} :
    TypeName w name → OptionNamePart (.symbol "(") ("(" ++ name ++ ")")

def OptionName (w : Word) (name : String) : Prop :=
  ∃ first parts, OptionNamePart w first ∧ (∀ p ∈ parts, ∃ v, OptionNamePart v p) ∧
    name = ".".intercalate (first :: parts)

structure Setting.Written (w : Word) (s : Setting) : Prop where
  name : OptionName w s.name
  value : s.value.Written

namespace Production

variable {σ : Type} {s : σ} {w : Word}

theorem yields_optionNamePart {Q : String → σ → Word → Prop}
    (h : ∀ part w', OptionNamePart w part → Q part s w') : Yields optionNamePart s w Q := by
  refine .step (yields_eatSymbol (fun hw w' => ?_) fun _ => ?_)
  · refine .step (yields_typeName fun name w'' hname => .step (yields_symbol fun _ w₃ => ?_))
    exact yields_pure (h _ w₃ (hw ▸ .extension hname))
  · exact yields_identifier fun name w' hw hname => h name w' (hw ▸ .plain hname)

theorem yields_optionName {Q : String → σ → Word → Prop}
    (h : ∀ name w', OptionName w name → Q name s w') : Yields optionName s w Q := by
  have hpart : ∀ t w, t = s → Yields optionNamePart t w fun part t' _ =>
      (∃ v, OptionNamePart v part) ∧ t' = s :=
    fun t w ht => yields_optionNamePart fun part _ hpart => ⟨⟨w, hpart⟩, ht⟩
  refine .bind (Q := fun parts s' _ => s' = s ∧ OptionName w (".".intercalate parts)) ?_ ?_
  · refine .step (yields_optionNamePart fun first w' hfirst => (yields_after hpart rfl).bind ?_)
    rintro parts _ w'' ⟨hparts, rfl⟩
    exact yields_pure ⟨rfl, first, parts, hfirst, hparts, rfl⟩
  · rintro parts _ w' ⟨rfl, hname⟩
    exact yields_pure (h _ w' hname)

theorem yields_setting {Q : Setting → σ → Word → Prop}
    (h : ∀ t w', Setting.Written w t → Q t s w') : Yields setting s w Q := by
  refine .step (yields_optionName fun name w' hname => .step (yields_symbol fun _ w'' => ?_))
  exact .step (yields_optionValue fun value w₃ hvalue => yields_pure (h _ w₃ ⟨hname, hvalue⟩))

end Production

open Production

variable {σ : Type} {w : Word} {part : String} {t : Setting}

theorem OptionNamePart.exists_reads (h : OptionNamePart w part) (s : σ) :
    ∃ ws, Lexes isWordChar part (w :: ws) ∧
      ∀ rest, Reads optionNamePart s (w :: ws ++ rest) part s rest := by
  cases h with
  | plain hname =>
    refine ⟨[], lexes_ident hname, fun rest => ?_⟩
    exact (reads_eatSymbol_of_ne (by simp)).bind (Production.reads_identifier part _)
  | @extension w name hname =>
    obtain ⟨ws, hlex, hreads⟩ := hname.exists_reads s
    refine ⟨w :: ws ++ [.symbol ")"], ?_, fun rest => ?_⟩
    · rw [String.append_assoc]
      exact ((hlex.followed [.symbol ")"] (by decide)).behind [.symbol "("] (by decide)).any
    · rw [cons_append, append_assoc]
      refine (reads_eatSymbol "(").bind ((hreads _ (by simp)).bind ?_)
      exact (reads_symbol ")").bind (reads_pure _)

theorem OptionNamePart.fits (h : OptionNamePart w part) : Fits (symbolStop '.') never part := by
  cases h with
  | plain hname => exact hname.fits
  | extension => exact fits_of_head (c := '(') (by simp) rfl

theorem OptionName.exists_reads {name : String} (h : OptionName w name) (s : σ) :
    ∃ ws, Lexes isWordChar name (w :: ws) ∧
      ∀ rest, Word.front rest ≠ .symbol "." → Reads optionName s (w :: ws ++ rest) name s rest := by
  obtain ⟨first, parts, hfirst, hparts, rfl⟩ := h
  have hall : RecoversAll isWordChar (fun _ => True) optionNamePart s parts parts s := by
    clear hfirst
    induction parts with
    | nil => exact .nil
    | cons p parts ih =>
      obtain ⟨v, hp⟩ := hparts p (by simp)
      obtain ⟨ws, hlex, hreads⟩ := hp.exists_reads s
      exact .cons ⟨_, hlex, fun rest _ => hreads rest⟩ (ih fun q hq => hparts q (by simp [hq]))
  have hfits : ∀ p ∈ parts, Fits (symbolStop '.') never p := by
    intro p hp
    obtain ⟨v, hv⟩ := hparts p hp
    exact hv.fits
  obtain ⟨us, hus, hreads⟩ := hfirst.exists_reads s
  obtain ⟨ws, hlex, hsep⟩ := hall.exists_sepBy hus (fun rest _ => hreads rest) lexes_point
    (fits_of_head (c := '.') rfl rfl) hfits trivial
  exact ⟨us ++ ws, hlex, fun rest hrest => (hsep rest trivial hrest).bind (reads_pure _)⟩

theorem Setting.Written.exists_reads (h : t.Written w) (hzero : t.value ≠ .int 0) (s : σ) :
    ∃ ws, Lexes goesOn t.render (w :: ws) ∧ ∀ rest, (Word.front rest).kind = .symbol →
      Reads setting s (w :: ws ++ rest) t s rest := by
  obtain ⟨ws, hname, hreads⟩ := h.name.exists_reads s
  obtain ⟨vs, hvalue, hreads'⟩ := h.value.recovers (s := s) hzero
  refine ⟨ws ++ .symbol "=" :: vs, ?_, fun rest hrest => ?_⟩
  · rw [Setting.render, String.append_assoc]
    exact hname.joined [.symbol "="] (by decide) hvalue
  · rw [cons_append, append_assoc]
    exact (hreads _ (by simp)).bind
      ((reads_symbol "=").bind ((hreads' rest hrest).bind (reads_pure _)))

/-! ## Lists of options -/

def Options.Written (options : Options) : Prop :=
  ∀ t ∈ options, ∃ w, Setting.Written w t

theorem Options.written_nil : Options.Written [] :=
  forall_mem_nil _

theorem Options.Written.concat (h : options.Written) (ht : ∃ w, Setting.Written w t) :
    Options.Written (options ++ [t]) :=
  forall_mem_concat h ht

/-- Options without an integer zero behind a minus sign. -/
def Options.Signed (options : Options) : Prop :=
  ∀ t ∈ options, t.value ≠ .int 0

namespace Production

variable {σ α : Type} {s s' : σ} {w : Word}

variable {add : Setting → σ → σ}

theorem yields_optionStatement {Q : Unit → σ → Word → Prop}
    (h : ∀ t w', (∃ v, Setting.Written v t) → Q () (add t s) w') :
    Yields (optionStatement add) s w Q := by
  refine .step (yields_bump fun _ w' _ => .step (yields_setting fun t w'' ht => ?_))
  exact .step (yields_symbol fun _ w₃ => yields_edit (h t w₃ ⟨w', ht⟩))

theorem yields_bracketedOptions {Q : Options → σ → Word → Prop}
    (h : ∀ options w', Options.Written options → Q options s w') :
    Yields bracketedOptions s w Q := by
  have hsetting : ∀ t w, t = s → Yields setting t w fun a t' _ =>
      (∃ v, Setting.Written v a) ∧ t' = s :=
    fun t w ht => yields_setting fun a _ ha => ⟨⟨w, ha⟩, ht⟩
  refine .step (yields_symbol fun _ w' => (yields_sepBy hsetting rfl).bind ?_)
  rintro options _ w'' ⟨hoptions, rfl⟩
  exact .step (yields_symbol fun _ w₃ => yields_pure (h options w₃ hoptions))

theorem yields_optionalOptions {Q : Options → σ → Word → Prop}
    (h : ∀ options w', Options.Written options → Q options s w') :
    Yields optionalOptions s w Q := by
  refine .step (yields_atSymbol ?_)
  split
  · exact yields_bracketedOptions h
  · exact yields_pure (h [] w Options.written_nil)

theorem exists_reads_optionStatement {v : Word} (ht : t.Written v) (hzero : t.value ≠ .int 0)
    (add : Setting → σ → σ) (s : σ) :
    ∃ ws, Lexes goesOn ("option " ++ t.render ++ ";") (.ident "option" :: ws) ∧
      ∀ rest, Reads (optionStatement add) s (.ident "option" :: ws ++ rest) () (add t s) rest := by
  obtain ⟨ws, hlex, hreads⟩ := ht.exists_reads hzero s
  refine ⟨v :: ws ++ [.symbol ";"], ?_, fun rest => ?_⟩
  · rw [String.append_assoc]
    exact ((hlex.followed [.symbol ";"] (by decide)).behind [.ident "option"] (by decide)).any
  · rw [cons_append, append_assoc]
    refine .bump fun _ _ => (hreads _ rfl).bind ((reads_symbol ";").bind ?_)
    exact reads_edit _

theorem runs_options {statement : Production σ Unit} (hw : Options.Written options)
    (hs : Options.Signed options) (hstatement : Dispatches statement (optionStatement add) "option")
    (state : Options → σ) (hadd : ∀ done t, add t (state done) = state (done ++ [t]))
    (done : Options) :
    Runs statement (state done) (Options.lines options) (state (done ++ options)) := by
  refine Runs.map state (fun done t ht => ?_) done
  obtain ⟨v, hv⟩ := hw t ht
  obtain ⟨ws, hlex, hreads⟩ := exists_reads_optionStatement hv (hs t ht) add (state done)
  rw [← hadd]
  exact .single (.of hlex) (by simp) fun rest => hstatement rfl (hreads rest)

theorem RecoversAll.exists_commas {item : Production σ α} {texts : List String} {as : List α}
    (h : RecoversItems item s texts as s') (hne : texts ≠ []) :
    ∃ ws, Lexes goesOn (commaSeparated texts) ws ∧
      ∀ rest, (Word.front rest).kind = .symbol → Word.front rest ≠ .symbol "," →
        Reads (sepBy "," item) s (ws ++ rest) as s' rest := by
  have hcomma : Lexes never ", " [.symbol ","] := lexes_plain (by decide)
  cases h with
  | nil => exact absurd rfl hne
  | cons hfirst hmore =>
    obtain ⟨us, hus, hreads⟩ := hfirst
    obtain ⟨ws, hlex, hsep⟩ := hmore.exists_sepBy hus hreads hcomma
      (fits_of_head (c := ',') (by decide) rfl) (fun t _ => fits_never _ t) rfl
    exact ⟨us ++ ws, hlex, hsep⟩

theorem recoversAll_settings (hw : Options.Written options) (hs : Options.Signed options) (s : σ) :
    RecoversItems setting s (options.map Setting.render) options
      s := by
  have hone : ∀ t ∈ options, RecoversItem setting s t.render t s := by
    intro t ht
    obtain ⟨v, hv⟩ := hw t ht
    obtain ⟨ws, hlex, hreads⟩ := hv.exists_reads (hs t ht) s
    exact ⟨_, hlex, hreads⟩
  have hall := recoversAll_map (fun _ => s) (fun _ t ht => hone t ht) []
  rwa [map_id'] at hall

theorem lexes_brackets {text : String} (h : Lexes goesOn text ws) :
    Lexes never (" [" ++ text ++ "]") (.symbol "[" :: ws ++ [.symbol "]"]) := by
  rw [String.append_assoc]
  exact (h.followed [.symbol "]"] (by decide)).behind [.symbol "["] (by decide)

/-- Options in brackets and a semicolon may stand right behind a number. -/
theorem fits_bracketed (options : Options) (special : List String) (stop : Char → Bool) :
    Fits goesOn stop (Options.bracketed options special ++ ";") := by
  unfold Options.bracketed
  dsimp only
  split
  · exact fits_of_head (c := ';') (by decide) rfl
  · exact fits_of_head (c := ' ') (by simp) rfl

theorem exists_reads_bracketedOptions (hw : Options.Written options) (hs : Options.Signed options)
    (hne : options ≠ []) (s : σ) :
    ∃ ws, Lexes never (Options.bracketed options []) (.symbol "[" :: ws) ∧
      ∀ rest, Reads bracketedOptions s (.symbol "[" :: ws ++ rest) options s rest := by
  obtain ⟨ws, hlex, hreads⟩ := (recoversAll_settings hw hs s).exists_commas (by simpa using hne)
  refine ⟨ws ++ [.symbol "]"], ?_, fun rest => ?_⟩
  · rw [Options.bracketed, List.nil_append, if_neg (by simpa using hne)]
    exact lexes_brackets hlex
  · rw [List.cons_append, List.append_assoc]
    refine (reads_symbol "[").bind ((hreads _ rfl (by simp)).bind ?_)
    exact (reads_symbol "]").bind (reads_pure _)

theorem exists_reads_optionalOptions (hw : Options.Written options) (hs : Options.Signed options)
    (s : σ) :
    ∃ ws, Lexes never (Options.bracketed options []) ws ∧
      ∀ rest, Word.front rest ≠ .symbol "[" →
        Reads optionalOptions s (ws ++ rest) options s rest := by
  by_cases hne : options = []
  · subst hne
    refine ⟨[], .empty never, fun rest hrest => (reads_atSymbol "[").bind ?_⟩
    rw [if_neg (by simpa using hrest)]
    exact reads_pure _
  · obtain ⟨ws, hlex, hreads⟩ := exists_reads_bracketedOptions hw hs hne s
    refine ⟨_, hlex, fun rest _ => (reads_atSymbol "[").bind ?_⟩
    rw [if_pos (by simp)]
    exact hreads rest

end Production

end ProtoSchema
