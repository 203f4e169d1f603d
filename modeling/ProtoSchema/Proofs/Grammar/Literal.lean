import ProtoSchema.Proofs.Grammar.Reads
import ProtoSchema.Proofs.Text.Escape
import ProtoSchema.Schema.Print

/-!
Names, numbers and strings: what is known of one that has been read, and how it is read again from
the text it is printed as.
-/

namespace ProtoSchema

open Scan

/-! ## Names -/

def RestOfName (first name : String) : Prop :=
  ∃ parts : List String, (∀ p ∈ parts, IsIdentifier p) ∧ name = ".".intercalate (first :: parts)

/-- A dotted name that may be led by a dot, and its first word. -/
inductive TypeName : Word → String → Prop
  | relative {first name : String} :
    IsIdentifier first → RestOfName first name → TypeName (.ident first) name
  | absolute {first name : String} :
    IsIdentifier first → RestOfName ("." ++ first) name → TypeName (.symbol ".") name

variable {name keyword : String} {w : Word} (n : Nat)

theorem IsIdentifier.fits (h : IsIdentifier name) : Fits (symbolStop '.') never name := by
  obtain ⟨c, cs, hname, hc, _⟩ := h
  refine fits_of_head (c := c) (by simp [hname]) ?_
  have hdigit : isDigit c = false := by
    cases hd : isDigit c with
    | true => rw [isLetter_eq_false_of_isDigit hd] at hc; cases hc
    | false => rfl
  simp [symbolStop, hdigit]

theorem lexes_point : Lexes (symbolStop '.') "." [.symbol "."] :=
  lexes_symbol (c := '.') (by decide)

namespace Production

variable {σ : Type} {s : σ} {w : Word}

variable {Q : String → σ → Word → Prop}

theorem yields_restOfName {first : String} (h : ∀ name w', RestOfName first name → Q name s w') :
    Yields (restOfName first) s w Q := by
  have hitem : ∀ t w, t = s → Yields (identifier "identifier") t w fun a t' _ =>
      IsIdentifier a ∧ t' = s :=
    fun t w ht => yields_identifier fun name w' _ hname => ⟨hname, ht⟩
  refine (yields_after hitem rfl).bind ?_
  rintro parts _ w' ⟨hparts, rfl⟩
  exact yields_pure (h _ w' ⟨parts, hparts, rfl⟩)

theorem yields_typeName (h : ∀ name w', TypeName w name → Q name s w') : Yields typeName s w Q := by
  refine .step (yields_eatSymbol (fun hw w' => ?_) fun _ => ?_)
  · refine .step (yields_identifier fun first w'' _ hfirst => ?_)
    exact yields_restOfName fun name w₃ hname => h name w₃ (hw ▸ .absolute hfirst hname)
  · refine .step (yields_identifier fun first w'' hw hfirst => ?_)
    refine yields_restOfName fun name w₃ hname => h name w₃ ?_
    rw [hw]
    rw [show (if false = true then "." else "") ++ first = first from String.empty_append] at hname
    exact .relative hfirst hname

end Production

section Names

open Production

variable {σ : Type} {w : Word} {first name : String}

theorem RestOfName.exists_reads (h : RestOfName first name) (s : σ) :
    ∃ ws, (∀ us, Lexes isWordChar first us → Lexes isWordChar name (us ++ ws)) ∧
      (ws = [] ∨ Word.front ws = .symbol ".") ∧
      ∀ rest, Word.front rest ≠ .symbol "." →
        Reads (restOfName first) s (ws ++ rest) name s rest := by
  obtain ⟨parts, hparts, rfl⟩ := h
  have hall : RecoversAll isWordChar (fun _ => True) (identifier "identifier") s parts parts s := by
    induction parts with
    | nil => exact .nil
    | cons p parts ih =>
      refine .cons ⟨[.ident p], lexes_ident (hparts p (by simp)), ?_⟩
        (ih fun q hq => hparts q (by simp [hq]))
      exact fun rest _ => reads_identifier p "identifier"
  obtain ⟨ws, hafter, hlex⟩ := hall.exists_after lexes_point (fits_of_head (c := '.') rfl rfl)
    fun p hp => (hparts p hp).fits
  refine ⟨ws, hlex first, ?_, fun rest hrest =>
    (hafter.reads trivial trivial hrest).bind (reads_pure _)⟩
  cases hafter with
  | nil => exact .inl rfl
  | cons => exact .inr rfl

theorem TypeName.exists_reads (h : TypeName w name) (s : σ) :
    ∃ ws, Lexes isWordChar name (w :: ws) ∧
      ∀ rest, Word.front rest ≠ .symbol "." →
        Reads typeName s (w :: ws ++ rest) name s rest := by
  cases h with
  | @relative first _ hfirst hname =>
    obtain ⟨ws, hlex, _, hreads⟩ := hname.exists_reads s
    refine ⟨ws, hlex _ (lexes_ident hfirst), fun rest hrest => ?_⟩
    have hlead : Word.front (.ident first :: ws ++ rest) ≠ .symbol "." := fun h => by cases h
    refine (reads_eatSymbol_of_ne hlead).bind ((reads_identifier first _).bind ?_)
    rw [show (if false = true then "." else "") ++ first = first from String.empty_append]
    exact hreads rest hrest
  | @absolute first _ hfirst hname =>
    obtain ⟨ws, hlex, _, hreads⟩ := hname.exists_reads s
    refine ⟨.ident first :: ws, ?_, fun rest hrest => ?_⟩
    · refine hlex [.symbol ".", .ident first] (lexes_point.append (lexes_ident hfirst) ?_)
      intro rest _
      exact hfirst.fits _ (stops_never _)
    · exact (reads_eatSymbol ".").bind ((reads_identifier first _).bind (hreads rest hrest))

end Names

theorem lexes_opening (h : plainWords [] keyword.toList = some ([w], false))
    (hname : IsIdentifier name) :
    Lexes goesOn (keyword ++ name ++ " \x7b") [w, .ident name, .symbol "\x7b"] := by
  rw [String.append_assoc]
  exact (((lexes_ident hname).followed [.symbol "\x7b"] (by decide)).behind [w] h).any

theorem lexes_closing : Lexes goesOn "\x7d" [.symbol "\x7d"] :=
  (lexes_plain (by decide)).any

open Production in
/-- A declaration with a name and a block, once the lines of the block are read. -/
theorem Production.Runs.exists_reads {σ τ α : Type} (init : String → τ) {finish : τ → α}
    {statement : Production τ Unit} {t : τ} {lines : List Line} {what construct : String}
    {path : List Int} (h : Runs statement (init name) lines t) (hname : IsIdentifier name)
    (hkeyword : plainWords [] keyword.toList = some ([w], false)) (s : σ) :
    ∃ ws, LinesLex (Line.block (keyword ++ name ++ " \x7b") lines "\x7d") (w :: ws) ∧
      ∀ rest, Reads (do
        let start ← here
        let _ ← bump
        let name ← identifier what
        symbol "\x7b"
        let built ← build (init name) (block .resume construct statement)
        record path start
        return finish built) s (w :: ws ++ rest) (finish t) s rest := by
  obtain ⟨ws, hlex, hsteps⟩ := h
  refine ⟨.ident name :: .symbol "\x7b" :: (ws ++ [.symbol "\x7d"]),
    .block (lexes_opening hkeyword hname) hlex lexes_closing, fun rest => ?_⟩
  simp only [List.cons_append, List.append_assoc, List.nil_append]
  refine .here fun start => .bump fun _ _ => (reads_identifier name _).bind ?_
  refine (reads_symbol "\x7b").bind ((reads_build (hsteps.reads_block _ rest)).bind ?_)
  exact (reads_record path start).bind (reads_pure _)

/-! ## Numbers -/

def intWords (n : Int) : List Word :=
  (if n < 0 then [.symbol "-"] else []) ++ [⟨.integer, toString n.natAbs⟩]

theorem toString_int (n : Int) :
    toString n = if n < 0 then "-" ++ toString n.natAbs else toString n.natAbs := by
  cases n with
  | ofNat m => rfl
  | negSucc m =>
    rw [if_pos (Int.negSucc_lt_zero m)]
    rfl

theorem toList_toString_nat : (toString n).toList = Nat.toDigits 10 n := by
  rw [Nat.toString_eq_repr, Nat.toList_repr]

theorem lexes_nat : Lexes goesOn (toString n) [⟨.integer, toString n⟩] :=
  lexes_number (by rw [toList_toString_nat]; exact Numeral.text_toDigits n)

theorem lexes_int (n : Int) : Lexes goesOn (toString n) (intWords n) := by
  rw [toString_int, intWords]
  split
  · exact (lexes_nat _).behind [.symbol "-"] (by decide)
  · exact lexes_nat _

namespace Production

variable {σ : Type} {s : σ} {w : Word} {rest : List Word}

variable {what : String} {allowSign : Bool}

theorem yields_integer {Q : Nat → σ → Word → Prop}
    (h : ∀ n w', n < IntegerLiteral.limit → Q n s w') :
    Yields (integer what) s w Q := by
  refine .of_inText fun hw => .step (yields_peek fun t ht => ?_)
  split
  · exact yields_expected
  · next hk =>
    split
    · next n hn =>
      exact .step (yields_bump fun _ w' _ => yields_pure (h n w' (IntegerLiteral.value_lt hn)))
    · exact .step yields_report
    · next hn =>
      subst ht
      have htext := hw.numeral (Decidable.not_not.mp hk) (.inl rfl)
      exact absurd hn (IntegerLiteral.value_ne_malformed htext)

theorem reads_integer {n : Nat} (hn : n < IntegerLiteral.limit) (what : String) :
    Reads (integer what) s (⟨.integer, toString n⟩ :: rest) n s rest := by
  refine .token fun t hkind htext => ?_
  rw [if_neg (by simp [hkind]), htext, toList_toString_nat, IntegerLiteral.value_toDigits hn]
  exact .bump fun _ _ => reads_pure n

theorem signed_mem {negative : Bool} {value : Nat} (h : ¬ int32Limit negative < value) :
    -2147483648 ≤ signed negative value ∧ signed negative value < 2147483648 := by
  simp only [int32Limit, Nat.pow_eq] at h
  unfold signed
  split <;> simp_all <;> omega

theorem yields_int32 {Q : Int32 → σ → Word → Prop}
    (h : ∀ n w', allowSign = true ∨ 0 ≤ n.toInt → Q n s w') :
    Yields (int32 allowSign what) s w Q := by
  refine .step (yields_here fun start => ?_)
  have hrest : ∀ negative w', allowSign = true ∨ negative = false → Yields (do
        let value ← integer what
        if int32Limit negative < value then reject start .integerRange
        else return Int32.ofInt (signed negative value)) s w' Q := by
    intro negative w' hsign
    refine .step (yields_integer fun value w'' _ => ?_)
    split
    · exact yields_reject
    · next hlimit =>
      refine yields_pure (h _ w'' (hsign.imp_right fun hneg => ?_))
      obtain ⟨hlow, hhigh⟩ := signed_mem hlimit
      rw [Int32.toInt_ofInt_of_le (n := signed negative value) (by omega) (by omega), hneg]
      exact Int.natCast_nonneg value
  split
  · next hallow =>
    exact .step (yields_eatSymbol (fun _ w' => hrest true w' (.inl hallow))
      fun _ => hrest false w (.inr rfl))
  · exact .step (yields_pure (hrest false w (.inr rfl)))

theorem reads_int32 {n : Int32} (h : allowSign = true ∨ 0 ≤ n.toInt) (what : String) :
    Reads (int32 allowSign what) s (intWords n.toInt ++ rest) n s rest := by
  refine .here fun start => ?_
  have hlow := n.le_toInt
  have hhigh := n.toInt_lt
  have hvalue : ∀ negative, signed negative n.toInt.natAbs = n.toInt → Reads (do
        let value ← integer what
        if int32Limit negative < value then reject start .integerRange
        else return Int32.ofInt (signed negative value)) s
        (⟨.integer, toString n.toInt.natAbs⟩ :: rest) n s rest := by
    intro negative hsigned
    have hlimit : ¬ int32Limit negative < n.toInt.natAbs := by
      unfold signed at hsigned
      simp only [int32Limit, Nat.pow_eq]
      split <;> simp_all <;> omega
    have hnat : n.toInt.natAbs < IntegerLiteral.limit := by
      rw [IntegerLiteral.limit, Nat.pow_eq]
      omega
    refine (reads_integer hnat what).bind ?_
    rw [if_neg hlimit, hsigned, Int32.ofInt_toInt]
    exact reads_pure n
  unfold intWords
  by_cases hneg : n.toInt < 0
  · have hallow : allowSign = true := h.resolve_right (by omega)
    rw [if_pos hneg, if_pos hallow]
    refine (reads_eatSymbol "-").bind (hvalue true ?_)
    simp only [signed, ↓reduceIte]
    omega
  · rw [if_neg hneg]
    have hsigned : signed false n.toInt.natAbs = n.toInt := by
      simp only [signed, Bool.false_eq_true, ↓reduceIte]
      omega
    split
    · refine (reads_eatSymbol_of_ne ?_).bind (hvalue false hsigned)
      exact fun h => by cases h
    · exact (reads_pure false).bind (hvalue false hsigned)

/-! ## Strings -/

theorem clean_takeStrings {c : Cursor} (hc : c.Clean)
    (hquiet : c.takeStrings.2.diagnostics = []) : c.takeStrings.2.Clean := by
  fun_induction Cursor.takeStrings c with
  | case1 => exact hc
  | case2 c _ _ _ more d heq ih =>
    have hd := c.bump.takeStrings_onward
    rw [heq] at ih hd
    exact ih (hc.bump (hd.quiet hquiet)) hquiet
  | case3 => exact hc

theorem yields_stringBytes {Q : List UInt8 → σ → Word → Prop} (h : ∀ bytes w', Q bytes s w') :
    Yields (stringBytes what) s w Q := by
  refine .step (yields_atKind ?_)
  split
  · exact yields_move fun c hc _ hquiet => ⟨clean_takeStrings hc hquiet, h _ _⟩
  · exact yields_expected

theorem yields_utf8String {Q : String → σ → Word → Prop} (h : ∀ text w', Q text s w') :
    Yields (utf8String what) s w Q := by
  refine .step (yields_here fun start => .step (yields_stringBytes fun bytes w' => ?_))
  split
  · next text _ => exact yields_pure (h text w')
  · exact yields_reject

theorem reads_stringBytes (text what : String) (hrest : (Word.front rest).kind ≠ .string) :
    Reads (stringBytes what) s (⟨.string, text⟩ :: rest) (Escape.unescape text) s rest := by
  refine (reads_atKind .string).bind ?_
  rw [if_pos (by rfl)]
  refine reads_move fun c hc => ?_
  obtain ⟨hbump, hdiag, hterm⟩ := hc.bump
  refine ⟨c.bump, ?_, hbump, hdiag, hterm⟩
  have hkind : c.current.kind = .string := congrArg Word.kind hc.current
  have htext : c.current.text = text := congrArg Word.text hc.current
  have hnext : c.bump.current.kind ≠ .string := by
    rwa [show c.bump.current.kind = (Word.front rest).kind from congrArg Word.kind hbump.current]
  rw [Cursor.takeStrings, if_pos hkind, dif_neg hc.ahead_ne_nil, Cursor.takeStrings, if_neg hnext,
    htext]
  simp

theorem reads_utf8String (text what : String) (hrest : (Word.front rest).kind ≠ .string) :
    Reads (utf8String what) s (⟨.string, literal text⟩ :: rest) text s rest := by
  refine .here fun start => (reads_stringBytes _ _ hrest).bind ?_
  rw [literal, Escape.unescape_doubleQuoted, Utf8.string?_bytes]
  exact reads_pure text

end Production

theorem lexes_quoted (bytes : List UInt8) :
    Lexes never ("\"" ++ Escape.escape bytes ++ "\"")
      [⟨.string, "\"" ++ Escape.escape bytes ++ "\""⟩] := by
  rw [← Escape.quoted_double]
  exact lexes_string (Escape.quotedText_quoted rfl bytes)

theorem lexes_literal (text : String) : Lexes never (literal text) [⟨.string, literal text⟩] :=
  lexes_quoted (Utf8.bytes text)

end ProtoSchema
