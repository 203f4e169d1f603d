import Mathlib.Data.Nat.Digits.Defs
import ProtoSchema.Proofs.Grammar.Counters
import ProtoSchema.Proofs.Grammar.Field

/-!
Integers are read exactly. The value of a literal is the number its digits stand for, and each place
where an integer may be written takes exactly the numbers of its range. Main statement:
`integer_literal_exact`.
-/

namespace ProtoSchema

open Scan Production List

variable {type : FieldType} {high : Int}

/-! ## The number that a literal stands for -/

namespace IntegerLiteral

def digitPlace (c : Char) : Nat :=
  "0123456789abcdef".toList.idxOf c.toLower

def radix : List Char → Nat × List Char
  | '0' :: x :: ds => if x = 'x' ∨ x = 'X' then (16, ds) else (8, x :: ds)
  | ds => (10, ds)

def magnitude (cs : List Char) : Nat :=
  Nat.ofDigits (radix cs).1 ((radix cs).2.map digitPlace).reverse

variable {c : Char} {base : Nat} {ds : List Char}

private theorem hexValue?_eq (h : Escape.isHex c = true) :
    Escape.hexValue? c = some (digitPlace c) := by
  have hall : ∀ n < 103, Escape.isHex (Char.ofNat n) = true →
      Escape.hexValue? (Char.ofNat n) = some (digitPlace (Char.ofNat n)) := by decide
  have hlt : c.toNat < 103 := by
    rw [isHex_iff] at h
    omega
  have hc := hall c.toNat hlt
  rw [Char.ofNat_toNat] at hc
  exact hc h

private theorem digitValue?_eq (h : (digitValue? base c).isSome = true) :
    digitValue? base c = some (digitPlace c) := by
  obtain ⟨d, hd⟩ := Option.isSome_iff_exists.mp h
  have hhex : Escape.hexValue? c = some d := (Option.filter_eq_some_iff.mp hd).1
  have hplace := hexValue?_eq (c := c) (by rw [Escape.isHex, hhex]; rfl)
  rw [hd, ← hhex, hplace]

/-- Digits are read from the left up to the first that makes the number too large, and what follows
never makes it smaller. -/
theorem digitsFrom_eq (hbase : 0 < base) (h : ∀ d ∈ ds, (digitValue? base d).isSome = true)
    {n : Nat} (hn : n < limit) :
    digitsFrom base n ds =
      if Nat.ofDigits base (ds.map digitPlace).reverse + n * base ^ ds.length < limit then
        .ok (Nat.ofDigits base (ds.map digitPlace).reverse + n * base ^ ds.length)
      else .error .overflow := by
  induction ds generalizing n with
  | nil => simp [digitsFrom, hn]
  | cons d ds ih =>
    obtain ⟨hd, hds⟩ := forall_mem_cons.mp h
    have hnumber : Nat.ofDigits base ((d :: ds).map digitPlace).reverse +
          n * base ^ (d :: ds).length =
        Nat.ofDigits base (ds.map digitPlace).reverse +
          (n * base + digitPlace d) * base ^ ds.length := by
      simp only [map_cons, reverse_cons, Nat.ofDigits_append, Nat.ofDigits_singleton,
        length_reverse, length_map, length_cons, pow_succ]
      ring
    rw [digitsFrom, digitValue?_eq hd, hnumber]
    dsimp only
    split
    · next hlt => exact ih hds hlt
    · next hlarge =>
      have hgrows : n * base + digitPlace d ≤ (n * base + digitPlace d) * base ^ ds.length :=
        Nat.le_mul_of_pos_right _ (Nat.pow_pos hbase)
      rw [if_neg (by omega)]

theorem digits_eq (base : Nat) (hbase : 0 < base) (hne : ds ≠ [])
    (h : ∀ d ∈ ds, (digitValue? base d).isSome = true) :
    digits base ds =
      if Nat.ofDigits base (ds.map digitPlace).reverse < limit then
        .ok (Nat.ofDigits base (ds.map digitPlace).reverse)
      else .error .overflow := by
  rw [digits, if_neg (by simpa using hne), digitsFrom_eq hbase h (by decide)]
  simp only [Nat.zero_mul, Nat.add_zero]

theorem radix_whole (h : Numeral.Whole ds) : radix ds = (10, ds) := by
  obtain ⟨_, _, hzero⟩ := h
  unfold radix
  split
  · cases hzero rfl
  · rfl

theorem value_eq {t : List Char} (ht : Numeral.Text .integer t) :
    value t = if magnitude t < limit then .ok (magnitude t) else .error .overflow := by
  cases ht with
  | hexadecimal hx hne hds =>
    have h16 := digits_eq 16 (by decide) hne fun d hd =>
      isSome_digitValue?_of_isHex (hds d hd)
    rcases hx with rfl | rfl <;> exact h16
  | integer hm =>
    cases hm with
    | decimal hds =>
      rw [value_whole hds, magnitude, radix_whole hds]
      exact digits_eq 10 (by decide) hds.1 fun d hd => isSome_digitValue?_of_isDigit (hds.2.1 d hd)
    | @octal ds hne hds =>
      have h8 := digits_eq 8 (by decide) hne fun d hd =>
        isSome_digitValue?_of_isOctal (hds d hd)
      obtain ⟨d, ds, rfl⟩ := exists_cons_of_ne_nil hne
      have hd := hds d (by simp)
      have hx : ¬ (d = 'x' ∨ d = 'X') := by
        rintro (rfl | rfl) <;> exact absurd hd (by decide)
      rw [value_octal hd, magnitude, radix, if_neg hx]
      exact h8

end IntegerLiteral

variable {l : Lexeme} {low : Int}

/-- A token without remarks is written by the rules for its kind. -/
theorem Sound.valid_of_mem {ls : List Lexeme} (h : Sound ls) (hl : l ∈ ls)
    (hclean : l.remarks = []) :
    l.token.word.InText := by
  induction ls with
  | nil => cases hl
  | cons k ls ih =>
    rcases mem_cons.mp hl with rfl | hl
    · exact (h.1 hclean).imp_right And.left
    · exact ih h.2 hl

theorem numeral_of_mem_lex {source : String} (hl : l ∈ lex source) (hkind : l.token.kind = .integer)
    (hclean : l.remarks = []) : Numeral.Text .integer l.token.text.toList :=
  ((sound_lexemes Position.origin source.toList).valid_of_mem hl hclean).numeral hkind (.inl rfl)

/-! ## Where integers are written -/

namespace Cursor

/-- The cursor stands at the literal or, if `negative`, at a minus sign in front of it. -/
def Faces (c : Cursor) (negative : Bool) (literal : Lexeme) : Prop :=
  if negative then c.current.isSymbol "-" = true ∧ c.ahead.head? = some literal
  else c.current = literal.token

def unsigned (c : Cursor) (negative : Bool) : Cursor :=
  if negative then c.bump else c

def past (c : Cursor) (negative : Bool) : Cursor :=
  (c.unsigned negative).bump

namespace Faces

variable {c : Cursor} {negative : Bool} {literal : Lexeme}

theorem current (h : c.Faces negative literal) : (c.unsigned negative).current = literal.token := by
  cases negative with
  | true =>
    obtain ⟨rest, hahead⟩ := head?_eq_some_iff.mp h.2
    simp [unsigned, bump, next, hahead]
  | false => exact h

theorem diagnostics (h : c.Faces negative literal) (hclean : literal.remarks = []) :
    (c.unsigned negative).diagnostics = c.diagnostics := by
  cases negative with
  | true =>
    obtain ⟨rest, hahead⟩ := head?_eq_some_iff.mp h.2
    simp [unsigned, bump, next, hahead, hclean]
  | false => rfl

end Faces

end Cursor

namespace Production

variable {σ α : Type} {p : Production σ α} {s : σ} {c past : Cursor} {fits : Prop} {is : α → Prop}

/-- Nothing is recognised, and a fault is reported behind what had been reported before. -/
def Rejects (p : Production σ α) (s : σ) (c : Cursor) : Prop :=
  ∃ d place fault seen more, p.run s c = (none, s, d) ∧
    d.diagnostics = c.diagnostics ++ seen ++ .ofFault place fault :: more

/-- A value is recognised if `fits`, and then it is the right one and the cursor stops at `past`.
Otherwise the production rejects what it sees. -/
structure Decides (p : Production σ α) (s : σ) (c past : Cursor) (fits : Prop) (is : α → Prop) :
    Prop where
  accepts : fits → ∃ a, p.run s c = (some a, s, past) ∧ is a
  rejects : ¬ fits → p.Rejects s c

/-- Only what is reported counts of the place where a production begins. -/
theorem Decides.of_run_eq {q : Production σ α} {b : Cursor} (h : Decides q s c past fits is)
    (hrun : p.run s b = q.run s c) (hquiet : c.diagnostics = b.diagnostics) :
    Decides p s b past fits is := by
  constructor
  · intro hfits
    rw [hrun]
    exact h.accepts hfits
  · intro hfits
    rw [Rejects, hrun, ← hquiet]
    exact h.rejects hfits

theorem decides_of_rejects (h : p.Rejects s c) (hfits : ¬ fits) : Decides p s c past fits is :=
  ⟨fun hf => absurd hf hfits, fun _ => h⟩

variable {n : Nat} (place : Position) (fault : Fault)

private theorem run_reject :
    (reject place fault : Production σ α).run s c = (none, s, c.report (.ofFault place fault)) :=
  rfl

theorem rejects_reject : (reject place fault : Production σ α).Rejects s c :=
  ⟨_, place, fault, [], [], run_reject place fault, by simp [Cursor.report]⟩

private theorem run_look_bind {β : Type} (f : Cursor → β) (k : β → Production σ α) :
    (look f >>= k).run s c = (k (f c)).run s c :=
  rfl

theorem run_integer (what : String) (hkind : c.current.kind = .integer)
    (hvalue : IntegerLiteral.value c.current.text.toList =
      if n < IntegerLiteral.limit then .ok n else .error .overflow) :
    (integer what).run s c =
      if n < IntegerLiteral.limit then (some n, s, c.bump)
      else (none, s, (c.report (.ofFault c.current.position .integerRange)).bump) := by
  rw [integer, peek, run_look_bind, if_neg (by simp [hkind]), hvalue]
  by_cases hn : n < IntegerLiteral.limit
  · rw [if_pos hn, if_pos hn]
    rfl
  · rw [if_neg hn, if_neg hn]
    rfl

theorem decides_integer {what : String} {k : Nat → Production σ α}
    (hkind : c.current.kind = .integer)
    (hvalue : IntegerLiteral.value c.current.text.toList =
      if n < IntegerLiteral.limit then .ok n else .error .overflow)
    (hfits : fits → n < IntegerLiteral.limit ∧ ∃ a, k n = pure a ∧ is a)
    (hnot : ¬ fits → n < IntegerLiteral.limit → ∃ place fault, k n = reject place fault) :
    Decides (integer what >>= k) s c c.bump fits is := by
  have hrun := run_integer (s := s) what hkind hvalue
  constructor
  · intro h
    obtain ⟨hn, a, ha, his⟩ := hfits h
    rw [if_pos hn] at hrun
    refine ⟨a, ?_, his⟩
    rw [run_bind, hrun]
    simp only [ha, run_pure]
  · intro h
    by_cases hn : n < IntegerLiteral.limit
    · obtain ⟨place, fault, hk⟩ := hnot h hn
      obtain ⟨seen, hseen⟩ := c.bump_onward.diagnostics
      rw [if_pos hn] at hrun
      refine ⟨c.bump.report (.ofFault place fault), place, fault, seen, [], ?_, ?_⟩
      · rw [run_bind, hrun]
        simp only [hk, run_reject]
      · rw [hseen]
        rfl
    · rw [if_neg hn] at hrun
      have honward := (c.report (.ofFault c.current.position .integerRange)).bump_onward
      obtain ⟨more, hmore⟩ := honward.diagnostics
      refine ⟨_, c.current.position, .integerRange, [], more, by rw [run_bind, hrun], ?_⟩
      rw [← hmore]
      simp [Cursor.report]

end Production

/-! ## Literals with a sign -/

def FieldType.integerRange? : FieldType → Option (Int × Int)
  | .int32 | .sint32 | .sfixed32 => some (-2 ^ 31, 2 ^ 31 - 1)
  | .uint32 | .fixed32 => some (0, 2 ^ 32 - 1)
  | .int64 | .sint64 | .sfixed64 => some (-2 ^ 63, 2 ^ 63 - 1)
  | .uint64 | .fixed64 => some (0, 2 ^ 64 - 1)
  | _ => none

theorem FieldType.isUnsigned_iff (h : type.integerRange? = some (low, high)) :
    type.isUnsigned = true ↔ ¬ low < 0 := by
  cases type <;> cases h <;> decide

/-- The limit of a type, for numbers with the given sign, is the end of its range. -/
theorem FieldType.integerLimit_iff (h : type.integerRange? = some (low, high)) {negative : Bool}
    (hsign : negative = true → low < 0) {n : Nat} :
    n ≤ type.integerLimit negative ↔
      low ≤ signed negative n ∧ signed negative n ≤ high := by
  cases type <;> cases h <;> cases negative <;> simp_all [integerLimit, signed]

theorem FieldType.integerLimit_lt (h : type.integerRange? = some (low, high)) (negative : Bool) :
    type.integerLimit negative < IntegerLiteral.limit := by
  cases type <;> cases h <;> cases negative <;> decide

def OptionValue.integer? : OptionValue → Option Int
  | .uint value => some value.toNat
  | .int value => some value.toInt
  | _ => none

namespace Production

theorem int32Limit_iff {negative allowSign : Bool} (hsign : negative = true → allowSign = true)
    {n : Nat} :
    ¬ int32Limit negative < n ↔
      (if allowSign then -2 ^ 31 else 0) ≤ signed negative n ∧ signed negative n ≤ 2 ^ 31 - 1 := by
  cases negative <;> cases allowSign <;> simp_all [int32Limit, signed]

private theorem int32Limit_le (negative : Bool) : int32Limit negative ≤ 2 ^ 31 := by
  cases negative <;> decide

theorem rejects_int32 {σ : Type} {s : σ} {c : Cursor} {what : String}
    (h : c.current.kind ≠ .integer) : (int32 false what).Rejects s c := by
  have hrun : (int32 false what).run s c =
      (none, s, c.report (.ofFault c.current.position (.expected what c.current.describe))) := by
    have hinteger : (integer what).run s c = (expected what : Production σ Nat).run s c := by
      rw [integer, peek, run_look_bind, if_pos h]
    rw [int32, here, run_look_bind, if_neg (by simp), run_bind, run_pure]
    dsimp only
    rw [run_bind, hinteger]
    rfl
  exact ⟨_, c.current.position, .expected what c.current.describe, [], [], hrun, by
    simp [Cursor.report]⟩

end Production

namespace Cursor.Faces

variable {σ α : Type} {s : σ} {c : Cursor} {negative : Bool} {literal : Lexeme} {n : Nat}

variable (h : c.Faces negative literal) (hkind : literal.token.kind = .integer)
include h hkind

theorem run_sign (k : Bool → Production σ α) :
    (eatSymbol "-" >>= k).run s c = (k negative).run s (c.unsigned negative) := by
  rw [run_bind, run_eatSymbol]
  cases negative with
  | true =>
    rw [if_pos h.1]
    rfl
  | false =>
    have hminus : c.current.isSymbol "-" = false := by
      simp [Token.isSymbol, show c.current = literal.token from h, hkind]
    rw [if_neg (by simp [hminus])]
    rfl

variable (hclean : literal.remarks = [])
  (hvalue : IntegerLiteral.value literal.token.text.toList =
    if n < IntegerLiteral.limit then .ok n else .error .overflow)
include hclean hvalue

theorem decides {p : Production σ α} (what : String) {k : Nat → Production σ α} {fits : Prop}
    {is : α → Prop}
    (hrun : p.run s c = (integer what >>= k).run s (c.unsigned negative))
    (hfits : fits → n < IntegerLiteral.limit ∧ ∃ a, k n = pure a ∧ is a)
    (hnot : ¬ fits → n < IntegerLiteral.limit → ∃ place fault, k n = reject place fault) :
    Decides p s c (c.past negative) fits is := by
  have hdecides : Decides (integer what >>= k) s (c.unsigned negative)
      (c.unsigned negative).bump fits is :=
    decides_integer (by rw [h.current]; exact hkind) (by rw [h.current]; exact hvalue) hfits hnot
  exact hdecides.of_run_eq hrun (h.diagnostics hclean)

theorem decides_int32 (allowSign : Bool) (what : String) :
    Decides (int32 allowSign what) s c (c.past negative)
      ((negative = true → allowSign = true) ∧
        (if allowSign then -2 ^ 31 else 0) ≤ signed negative n ∧ signed negative n ≤ 2 ^ 31 - 1)
      fun a => a.toInt = signed negative n := by
  by_cases hsign : negative = true → allowSign = true
  · refine h.decides hkind hclean hvalue what (k := fun value =>
      if int32Limit negative < value then reject c.current.position .integerRange
      else pure (Int32.ofInt (signed negative value))) ?_ ?_ ?_
    · cases allowSign with
      | true => exact h.run_sign hkind _
      | false =>
        obtain rfl : negative = false := by simpa using hsign
        rfl
    · intro hfits
      have hn := (int32Limit_iff hsign).mpr hfits.2
      obtain ⟨hlow, hhigh⟩ := signed_mem hn
      refine ⟨?_, _, if_neg hn, Int32.toInt_ofInt_of_le hlow hhigh⟩
      have hle := int32Limit_le negative
      rw [IntegerLiteral.limit, Nat.pow_eq]
      omega
    · intro hfits _
      have hn : int32Limit negative < n := by
        by_contra hn
        exact hfits ⟨hsign, (int32Limit_iff hsign).mp hn⟩
      exact ⟨_, _, if_pos hn⟩
  · obtain ⟨rfl, hallow⟩ := Classical.not_imp.mp hsign
    obtain rfl : allowSign = false := by simpa using hallow
    -- The sign is no integer, so it is what the production complains about.
    have hsymbol : c.current.kind ≠ .integer := by
      have hminus : c.current.kind = .symbol := congrArg Word.kind (Token.isSymbol_iff.mp h.1)
      rw [hminus]
      decide
    exact decides_of_rejects (rejects_int32 hsymbol) (by simp)

theorem decides_optionValue :
    Decides optionValue s c (c.past negative)
      (-2 ^ 63 ≤ signed negative n ∧ signed negative n ≤ 2 ^ 64 - 1)
      fun v => v.integer? = some (signed negative n) := by
  have hrun : optionValue.run s c = (if negative then negativeValue c.current.position
        else integer "integer" >>= fun value => pure (.uint (UInt64.ofNat value))).run s
          (c.unsigned negative) := by
    rw [optionValue, here, run_look_bind, h.run_sign hkind]
    cases negative with
    | true => rfl
    | false => rw [if_neg (by simp), if_neg (by simp), peek, run_look_bind, h.current, hkind]
  cases negative with
  | true =>
    rw [if_pos rfl, negativeValue, peek, run_look_bind, h.current, if_pos hkind] at hrun
    have hlow : -2 ^ 63 ≤ signed true n ↔ n ≤ 2 ^ 63 := by simp [signed]
    have hhigh : signed true n ≤ 0 := by simp [signed]
    refine h.decides hkind hclean hvalue _ hrun ?_ ?_
    · intro hfits
      have hn := hlow.mp hfits.1
      rw [IntegerLiteral.limit, Nat.pow_eq]
      refine ⟨by omega, _, if_neg (by rw [Nat.pow_eq]; omega), ?_⟩
      rw [OptionValue.integer?, Int64.toInt_ofInt_of_le (by omega) (by omega)]
      rfl
    · intro hfits _
      have hn : ¬ n ≤ 2 ^ 63 := fun hn => hfits ⟨hlow.mpr hn, by omega⟩
      exact ⟨_, _, if_pos (by rw [Nat.pow_eq]; omega)⟩
  | false =>
    rw [if_neg (by simp)] at hrun
    have hsigned : signed false n = n := rfl
    refine h.decides hkind hclean hvalue _ hrun ?_ ?_
    · intro hfits
      have hn : n < 2 ^ 64 := by omega
      refine ⟨hn, _, rfl, ?_⟩
      rw [OptionValue.integer?, UInt64.toNat_ofNat_of_lt' hn, hsigned]
    · intro hfits hn
      rw [IntegerLiteral.limit, Nat.pow_eq] at hn
      exact absurd ⟨by omega, by omega⟩ hfits

theorem decides_defaultValue {low : Int} (htype : type.integerRange? = some (low, high)) :
    Decides (defaultValue (some type)) s c (c.past negative)
      ((negative = true → low < 0) ∧ low ≤ signed negative n ∧ signed negative n ≤ high)
      fun text => text = (if negative then "-" else "") ++ toString n := by
  have hinteger : (defaultValue (some type)).run s c = (integerDefault type).run s c := by
    cases type <;> first | rfl | cases htype
  rw [integerDefault, here, run_look_bind, h.run_sign hkind] at hinteger
  by_cases hsign : negative = true → low < 0
  · have hallowed : ¬ (negative && type.isUnsigned) = true := by
      rw [Bool.and_eq_true, FieldType.isUnsigned_iff htype]
      exact fun hboth => hboth.2 (hsign hboth.1)
    rw [if_neg hallowed] at hinteger
    refine h.decides hkind hclean hvalue _ hinteger ?_ ?_
    · intro hfits
      have hn := (FieldType.integerLimit_iff htype hsign).mpr hfits.2
      have hle := FieldType.integerLimit_lt htype negative
      refine ⟨by omega, _, if_neg (by omega), ?_⟩
      cases negative with
      | true => rfl
      | false => exact String.empty_append.symm
    · intro hfits _
      have hn : ¬ n ≤ type.integerLimit negative := fun hn =>
        hfits ⟨hsign, (FieldType.integerLimit_iff htype hsign).mp hn⟩
      exact ⟨_, _, if_pos (by omega)⟩
  · obtain ⟨rfl, hlow⟩ := Classical.not_imp.mp hsign
    rw [(FieldType.isUnsigned_iff htype).mpr hlow, if_pos (by decide)] at hinteger
    refine Decides.of_run_eq ?_ hinteger (h.diagnostics hclean)
    exact decides_of_rejects (rejects_reject _ _) fun hfits => hlow (hfits.1 rfl)

end Cursor.Faces

def Lexeme.number (l : Lexeme) : Nat :=
  IntegerLiteral.magnitude l.token.text.toList

/-- An integer token without remarks has the value of its digits if that is below `2 ^ 64`, and is
too large otherwise. With a sign or without, it is taken exactly in the range of the place where it
stands. What is kept is the number that was written, and whatever is not taken is reported. -/
theorem integer_literal_exact (source : String) (literal : Lexeme) (hmem : literal ∈ lex source)
    (hkind : literal.token.kind = .integer) (hclean : literal.remarks = []) :
    IntegerLiteral.value literal.token.text.toList =
        (if literal.number < 2 ^ 64 then .ok literal.number else .error .overflow) ∧
    ∀ (σ : Type) (s : σ) (c : Cursor) (negative : Bool), c.Faces negative literal →
      (∀ allowSign what, Decides (int32 allowSign what) s c (c.past negative)
        ((negative = true → allowSign = true) ∧
          (if allowSign then -2 ^ 31 else 0) ≤ signed negative literal.number ∧
          signed negative literal.number ≤ 2 ^ 31 - 1)
        fun a => a.toInt = signed negative literal.number) ∧
      Decides optionValue s c (c.past negative)
        (-2 ^ 63 ≤ signed negative literal.number ∧ signed negative literal.number ≤ 2 ^ 64 - 1)
        (fun v => v.integer? = some (signed negative literal.number)) ∧
      ∀ type low high, FieldType.integerRange? type = some (low, high) →
        Decides (defaultValue (some type)) s c (c.past negative)
          ((negative = true → low < 0) ∧
            low ≤ signed negative literal.number ∧ signed negative literal.number ≤ high)
          fun text => text = (if negative then "-" else "") ++ toString literal.number := by
  have hvalue := IntegerLiteral.value_eq (numeral_of_mem_lex hmem hkind hclean)
  refine ⟨hvalue, fun σ s c negative hfaces => ⟨fun allowSign what => ?_, ?_, ?_⟩⟩
  · exact hfaces.decides_int32 hkind hclean hvalue allowSign what
  · exact hfaces.decides_optionValue hkind hclean hvalue
  · intro type low high htype
    exact hfaces.decides_defaultValue hkind hclean hvalue htype

def leastDigits : Lexeme :=
  ⟨⟨.integer, "0x80000000", ⟨1, 2⟩⟩, []⟩

theorem integer_literal_exact_least :
    leastDigits ∈ lex "-0x80000000" ∧ leastDigits.number = 2 ^ 31 ∧
      (Cursor.ofSource "-0x80000000").next.Faces true leastDigits ∧
      (∃ a : Int32, a.toInt = -2 ^ 31 ∧
        ((int32 true "integer").run () (Cursor.ofSource "-0x80000000").next).1 = some a) ∧
      (defaultValue (some .uint32)).Rejects () (Cursor.ofSource "-0x80000000").next := by
  have hmem : leastDigits ∈ lex "-0x80000000" := by decide +kernel
  have hfaces : (Cursor.ofSource "-0x80000000").next.Faces true leastDigits := by
    constructor <;> decide +kernel
  obtain ⟨_, hplaces⟩ := integer_literal_exact _ _ hmem rfl rfl
  obtain ⟨hint32, _, hdefault⟩ := hplaces Unit () _ true hfaces
  obtain ⟨a, hrun, ha⟩ := (hint32 true "integer").accepts (by decide +kernel)
  refine ⟨hmem, by decide +kernel, hfaces, ⟨a, ?_, by rw [hrun]⟩, ?_⟩
  · rw [ha]
    decide +kernel
  · exact (hdefault .uint32 0 (2 ^ 32 - 1) rfl).rejects (by simp)

end ProtoSchema
