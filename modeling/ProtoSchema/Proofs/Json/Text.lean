import Mathlib.Data.List.TakeWhile
import ProtoSchema.Json.Read
import ProtoSchema.Proofs.Decimal.Spelled
import ProtoSchema.Proofs.Grammar.Literal

/-!
JSON texts read back. `Spells` gives the texts of a value, with blanks wherever they may stand; both
spellings of a value are among them, and every such text is read as the value.
-/

namespace ProtoSchema.Json

open List

open Scan (Stops stops_cons stops_nil)

namespace Read

/-! ## Strings -/

private theorem unit?_control : ∀ n < 32,
    ['0', '0', hexDigit (n / 16), hexDigit (n % 16)].takeWhile Escape.isHex =
      ['0', '0', hexDigit (n / 16), hexDigit (n % 16)] ∧
    Escape.value 16 ['0', '0', hexDigit (n / 16), hexDigit (n % 16)] = n := by
  decide

variable {c : Char} {rest : List Char} {p : Char → Bool} {n : Nat} {x : Json × List Char}

private theorem escape?_control (h : c.toNat < 0x20) (rest : List Char) :
    escape? ('u' :: '0' :: '0' :: hexDigit (c.toNat / 16) :: hexDigit (c.toNat % 16) :: rest) =
      some (c, 5) := by
  obtain ⟨hhex, hvalue⟩ := unit?_control c.toNat h
  have hunit : unit? ('0' :: '0' :: hexDigit (c.toNat / 16) :: hexDigit (c.toNat % 16) :: rest) =
      some c.toNat := by
    rw [unit?]
    simp only [take_succ_cons, take_zero, hhex, hvalue]
    rfl
  have hlow : ¬(0xD800 ≤ c.toNat ∧ c.toNat < 0xDC00) := by omega
  have hhigh : ¬(0xDC00 ≤ c.toNat ∧ c.toNat < 0xE000) := by omega
  simp [escape?, unicodeEscape?, hunit, hlow, hhigh]

private theorem stringBody?_backslash {d : Char} (h : escape? (d :: rest) = some (c, 1)) :
    stringBody? ('\\' :: d :: rest) = (stringBody? rest).map fun x => (c :: x.1, x.2) := by
  rw [stringBody?, if_neg (by decide), if_pos rfl, h]
  rfl

/-- An escaped character is read as itself. -/
theorem stringBody?_escapeChar (c : Char) (rest : List Char) :
    stringBody? (escapeChar c ++ rest) =
      (stringBody? rest).map fun x => (c :: x.1, x.2) := by
  unfold escapeChar
  split
  iterate 7 exact stringBody?_backslash rfl
  · next c hquote hbackslash _ _ _ _ _ =>
    split
    · next hcontrol =>
      simp only [cons_append, nil_append]
      rw [stringBody?, if_neg (by decide), if_pos rfl, escape?_control hcontrol]
      rfl
    · next hplain =>
      rw [singleton_append, stringBody?, if_neg hquote, if_neg hbackslash, if_neg hplain]

private theorem stringBody?_quote (s rest : List Char) :
    stringBody? (s.flatMap escapeChar ++ '"' :: rest) = some (s, rest) := by
  induction s with
  | nil => rw [List.flatMap_nil, List.nil_append, stringBody?, if_pos rfl]
  | cons c s ih =>
    rw [List.flatMap_cons, List.append_assoc, stringBody?_escapeChar, ih]
    rfl

/-! ## Numbers -/

def goesOn (c : Char) : Bool :=
  isDigit c || c = '.' || c = 'e' || c = 'E' || c = '+' || c = '-'

private theorem takeWhile_append_of_stops (h : Stops p rest) (cs : List Char) :
    (cs ++ rest).takeWhile p = cs.takeWhile p := by
  rw [List.takeWhile_append]
  split
  · have hrest := h.takeWhile_append (List.forall_mem_nil _)
    rw [List.nil_append] at hrest
    rw [hrest, List.append_nil]
    next hall => exact ((List.takeWhile_prefix p).eq_of_length hall).symm
  · rfl

private theorem dropWhile_append_of_stops (h : Stops p rest) (cs : List Char) :
    (cs ++ rest).dropWhile p = cs.dropWhile p ++ rest := by
  rw [List.dropWhile_append]
  split
  · next hnil =>
    have hrest := h.dropWhile_append (List.forall_mem_nil _)
    rw [List.nil_append] at hrest
    rw [hrest, List.isEmpty_iff.mp hnil, List.nil_append]
  · rfl

section Append

variable {rest : List Char} (h : Stops goesOn rest)
include h

theorem stops_isDigit : Stops isDigit rest :=
  h.mono fun c hc => by simp [goesOn, hc]

/-- What begins with such a character does so before the end of the number. -/
theorem exists_eq_cons_of_append {cs ds : List Char} {c : Char} (hc : goesOn c = true)
    (heq : cs ++ rest = c :: ds) : ∃ ds', cs = c :: ds' ∧ ds = ds' ++ rest := by
  cases cs with
  | nil =>
    rw [List.nil_append] at heq
    rw [heq, stops_cons, hc] at h
    cases h
  | cons d ds' =>
    obtain ⟨rfl, rfl⟩ := List.cons.inj heq
    exact ⟨ds', rfl, rfl⟩

variable (cs : List Char)

theorem fraction?_append :
    fraction? (cs ++ rest) = (fraction? cs).map fun x => (x.1, x.2 ++ rest) := by
  have hdigit := stops_isDigit h
  unfold fraction?
  split
  · next ds heq =>
    obtain ⟨ds', rfl, rfl⟩ := exists_eq_cons_of_append h (by decide) heq
    simp only [takeWhile_append_of_stops hdigit, dropWhile_append_of_stops hdigit]
    split <;> rfl
  · next hne =>
    split
    · next ds => exact absurd rfl (hne (ds ++ rest))
    · rfl

theorem digits?_append : digits? (cs ++ rest) = (digits? cs).map fun x => (x.1, x.2 ++ rest) := by
  have hdigit := stops_isDigit h
  simp only [digits?, takeWhile_append_of_stops hdigit, dropWhile_append_of_stops hdigit]
  split <;> rfl

theorem exponent?_append :
    exponent? (cs ++ rest) = (exponent? cs).map fun x => (x.1, x.2 ++ rest) := by
  unfold exponent?
  split
  · next ds heq =>
    obtain ⟨ds', rfl, rfl⟩ := exists_eq_cons_of_append h (by decide) heq
    simp only [digits?_append h, Option.map_map]
    rfl
  · next ds heq =>
    obtain ⟨ds', rfl, rfl⟩ := exists_eq_cons_of_append h (by decide) heq
    simp only [digits?_append h, Option.map_map]
    rfl
  · next hminus hplus =>
    split
    · next ds => exact absurd rfl (hminus (ds ++ rest))
    · next ds => exact absurd rfl (hplus (ds ++ rest))
    · simp only [digits?_append h, Option.map_map]
      rfl

theorem magnitude?_append (negative : Bool) (cs : List Char) :
    magnitude? negative (cs ++ rest) =
      (magnitude? negative cs).map fun x => (x.1, x.2 ++ rest) := by
  have hdigit := stops_isDigit h
  simp only [magnitude?, takeWhile_append_of_stops hdigit, dropWhile_append_of_stops hdigit,
    fraction?_append h]
  split
  · rfl
  · cases fraction? (cs.dropWhile isDigit) with
    | none => rfl
    | some x =>
      obtain ⟨fraction, left⟩ := x
      -- the mark of an exponent belongs to the number, so it cannot come from the rest
      have hmark : ∀ c, goesOn c = true →
          ((left ++ rest).head? = some c ↔ left.head? = some c) := by
        intro c hc
        cases left with
        | nil =>
          constructor
          · intro hhead
            have hstop := h c hhead
            rw [hc] at hstop
            cases hstop
          · intro hhead
            cases hhead
        | cons d left => rfl
      simp only [Option.map_some, Option.bind_eq_bind, Option.bind_some, hmark 'e' (by decide),
        hmark 'E' (by decide)]
      split
      · next hexponent =>
        have hne : left ≠ [] := by
          rintro rfl
          cases hexponent
        have hdrop : (left ++ rest).drop 1 = left.drop 1 ++ rest :=
          List.drop_append_of_le_length (List.length_pos_iff.mpr hne)
        rw [hdrop, exponent?_append h]
        cases exponent? (left.drop 1) with
        | none => rfl
        | some y =>
          simp only [Option.map_some, Option.bind_some]
          cases double? negative _ _ <;> rfl
      · split
        · cases integer? negative _ <;> rfl
        · cases double? negative _ _ <;> rfl

theorem number?_append : number? (cs ++ rest) = (number? cs).map fun x => (x.1, x.2 ++ rest) := by
  unfold number?
  split
  · next ds heq =>
    obtain ⟨ds', rfl, rfl⟩ := exists_eq_cons_of_append h (by decide) heq
    exact magnitude?_append h true ds'
  · next hne =>
    split
    · next ds => exact absurd rfl (hne (ds ++ rest))
    · exact magnitude?_append h false cs

end Append

/-! ### Integers -/

theorem magnitude?_toDigits (negative : Bool) (n : Nat) :
    magnitude? negative (Nat.toDigits 10 n) =
      (integer? negative (Nat.toDigits 10 n)).map fun j => (j, []) := by
  obtain ⟨hne, hdigits, hzero⟩ := IntegerLiteral.whole_toDigits n
  have hwhole : (Nat.toDigits 10 n).takeWhile isDigit = Nat.toDigits 10 n :=
    List.takeWhile_eq_self_iff.mpr hdigits
  have hrest : (Nat.toDigits 10 n).dropWhile isDigit = [] :=
    List.dropWhile_eq_nil_iff.mpr hdigits
  have hleading : ((Nat.toDigits 10 n).isEmpty ||
      (decide ((Nat.toDigits 10 n).head? = some '0') && decide (1 < (Nat.toDigits 10 n).length))) =
      false := by
    rw [Bool.or_eq_false_iff, Bool.and_eq_false_imp]
    refine ⟨List.isEmpty_eq_false_iff.mpr hne, fun hhead => ?_⟩
    rw [hzero (of_decide_eq_true hhead)]
    rfl
  simp only [magnitude?, hwhole, hrest, hleading]
  cases integer? negative (Nat.toDigits 10 n) <;> rfl

theorem integer?_toDigits (h : n < 2 ^ 64) :
    integer? false (Nat.toDigits 10 n) = some (.int n) := by
  have hbound : n < Nat.pow 2 64 := h
  simp [integer?, Double.natOfDigits_toDigits, hbound]

theorem integer?_toDigits_negative (hpos : 0 < n) (h : n ≤ 2 ^ 63) :
    integer? true (Nat.toDigits 10 n) = some (.int (-(n : Int))) := by
  have hbound : n ≤ Nat.pow 2 63 := h
  simp [integer?, Double.natOfDigits_toDigits, hbound, hpos]

def In64Bits (n : Int) : Prop :=
  -2 ^ 63 ≤ n ∧ n < 2 ^ 64

theorem number?_int {n : Int} (h : In64Bits n) :
    number? (toString n).toList = some (.int n, []) := by
  obtain ⟨hlow, hhigh⟩ := h
  rw [toString_int]
  split
  · next hneg =>
    rw [String.toList_append, toList_toString_nat]
    change magnitude? true (Nat.toDigits 10 n.natAbs) = _
    rw [magnitude?_toDigits, integer?_toDigits_negative (by omega) (by omega)]
    simp only [Option.map_some]
    congr 3
    omega
  · next hnonneg =>
    rw [toList_toString_nat, number?]
    · rw [magnitude?_toDigits, integer?_toDigits (by omega)]
      simp only [Option.map_some]
      congr 3
      omega
    · intro rest heq
      have hdigit := IntegerLiteral.isDigit_of_mem_toDigits (n := n.natAbs) (d := '-')
        (by rw [heq]; exact List.mem_cons_self)
      exact absurd hdigit (by decide)

/-! ## Values -/

section Blanks

variable {blanks : List Char} (h : ∀ c ∈ blanks, isBlank c = true)
include h

theorem skipBlanks_append (cs : List Char) : skipBlanks (blanks ++ cs) = skipBlanks cs :=
  List.dropWhile_append_of_pos h

theorem value?_append (fuel : Nat) (cs : List Char) :
    value? fuel (blanks ++ cs) = value? fuel cs := by
  cases fuel with
  | zero => rfl
  | succ fuel => rw [value?, value?, skipBlanks_append h]

theorem items?_append (fuel : Nat) (cs : List Char) :
    items? fuel (blanks ++ cs) = items? fuel cs := by
  cases fuel with
  | zero => rfl
  | succ fuel => rw [items?, items?, value?_append h]

theorem members?_append (fuel : Nat) (cs : List Char) :
    members? fuel (blanks ++ cs) = members? fuel cs := by
  cases fuel with
  | zero => rfl
  | succ fuel => rw [members?, members?, skipBlanks_append h]

end Blanks

theorem skipBlanks_cons (h : isBlank c = false) (cs : List Char) : skipBlanks (c :: cs) = c :: cs :=
  List.dropWhile_cons_of_neg (by simp [h])

private theorem exists_eq_cons_of_number? {cs : List Char} (h : number? cs = some x) :
    ∃ c ds, cs = c :: ds ∧ (c = '-' ∨ isDigit c = true) := by
  cases cs with
  | nil => cases h
  | cons c ds =>
    refine ⟨c, ds, rfl, ?_⟩
    by_cases hminus : c = '-'
    · exact .inl hminus
    · right
      by_contra hdigit
      rw [number?, magnitude?, List.takeWhile_cons_of_neg hdigit] at h
      · cases h
      · rintro rest heq
        exact hminus (List.cons.inj heq).1

private theorem ne_of_number (hc : c = '-' ∨ isDigit c = true) (d : Char)
    (hd : ¬(d = '-' ∨ isDigit d = true)) : c ≠ d := by
  rintro rfl
  exact hd hc

private theorem isBlank_of_number (hc : c = '-' ∨ isDigit c = true) : isBlank c = false := by
  simp (disch := decide) [isBlank, ne_of_number hc]

theorem value?_of_number? {cs : List Char} (h : number? cs = some x) (fuel : Nat) :
    value? (fuel + 1) cs = some x := by
  obtain ⟨c, ds, rfl, hc⟩ := exists_eq_cons_of_number? h
  rw [value?, skipBlanks_cons (isBlank_of_number hc)]
  have hne := ne_of_number hc
  simp [hne 'n' (by decide), hne 't' (by decide), hne 'f' (by decide), hne '"' (by decide),
    hne '[' (by decide), hne '\x7b' (by decide), h]

end Read

open Read

/-- The spelling of a double is read, up to its end, as that double. -/
def ReadsBack (d : Double) : Prop :=
  number? (doubleFormat.spell d) = some (.double d, [])

/-- Whether a value and the empty rest were read, the value being the given double. -/
def isJust (d : Double) : Option (Json × List Char) → Bool
  | some (.double e, []) => e = d
  | _ => false

theorem isJust_iff {d : Double} {x : Option (Json × List Char)} :
    isJust d x = true ↔ x = some (.double d, []) := by
  constructor
  · intro h
    unfold isJust at h
    split at h
    · rw [of_decide_eq_true h]
    · cases h
  · rintro rfl
    exact decide_eq_true rfl

instance : DecidablePred ReadsBack := fun _ => decidable_of_iff _ isJust_iff

def Blanks (cs : List Char) : Prop :=
  ∀ c ∈ cs, isBlank c = true

mutual

/-- The texts of a value. Blanks may stand on both sides of every mark. -/
inductive Spells : Json → List Char → Prop
  | null : Spells .null "null".toList
  | bool (b : Bool) : Spells (.bool b) (atom (.bool b))
  | int {n : Int} : In64Bits n → Spells (.int n) (toString n).toList
  | double {d : Double} : ReadsBack d → Spells (.double d) (doubleFormat.spell d)
  | string (s : String) : Spells (.string s) (quote s)
  | emptyArray {blanks : List Char} : Blanks blanks → Spells (.array []) ('[' :: blanks ++ [']'])
  | array {blanks cs : List Char} {items : List Json} :
    Blanks blanks → SpellsItems items cs → Spells (.array items) ('[' :: blanks ++ cs)
  | emptyObject {blanks : List Char} :
    Blanks blanks → Spells (.object []) ('\x7b' :: blanks ++ ['\x7d'])
  | object {blanks cs : List Char} {members : List (String × Json)} :
    Blanks blanks → SpellsMembers members cs → Spells (.object members) ('\x7b' :: blanks ++ cs)

inductive SpellsItems : List Json → List Char → Prop
  | last {j : Json} {cs blanks : List Char} :
    Spells j cs → Blanks blanks → SpellsItems [j] (cs ++ (blanks ++ [']']))
  | more {j : Json} {items : List Json} {cs blanks blanks' ds : List Char} :
    Spells j cs → Blanks blanks → Blanks blanks' → SpellsItems items ds →
    SpellsItems (j :: items) (cs ++ (blanks ++ ',' :: (blanks' ++ ds)))

inductive SpellsMember : String × Json → List Char → Prop
  | mk (k : String) {j : Json} {blanks blanks' cs : List Char} :
    Blanks blanks → Blanks blanks' → Spells j cs →
    SpellsMember (k, j) (quote k ++ (blanks ++ ':' :: (blanks' ++ cs)))

inductive SpellsMembers : List (String × Json) → List Char → Prop
  | last {m : String × Json} {cs blanks : List Char} :
    SpellsMember m cs → Blanks blanks → SpellsMembers [m] (cs ++ (blanks ++ ['\x7d']))
  | more {m : String × Json} {members : List (String × Json)} {cs blanks blanks' ds : List Char} :
    SpellsMember m cs → Blanks blanks → Blanks blanks' → SpellsMembers members ds →
    SpellsMembers (m :: members) (cs ++ (blanks ++ ',' :: (blanks' ++ ds)))

end

namespace Read

private theorem stops_blanks {blanks : List Char} (h : Blanks blanks) {c : Char}
    (hc : goesOn c = false)
    (rest : List Char) : Stops goesOn (blanks ++ c :: rest) := by
  cases blanks with
  | nil => exact stops_cons.mpr hc
  | cons b blanks =>
    have hb := h b mem_cons_self
    simp only [isBlank, Bool.or_eq_true, decide_eq_true_eq] at hb
    refine stops_cons.mpr ?_
    rcases hb with ((rfl | rfl) | rfl) | rfl <;> rfl

variable {cs : List Char}

/-- A value begins with a character that is neither blank nor a closing bracket. -/
theorem exists_eq_cons_of_spells {j : Json} (h : Spells j cs) :
    ∃ c ds, cs = c :: ds ∧ isBlank c = false ∧ c ≠ ']' := by
  have hnumber : ∀ {cs : List Char} {x : Json × List Char}, number? cs = some x →
      ∃ c ds, cs = c :: ds ∧ isBlank c = false ∧ c ≠ ']' := by
    intro cs x hx
    obtain ⟨c, ds, rfl, hc⟩ := exists_eq_cons_of_number? hx
    exact ⟨c, ds, rfl, isBlank_of_number hc, ne_of_number hc _ (by decide)⟩
  cases h with
  | null => exact ⟨'n', _, rfl, rfl, by decide⟩
  | bool b =>
    cases b
    · exact ⟨'f', _, rfl, rfl, by decide⟩
    · exact ⟨'t', _, rfl, rfl, by decide⟩
  | int hn => exact hnumber (number?_int hn)
  | double hd => exact hnumber hd
  | string s => exact ⟨'"', _, rfl, rfl, by decide⟩
  | emptyArray _ => exact ⟨'[', _, rfl, rfl, by decide⟩
  | array _ _ => exact ⟨'[', _, rfl, rfl, by decide⟩
  | emptyObject _ => exact ⟨'\x7b', _, rfl, rfl, by decide⟩
  | object _ _ => exact ⟨'\x7b', _, rfl, rfl, by decide⟩

theorem exists_eq_cons_of_spellsItems {items : List Json} (h : SpellsItems items cs) :
    ∃ c ds, cs = c :: ds ∧ isBlank c = false ∧ c ≠ ']' := by
  cases h with
  | last hj _ =>
    obtain ⟨c, ds, rfl, hc⟩ := exists_eq_cons_of_spells hj
    exact ⟨c, _, rfl, hc⟩
  | more hj _ _ _ =>
    obtain ⟨c, ds, rfl, hc⟩ := exists_eq_cons_of_spells hj
    exact ⟨c, _, rfl, hc⟩

theorem exists_eq_cons_of_spellsMembers {members : List (String × Json)}
    (h : SpellsMembers members cs) : ∃ ds, cs = '"' :: ds := by
  cases h with
  | last hm _ =>
    obtain ⟨k, _, _, _⟩ := hm
    exact ⟨_, rfl⟩
  | more hm _ _ _ =>
    obtain ⟨k, _, _, _⟩ := hm
    exact ⟨_, rfl⟩

theorem quote_append (s : String) (rest : List Char) :
    quote s ++ rest = '"' :: (s.toList.flatMap escapeChar ++ '"' :: rest) := by
  simp [quote]

theorem value?_quote (fuel : Nat) (s : String) (rest : List Char) :
    value? (fuel + 1) (quote s ++ rest) = some (.string s, rest) := by
  rw [quote_append, value?, skipBlanks_cons rfl]
  simp only [stringBody?_quote, Option.map_some, String.ofList_toList]

section Steps

variable {fuel : Nat} {blanks cs rest : List Char} {j : Json} (hb : Blanks blanks)
include hb

private theorem items?_close (h : value? fuel cs = some (j, blanks ++ ']' :: rest)) :
    items? (fuel + 1) cs = some ([j], rest) := by
  rw [items?, h]
  simp only [skipBlanks_append hb, skipBlanks_cons (c := ']') rfl]

private theorem items?_comma (h : value? fuel cs = some (j, blanks ++ ',' :: rest)) :
    items? (fuel + 1) cs = (items? fuel rest).map fun x => (j :: x.1, x.2) := by
  rw [items?, h]
  simp only [skipBlanks_append hb, skipBlanks_cons (c := ',') rfl]

variable {blanks' : List Char} (hb' : Blanks blanks') (k : String)
include hb'

private theorem members?_close (h : value? fuel cs = some (j, blanks' ++ '\x7d' :: rest)) :
    members? (fuel + 1) (quote k ++ (blanks ++ ':' :: cs)) = some ([(k, j)], rest) := by
  rw [quote_append, members?, skipBlanks_cons rfl]
  simp only [stringBody?_quote, skipBlanks_append hb, skipBlanks_append hb',
    skipBlanks_cons (c := ':') rfl, h, skipBlanks_cons (c := '\x7d') rfl, String.ofList_toList]

private theorem members?_comma (h : value? fuel cs = some (j, blanks' ++ ',' :: rest)) :
    members? (fuel + 1) (quote k ++ (blanks ++ ':' :: cs)) =
      (members? fuel rest).map fun x => ((k, j) :: x.1, x.2) := by
  rw [quote_append, members?, skipBlanks_cons rfl]
  simp only [stringBody?_quote, skipBlanks_append hb, skipBlanks_append hb',
    skipBlanks_cons (c := ':') rfl, h, skipBlanks_cons (c := ',') rfl, String.ofList_toList]

end Steps

theorem exists_fuel {fuel : Nat} (hne : cs ≠ []) (h : cs.length ≤ fuel) : ∃ n, fuel = n + 1 :=
  Nat.exists_eq_add_one.mpr (lt_of_lt_of_le (length_pos_iff.mpr hne) h)

mutual

/-- A text of a value is read as the value, whatever follows that cannot go on with a number. -/
theorem value?_of_spells {j : Json} {cs : List Char} (h : Spells j cs) {rest : List Char}
    (hrest : Stops goesOn rest) {fuel : Nat} (hfuel : cs.length ≤ fuel) :
    value? fuel (cs ++ rest) = some (j, rest) := by
  -- each level takes a character of its own, so the fuel lasts as long as the text
  have hne : cs ≠ [] := by
    obtain ⟨c, ds, rfl, -⟩ := exists_eq_cons_of_spells h
    exact cons_ne_nil c ds
  obtain ⟨fuel, rfl⟩ := exists_fuel hne hfuel
  cases h with
  | null => rfl
  | bool b => cases b <;> rfl
  | int hn =>
    apply value?_of_number?
    rw [number?_append hrest, number?_int hn]
    rfl
  | double hd =>
    apply value?_of_number?
    rw [number?_append hrest, hd]
    rfl
  | string s => exact value?_quote fuel s rest
  | emptyArray hb =>
    rw [cons_append, cons_append, append_assoc, value?, skipBlanks_cons rfl]
    simp only [skipBlanks_append hb, cons_append, nil_append, skipBlanks_cons (c := ']') rfl]
  | @array blanks cs items hb hitems =>
    have hlength : cs.length ≤ fuel := by
      simp only [cons_append, length_cons, length_append] at hfuel
      omega
    have hread := items?_of_spellsItems hitems rest hlength
    obtain ⟨c, ds, rfl, hblank, hclose⟩ := exists_eq_cons_of_spellsItems hitems
    rw [cons_append, cons_append, append_assoc, value?, skipBlanks_cons rfl]
    simp only [skipBlanks_append hb, cons_append, skipBlanks_cons hblank]
    rw [cons_append] at hread
    simp [hclose, hread]
  | emptyObject hb =>
    rw [cons_append, cons_append, append_assoc, value?, skipBlanks_cons rfl]
    simp only [skipBlanks_append hb, cons_append, nil_append, skipBlanks_cons (c := '\x7d') rfl]
  | @object blanks cs members hb hmembers =>
    have hlength : cs.length ≤ fuel := by
      simp only [cons_append, length_cons, length_append] at hfuel
      omega
    have hread := members?_of_spellsMembers hmembers rest hlength
    obtain ⟨ds, rfl⟩ := exists_eq_cons_of_spellsMembers hmembers
    rw [cons_append, cons_append, append_assoc, value?, skipBlanks_cons rfl]
    simp only [skipBlanks_append hb, cons_append, skipBlanks_cons (c := '"') rfl]
    rw [cons_append] at hread
    simp [hread]

theorem items?_of_spellsItems {items : List Json} {cs : List Char} (h : SpellsItems items cs)
    (rest : List Char) {fuel : Nat} (hfuel : cs.length ≤ fuel) :
    items? fuel (cs ++ rest) = some (items, rest) := by
  cases h with
  | @last j cs blanks hj hb =>
    obtain ⟨fuel, rfl⟩ := exists_fuel (by simp) hfuel
    have hlength : cs.length ≤ fuel := by
      simp only [length_append, length_singleton] at hfuel
      omega
    have hread := value?_of_spells hj (stops_blanks hb (c := ']') rfl rest) hlength
    simp only [append_assoc, singleton_append]
    exact items?_close hb hread
  | @more j items cs blanks blanks' ds hj hb hb' hitems =>
    obtain ⟨fuel, rfl⟩ := exists_fuel (by simp) hfuel
    simp only [length_append, length_cons] at hfuel
    have hlength : cs.length ≤ fuel ∧ ds.length ≤ fuel := by omega
    have hstops := stops_blanks hb (c := ',') rfl (blanks' ++ (ds ++ rest))
    have hread := value?_of_spells hj hstops hlength.1
    have hreads := items?_of_spellsItems hitems rest hlength.2
    simp only [append_assoc, cons_append]
    rw [items?_comma hb hread, items?_append hb', hreads]
    rfl

/-- The member is the last one, or others follow. -/
theorem members?_of_spellsMember {m : String × Json} {cs : List Char} (h : SpellsMember m cs)
    {blanks : List Char} (hb : Blanks blanks) (rest : List Char) {fuel : Nat}
    (hfuel : cs.length ≤ fuel) :
    members? (fuel + 1) (cs ++ (blanks ++ '\x7d' :: rest)) = some ([m], rest) ∧
    members? (fuel + 1) (cs ++ (blanks ++ ',' :: rest)) =
      (members? fuel rest).map fun x => (m :: x.1, x.2) := by
  cases h with
  | @mk k j before after cs hbefore hafter hj =>
    simp only [length_append, length_cons] at hfuel
    have hread : ∀ mark, goesOn mark = false →
        value? fuel (after ++ (cs ++ (blanks ++ mark :: rest))) =
          some (j, blanks ++ mark :: rest) := by
      intro mark hmark
      rw [value?_append hafter]
      exact value?_of_spells hj (stops_blanks hb hmark rest) (by omega)
    simp only [append_assoc, cons_append]
    exact ⟨members?_close hbefore hb k (hread '\x7d' rfl),
      members?_comma hbefore hb k (hread ',' rfl)⟩

theorem members?_of_spellsMembers {members : List (String × Json)} {cs : List Char}
    (h : SpellsMembers members cs) (rest : List Char) {fuel : Nat} (hfuel : cs.length ≤ fuel) :
    members? fuel (cs ++ rest) = some (members, rest) := by
  cases h with
  | @last m cs blanks hm hb =>
    obtain ⟨fuel, rfl⟩ := exists_fuel (by simp) hfuel
    have hlength : cs.length ≤ fuel := by
      simp only [length_append, length_singleton] at hfuel
      omega
    simp only [append_assoc, singleton_append]
    exact (members?_of_spellsMember hm hb rest hlength).1
  | @more m members cs blanks blanks' ds hm hb hb' hmembers =>
    obtain ⟨fuel, rfl⟩ := exists_fuel (by simp) hfuel
    simp only [length_append, length_cons] at hfuel
    have hlength : cs.length ≤ fuel ∧ ds.length ≤ fuel := by omega
    have hread := (members?_of_spellsMember hm hb (blanks' ++ (ds ++ rest)) hlength.1).2
    have hreads := members?_of_spellsMembers hmembers rest hlength.2
    simp only [append_assoc, cons_append]
    rw [hread, members?_append hb', hreads]
    rfl

end

end Read

variable {j : Json}

/-- Every text of a value is read as that value. -/
theorem parse?_of_spells {cs : List Char} (h : Spells j cs) :
    parse? (String.ofList cs) = some j := by
  have hread := value?_of_spells h (stops_nil goesOn) (Nat.le_succ cs.length)
  rw [append_nil] at hread
  rw [parse?, String.toList_ofList, String.length_ofList, hread]
  rfl

/-! ## The two spellings -/

inductive Legible : Json → Prop
  | null : Legible .null
  | bool (b : Bool) : Legible (.bool b)
  | int {n : Int} : In64Bits n → Legible (.int n)
  | double {d : Double} : ReadsBack d → Legible (.double d)
  | string (s : String) : Legible (.string s)
  | array {items : List Json} : (∀ j ∈ items, Legible j) → Legible (.array items)
  | object {members : List (String × Json)} :
    (∀ m ∈ members, Legible m.2) → Legible (.object members)

private theorem blanks_nil : Blanks [] := by
  simp [Blanks]

private theorem blanks_newLine (depth : Nat) : Blanks (newLine depth) := by
  intro c hc
  rcases mem_cons.mp hc with rfl | hc
  · rfl
  · rw [eq_of_mem_replicate hc]
    rfl

section Joined

variable {text : Json → List Char} {gap close : List Char} (hgap : Blanks gap)
  (hclose : Blanks close)
include hgap hclose

theorem spellsItems_of_joined (join : List Json → List Char) (hlast : ∀ j, join [j] = text j)
    (hmore : ∀ j j' js, join (j :: j' :: js) = text j ++ ',' :: gap ++ join (j' :: js))
    {j : Json} {js : List Json} (h : ∀ i ∈ j :: js, Spells i (text i)) :
    SpellsItems (j :: js) (join (j :: js) ++ (close ++ [']'])) := by
  induction js generalizing j with
  | nil =>
    rw [hlast]
    exact .last (h j List.mem_cons_self) hclose
  | cons j' js ih =>
    have hjs := ih fun i hi => h i (List.mem_cons_of_mem j hi)
    simpa [hmore] using SpellsItems.more (h j List.mem_cons_self) blanks_nil hgap hjs

theorem spellsMembers_of_joined (join : List (String × Json) → List Char) {blanks : List Char}
    (hb : Blanks blanks) (hlast : ∀ m, join [m] = quote m.1 ++ ':' :: (blanks ++ text m.2))
    (hmore : ∀ m m' ms, join (m :: m' :: ms) =
      quote m.1 ++ ':' :: (blanks ++ text m.2) ++ ',' :: gap ++ join (m' :: ms))
    {m : String × Json} {ms : List (String × Json)} (h : ∀ i ∈ m :: ms, Spells i.2 (text i.2)) :
    SpellsMembers (m :: ms) (join (m :: ms) ++ (close ++ ['\x7d'])) := by
  induction ms generalizing m with
  | nil =>
    have hm := SpellsMember.mk m.1 blanks_nil hb (h m mem_cons_self)
    simpa [hlast] using SpellsMembers.last hm hclose
  | cons m' ms ih =>
    have hm := SpellsMember.mk m.1 blanks_nil hb (h m mem_cons_self)
    have hms := ih fun i hi => h i (mem_cons_of_mem m hi)
    simpa [hmore] using SpellsMembers.more hm blanks_nil hgap hms

end Joined

theorem Legible.spells_compactChars (h : Legible j) : Spells j (compactChars j) := by
  induction h with
  | null => exact .null
  | bool b => exact .bool b
  | int hn => exact .int hn
  | double hd => exact .double hd
  | string s => exact .string s
  | @array items _ ih =>
    cases items with
    | nil => exact .emptyArray blanks_nil
    | cons j js =>
      have hitems := spellsItems_of_joined blanks_nil blanks_nil compactItems (fun _ => rfl)
        (fun _ _ _ => by simp [compactItems]) ih
      simpa [compactChars] using Spells.array blanks_nil hitems
  | @object members _ ih =>
    cases members with
    | nil => exact .emptyObject blanks_nil
    | cons m ms =>
      have hmembers := spellsMembers_of_joined blanks_nil blanks_nil compactMembers blanks_nil
        (fun _ => rfl) (fun _ _ _ => by simp [compactMembers]) ih
      simpa [compactChars] using Spells.object blanks_nil hmembers

theorem Legible.spells_prettyChars (h : Legible j) (depth : Nat) :
    Spells j (prettyChars depth j) := by
  induction h generalizing depth with
  | null => exact .null
  | bool b => exact .bool b
  | int hn => exact .int hn
  | double hd => exact .double hd
  | string s => exact .string s
  | @array items _ ih =>
    cases items with
    | nil => exact .emptyArray blanks_nil
    | cons j js =>
      have hitems := spellsItems_of_joined (blanks_newLine (depth + 1)) (blanks_newLine depth)
        (prettyItems _) (fun _ => rfl) (fun _ _ _ => rfl) fun i hi => ih i hi (depth + 1)
      simpa [prettyChars] using Spells.array (blanks_newLine (depth + 1)) hitems
  | @object members _ ih =>
    cases members with
    | nil => exact .emptyObject blanks_nil
    | cons m ms =>
      have hmembers := spellsMembers_of_joined (blanks_newLine (depth + 1)) (blanks_newLine depth)
        (prettyMembers _) (forall_mem_singleton.mpr rfl) (fun _ => rfl)
        (fun _ _ _ => by simp [prettyMembers]) fun i hi => ih i hi (depth + 1)
      simpa [prettyChars] using Spells.object (blanks_newLine (depth + 1)) hmembers

theorem Legible.parse?_compact (h : Legible j) : parse? j.compact = some j :=
  parse?_of_spells h.spells_compactChars

theorem Legible.parse?_pretty (h : Legible j) : parse? j.pretty = some j :=
  parse?_of_spells (h.spells_prettyChars 0)

end ProtoSchema.Json
