import ProtoSchema.Proofs.Text.Escape
import ProtoSchema.Proofs.Token.Lines
import Mathlib.Data.Nat.Digits.Defs

/-!
What string literals are made of. Characters and escapes follow each other, and each escape goes on
as far as it can, so a text has one division into parts only (`Parts.unique`). Finding the end of a
string and decoding it are done by different readers, which share no code. Both are compared with
the parts: `exists_parts_stringBody` for the first, `readBody_parts` for the second.
-/

namespace ProtoSchema.Escape

open Scan List

/-! ## Numbers behind a backslash -/

/-- The ways to write a number behind a backslash. -/
inductive Numbering where
  | octal
  /-- Behind `x` or `X`. -/
  | hex (upper : Bool)
  /-- Behind `u`, or behind `U` if it is wide. -/
  | unicode (wide : Bool)
deriving DecidableEq, Repr

variable {n : Numbering} {c quote : Char} {ds : List Char}

namespace Numbering

def mark : Numbering → List Char
  | octal => []
  | hex false => ['x']
  | hex true => ['X']
  | unicode false => ['u']
  | unicode true => ['U']

/-- The numbering that a character behind a backslash announces. -/
def of? (c : Char) : Option Numbering :=
  if isOctal c then some octal
  else if c = 'x' then some (hex false)
  else if c = 'X' then some (hex true)
  else if c = 'u' then some (unicode false)
  else if c = 'U' then some (unicode true)
  else none

def isDigit : Numbering → Char → Bool
  | octal => isOctal
  | _ => isHex

def base : Numbering → Nat
  | octal => 8
  | _ => 16

def least : Numbering → Nat
  | octal => 1
  | hex _ => 1
  | unicode false => 4
  | unicode true => 8

def most : Numbering → Nat
  | octal => 3
  | hex _ => 2
  | unicode false => 4
  | unicode true => 8

def number (n : Numbering) (ds : List Char) : Nat :=
  Nat.ofDigits n.base (ds.map fun d => (hexValue? d).getD 0).reverse

/-- What a number stands for: the byte or the character with that number, if there is one. -/
def meaning : Numbering → Nat → Option (List UInt8)
  | octal, k | hex _, k => if k < 256 then some [UInt8.ofNat k] else none
  | unicode _, k => if k.isValidChar then some (String.utf8EncodeChar (Char.ofNat k)) else none

/-- What is put in the place of a number that stands for nothing: its lowest eight bits, or the
replacement character. -/
def substitute : Numbering → Nat → List UInt8
  | octal, k | hex _, k => [UInt8.ofNat (k % 256)]
  | unicode _, _ => String.utf8EncodeChar Utf8.replacement

def decoded (n : Numbering) (k : Nat) : List UInt8 :=
  (n.meaning k).getD (n.substitute k)

theorem value_base (n : Numbering) (ds : List Char) : value n.base ds = n.number ds := by
  rw [number, Nat.ofDigits_eq_foldr, foldr_reverse, foldl_map, value]
  simp [Nat.add_comm, Nat.mul_comm]

theorem isDigit_lt (h : n.isDigit c = true) : c.toNat < 0x80 := by
  cases n with
  | octal =>
    have hc := (isOctal_iff c).mp h
    omega
  | hex _ | unicode _ =>
    have hc := (isHex_iff c).mp h
    omega

end Numbering

/-! ## Parts -/

def letters : List (Char × UInt8) :=
  [('a', 0x07), ('b', 0x08), ('f', 0x0C), ('n', 0x0A), ('r', 0x0D), ('t', 0x09), ('v', 0x0B),
    ('\\', 0x5C), ('?', 0x3F), ('\'', 0x27), ('"', 0x22)]

def startsEscape (c : Char) : Bool :=
  c ∈ letters.map Prod.fst || (Numbering.of? c).isSome

/-- A part of a string literal. -/
inductive Part where
  | plain (c : Char)
  | letter (c : Char)
  | number (n : Numbering) (ds : List Char)
  /-- A backslash and a character that begins no escape. -/
  | unknown (c : Char)
  /-- A backslash that is the last character of its line. -/
  | dangling
deriving DecidableEq, Repr

namespace Part

def text : Part → List Char
  | plain c => [c]
  | letter c => ['\\', c]
  | number n ds => '\\' :: (n.mark ++ ds)
  | unknown c => ['\\', c]
  | dangling => ['\\']

def WellFormed (quote : Char) : Part → Prop
  | plain c => c ≠ '\n' ∧ c ≠ quote ∧ c ≠ '\\'
  | letter c => c ∈ letters.map Prod.fst
  | number n ds =>
    (∀ d ∈ ds, n.isDigit d = true) ∧ ds.length ≤ n.most ∧ (n = .octal → ds ≠ [])
  | unknown c => c ≠ '\n' ∧ startsEscape c = false
  | dangling => True

/-- What would be taken for more of the part, if it stood right behind it. -/
def goesOn : Part → Char → Bool
  | number n ds => if ds.length < n.most then n.isDigit else never
  | dangling => fun _ => true
  | _ => never

def Accepted : Part → Prop
  | plain _ => True
  | letter _ => True
  | number n ds => n.least ≤ ds.length
  | unknown _ => False
  | dangling => False

/-- The bytes that a part stands for, if there are any. -/
def meaning : Part → Option (List UInt8)
  | plain c => some (String.utf8EncodeChar c)
  | letter c => (letters.lookup c).map ([·])
  | number n ds => n.meaning (n.number ds)
  | unknown _ => none
  | dangling => none

/-- What is put in the place of a part that stands for nothing. -/
def substitute : Part → List UInt8
  | number n ds => n.substitute (n.number ds)
  | p => Utf8.encode p.text

def decoded (p : Part) : List UInt8 :=
  p.meaning.getD p.substitute

end Part

/-- The text is made of the parts, in order, with `tail` behind them. Each part goes on as far as it
can. -/
inductive Parts (quote : Char) (tail : List Char) : List Part → List Char → Prop
  | nil : Parts quote tail [] tail
  | cons {p : Part} {ps : List Part} {text : List Char} (hp : p.WellFormed quote)
      (hstop : Stops p.goesOn text) (h : Parts quote tail ps text) :
      Parts quote tail (p :: ps) (p.text ++ text)

/-! ## Runs of digits -/

section Runs

variable {p : Char → Bool} {k : Nat}

private theorem take_run (p : Char → Bool) (k : Nat) (cs : List Char) :
    cs.take ((cs.take k).takeWhile p).length = (cs.take k).takeWhile p := by
  have hprefix : (cs.take k).takeWhile p <+: cs :=
    (List.takeWhile_prefix p).trans (List.take_prefix k cs)
  exact (prefix_iff_eq_take.mp hprefix).symm

private theorem length_run_le (p : Char → Bool) (k : Nat) (cs : List Char) :
    ((cs.take k).takeWhile p).length ≤ k :=
  Nat.le_trans (List.takeWhile_prefix p).length_le (length_take_le k cs)

/-- A run that is shorter than it may be ends before another character. -/
theorem stops_run {cs : List Char} (h : ((cs.take k).takeWhile p).length < k) :
    Stops p (cs.drop ((cs.take k).takeWhile p).length) := by
  induction cs generalizing k with
  | nil => simpa using stops_nil p
  | cons c cs ih =>
    cases k with
    | zero => simp at h
    | succ k =>
      cases hc : p c with
      | false => simpa [hc] using stops_cons.mpr hc
      | true =>
        simp only [take_succ_cons, takeWhile_cons_of_pos hc, length_cons,
          Nat.add_lt_add_iff_right] at h
        simpa [hc] using ih h

/-- A run of characters that could not have gone on is taken whole. -/
theorem run_append {rest : List Char} (hds : ∀ d ∈ ds, p d = true) (hlen : ds.length ≤ k)
    (hstop : ds.length < k → Stops p rest) : ((ds ++ rest).take k).takeWhile p = ds := by
  induction ds generalizing k with
  | nil =>
    cases k with
    | zero => rfl
    | succ k =>
      cases rest with
      | nil => rfl
      | cons c rest => simp [stops_cons.mp (hstop (by simp))]
  | cons d ds ih =>
    cases k with
    | zero => simp at hlen
    | succ k =>
      have hmore := ih (fun e he => hds e (by simp [he])) (by simpa using hlen)
        fun h => hstop (by simpa using h)
      simp [hds d (by simp), hmore]

end Runs

/-! ## One division only -/

def firstPart : List Char → Part
  | '\\' :: c :: cs =>
    if c ∈ letters.map Prod.fst then .letter c
    else
      match Numbering.of? c with
      | some n => .number n ((((c :: cs).drop n.mark.length).take n.most).takeWhile n.isDigit)
      | none => .unknown c
  | c :: _ => if c = '\\' then .dangling else .plain c
  | [] => .dangling

/-- A number begins with a character that announces its numbering. -/
theorem exists_of?_number (h : (Part.number n ds).WellFormed quote) :
    ∃ c cs, n.mark ++ ds = c :: cs ∧ Numbering.of? c = some n ∧ c ∉ letters.map Prod.fst := by
  obtain ⟨hds, _, hne⟩ := h
  match n with
  | .octal =>
    obtain ⟨d, ds, rfl⟩ := exists_cons_of_ne_nil (hne rfl)
    have hd : isOctal d = true := hds d (by simp)
    refine ⟨d, ds, rfl, if_pos hd, fun hletter => ?_⟩
    have hall : ((letters.map Prod.fst).all fun c => !isOctal c) = true := by decide
    have hno := all_eq_true.mp hall d hletter
    rw [hd] at hno
    cases hno
  | .hex false => exact ⟨'x', ds, rfl, rfl, by decide⟩
  | .hex true => exact ⟨'X', ds, rfl, rfl, by decide⟩
  | .unicode false => exact ⟨'u', ds, rfl, rfl, by decide⟩
  | .unicode true => exact ⟨'U', ds, rfl, rfl, by decide⟩

variable {text : List Char} {p : Char → Bool}

/-- A number with room for more digits has none right behind it. -/
theorem Part.stops_isDigit (h : Stops (Part.number n ds).goesOn text) (hlt : ds.length < n.most) :
    Stops n.isDigit text := by
  simpa [goesOn, hlt] using h

theorem firstPart_append {p : Part} (h : p.WellFormed quote) (hstop : Stops p.goesOn text) :
    firstPart (p.text ++ text) = p := by
  cases p with
  | plain c => simp [Part.text, firstPart, h.2.2]
  | letter c =>
    have hc : c ∈ letters.map Prod.fst := h
    simp only [Part.text, cons_append, nil_append, firstPart, if_pos hc]
  | number n ds =>
    obtain ⟨c, cs, hfront, hn, hletter⟩ := exists_of?_number h
    obtain ⟨hds, hlen, _⟩ := h
    have hrun : ((ds ++ text).take n.most).takeWhile n.isDigit = ds :=
      run_append hds hlen (Part.stops_isDigit hstop)
    have hdrop : (c :: (cs ++ text)).drop n.mark.length = ds ++ text := by
      rw [← cons_append, ← hfront, append_assoc, drop_left]
    simp only [Part.text, hfront, cons_append, firstPart, if_neg hletter, hn, hdrop, hrun]
  | unknown c =>
    obtain ⟨hletter, hn⟩ : c ∉ letters.map Prod.fst ∧ Numbering.of? c = none := by
      simpa [startsEscape] using h.2
    simp only [Part.text, cons_append, nil_append, firstPart, if_neg hletter, hn]
  | dangling =>
    cases text with
    | nil => rfl
    | cons c text => cases stops_cons.mp hstop

theorem Part.text_ne_nil (p : Part) : p.text ≠ [] := by
  cases p <;> simp [text]

namespace Parts

variable {tail text : List Char} {ps : List Part} (h : Parts quote tail ps text)
include h

theorem exists_eq_append : ∃ cs, text = cs ++ tail := by
  induction h with
  | nil => exact ⟨[], rfl⟩
  | cons _ _ _ ih =>
    obtain ⟨cs, rfl⟩ := ih
    exact ⟨_ ++ cs, by rw [append_assoc]⟩

/-- What stands behind the tail does not matter, if only there is a tail. -/
theorem append (hne : tail ≠ []) (more : List Char) :
    Parts quote (tail ++ more) ps (text ++ more) := by
  induction h with
  | nil => exact .nil
  | @cons p ps text hp hstop h ih =>
    obtain ⟨cs, rfl⟩ := h.exists_eq_append
    have hmore := append_ne_nil_of_right_ne_nil cs hne
    obtain ⟨c, rest, hrest⟩ := exists_cons_of_ne_nil hmore
    rw [append_assoc]
    refine .cons hp ?_ ih
    rw [hrest] at hstop ⊢
    exact stops_cons.mpr (stops_cons.mp hstop)

/-- With another part before it, a text is longer than its tail. -/
theorem append_ne_tail (p : Part) : p.text ++ text ≠ tail := by
  intro heq
  obtain ⟨cs, htext⟩ := h.exists_eq_append
  have hlen := congrArg List.length heq
  have hmore := congrArg List.length htext
  have hpos := length_pos_iff.mpr p.text_ne_nil
  simp only [length_append] at hlen hmore
  omega

/-- A text is divided into parts in one way. -/
theorem unique {ps' : List Part} (h' : Parts quote tail ps' text) : ps' = ps := by
  induction h generalizing ps' with
  | nil =>
    generalize htext : tail = text at h'
    cases h' with
    | nil => rfl
    | cons _ _ h' => exact absurd rfl (h'.append_ne_tail _)
  | @cons p ps text hp hstop h ih =>
    generalize htext : p.text ++ text = whole at h'
    cases h' with
    | nil => exact absurd htext (h.append_ne_tail p)
    | @cons p' ps' text' hp' hstop' h' =>
      have hfirst : p' = p := by
        rw [← firstPart_append hp' hstop', ← htext, firstPart_append hp hstop]
      subst hfirst
      obtain rfl := append_cancel_left htext
      rw [ih h']

end Parts

/-! ## Characters as bytes -/

private theorem byteChar_ascii (h : c.toNat < 0x80) : byteChar (UInt8.ofNat c.toNat) = c := by
  have hn : (UInt8.ofNat c.toNat).toNat = c.toNat := by
    rw [UInt8.toNat_ofNat']
    omega
  rw [byteChar, hn, Char.ofNat_toNat]

private theorem toNat_byteChar (b : UInt8) : (byteChar b).toNat = b.toNat := by
  have hb := b.toNat_lt
  exact Utf8.toNat_ofNat (by omega)

/-- The first byte of a character is the character itself, or neither of them is below 128. -/
theorem exists_encodeChar (c : Char) :
    ∃ b bs, String.utf8EncodeChar c = b :: bs ∧ (∀ e ∈ bs, 0x80 ≤ e.toNat) ∧
      (byteChar b = c ∧ bs = [] ∨ 0x80 ≤ (byteChar b).toNat ∧ 0x80 ≤ c.toNat) := by
  by_cases hc : c.toNat < 0x80
  · exact ⟨_, [], utf8EncodeChar_ascii hc, by simp, .inl ⟨byteChar_ascii hc, rfl⟩⟩
  · obtain ⟨b, bs, hbytes, _⟩ := Utf8.exists_front_encode c
    have hwide : ∀ e ∈ b :: bs, 0x80 ≤ e.toNat := by
      intro e he
      rw [← hbytes] at he
      by_contra hlt
      have heq := eq_of_mem_utf8EncodeChar he (by omega)
      have hn : (Char.ofNat e.toNat).toNat = e.toNat := Utf8.toNat_ofNat (by omega)
      rw [heq, hn] at hc
      exact hc (by omega)
    refine ⟨b, bs, hbytes, fun e he => hwide e (by simp [he]), .inr ⟨?_, by omega⟩⟩
    rw [toNat_byteChar]
    exact hwide b (by simp)

private theorem encode_append (as bs : List Char) :
    Utf8.encode (as ++ bs) = Utf8.encode as ++ Utf8.encode bs :=
  flatMap_append

theorem encode_cons (c : Char) (cs : List Char) :
    Utf8.encode (c :: cs) = String.utf8EncodeChar c ++ Utf8.encode cs :=
  flatMap_cons

section Ascii

variable (h : ∀ d ∈ ds, d.toNat < 0x80)
include h

private theorem encode_ascii : Utf8.encode ds = ds.map fun d => UInt8.ofNat d.toNat := by
  induction ds with
  | nil => rfl
  | cons d ds ih =>
    rw [encode_cons, utf8EncodeChar_ascii (h d (by simp)), ih fun e he => h e (by simp [he])]
    rfl

private theorem map_byteChar_encode : (Utf8.encode ds).map byteChar = ds := by
  rw [encode_ascii h, map_map]
  conv_rhs => rw [← map_id ds]
  exact map_congr_left fun d hd => byteChar_ascii (h d hd)

private theorem drop_encode_append (text : List Char) :
    (Utf8.encode (ds ++ text)).drop ds.length = Utf8.encode text := by
  rw [encode_append, encode_ascii h]
  exact drop_left' (by simp)

end Ascii

/-- Digits are found among the bytes of a text where they stand in the text. -/
theorem digits_encode {k : Nat} (hascii : ∀ c, p c = true → c.toNat < 0x80)
    (hds : ∀ d ∈ ds, p d = true) (hlen : ds.length ≤ k) (hstop : ds.length < k → Stops p text) :
    digits p k (Utf8.encode (ds ++ text)) = ds := by
  have hbytes : (Utf8.encode (ds ++ text)).map byteChar =
      ds ++ (Utf8.encode text).map byteChar := by
    rw [encode_append, map_append, map_byteChar_encode fun d hd => hascii d (hds d hd)]
  rw [digits, map_take, hbytes]
  refine run_append hds hlen fun hlt => ?_
  cases text with
  | nil => exact stops_nil p
  | cons c text =>
    have hc := stops_cons.mp (hstop hlt)
    obtain ⟨b, bs, hb, _, hsame⟩ := exists_encodeChar c
    rw [encode_cons, hb, cons_append, map_cons]
    refine stops_cons.mpr ?_
    rcases hsame with ⟨rfl, _⟩ | ⟨hwide, _⟩
    · exact hc
    · rw [← Bool.not_eq_true]
      intro hp
      have hlt := hascii _ hp
      omega

/-! ## Decoding follows the parts -/

/-- Escapes begin with characters below 128. -/
theorem startsEscape_lt (h : startsEscape c = true) : c.toNat < 0x80 := by
  have hletter : ((letters.map Prod.fst).all fun d => decide (d.toNat < 0x80)) = true := by decide
  simp only [startsEscape, Bool.or_eq_true, decide_eq_true_eq] at h
  rcases h with h | h
  · exact of_decide_eq_true (all_eq_true.mp hletter c h)
  · simp only [Numbering.of?] at h
    split at h
    · next hoctal => exact Numbering.isDigit_lt (n := .octal) hoctal
    · repeat' split at h
      all_goals subst_vars
      all_goals first | decide | cases h

theorem denotes_unknown {e : UInt8} (h : startsEscape (byteChar e) = false) (rest : List UInt8) :
    denotes e rest = ([0x5C, e], 0) := by
  unfold denotes
  generalize byteChar e = c at h
  split
  all_goals first
    | exact absurd h (by decide)
    | rw [if_neg (by simp_all [startsEscape, Numbering.of?])]

theorem Numbering.decoded_octal (k : Nat) : octal.decoded k = [UInt8.ofNat k] := by
  simp only [decoded, meaning, substitute]
  split
  · rfl
  · exact congrArg (fun b => [b]) (UInt8.toNat_inj.mp (by simp))

theorem Numbering.decoded_hex (upper : Bool) (k : Nat) :
    (hex upper).decoded k = [UInt8.ofNat k] :=
  decoded_octal k

theorem Numbering.decoded_unicode (wide : Bool) (k : Nat) :
    (unicode wide).decoded k = String.utf8EncodeChar (scalar k) := by
  simp only [decoded, meaning, substitute, scalar]
  split <;> rfl

/-- Behind its mark, a number is read digit by digit, as many as are taken. -/
theorem exists_denotes_mark (h : n ≠ .octal) :
    ∃ e, Utf8.encode n.mark = [e] ∧ ∀ rest, denotes e rest =
      (n.decoded (value n.base (digits n.isDigit n.most rest)),
        (digits n.isDigit n.most rest).length) := by
  match n with
  | .octal => exact absurd rfl h
  | .hex false => exact ⟨0x78, rfl, fun rest => by rw [Numbering.decoded_hex]; rfl⟩
  | .hex true => exact ⟨0x58, rfl, fun rest => by rw [Numbering.decoded_hex]; rfl⟩
  | .unicode false => exact ⟨0x75, rfl, fun rest => by rw [Numbering.decoded_unicode]; rfl⟩
  | .unicode true => exact ⟨0x55, rfl, fun rest => by rw [Numbering.decoded_unicode]; rfl⟩

/-- The digits of a number are taken as far as they go. -/
theorem exists_denotes_number (h : (Part.number n ds).WellFormed quote)
    (hstop : Stops (Part.number n ds).goesOn text) :
    ∃ e rest k, Utf8.encode (n.mark ++ (ds ++ text)) = e :: rest ∧
      denotes e rest = (n.decoded (n.number ds), k) ∧ rest.drop k = Utf8.encode text := by
  obtain ⟨hds, hlen, hne⟩ := h
  have hascii : ∀ d ∈ ds, d.toNat < 0x80 := fun d hd => Numbering.isDigit_lt (hds d hd)
  have hstop := Part.stops_isDigit hstop
  by_cases hn : n = .octal
  · -- The first digit of an octal number stands where others have their mark.
    subst hn
    obtain ⟨d, ds, rfl⟩ := exists_cons_of_ne_nil (hne rfl)
    have hd := hascii d (by simp)
    have hdigits : digits isOctal 2 (Utf8.encode (ds ++ text)) = ds := by
      refine digits_encode (fun c hc => Numbering.isDigit_lt (n := .octal) hc)
        (fun e he => hds e (by simp [he])) (Nat.le_of_succ_le_succ hlen) fun hlt => ?_
      exact hstop (Nat.succ_lt_succ hlt)
    have hoctal : isOctal (byteChar (UInt8.ofNat d.toNat)) = true := by
      rw [byteChar_ascii hd]
      exact hds d (by simp)
    refine ⟨UInt8.ofNat d.toNat, Utf8.encode (ds ++ text), ds.length, ?_, ?_, ?_⟩
    · exact (encode_cons d _).trans (by rw [utf8EncodeChar_ascii hd]; rfl)
    · rw [denotes_octal hoctal, byteChar_ascii hd, hdigits, Numbering.decoded_octal,
        ← Numbering.value_base]
      rfl
    · exact drop_encode_append (fun e he => hascii e (by simp [he])) text
  · obtain ⟨e, hmark, hdenotes⟩ := exists_denotes_mark hn
    have hdigits : digits n.isDigit n.most (Utf8.encode (ds ++ text)) = ds :=
      digits_encode (fun c hc => Numbering.isDigit_lt hc) hds hlen hstop
    refine ⟨e, Utf8.encode (ds ++ text), ds.length, ?_, ?_, drop_encode_append hascii text⟩
    · rw [encode_append, hmark]
      rfl
    · rw [hdenotes, hdigits, Numbering.value_base]

section Decoding

variable {q : UInt8}

theorem readBody_quote (q : UInt8) (rest : List UInt8) :
    readBody q (q :: rest) = ⟨[], some rest⟩ := by
  rw [readBody.eq_def]
  simp

variable (hq : IsQuoteByte q)
include hq

theorem readBody_dangling : readBody q [0x5C] = ⟨[0x5C], none⟩ := by
  rw [readBody.eq_def]
  simp [hq.ne_backslash.symm]

theorem readBody_wide {bs : List UInt8} (h : ∀ b ∈ bs, 0x80 ≤ b.toNat) (rest : List UInt8) :
    readBody q (bs ++ rest) = (readBody q rest).prepend bs := by
  refine readBody_plain (fun b hb => ?_) rest
  have hwide := h b hb
  refine ⟨?_, ?_⟩
  · rintro rfl
    rcases hq with rfl | rfl <;> exact absurd hwide (by decide)
  · rintro rfl
    exact absurd hwide (by decide)

theorem readBody_letter (h : c ∈ letters.map Prod.fst) (rest : List UInt8) :
    readBody q (Utf8.encode ['\\', c] ++ rest) =
      (readBody q rest).prepend (Part.letter c).decoded := by
  simp only [letters, map_cons, map_nil, mem_cons, not_mem_nil, or_false] at h
  rcases h with rfl | rfl | rfl | rfl | rfl | rfl | rfl | rfl | rfl | rfl | rfl
  all_goals exact readBody_backslash hq _ _

theorem readBody_unknown (h : startsEscape c = false) (rest : List UInt8) :
    readBody q (Utf8.encode ['\\', c] ++ rest) =
      (readBody q rest).prepend (Part.unknown c).decoded := by
  obtain ⟨b, bs, hbytes, hwide, hsame⟩ := exists_encodeChar c
  have hencode : Utf8.encode ['\\', c] = 0x5C :: b :: bs := by
    rw [encode_cons, encode_cons, hbytes]
    simp [Utf8.encode]
    rfl
  have hdenotes : denotes b (bs ++ rest) = ([0x5C, b], 0) := by
    refine denotes_unknown ?_ _
    rcases hsame with ⟨rfl, _⟩ | ⟨hb, _⟩
    · exact h
    · rw [← Bool.not_eq_true]
      intro hstart
      have hlt := startsEscape_lt hstart
      omega
  rw [hencode, cons_append, cons_append, readBody_backslash hq, hdenotes]
  rw [drop_zero, readBody_wide hq hwide, Unescaped.prepend_prepend]
  exact congrArg (Unescaped.prepend · _) hencode.symm

theorem readBody_number (h : (Part.number n ds).WellFormed quote)
    (hstop : Stops (Part.number n ds).goesOn text) :
    readBody q (Utf8.encode ((Part.number n ds).text ++ text)) =
      (readBody q (Utf8.encode text)).prepend (Part.number n ds).decoded := by
  obtain ⟨e, rest, k, hbytes, hdenotes, hrest⟩ := exists_denotes_number h hstop
  have hencode : Utf8.encode ((Part.number n ds).text ++ text) = 0x5C :: e :: rest := by
    rw [← hbytes, ← append_assoc]
    exact encode_cons '\\' _
  rw [hencode, readBody_backslash hq, hdenotes, hrest]
  rfl

/-- One part is decoded on its own. -/
theorem readBody_part (hquote : String.utf8EncodeChar quote = [q]) {p : Part}
    (h : p.WellFormed quote) (hstop : Stops p.goesOn text) :
    readBody q (Utf8.encode (p.text ++ text)) =
      (readBody q (Utf8.encode text)).prepend p.decoded := by
  cases p with
  | plain c =>
    obtain ⟨_, hc, hb⟩ := h
    have hlt : q.toNat < 0x80 := by rcases hq with rfl | rfl <;> decide
    have hself : quote = Char.ofNat q.toNat := eq_of_mem_utf8EncodeChar (by simp [hquote]) hlt
    have hplain : ∀ b ∈ String.utf8EncodeChar c, b ≠ q ∧ b ≠ 0x5C := fun b hmem =>
      ne_of_mem_utf8EncodeChar hq (hself ▸ hc) hb hmem
    exact readBody_plain hplain _
  | letter c =>
    rw [encode_append]
    exact readBody_letter hq h _
  | number n ds => exact readBody_number hq h hstop
  | unknown c =>
    rw [encode_append]
    exact readBody_unknown hq h.2 _
  | dangling =>
    cases text with
    | nil =>
      have hnil : readBody q [] = ⟨[], none⟩ := by rw [readBody]
      exact (readBody_dangling hq).trans (congrArg (Unescaped.prepend [0x5C]) hnil.symm)
    | cons c text => cases stops_cons.mp hstop

/-- Decoding takes a text part by part. -/
theorem readBody_parts (hquote : String.utf8EncodeChar quote = [q]) {tail : List Char}
    {ps : List Part} (h : Parts quote tail ps text) :
    readBody q (Utf8.encode text) =
      (readBody q (Utf8.encode tail)).prepend (ps.flatMap Part.decoded) := by
  induction h with
  | nil => rfl
  | cons hp hstop _ ih =>
    rw [readBody_part hq hquote hp hstop, ih, Unescaped.prepend_prepend, flatMap_cons]

end Decoding

/-! ## Reading a string follows the parts -/

private theorem stops_initial {as bs : List Char} (h : Stops p bs) (hle : as <+: bs) :
    Stops p as := by
  obtain ⟨cs, rfl⟩ := hle
  cases as with
  | nil => exact stops_nil p
  | cons a as => exact stops_cons.mpr (stops_cons.mp h)

section Runs

variable {cs : List Char}

private theorem wellFormed_run (quote : Char) (h : ds = (cs.take n.most).takeWhile n.isDigit)
    (hne : n = .octal → ds ≠ []) : (Part.number n ds).WellFormed quote := by
  subst h
  exact ⟨all_eq_true.mp all_takeWhile, length_run_le _ _ _, hne⟩

private theorem stops_goesOn_run (h : ds = (cs.take n.most).takeWhile n.isDigit) :
    Stops (Part.number n ds).goesOn (cs.drop ds.length) := by
  subst h
  simp only [Part.goesOn]
  split
  · next hlt => exact stops_run hlt
  · exact stops_never _

theorem exists_part_mark (quote : Char) {m : Char} (hmark : n.mark = [m]) (cs : List Char) :
    let k := ((cs.take n.most).takeWhile n.isDigit).length
    ∃ p : Part, p.WellFormed quote ∧ p.text = '\\' :: (m :: cs).take (k + 1) ∧
      Stops p.goesOn ((m :: cs).drop (k + 1)) ∧ (decide (n.least ≤ k) = true → p.Accepted) := by
  refine ⟨.number n _, wellFormed_run quote rfl ?_, ?_, stops_goesOn_run rfl, fun h => ?_⟩
  · rintro rfl
    cases hmark
  · rw [Part.text, hmark, take_succ_cons, take_run]
    rfl
  · have hleast : n.least ≤ _ := of_decide_eq_true h
    exact hleast

end Runs

/-- What follows a backslash on its line is a part, and taken as far as it goes. -/
theorem exists_part_escape (quote : Char) (hc : c ≠ '\n') (cs : List Char) :
    ∃ p : Part, p.WellFormed quote ∧
      p.text = '\\' :: (c :: cs).take (escapeLength (c :: cs)).1 ∧
      Stops p.goesOn ((c :: cs).drop (escapeLength (c :: cs)).1) ∧
      ((escapeLength (c :: cs)).2 = true → p.Accepted) := by
  simp only [escapeLength, if_neg hc]
  split
  · next hletter => exact ⟨.letter c, hletter, rfl, stops_never _, fun _ => trivial⟩
  split
  · next hoctal =>
    have hne : ((c :: cs).take 3).takeWhile isOctal ≠ [] := by simp [hoctal]
    refine ⟨.number .octal _, wellFormed_run quote rfl fun _ => hne, ?_, stops_goesOn_run rfl,
      fun _ => length_pos_iff.mpr hne⟩
    rw [take_run]
    rfl
  split
  · next hx =>
    simp only [Bool.or_eq_true, decide_eq_true_eq] at hx
    rcases hx with rfl | rfl
    · exact exists_part_mark (n := .hex false) quote rfl cs
    · exact exists_part_mark (n := .hex true) quote rfl cs
  split
  · next hu =>
    subst hu
    exact exists_part_mark (n := .unicode false) quote rfl cs
  split
  · next hU =>
    subst hU
    exact exists_part_mark (n := .unicode true) quote rfl cs
  · next hletter hoctal hx hu hU =>
    refine ⟨.unknown c, ⟨hc, ?_⟩, rfl, stops_never _, fun h => by cases h⟩
    simp_all [startsEscape, letters, Numbering.of?]

/-- At the end of a line no escape follows a backslash, and the string ends. -/
theorem at_end_of_line {rest : List Char} (h : ∀ c ∈ rest.head?, c = '\n') (quote : Char)
    (p : Position) : escapeLength rest = (0, false) ∧ (stringBody quote p rest).text = [] := by
  cases rest with
  | nil => exact ⟨rfl, by rw [stringBody]⟩
  | cons c rest =>
    obtain rfl : c = '\n' := h c (by simp)
    exact ⟨rfl, by rw [stringBody, if_pos rfl]⟩

/-- What is read as a string is made of parts. If there is no remark, all of them are accepted. -/
theorem exists_parts_stringBody (quote : Char) (p : Position) (cs : List Char) :
    ∃ ps, Parts quote (if (stringBody quote p cs).closed then [quote] else []) ps
        (stringBody quote p cs).text ∧
      ((stringBody quote p cs).remarks = [] → ∀ p ∈ ps, p.Accepted) := by
  fun_induction stringBody quote p cs with
  | case1 | case2 | case3 => exact ⟨[], .nil, fun _ => by simp⟩
  | case4 p rest n remark hnl hquote here body ih =>
    obtain ⟨ps, hps, haccepted⟩ := ih
    by_cases hend : ∀ c ∈ rest.head?, c = '\n'
    · obtain ⟨hlength, _⟩ := at_end_of_line hend quote p
      have hbody : body.text = [] := by
        have hdrop : rest.drop n = rest := by simp [n, hlength]
        simp only [body, hdrop]
        exact (at_end_of_line hend quote _).2
      refine ⟨.dangling :: ps, ?_, fun h => ?_⟩
      · have hhere : here = ['\\'] := by simp [here, n, hlength]
        rw [hhere]
        exact .cons trivial (by rw [hbody]; exact stops_nil _) hps
      · simp [remark, hlength] at h
    · obtain ⟨c, rest, rfl, hc⟩ : ∃ c cs, rest = c :: cs ∧ c ≠ '\n' := by
        cases rest with
        | nil => simp at hend
        | cons c cs => exact ⟨c, cs, rfl, by simpa using hend⟩
      obtain ⟨part, hpart, htext, hstop, hvalid⟩ := exists_part_escape quote hc rest
      have hprefix : body.text <+: (c :: rest).drop n := ⟨body.rest, stringBody_text_rest _ _ _⟩
      refine ⟨part :: ps, ?_, fun h => ?_⟩
      · have hhere : here = part.text := htext.symm
        rw [hhere]
        exact .cons hpart (stops_initial hstop hprefix) hps
      · obtain ⟨hremark, hmore⟩ := append_eq_nil_iff.mp h
        refine forall_mem_cons.mpr ⟨hvalid ?_, haccepted hmore⟩
        simpa [remark] using hremark
  | case5 p c rest hnl hquote hescape body ih =>
    obtain ⟨ps, hps, haccepted⟩ := ih
    refine ⟨.plain c :: ps, .cons ⟨hnl, hquote, hescape⟩ (stops_never _) hps, fun h => ?_⟩
    exact forall_mem_cons.mpr ⟨trivial, haccepted h⟩

end ProtoSchema.Escape
