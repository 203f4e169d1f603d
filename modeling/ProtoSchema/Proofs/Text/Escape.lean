import ProtoSchema.Proofs.Text.Utf8
import ProtoSchema.Proofs.Token.Words

/-!
String literals. Bytes that were escaped and put between quotes read back as the same bytes, and
what stands between the quotes closes the string nowhere else. Both quotes are escaped, so this
holds between either of them. Main statement: `lex_quoted`.
-/

namespace ProtoSchema.Escape

open Scan List
open Utf8 (Piece)

/-! ## Octal escapes -/

variable {quote c : Char} {b : UInt8} (n : Nat) (bs : List UInt8)

private theorem octalDigit_eq : octalDigit n ∈ ['0', '1', '2', '3', '4', '5', '6', '7'] := by
  have h : n % 8 < 8 := Nat.mod_lt n (by decide)
  unfold octalDigit
  generalize n % 8 = k at h
  revert k
  decide

private theorem isOctal_octalDigit : isOctal (octalDigit n) = true := by
  have hall : ['0', '1', '2', '3', '4', '5', '6', '7'].all isOctal = true := by decide
  exact all_eq_true.mp hall _ (octalDigit_eq n)

private theorem hexValue?_octalDigit : hexValue? (octalDigit n) = some (n % 8) := by
  have h : n % 8 < 8 := Nat.mod_lt n (by decide)
  unfold octalDigit
  generalize n % 8 = k at h
  revert k
  decide

def octalByte (n : Nat) : UInt8 :=
  UInt8.ofNat (48 + n % 8)

private theorem utf8EncodeChar_octalDigit :
    String.utf8EncodeChar (octalDigit n) = [octalByte n] := by
  have h : n % 8 < 8 := Nat.mod_lt n (by decide)
  unfold octalDigit octalByte
  generalize n % 8 = k at h
  revert k
  decide

private theorem byteChar_octalByte : byteChar (octalByte n) = octalDigit n := by
  have h : n % 8 < 8 := Nat.mod_lt n (by decide)
  unfold octalDigit octalByte
  generalize n % 8 = k at h
  revert k
  decide

theorem denotes_octal {e : UInt8} (h : isOctal (byteChar e) = true) (rest : List UInt8) :
    denotes e rest =
      ([UInt8.ofNat (value 8 (byteChar e :: digits isOctal 2 rest))],
        (digits isOctal 2 rest).length) := by
  unfold denotes
  generalize byteChar e = c at h
  split
  all_goals first | exact absurd h (by decide) | rw [if_pos h]

def IsQuoteByte (q : UInt8) : Prop :=
  q = 0x22 ∨ q = 0x27

theorem exists_quoteByte (h : isQuote quote = true) :
    ∃ q, IsQuoteByte q ∧ String.utf8EncodeChar quote = [q] := by
  rcases isQuote_iff.mp h with rfl | rfl
  · exact ⟨0x22, .inl rfl, rfl⟩
  · exact ⟨0x27, .inr rfl, rfl⟩

theorem IsQuoteByte.ne_backslash {q : UInt8} (h : IsQuoteByte q) : q ≠ 0x5C := by
  rcases h with rfl | rfl <;> decide

/-! ## Bytes behind an opening quote -/

structure Unescaped where
  bytes : List UInt8
  /-- What stands behind the closing quote, if there is one. -/
  behind : Option (List UInt8)
deriving DecidableEq, Repr

def Unescaped.prepend (bs : List UInt8) (u : Unescaped) : Unescaped :=
  { u with bytes := bs ++ u.bytes }

/-- `unescapeBody`, with an account of where it stops. -/
def readBody (quote : UInt8) : List UInt8 → Unescaped
  | [] => ⟨[], none⟩
  | b :: rest =>
    if b == quote then ⟨[], some rest⟩
    else if b == 0x5C then
      match rest with
      | [] => ⟨[b], none⟩
      | e :: rest => (readBody quote (rest.drop (denotes e rest).2)).prepend (denotes e rest).1
    else (readBody quote rest).prepend [b]
termination_by bs => bs.length
decreasing_by
  · simp only [List.length_cons, List.length_drop]; omega
  · simp only [List.length_cons]; omega

theorem bytes_readBody (quote : UInt8) (bs : List UInt8) :
    (readBody quote bs).bytes = unescapeBody quote bs := by
  fun_induction readBody quote bs with
  | case1 => rw [unescapeBody]
  | case2 b rest hq => rw [unescapeBody.eq_def]; simp [hq]
  | case3 b hq hb => rw [unescapeBody.eq_def]; simp [hq, hb]
  | case4 b hq hb e rest ih =>
    rw [unescapeBody.eq_def]
    simp [hq, hb, Unescaped.prepend, ih]
  | case5 b rest hq hb ih =>
    rw [unescapeBody.eq_def]
    simp [hq, hb, Unescaped.prepend, ih]

theorem Unescaped.prepend_prepend (as bs : List UInt8) (u : Unescaped) :
    (u.prepend bs).prepend as = u.prepend (as ++ bs) := by
  simp [prepend]

variable {q : UInt8}

theorem readBody_plain {bs : List UInt8} (h : ∀ b ∈ bs, b ≠ q ∧ b ≠ 0x5C) (rest : List UInt8) :
    readBody q (bs ++ rest) = (readBody q rest).prepend bs := by
  induction bs with
  | nil => rfl
  | cons b bs ih =>
    obtain ⟨hq, hb⟩ := h b (by simp)
    rw [cons_append, readBody.eq_def]
    simp only [beq_iff_eq, hq, hb, if_false]
    rw [ih fun e he => h e (by simp [he]), Unescaped.prepend_prepend, singleton_append]

theorem unescapeBody_plain {bs : List UInt8} (h : ∀ b ∈ bs, b ≠ q ∧ b ≠ 0x5C)
    (rest : List UInt8) : unescapeBody q (bs ++ rest) = bs ++ unescapeBody q rest := by
  rw [← bytes_readBody, readBody_plain h, Unescaped.prepend, bytes_readBody]

/-- Only a character itself has its number as a byte, if that is below 128. -/
theorem eq_of_mem_utf8EncodeChar (h : b ∈ String.utf8EncodeChar c) (hb : b.toNat < 0x80) :
    c = Char.ofNat b.toNat := by
  unfold String.utf8EncodeChar at h
  simp only [Char.toNat_val] at h
  split at h
  · obtain rfl := mem_singleton.mp h
    have hn : (UInt8.ofNat c.toNat).toNat = c.toNat := by
      rw [UInt8.toNat_ofNat']
      omega
    rw [hn, Char.ofNat_toNat]
  · split at h
    · simp only [mem_cons, not_mem_nil, or_false] at h
      rcases h with rfl | rfl <;> simp at hb <;> omega
    · split at h
      · simp only [mem_cons, not_mem_nil, or_false] at h
        rcases h with rfl | rfl | rfl <;> simp at hb <;> omega
      · simp only [mem_cons, not_mem_nil, or_false] at h
        rcases h with rfl | rfl | rfl | rfl <;> simp at hb <;> omega

theorem utf8EncodeChar_ascii (h : c.toNat < 0x80) :
    String.utf8EncodeChar c = [UInt8.ofNat c.toNat] := by
  unfold String.utf8EncodeChar
  simp only [Char.toNat_val]
  rw [if_pos (by omega)]

section Quoted

variable (hq : IsQuoteByte q)
include hq

theorem readBody_backslash (e : UInt8) (rest : List UInt8) :
    readBody q (0x5C :: e :: rest) =
      (readBody q (rest.drop (denotes e rest).2)).prepend (denotes e rest).1 := by
  rw [readBody]
  simp [hq.ne_backslash.symm]

theorem unescapeBody_backslash (e : UInt8) (rest : List UInt8) :
    unescapeBody q (0x5C :: e :: rest) =
      (denotes e rest).1 ++ unescapeBody q (rest.drop (denotes e rest).2) := by
  rw [← bytes_readBody, readBody_backslash hq, Unescaped.prepend, bytes_readBody]

theorem unescapeBody_octal {n : Nat} (h : n < 256) (rest : List UInt8) :
    unescapeBody q (Utf8.encode (octal n) ++ rest) =
      UInt8.ofNat n :: unescapeBody q rest := by
  have hbytes : Utf8.encode (octal n) =
      [0x5C, octalByte (n / 64), octalByte (n / 8), octalByte n] := by
    simp only [Utf8.encode, octal, flatMap_cons, flatMap_nil, utf8EncodeChar_octalDigit]
    rfl
  have hdigits : digits isOctal 2 (octalByte (n / 8) :: octalByte n :: rest) =
      [octalDigit (n / 8), octalDigit n] := by
    simp [digits, byteChar_octalByte, isOctal_octalDigit]
  have hvalue : value 8 [octalDigit (n / 64), octalDigit (n / 8), octalDigit n] = n := by
    simp only [value, foldl_cons, foldl_nil, hexValue?_octalDigit, Option.getD_some]
    omega
  rw [hbytes]
  simp only [cons_append, nil_append]
  rw [unescapeBody_backslash hq, denotes_octal (by rw [byteChar_octalByte, isOctal_octalDigit]),
    byteChar_octalByte, hdigits, hvalue]
  rfl

/-! ## Pieces -/

/-- Characters other than the quote and a backslash have none of their bytes. -/
theorem ne_of_mem_utf8EncodeChar (hquote : c ≠ Char.ofNat q.toNat) (hbackslash : c ≠ '\\')
    (h : b ∈ String.utf8EncodeChar c) : b ≠ q ∧ b ≠ 0x5C := by
  refine ⟨?_, ?_⟩
  · rintro rfl
    have hlt : b.toNat < 0x80 := by rcases hq with rfl | rfl <;> decide
    exact hquote (eq_of_mem_utf8EncodeChar h hlt)
  · rintro rfl
    exact hbackslash (eq_of_mem_utf8EncodeChar h (by decide))

theorem unescapeBody_escapeChar (c : Char) (rest : List UInt8) :
    unescapeBody q (Utf8.encode (escapeChar c) ++ rest) =
      String.utf8EncodeChar c ++ unescapeBody q rest := by
  unfold escapeChar
  split
  iterate 6 exact unescapeBody_backslash hq _ _
  · next hbackslash hdouble hsingle =>
    split
    · next hcontrol =>
      simp only [Bool.or_eq_true, decide_eq_true_eq, beq_iff_eq] at hcontrol
      rw [unescapeBody_octal hq (by omega), utf8EncodeChar_ascii (by omega)]
      rfl
    · have hquote : c ≠ Char.ofNat q.toNat := by
        rcases hq with rfl | rfl
        · exact hdouble
        · exact hsingle
      have hplain : ∀ b ∈ String.utf8EncodeChar c, b ≠ q ∧ b ≠ 0x5C := fun b hb =>
        ne_of_mem_utf8EncodeChar hq hquote hbackslash hb
      rw [Utf8.encode, flatMap_singleton, unescapeBody_plain hplain]

theorem unescapeBody_escapePiece (p : Piece) (rest : List UInt8) :
    unescapeBody q (Utf8.encode (escapePiece p) ++ rest) =
      p.bytes ++ unescapeBody q rest := by
  cases p with
  | char c => exact unescapeBody_escapeChar hq c rest
  | malformed bs =>
    rw [escapePiece, Piece.bytes]
    induction bs with
    | nil => rfl
    | cons b bs ih =>
      rw [Utf8.encode, flatMap_cons, flatMap_append, append_assoc]
      rw [← Utf8.encode, ← Utf8.encode, unescapeBody_octal hq b.toNat_lt, ih, UInt8.ofNat_toNat]
      rfl

theorem unescapeBody_flatMap (ps : List Piece) (rest : List UInt8) :
    unescapeBody q (Utf8.encode (ps.flatMap escapePiece) ++ rest) =
      ps.flatMap Piece.bytes ++ unescapeBody q rest := by
  induction ps with
  | nil => rfl
  | cons p ps ih =>
    rw [Utf8.encode, flatMap_cons, flatMap_append, append_assoc, ← Utf8.encode,
      ← Utf8.encode, unescapeBody_escapePiece hq, ih, flatMap_cons, append_assoc]

end Quoted

def quoted (quote : Char) (bs : List UInt8) : String :=
  String.singleton quote ++ escape bs ++ String.singleton quote

private theorem toList_quoted (quote : Char) (bs : List UInt8) :
    (quoted quote bs).toList = quote :: (escapeChars bs ++ [quote]) := by
  simp [quoted, escape]

/-- Escaped bytes between quotes read back as the same bytes. -/
theorem unescape_quoted (h : isQuote quote = true) (bs : List UInt8) :
    unescape (quoted quote bs) = bs := by
  obtain ⟨q, hq, hquote⟩ := exists_quoteByte h
  have hbytes : Utf8.bytes (quoted quote bs) =
      q :: (Utf8.encode ((Utf8.pieces bs).flatMap escapePiece) ++ [q]) := by
    simp only [Utf8.bytes, Utf8.encode, toList_quoted, escapeChars, flatMap_cons,
      flatMap_append, flatMap_nil, hquote, singleton_append, append_nil]
  have hend : unescapeBody q [q] = [] := by
    rw [unescapeBody, if_pos (beq_self_eq_true q)]
  rw [unescape, hbytes, unescapeBytes, unescapeBody_flatMap hq, hend, append_nil,
    Utf8.flatMap_bytes_pieces]

/-- The literals that are printed stand between double quotes. -/
theorem quoted_double : quoted '"' bs = "\"" ++ escape bs ++ "\"" :=
  rfl

theorem unescape_doubleQuoted : unescape ("\"" ++ escape bs ++ "\"") = bs := by
  rw [← quoted_double, unescape_quoted rfl]

/-! ## Where a printed string closes -/

section Closing

variable {quote : Char} {body : List Char}

private theorem ne_backslash_of_isQuote (h : isQuote quote = true) : quote ≠ '\\' := by
  rcases isQuote_iff.mp h with rfl | rfl <;> decide

private theorem escapeLength_octal (n : Nat) (rest : List Char) :
    escapeLength ([octalDigit (n / 64), octalDigit (n / 8), octalDigit n] ++ rest) =
      (3, true) := by
  have hall : ['0', '1', '2', '3', '4', '5', '6', '7'].all (fun c => decide (c ≠ '\n' ∧
      c ∉ ['a', 'b', 'f', 'n', 'r', 't', 'v', '\\', '?', '\'', '"'])) = true := by
    decide
  obtain ⟨hnl, hletter⟩ := of_decide_eq_true (List.all_eq_true.mp hall _ (octalDigit_eq (n / 64)))
  simp only [List.cons_append, List.nil_append, escapeLength]
  rw [if_neg hnl, if_neg hletter, if_pos (isOctal_octalDigit _)]
  simp [isOctal_octalDigit]

variable (hq : isQuote quote = true)
include hq

theorem closes_octal (h : Closes quote body) (n : Nat) : Closes quote (octal n ++ body) :=
  h.escape (ne_backslash_of_isQuote hq)
    (e := [octalDigit (n / 64), octalDigit (n / 8), octalDigit n])
    fun rest => escapeLength_octal n (body ++ rest)

theorem closes_escapeChar (h : Closes quote body) (c : Char) :
    Closes quote (escapeChar c ++ body) := by
  have hb := ne_backslash_of_isQuote hq
  unfold escapeChar
  split
  · exact h.escape hb (e := ['n']) fun rest => rfl
  · exact h.escape hb (e := ['r']) fun rest => rfl
  · exact h.escape hb (e := ['t']) fun rest => rfl
  · exact h.escape hb (e := ['\\']) fun rest => rfl
  · exact h.escape hb (e := ['"']) fun rest => rfl
  · exact h.escape hb (e := ['\'']) fun rest => rfl
  · next hnl _ _ hbackslash hdouble hsingle =>
    split
    · exact closes_octal hq h c.toNat
    · refine h.cons hnl ?_ hbackslash
      rintro rfl
      exact (isQuote_iff.mp hq).elim hdouble hsingle

theorem closes_escapePiece (h : Closes quote body) (p : Piece) :
    Closes quote (escapePiece p ++ body) := by
  cases p with
  | char c => exact closes_escapeChar hq h c
  | malformed bs =>
    rw [escapePiece]
    induction bs with
    | nil => exact h
    | cons b bs ih =>
      rw [flatMap_cons, append_assoc]
      exact closes_octal hq ih b.toNat

/-- Escaped bytes between quotes are the text of a string token. -/
theorem quotedText_quoted (bs : List UInt8) : QuotedText (quoted quote bs).toList := by
  have hbody : ∀ ps : List Piece, Closes quote (ps.flatMap escapePiece ++ [quote]) := by
    intro ps
    induction ps with
    | nil => exact .quote_self hq
    | cons p ps ih =>
      rw [flatMap_cons, append_assoc]
      exact closes_escapePiece hq ih p
  exact ⟨quote, escapeChars bs ++ [quote], toList_quoted quote bs, hq, hbody _⟩

end Closing

/-- Escaping is undone by lexing and unescaping. A text that begins with escaped bytes between
quotes has them as its first token, a string without a remark, whatever the bytes are and whatever
follows, and from the token the bytes are read back. -/
theorem lex_quoted (bs : List UInt8) (quote : Char) (hq : quote = '"' ∨ quote = '\'')
    (rest : String) :
    (∃ ls, lex (quoted quote bs ++ rest) = ⟨⟨.string, quoted quote bs, .origin⟩, []⟩ :: ls) ∧
      unescape (quoted quote bs) = bs := by
  have hquote := isQuote_iff.mpr hq
  have hlexemes := lexemes_string (quotedText_quoted hquote bs) .origin rest.toList
  rw [← String.toList_append] at hlexemes
  exact ⟨⟨_, hlexemes⟩, unescape_quoted hquote bs⟩

/-- The first bytes of a character, with a digit and a quote behind them. -/
theorem lex_quoted_truncated : ('\'' = '"' ∨ '\'' = '\'') ∧
    (∃ ls, lex (quoted '\'' [0xE2, 0x82, 0x31, 0x27] ++ "7'") =
      ⟨⟨.string, quoted '\'' [0xE2, 0x82, 0x31, 0x27], .origin⟩, []⟩ :: ls) ∧
      unescape (quoted '\'' [0xE2, 0x82, 0x31, 0x27]) = [0xE2, 0x82, 0x31, 0x27] :=
  ⟨.inr rfl, lex_quoted _ _ (.inr rfl) _⟩

example : quoted '\'' [0xE2, 0x82, 0x31, 0x27] = "'\\342\\2021\\''" := by
  decide +kernel

end ProtoSchema.Escape
