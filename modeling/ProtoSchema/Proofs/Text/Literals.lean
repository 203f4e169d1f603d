import ProtoSchema.Proofs.Text.Parts
import ProtoSchema.Proofs.Token.Tiling

/-!
The string tokens of a text and the bytes they stand for. Decoding stops where the token ends
(`readLiteral_of_string_token`), and a token without remarks is decoded part by part, to what the
parts stand for where they stand for something (`unescape_of_quiet_string`).
-/

namespace ProtoSchema

open Scan Escape List

variable {quote : Char} {tail body : List Char} {ps : List Part}

/-- Nothing says that the string has no end. -/
def Lexeme.Terminated (l : Lexeme) : Prop :=
  Diagnostic.ofFault l.token.position .unterminatedString ∉ l.remarks

instance (l : Lexeme) : Decidable l.Terminated :=
  inferInstanceAs (Decidable (_ ∉ l.remarks))

namespace Scan

variable {p : Position} {cs : List Char}

theorem message_of_mem_stringBody {d : Diagnostic} (h : d ∈ (stringBody quote p cs).remarks) :
    d.message = Fault.invalidEscape.message := by
  fun_induction stringBody quote p cs with
  | case1 | case2 | case3 => cases h
  | case4 p rest n remark _ _ here body ih =>
    rcases mem_append.mp h with h | h
    · simp only [remark] at h
      split at h
      · cases h
      · rw [mem_singleton.mp h]
        rfl
    · exact ih h
  | case5 p c rest _ _ _ body ih => exact ih h

theorem token_of_kind_string {c : Char} {rest : List Char} (h : (token p c rest).kind = .string) :
    isQuote c = true ∧ token p c rest = string p c rest := by
  unfold token at h ⊢
  split at h
  · cases h
  · next hletter =>
    rw [if_neg hletter]
    split at h
    · exact absurd h (Numeral.kind_ofChars_ne (by decide) _)
    · next hnumber =>
      rw [if_neg hnumber]
      split at h
      · next hquote => exact ⟨hquote, if_pos hquote⟩
      · split at h <;> cases h

/-- That a string has no end is remarked on exactly if it is not closed. -/
theorem unterminated_mem_iff (p : Position) (quote : Char) (gap : Position)
    (before cs : List Char) :
    Diagnostic.ofFault p .unterminatedString ∈
        (Scan.gap gap before).remarks ++ (string p quote cs).remarks ↔
      (stringBody quote (p.step quote) cs).closed = false := by
  have hcomment : Fault.unterminatedString.message ≠ Fault.unclosedComment.message := by decide
  have hescape : Fault.unterminatedString.message ≠ Fault.invalidEscape.message := by decide
  have hgap : Diagnostic.ofFault p .unterminatedString ∉ (Scan.gap gap before).remarks :=
    fun h => hcomment (message_of_mem_gap h)
  have hbody : Diagnostic.ofFault p .unterminatedString ∉
      (stringBody quote (p.step quote) cs).remarks :=
    fun h => hescape (message_of_mem_stringBody h)
  simp [string, hgap, hbody]

/-- A string token stands for its parts between two quotes, or behind one if it is not closed. -/
theorem exists_parts_of_mem_lexemes {l : Lexeme} (h : l ∈ lexemes p cs)
    (hkind : l.token.kind = .string) :
    ∃ quote body ps, isQuote quote = true ∧ l.token.text.toList = quote :: body ∧
      (l.Terminated → Parts quote [quote] ps body) ∧ (¬l.Terminated → Parts quote [] ps body) ∧
      (l.remarks = [] → ∀ part ∈ ps, part.Accepted) := by
  fun_induction lexemes p cs with
  | case1 =>
    rw [mem_singleton.mp h] at hkind
    cases hkind
  | case2 p cs g here c rest hrest t ih =>
    rcases mem_cons.mp h with rfl | h
    · obtain ⟨hquote, htoken⟩ := token_of_kind_string hkind
      obtain ⟨ps, hps, haccepted⟩ := exists_parts_stringBody c (here.step c) rest
      have hiff := unterminated_mem_iff here c p cs rest
      rw [← htoken] at hiff
      have htext : t.text = c :: (stringBody c (here.step c) rest).text := congrArg Cut.text htoken
      refine ⟨c, _, ps, hquote, by rw [String.toList_ofList, htext], fun hend => ?_,
        fun hend => ?_, fun hquiet => ?_⟩
      · have hclosed := mt hiff.mpr hend
        rw [Bool.not_eq_false] at hclosed
        rwa [if_pos hclosed] at hps
      · have hopen := hiff.mp (not_not.mp hend)
        rwa [if_neg (by simp [hopen])] at hps
      · obtain ⟨_, hquiet⟩ := append_eq_nil_iff.mp hquiet
        rw [show t = _ from htoken] at hquiet
        exact haccepted (append_eq_nil_iff.mp hquiet).1
    · exact ih h

end Scan

/-! ## Where decoding stops -/

def Escape.readLiteral (text : String) : Unescaped :=
  match Utf8.bytes text with
  | [] => ⟨[], none⟩
  | quote :: rest => readBody quote rest

theorem Escape.bytes_readLiteral (text : String) : (readLiteral text).bytes = unescape text := by
  unfold readLiteral unescape
  split
  · next h => rw [h, unescapeBytes]
  · next h => rw [h, unescapeBytes, bytes_readBody]

section Literal

variable (hquote : isQuote quote = true) {text : String} (htext : text.toList = quote :: body)
include hquote htext

/-- A literal is decoded part by part. -/
theorem Escape.readLiteral_parts (h : Parts quote tail ps body) :
    ∃ q, String.utf8EncodeChar quote = [q] ∧
      readLiteral text = (readBody q (Utf8.encode tail)).prepend (ps.flatMap Part.decoded) := by
  obtain ⟨q, hq, hbyte⟩ := exists_quoteByte hquote
  have hbytes : Utf8.bytes text = q :: Utf8.encode body := by
    rw [Utf8.bytes, htext, encode_cons, hbyte, singleton_append]
  refine ⟨q, hbyte, ?_⟩
  rw [readLiteral, hbytes]
  exact readBody_parts hq hbyte h

theorem Escape.readLiteral_closed (h : Parts quote (quote :: tail) ps body) :
    readLiteral text = ⟨ps.flatMap Part.decoded, some (Utf8.encode tail)⟩ := by
  obtain ⟨q, hbyte, hread⟩ := readLiteral_parts hquote htext h
  rw [hread, encode_cons, hbyte, singleton_append, readBody_quote, Unescaped.prepend, append_nil]

theorem Escape.readLiteral_open (h : Parts quote [] ps body) :
    readLiteral text = ⟨ps.flatMap Part.decoded, none⟩ := by
  obtain ⟨q, _, hread⟩ := readLiteral_parts hquote htext h
  rw [hread, Utf8.encode, flatMap_nil, readBody, Unescaped.prepend, append_nil]

end Literal

/-- Finding the end of a string and decoding it agree. From a token that was closed, decoding stops
with the token, whatever is put behind it; one that was not closed is decoded to its end without
meeting a quote that closes it. -/
theorem readLiteral_of_string_token {source : String} {l : Lexeme} (hl : l ∈ lex source)
    (hkind : l.token.kind = .string) :
    (l.Terminated → ∀ more : String,
      readLiteral (l.token.text ++ more) = ⟨unescape l.token.text, some (Utf8.bytes more)⟩ ∧
        unescape (l.token.text ++ more) = unescape l.token.text) ∧
      (¬l.Terminated → readLiteral l.token.text = ⟨unescape l.token.text, none⟩) := by
  obtain ⟨quote, body, ps, hquote, htext, hclosed, hopen, _⟩ := exists_parts_of_mem_lexemes hl hkind
  have hbytes := bytes_readLiteral l.token.text
  refine ⟨fun hend more => ?_, fun hend => ?_⟩
  · have hps := hclosed hend
    have htext' : (l.token.text ++ more).toList = quote :: (body ++ more.toList) := by
      rw [String.toList_append, htext, List.cons_append]
    have hmore := readLiteral_closed hquote htext' (hps.append (by simp) more.toList)
    rw [readLiteral_closed hquote htext hps] at hbytes
    rw [← bytes_readLiteral (l.token.text ++ more), hmore, ← hbytes]
    exact ⟨rfl, rfl⟩
  · have hread := readLiteral_open hquote htext (hopen hend)
    rw [hread] at hbytes
    rw [hread, ← hbytes]

def awkwardStrings : String :=
  "'\\u12'x \"\\"

theorem readLiteral_of_string_token_awkwardStrings :
    ∃ l ∈ lex awkwardStrings, ∃ k ∈ lex awkwardStrings,
      l.token.kind = .string ∧ l.remarks ≠ [] ∧ l.Terminated ∧
      readLiteral (l.token.text ++ "7'") = ⟨unescape l.token.text, some (Utf8.bytes "7'")⟩ ∧
      k.token.kind = .string ∧ ¬k.Terminated ∧
      readLiteral k.token.text = ⟨unescape k.token.text, none⟩ := by
  let l : Lexeme := ⟨⟨.string, "'\\u12'", ⟨1, 1⟩⟩, [.ofFault ⟨1, 2⟩ .invalidEscape]⟩
  let k : Lexeme := ⟨⟨.string, "\"\\", ⟨1, 9⟩⟩,
    [.ofFault ⟨1, 10⟩ .invalidEscape, .ofFault ⟨1, 9⟩ .unterminatedString]⟩
  have hl : l ∈ lex awkwardStrings := by decide +kernel
  have hk : k ∈ lex awkwardStrings := by decide +kernel
  have hend : l.Terminated := by decide
  have hopen : ¬k.Terminated := by decide
  exact ⟨l, hl, k, hk, rfl, by decide, hend,
    ((readLiteral_of_string_token hl rfl).1 hend "7'").1, rfl, hopen,
    (readLiteral_of_string_token hk rfl).2 hopen⟩

/-! ## What accepted strings stand for -/

namespace Escape

theorem Numbering.number_lt_of_hex {upper : Bool} {ds : List Char} (h : ds.length ≤ 2) :
    (hex upper).number ds < 256 := by
  have hdigits : ∀ k ∈ (ds.map fun d => (hexValue? d).getD 0).reverse, k < 16 := by
    intro k hk
    obtain ⟨d, _, rfl⟩ := mem_map.mp (mem_reverse.mp hk)
    cases hd : hexValue? d with
    | none => decide
    | some k => exact IntegerLiteral.hexValue?_lt hd
  have hlt := Nat.ofDigits_lt_base_pow_length (by decide : 1 < 16) hdigits
  rw [length_reverse, length_map] at hlt
  exact Nat.lt_of_lt_of_le hlt (Nat.pow_le_pow_right (by decide) h)

namespace Part

def OutOfRange : Part → Prop
  | number .octal ds => 256 ≤ Numbering.octal.number ds
  | number (.unicode wide) ds => ¬((Numbering.unicode wide).number ds).isValidChar
  | _ => False

/-- Of the accepted parts, only a number that is out of range stands for nothing. -/
theorem meaning_eq_none_iff {p : Part} (h : p.WellFormed quote) (haccepted : p.Accepted) :
    p.meaning = none ↔ p.OutOfRange := by
  cases p with
  | plain c => simp [meaning, OutOfRange]
  | letter c =>
    have hall : ((letters.map Prod.fst).all fun c => (letters.lookup c).isSome) = true := by decide
    have hc := Option.isSome_iff_ne_none.mp (all_eq_true.mp hall c h)
    simp [meaning, OutOfRange, hc]
  | number n ds =>
    cases n with
    | octal => simp [meaning, OutOfRange, Numbering.meaning]
    | hex upper =>
      have hlt : (Numbering.hex upper).number ds < 256 := Numbering.number_lt_of_hex h.2.1
      simp [meaning, OutOfRange, Numbering.meaning, hlt]
    | unicode wide => simp [meaning, OutOfRange, Numbering.meaning]
  | unknown | dangling => cases haccepted

end Part

theorem Parts.wellFormed {text : List Char} (h : Parts quote tail ps text) :
    ∀ p ∈ ps, p.WellFormed quote := by
  induction h with
  | nil => simp
  | cons hp _ _ ih => exact forall_mem_cons.mpr ⟨hp, ih⟩

end Escape

/-- A string that no one remarks on has one division into parts, all of them accepted, and it is
decoded to what the parts stand for. A number that is out of range stands for nothing, and for it
there is a substitute. -/
theorem unescape_of_quiet_string {source : String} {l : Lexeme} (hl : l ∈ lex source)
    (hkind : l.token.kind = .string) (hquiet : l.remarks = []) :
    ∃ quote body ps, l.token.text.toList = quote :: body ∧
      (∀ ps', Parts quote [quote] ps' body ↔ ps' = ps) ∧
      unescape l.token.text = ps.flatMap Part.decoded ∧
      ∀ p ∈ ps, p.Accepted ∧ (¬p.OutOfRange → p.meaning = some p.decoded) ∧
        (p.OutOfRange → p.meaning = none ∧ p.decoded = p.substitute) := by
  obtain ⟨quote, body, ps, hquote, htext, hclosed, _, haccepted⟩ :=
    exists_parts_of_mem_lexemes hl hkind
  have hps := hclosed (by simp [Lexeme.Terminated, hquiet])
  have hbytes := bytes_readLiteral l.token.text
  rw [readLiteral_closed hquote htext hps] at hbytes
  refine ⟨quote, body, ps, htext, fun ps' => ⟨fun h => hps.unique h, fun h => h ▸ hps⟩,
    hbytes.symm, fun p hp => ⟨haccepted hquiet p hp, fun hrange => ?_, fun hrange => ?_⟩⟩
  all_goals have hnone := p.meaning_eq_none_iff (hps.wellFormed p hp) (haccepted hquiet p hp)
  · obtain ⟨bs, hbs⟩ := Option.ne_none_iff_exists'.mp (mt hnone.mp hrange)
    rw [Part.decoded, hbs]
    rfl
  · have hdenotes := hnone.mpr hrange
    exact ⟨hdenotes, by rw [Part.decoded, hdenotes]; rfl⟩

/-- Digits that are taken one by one, and a letter that is none of them. -/
theorem unescape_of_quiet_string_digits :
    ∃ l ∈ lex "'\\x4g\\1012\\u00e9'", l.token.kind = .string ∧ l.remarks = [] ∧
      unescape l.token.text = [0x04, 0x67, 0x41, 0x32, 0xC3, 0xA9] ∧
      ∃ quote body ps, l.token.text.toList = quote :: body ∧
        (∀ ps', Parts quote [quote] ps' body ↔ ps' = ps) ∧
        unescape l.token.text = ps.flatMap Part.decoded ∧
        ∀ p ∈ ps, p.Accepted ∧ (¬p.OutOfRange → p.meaning = some p.decoded) ∧
          (p.OutOfRange → p.meaning = none ∧ p.decoded = p.substitute) := by
  let l : Lexeme := ⟨⟨.string, "'\\x4g\\1012\\u00e9'", ⟨1, 1⟩⟩, []⟩
  have hl : l ∈ lex "'\\x4g\\1012\\u00e9'" := by decide +kernel
  exact ⟨l, hl, rfl, rfl, by decide +kernel, unescape_of_quiet_string hl rfl rfl⟩

/-- Two numbers that stand for nothing, in a string that no one remarks on. -/
theorem accepted_out_of_range :
    ∃ l ∈ lex "\"\\777\\ud800\"", l.token.kind = .string ∧ l.remarks = [] ∧
      ∃ body, l.token.text.toList = '"' :: body ∧
        Parts '"' ['"'] [.number .octal ['7', '7', '7'],
          .number (.unicode false) ['d', '8', '0', '0']] body ∧
        Numbering.octal.number ['7', '7', '7'] = 511 ∧
        (Numbering.unicode false).number ['d', '8', '0', '0'] = 0xD800 ∧
        Numbering.octal.meaning 511 = none ∧
        (Numbering.unicode false).meaning 0xD800 = none ∧
        unescape l.token.text = 0xFF :: String.utf8EncodeChar Utf8.replacement := by
  let l : Lexeme := ⟨⟨.string, "\"\\777\\ud800\"", ⟨1, 1⟩⟩, []⟩
  have hl : l ∈ lex "\"\\777\\ud800\"" := by decide +kernel
  have hsecond : Parts '"' ['"'] [.number (.unicode false) ['d', '8', '0', '0']]
      ['\\', 'u', 'd', '8', '0', '0', '"'] :=
    .cons ⟨List.all_eq_true.mp rfl, by decide, by decide⟩ (stops_cons.mpr (by decide)) .nil
  have hfirst : Parts '"' ['"'] [.number .octal ['7', '7', '7'],
      .number (.unicode false) ['d', '8', '0', '0']]
      ['\\', '7', '7', '7', '\\', 'u', 'd', '8', '0', '0', '"'] :=
    .cons ⟨List.all_eq_true.mp rfl, by decide, by decide⟩ (stops_cons.mpr (by decide)) hsecond
  exact ⟨l, hl, rfl, rfl, _, by decide +kernel, hfirst, by decide, by decide, by decide, by decide,
    by decide +kernel⟩

end ProtoSchema
