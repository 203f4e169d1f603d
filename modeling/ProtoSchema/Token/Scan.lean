import ProtoSchema.Fault
import ProtoSchema.Text.Escape
import ProtoSchema.Token

/-!
Reading a text as tokens. Each scanner cuts a stretch off the front of the text, and a text is its
gaps and tokens in order. A lexical fault is remarked on and reading goes on after it.
-/

namespace ProtoSchema.Scan

/-! ## Character classes -/

def isBlank (c : Char) : Bool :=
  c = ' ' || c = '\t' || c = '\r' || c = '\n' || c = '\x0b' || c = '\x0c'

def isDigit (c : Char) : Bool :=
  '0' ≤ c && c ≤ '9'

def isLetter (c : Char) : Bool :=
  'a' ≤ c && c ≤ 'z' || 'A' ≤ c && c ≤ 'Z' || c = '_'

def isWordChar (c : Char) : Bool :=
  isLetter c || isDigit c

def isQuote (c : Char) : Bool :=
  c = '"' || c = '\''

def symbols : List Char :=
  ['\x7b', '\x7d', '(', ')', '[', ']', '<', '>', ';', '=', ',', '.', ':', '-', '+', '/']

/-! ## Gaps between tokens -/

structure Comment where
  text : List Char
  rest : List Char
  closed : Bool

/-- What follows the opening of a block comment, up to and with its close. -/
def blockComment : List Char → Comment
  | [] => ⟨[], [], false⟩
  | '*' :: '/' :: rest => ⟨['*', '/'], rest, true⟩
  | c :: rest =>
    let body := blockComment rest
    { body with text := c :: body.text }

def comment? (cs : List Char) : Option Comment :=
  match cs with
  | '/' :: '/' :: _ => some ⟨cs.takeWhile (· ≠ '\n'), cs.dropWhile (· ≠ '\n'), true⟩
  | '/' :: '*' :: rest =>
    let body := blockComment rest
    some { body with text := '/' :: '*' :: body.text }
  | _ => none

theorem blockComment_text_rest (cs : List Char) :
    (blockComment cs).text ++ (blockComment cs).rest = cs := by
  fun_induction blockComment cs with
  | case1 => rfl
  | case2 => rfl
  | case3 c rest _ body ih => simpa [body] using ih

theorem comment?_text_rest {cs : List Char} {k : Comment} (h : comment? cs = some k) :
    k.text ++ k.rest = cs := by
  unfold comment? at h
  split at h
  · cases h; exact List.takeWhile_append_dropWhile
  · cases h; simp [blockComment_text_rest]
  · cases h

theorem comment?_text_ne_nil {cs : List Char} {k : Comment} (h : comment? cs = some k) :
    k.text ≠ [] := by
  unfold comment? at h
  split at h
  · cases h; simp
  · cases h; simp
  · cases h

theorem comment?_rest_lt {cs : List Char} {k : Comment} (h : comment? cs = some k) :
    k.rest.length < cs.length := by
  have hne := List.length_pos_iff.mpr (comment?_text_ne_nil h)
  have hlen := congrArg List.length (comment?_text_rest h)
  simp only [List.length_append] at hlen
  omega

structure Gap where
  text : List Char
  rest : List Char
  remarks : List Diagnostic

def gap (p : Position) (cs : List Char) : Gap :=
  match cs with
  | [] => ⟨[], [], []⟩
  | c :: rest =>
    if isBlank c then
      let g := gap (p.step c) rest
      { g with text := c :: g.text }
    else
      match _h : comment? (c :: rest) with
      | some k =>
        let g := gap (p.advance k.text) k.rest
        let unclosed := if k.closed then [] else [Diagnostic.ofFault p .unclosedComment]
        ⟨k.text ++ g.text, g.rest, unclosed ++ g.remarks⟩
      | none => ⟨[], c :: rest, []⟩
termination_by cs.length
decreasing_by
  · simp
  · exact comment?_rest_lt _h

theorem gap_text_rest (p : Position) (cs : List Char) :
    (gap p cs).text ++ (gap p cs).rest = cs := by
  fun_induction gap p cs with
  | case1 => rfl
  | case2 p c rest _ g ih => simpa [g] using ih
  | case3 p c rest _ k h g _ ih =>
    have hk := comment?_text_rest h
    simp only [g, List.append_assoc, ih, hk]
  | case4 => rfl

/-! ## Tokens -/

/-- A token's text at the front of a text, with the remarks on it. -/
structure Cut where
  kind : TokenKind
  text : List Char
  rest : List Char
  remarks : List Diagnostic

/-- A number at the front of a text, with the faults of the number as a whole. -/
structure Numeral where
  kind : TokenKind
  hex : Bool
  text : List Char
  rest : List Char
  faults : List Fault

namespace Numeral

/-- Digits with or without a fraction. -/
def decimal (cs : List Char) : Numeral :=
  let whole := cs.takeWhile isDigit
  match cs.dropWhile isDigit with
  | '.' :: ds => ⟨.float, false, whole ++ '.' :: ds.takeWhile isDigit, ds.dropWhile isDigit, []⟩
  | rest => ⟨.integer, false, whole, rest, []⟩

/-- What stands after `0x`. -/
def hexadecimal (x : Char) (cs : List Char) : Numeral :=
  let ds := cs.takeWhile Escape.isHex
  ⟨.integer, true, '0' :: x :: ds, cs.dropWhile Escape.isHex,
    if ds.isEmpty then [.missingHexDigits] else []⟩

/-- The digits after a leading zero. -/
def octal (cs : List Char) : Numeral :=
  let ds := cs.takeWhile isDigit
  ⟨.integer, false, '0' :: ds, cs.dropWhile isDigit, if ds.any ('7' < ·) then [.notOctal] else []⟩

def mantissa (cs : List Char) : Numeral :=
  match cs with
  | '.' :: ds => ⟨.float, false, '.' :: ds.takeWhile isDigit, ds.dropWhile isDigit, []⟩
  | '0' :: c :: ds =>
    if c = 'x' || c = 'X' then hexadecimal c ds
    else if isDigit c then octal (c :: ds)
    else decimal ('0' :: c :: ds)
  | cs => decimal cs

/-- The sign an exponent may begin with. -/
def sign (cs : List Char) : List Char × List Char :=
  match cs with
  | c :: rest => if c = '+' || c = '-' then ([c], rest) else ([], c :: rest)
  | [] => ([], [])

def withExponent (n : Numeral) : Numeral :=
  match n.rest with
  | e :: rest =>
    if e = 'e' || e = 'E' then
      let (s, rest) := sign rest
      let ds := rest.takeWhile isDigit
      { n with
        kind := .float
        text := n.text ++ e :: (s ++ ds)
        rest := rest.dropWhile isDigit
        faults := n.faults ++ if ds.isEmpty then [.missingExponent] else [] }
    else n
  | [] => n

/-- A float may be marked as one by a last letter. -/
def withSuffix (n : Numeral) : Numeral :=
  match n.rest with
  | c :: rest =>
    if n.kind = .float && (c = 'f' || c = 'F') then { n with text := n.text ++ [c], rest := rest }
    else n
  | [] => n

def ofChars (cs : List Char) : Numeral :=
  let n := mantissa cs
  if n.hex then n else n.withExponent.withSuffix

end Numeral

/-- A number. A letter that touches its end is remarked on at that letter. -/
def number (p : Position) (cs : List Char) : Cut :=
  let n := Numeral.ofChars cs
  let glued :=
    match n.rest with
    | c :: _ => if isLetter c then [Diagnostic.ofFault (p.advance n.text) .gluedNumber] else []
    | [] => []
  ⟨n.kind, n.text, n.rest, n.faults.map (Diagnostic.ofFault p) ++ glued⟩

/-- How many of the characters after a backslash belong to the escape, and whether it is well
formed. -/
def escapeLength (cs : List Char) : Nat × Bool :=
  match cs with
  | [] => (0, false)
  | c :: rest =>
    let hex (least most : Nat) : Nat × Bool :=
      let n := ((rest.take most).takeWhile Escape.isHex).length
      (n + 1, least ≤ n)
    if c = '\n' then (0, false)
    else if c ∈ ['a', 'b', 'f', 'n', 'r', 't', 'v', '\\', '?', '\'', '"'] then (1, true)
    else if Escape.isOctal c then ((((c :: rest).take 3).takeWhile Escape.isOctal).length, true)
    else if c = 'x' || c = 'X' then hex 1 2
    else if c = 'u' then hex 4 4
    else if c = 'U' then hex 8 8
    else (1, false)

/-- What follows the opening quote of a string, up to and with the closing one. -/
structure StringBody where
  text : List Char
  rest : List Char
  remarks : List Diagnostic
  closed : Bool

/-- A string ends at its quote, and otherwise before the end of its line. -/
def stringBody (quote : Char) (p : Position) (cs : List Char) : StringBody :=
  match cs with
  | [] => ⟨[], [], [], false⟩
  | c :: rest =>
    if c = '\n' then ⟨[], c :: rest, [], false⟩
    else if c = quote then ⟨[c], rest, [], true⟩
    else if c = '\\' then
      let n := (escapeLength rest).1
      let here := c :: rest.take n
      let body := stringBody quote (p.advance here) (rest.drop n)
      let remark :=
        if (escapeLength rest).2 then [] else [Diagnostic.ofFault p .invalidEscape]
      { body with text := here ++ body.text, remarks := remark ++ body.remarks }
    else
      let body := stringBody quote (p.step c) rest
      { body with text := c :: body.text }
termination_by cs.length
decreasing_by
  · simp only [List.length_drop, List.length_cons]; omega
  · simp

def string (p : Position) (quote : Char) (cs : List Char) : Cut :=
  let body := stringBody quote (p.step quote) cs
  let unterminated := if body.closed then [] else [Diagnostic.ofFault p .unterminatedString]
  ⟨.string, quote :: body.text, body.rest, body.remarks ++ unterminated⟩

/-- Whether a number begins with `c`: a digit, or a point before a digit. -/
def startsNumber (c : Char) (rest : List Char) : Bool :=
  isDigit c ||
    c = '.' &&
      match rest with
      | d :: _ => isDigit d
      | [] => false

def token (p : Position) (c : Char) (rest : List Char) : Cut :=
  if isLetter c then
    ⟨.identifier, c :: rest.takeWhile isWordChar, rest.dropWhile isWordChar, []⟩
  else if startsNumber c rest then number p (c :: rest)
  else if isQuote c then string p c rest
  else if c ∈ symbols then ⟨.symbol, [c], rest, []⟩
  else ⟨.symbol, [c], rest, [Diagnostic.ofFault p (.invalidCharacter c)]⟩

/-! ## Nothing is lost -/

theorem Numeral.decimal_text_rest (cs : List Char) :
    (decimal cs).text ++ (decimal cs).rest = cs := by
  unfold decimal
  have h := List.takeWhile_append_dropWhile (p := isDigit) (l := cs)
  split
  · next ds hds =>
    rw [hds] at h
    simpa using h
  · exact h

theorem Numeral.mantissa_text_rest (cs : List Char) :
    (mantissa cs).text ++ (mantissa cs).rest = cs := by
  unfold mantissa
  split
  · simp
  · split
    · simp [hexadecimal]
    · split
      · simp [octal]
      · exact decimal_text_rest _
  · exact decimal_text_rest _

theorem Numeral.sign_append (cs : List Char) : (sign cs).1 ++ (sign cs).2 = cs := by
  unfold sign
  split
  · split <;> rfl
  · rfl

theorem Numeral.withExponent_text_rest (n : Numeral) :
    n.withExponent.text ++ n.withExponent.rest = n.text ++ n.rest := by
  unfold withExponent
  split
  · next e rest he =>
    split
    · have hs := sign_append rest
      simp only [List.append_assoc, List.cons_append, List.takeWhile_append_dropWhile, hs, he]
    · rfl
  · rfl

theorem Numeral.withSuffix_text_rest (n : Numeral) :
    n.withSuffix.text ++ n.withSuffix.rest = n.text ++ n.rest := by
  unfold withSuffix
  split
  · next c rest hc =>
    split
    · simp [hc]
    · rfl
  · rfl

theorem Numeral.ofChars_text_rest (cs : List Char) :
    (ofChars cs).text ++ (ofChars cs).rest = cs := by
  simp only [ofChars]
  split
  · exact mantissa_text_rest cs
  · rw [withSuffix_text_rest, withExponent_text_rest, mantissa_text_rest]

theorem stringBody_text_rest (quote : Char) (p : Position) (cs : List Char) :
    (stringBody quote p cs).text ++ (stringBody quote p cs).rest = cs := by
  fun_induction stringBody quote p cs with
  | case1 => rfl
  | case2 => rfl
  | case3 => rfl
  | case4 p rest n _ _ _ here body ih =>
    simp only [body] at ih ⊢
    simp [here, List.append_assoc, ih]
  | case5 p c rest _ _ _ body ih => simpa [body] using ih

theorem token_text_rest (p : Position) (c : Char) (rest : List Char) :
    (token p c rest).text ++ (token p c rest).rest = c :: rest := by
  unfold token
  split
  · simp
  · split
    · exact Numeral.ofChars_text_rest _
    · split
      · simp [string, stringBody_text_rest]
      · split <;> rfl

theorem Numeral.decimal_text_ne_nil {c : Char} {rest : List Char} (h : isDigit c = true) :
    (decimal (c :: rest)).text ≠ [] := by
  unfold decimal
  split <;> simp [h]

theorem Numeral.mantissa_text_ne_nil {c : Char} {rest : List Char}
    (h : startsNumber c rest = true) : (mantissa (c :: rest)).text ≠ [] := by
  unfold mantissa
  split
  · simp
  · split
    · simp [hexadecimal]
    · split
      · simp [octal]
      · exact decimal_text_ne_nil (by decide)
  · next hdot _ =>
    have hc : isDigit c = true := by
      have hne : c ≠ '.' := fun hc => hdot _ (by rw [hc])
      simpa [startsNumber, hne] using h
    exact decimal_text_ne_nil hc

theorem Numeral.withExponent_text_ne_nil {n : Numeral} (h : n.text ≠ []) :
    n.withExponent.text ≠ [] := by
  unfold withExponent
  split
  · split <;> simp [h]
  · exact h

theorem Numeral.withSuffix_text_ne_nil {n : Numeral} (h : n.text ≠ []) :
    n.withSuffix.text ≠ [] := by
  unfold withSuffix
  split
  · split <;> simp [h]
  · exact h

theorem Numeral.ofChars_text_ne_nil {c : Char} {rest : List Char}
    (h : startsNumber c rest = true) : (ofChars (c :: rest)).text ≠ [] := by
  have hm := mantissa_text_ne_nil h
  simp only [ofChars]
  split
  · exact hm
  · exact withSuffix_text_ne_nil (withExponent_text_ne_nil hm)

theorem token_text_ne_nil (p : Position) (c : Char) (rest : List Char) :
    (token p c rest).text ≠ [] := by
  unfold token
  split
  · simp
  · split
    · next h => exact Numeral.ofChars_text_ne_nil h
    · split
      · simp [string]
      · split <;> simp

theorem token_rest_lt (p : Position) (c : Char) (rest : List Char) :
    (token p c rest).rest.length < (c :: rest).length := by
  have hne := List.length_pos_iff.mpr (token_text_ne_nil p c rest)
  have hlen := congrArg List.length (token_text_rest p c rest)
  simp only [List.length_append] at hlen
  omega

theorem gap_rest_le (p : Position) (cs : List Char) : (gap p cs).rest.length ≤ cs.length := by
  have hlen := congrArg List.length (gap_text_rest p cs)
  simp only [List.length_append] at hlen
  omega

/-! ## Whole texts -/

/-- The tokens of the text `cs` that begins at `p`. The last one, and no other, marks the end. -/
def lexemes (p : Position) (cs : List Char) : List Lexeme :=
  let g := gap p cs
  let here := p.advance g.text
  match _h : g.rest with
  | [] => [⟨⟨.endOfInput, "", here⟩, g.remarks⟩]
  | c :: rest =>
    let t := token here c rest
    ⟨⟨t.kind, String.ofList t.text, here⟩, g.remarks ++ t.remarks⟩ ::
      lexemes (here.advance t.text) t.rest
termination_by cs.length
decreasing_by
  have hlt := token_rest_lt (p.advance (gap p cs).text) c rest
  have hle := gap_rest_le p cs
  rw [_h] at hle
  exact Nat.lt_of_lt_of_le hlt hle

end ProtoSchema.Scan

namespace ProtoSchema

def lex (source : String) : List Lexeme :=
  Scan.lexemes Position.origin source.toList

end ProtoSchema
