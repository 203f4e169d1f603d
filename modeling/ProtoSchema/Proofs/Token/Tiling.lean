import ProtoSchema.Proofs.Token.Lines
import Mathlib.Data.List.DropRight

/-!
A text is its tokens and what stands between them. Counted in bytes, each token begins behind the
one before it, has the text that stands there, and only blanks and comments are left out. Its place
is the line and the column of its first byte.
-/

namespace ProtoSchema

open List

variable {source : String}

/-! ## Places and bytes -/

/-- `p` is the place of the byte `offset` of a text. A character begins there, or the text ends.
Lines are counted from one, and so are the characters since the last end of a line. -/
def Position.At (source : String) (offset : Nat) (p : Position) : Prop :=
  ∃ before after, source = before ++ after ∧ before.utf8ByteSize = offset ∧
    p.line = 1 + before.toList.count '\n' ∧
    p.column = 1 + (before.toList.rtakeWhile (· ≠ '\n')).length

def Position.In (source : String) (p : Position) : Prop :=
  ∃ offset, p.At source offset

theorem Position.column_advance_origin (cs : List Char) :
    (origin.advance cs).column = 1 + (cs.rtakeWhile (· ≠ '\n')).length := by
  induction cs using List.reverseRecOn with
  | nil => rfl
  | append_singleton cs c ih =>
    have hlast : origin.advance (cs ++ [c]) = (origin.advance cs).step c := advance_append _ _ _
    rw [hlast, rtakeWhile_concat, step]
    by_cases hc : c = '\n'
    · rw [if_pos hc, if_neg (by simpa using hc)]
      rfl
    · rw [if_neg hc, if_pos (by simpa using hc), length_append, ← Nat.add_assoc, ← ih]
      rfl

/-- Behind a part of a text stands the byte that its size tells. -/
theorem Position.at_advance_origin {before after : List Char}
    (h : source.toList = before ++ after) :
    (origin.advance before).At source (String.ofList before).utf8ByteSize := by
  refine ⟨String.ofList before, String.ofList after, ?_, rfl, ?_, ?_⟩
  · rw [← String.ofList_append, ← h, String.ofList_toList]
  · rw [line_advance, String.toList_ofList]
    rfl
  · rw [column_advance_origin, String.toList_ofList]

theorem Position.Within.isIn {p : Position} (h : origin.Within source.toList p) : p.In source := by
  obtain ⟨before, ⟨after, hsource⟩, rfl⟩ := h
  exact ⟨_, at_advance_origin hsource.symm⟩

/-- The token is what stands in a text from the byte `start` up to the byte `stop`, with a character
beginning at each of them or the text ending there, and its place is that of its first byte. -/
structure Token.Fills (source : String) (start stop : Nat) (t : Token) : Prop where
  place : t.position.At source start
  text : ∃ before after, source = before ++ t.text ++ after ∧ before.utf8ByteSize = start ∧
    (before ++ t.text).utf8ByteSize = stop

/-! ## Between the tokens -/

namespace Scan

/-- Blanks and comments before `rest`. A comment that begins with two slashes goes up to the end of
its line, another one up to its first close. One without a close is the last of a text. -/
inductive Spacing (rest : List Char) : List Char → Prop
  | nil : Spacing rest []
  | blank {c : Char} {cs : List Char} (hc : isBlank c = true) (h : Spacing rest cs) :
      Spacing rest (c :: cs)
  | line {body cs : List Char} (hbody : '\n' ∉ body) (hend : ∀ c ∈ (cs ++ rest).head?, c = '\n')
      (h : Spacing rest cs) : Spacing rest ('/' :: '/' :: (body ++ cs))
  | block {body cs : List Char} (hbody : ¬['*', '/'] <:+: body) (h : Spacing rest cs) :
      Spacing rest ('/' :: '*' :: (body ++ '*' :: '/' :: cs))
  | unclosed {body : List Char} (hbody : ¬['*', '/'] <:+: body) (hrest : rest = []) :
      Spacing rest ('/' :: '*' :: body)

/-- A block comment goes up to its first close, or else to the end of the text. -/
theorem blockComment_cases (cs : List Char) :
    (∃ body, (blockComment cs).text = body ++ ['*', '/'] ∧ ¬['*', '/'] <:+: body) ∨
      (blockComment cs).rest = [] ∧ ¬['*', '/'] <:+: (blockComment cs).text := by
  fun_induction blockComment cs with
  | case1 => exact .inr ⟨rfl, by decide⟩
  | case2 rest => exact .inl ⟨[], rfl, by decide⟩
  | case3 c rest hopen body ih =>
    have hfront : ∀ cs, cs <+: rest → ¬['*', '/'] <:+: cs → ¬['*', '/'] <:+: c :: cs := by
      intro cs hcs hbody hinfix
      rcases infix_cons_iff.mp hinfix with hprefix | hinfix
      · obtain ⟨hc, hslash⟩ := cons_prefix_cons.mp hprefix
        obtain ⟨tail, htail⟩ := hslash.trans hcs
        exact hopen tail hc.symm htail.symm
      · exact hbody hinfix
    have hrest : body.text <+: rest := ⟨body.rest, blockComment_text_rest rest⟩
    rcases ih with ⟨inner, htext, hinner⟩ | ⟨hend, htext⟩
    · refine .inl ⟨c :: inner, congrArg (c :: ·) htext, hfront inner ?_ hinner⟩
      exact (prefix_append inner _).trans (htext ▸ hrest)
    · exact .inr ⟨hend, hfront _ hrest htext⟩

theorem spacing_comment? {cs rest more : List Char} {k : Comment} (h : comment? cs = some k)
    (hrest : k.rest = more ++ rest) (hmore : Spacing rest more) :
    Spacing rest (k.text ++ more) := by
  unfold comment? at h
  split at h
  · next tail =>
    cases h
    have hline : ('/' :: '/' :: tail).takeWhile (· ≠ '\n') =
        '/' :: '/' :: tail.takeWhile (· ≠ '\n') := by simp
    rw [hline]
    refine .line ?_ ?_ hmore
    · intro hmem
      simpa using mem_takeWhile_imp hmem
    · intro c hc
      rw [← hrest] at hc
      have hstop := head?_dropWhile_not (· ≠ '\n') ('/' :: '/' :: tail)
      rw [Option.mem_def.mp hc] at hstop
      simpa using hstop
  · next tail =>
    cases h
    rcases blockComment_cases tail with ⟨body, htext, hbody⟩ | ⟨hend, hbody⟩
    · simp only [htext, cons_append, append_assoc, nil_append]
      exact .block hbody hmore
    · obtain ⟨rfl, rfl⟩ := append_eq_nil_iff.mp (hrest.symm.trans hend)
      rw [append_nil]
      exact .unclosed hbody rfl
  · cases h

theorem spacing_gap (p : Position) (cs : List Char) : Spacing (gap p cs).rest (gap p cs).text := by
  fun_induction gap p cs with
  | case1 => exact .nil
  | case2 p c rest hblank g ih => exact .blank hblank ih
  | case3 p c rest _ k h g _ ih => exact spacing_comment? h (gap_text_rest _ k.rest).symm ih
  | case4 => exact .nil

end Scan

/-- From the byte `start` of a text up to the byte `stop` there are only blanks and comments. -/
def Spaced (source : String) (start stop : Nat) : Prop :=
  ∃ before space after, source = before ++ space ++ after ∧ before.utf8ByteSize = start ∧
    (before ++ space).utf8ByteSize = stop ∧ Scan.Spacing after.toList space.toList

theorem Spaced.le {start stop : Nat} (h : Spaced source start stop) : start ≤ stop := by
  obtain ⟨before, space, after, _, rfl, rfl, _⟩ := h
  rw [String.utf8ByteSize_append]
  exact Nat.le_add_right _ _

/-! ## Whole texts -/

/-- From the byte `offset` on, a text is made of the given tokens, in order and apart from each
other, with blanks and comments between them. The last of them, and no other, marks the end of the
text. -/
inductive Tiled (source : String) : Nat → List Token → Prop
  | stop {offset : Nat} {t : Token} (hkind : t.kind = .endOfInput)
      (hspace : Spaced source offset source.utf8ByteSize)
      (hfills : t.Fills source source.utf8ByteSize source.utf8ByteSize) : Tiled source offset [t]
  | step {offset start stop : Nat} {t : Token} {ts : List Token} (hkind : t.kind ≠ .endOfInput)
      (hspace : Spaced source offset start) (hfills : t.Fills source start stop)
      (hlt : start < stop) (h : Tiled source stop ts) : Tiled source offset (t :: ts)

/-- Each token but the last takes at least a byte. -/
theorem Tiled.length_le {offset : Nat} {ts : List Token} (h : Tiled source offset ts) :
    offset + ts.length ≤ source.utf8ByteSize + 1 := by
  induction h with
  | stop _ hspace _ =>
    have hle := hspace.le
    simp only [length_singleton]
    omega
  | step _ hspace _ hlt _ ih =>
    have hle := hspace.le
    simp only [length_cons]
    omega

namespace Scan

theorem Numeral.kind_mantissa (cs : List Char) :
    (mantissa cs).kind = .integer ∨ (mantissa cs).kind = .float := by
  have hdecimal : ∀ cs, (decimal cs).kind = .integer ∨ (decimal cs).kind = .float := by
    intro cs
    unfold decimal
    split
    · exact .inr rfl
    · exact .inl rfl
  unfold mantissa
  split
  · exact .inr rfl
  · split
    · exact .inl rfl
    · split
      · exact .inl rfl
      · exact hdecimal _
  · exact hdecimal _

theorem Numeral.kind_ofChars (cs : List Char) :
    (ofChars cs).kind = .integer ∨ (ofChars cs).kind = .float := by
  have hexponent : (mantissa cs).withExponent.kind = .integer ∨
      (mantissa cs).withExponent.kind = .float := by
    unfold withExponent
    split
    · split
      · exact .inr rfl
      · exact kind_mantissa cs
    · exact kind_mantissa cs
  simp only [ofChars]
  split
  · exact kind_mantissa cs
  · unfold withSuffix
    split
    · split <;> exact hexponent
    · exact hexponent

theorem Numeral.kind_ofChars_ne {kind : TokenKind} (h : kind ≠ .integer ∧ kind ≠ .float)
    (cs : List Char) : (ofChars cs).kind ≠ kind := by
  rintro rfl
  exact (kind_ofChars cs).elim h.1 h.2

theorem kind_token (p : Position) (c : Char) (rest : List Char) :
    (token p c rest).kind ≠ .endOfInput := by
  unfold token
  split
  · nofun
  · split
    · exact Numeral.kind_ofChars_ne (by decide) _
    · split
      · nofun
      · split <;> nofun

section Parts

variable {before cs after : List Char} (h : source.toList = before ++ (cs ++ after))
include h

private theorem eq_append_of_toList :
    source = String.ofList before ++ String.ofList cs ++ String.ofList after := by
  rw [← String.ofList_append, ← String.ofList_append, append_assoc, ← h, String.ofList_toList]

theorem spaced_of_toList (hcs : Spacing after cs) :
    Spaced source (String.ofList before).utf8ByteSize
      (String.ofList (before ++ cs)).utf8ByteSize := by
  refine ⟨_, _, _, eq_append_of_toList h, rfl, by rw [String.ofList_append], ?_⟩
  rw [String.toList_ofList, String.toList_ofList]
  exact hcs

theorem fills_of_toList (kind : TokenKind) :
    (⟨kind, String.ofList cs, Position.origin.advance before⟩ : Token).Fills source
      (String.ofList before).utf8ByteSize (String.ofList (before ++ cs)).utf8ByteSize := by
  refine ⟨Position.at_advance_origin h, _, _, eq_append_of_toList h, rfl, ?_⟩
  rw [String.ofList_append]

end Parts

private theorem utf8ByteSize_ofList_pos {cs : List Char} (h : cs ≠ []) :
    0 < (String.ofList cs).utf8ByteSize := by
  rw [Nat.pos_iff_ne_zero, ne_eq, String.utf8ByteSize_eq_zero_iff]
  intro hempty
  exact h (String.ofList_eq_empty_iff.mp hempty)

/-- The tokens of the last part of a text. -/
theorem tiled_lexemes (source : String) (p : Position) (cs : List Char) :
    ∀ before, source.toList = before ++ cs → p = Position.origin.advance before →
      Tiled source (String.ofList before).utf8ByteSize ((lexemes p cs).map Lexeme.token) := by
  fun_induction lexemes p cs with
  | case1 p cs g here hrest =>
    intro before h hp
    have hspacing : Spacing [] g.text := hrest ▸ spacing_gap p cs
    have hall : source.toList = before ++ (g.text ++ []) := by rw [h, ← hrest, gap_text_rest]
    have hall' : source.toList = before ++ g.text ++ ([] ++ []) := by simpa using hall
    have hhere : here = Position.origin.advance (before ++ g.text) := by
      rw [Position.advance_append, ← hp]
    have hsize : source.utf8ByteSize = (String.ofList (before ++ g.text)).utf8ByteSize := by
      rw [← append_nil (before ++ g.text), ← append_nil [], ← hall', String.ofList_toList]
    refine .stop rfl ?_ ?_
    · rw [hsize]
      exact spaced_of_toList hall hspacing
    · have hfills := fills_of_toList hall' .endOfInput
      rw [append_nil, ← hsize, ← hhere] at hfills
      exact hfills
  | case2 p cs g here c rest hrest t ih =>
    intro before h hp
    have hspacing : Spacing (t.text ++ t.rest) g.text := by
      rw [token_text_rest, ← hrest]
      exact spacing_gap p cs
    have hall : source.toList = before ++ (g.text ++ (t.text ++ t.rest)) := by
      rw [h, token_text_rest, ← hrest, gap_text_rest]
    have hall' : source.toList = before ++ g.text ++ (t.text ++ t.rest) := by
      rw [hall, append_assoc]
    have hhere : here = Position.origin.advance (before ++ g.text) := by
      rw [Position.advance_append, ← hp]
    have hmore := ih (before ++ g.text ++ t.text) (by rw [hall', append_assoc _ t.text])
      (by rw [hhere, ← Position.advance_append])
    refine .step (kind_token here c rest) (spaced_of_toList hall hspacing) ?_ ?_ hmore
    · rw [hhere]
      exact fills_of_toList hall' t.kind
    · have hpos := utf8ByteSize_ofList_pos (token_text_ne_nil here c rest)
      have hsize : (String.ofList (before ++ g.text ++ t.text)).utf8ByteSize =
          (String.ofList (before ++ g.text)).utf8ByteSize +
            (String.ofList t.text).utf8ByteSize := by
        rw [String.ofList_append, String.utf8ByteSize_append]
      rw [hsize]
      exact Nat.lt_add_of_pos_right hpos

end Scan

theorem tiled_lex (source : String) : Tiled source 0 ((lex source).map Lexeme.token) :=
  Scan.tiled_lexemes source _ _ [] rfl rfl

end ProtoSchema
