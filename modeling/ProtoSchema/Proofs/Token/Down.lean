import ProtoSchema.Proofs.Token.Lines

/-!
Texts under each other. A text that begins further down has the same tokens and remarks, as many
lines further down, so the tokens of two texts with the end of a line between them are those of the
first and, moved down, those of the second. Main statement: `lex_newline`.
-/

namespace ProtoSchema

open Scan List

/-! ## Moving down -/

def Position.down (n : Nat) (p : Position) : Position :=
  ⟨p.line + n, p.column⟩

def Token.down (n : Nat) (t : Token) : Token :=
  { t with position := t.position.down n }

def Diagnostic.down (n : Nat) (d : Diagnostic) : Diagnostic :=
  { d with position := d.position.down n }

def Lexeme.down (n : Nat) (l : Lexeme) : Lexeme :=
  ⟨l.token.down n, l.remarks.map (Diagnostic.down n)⟩

namespace Position

variable (n : Nat) (p : Position) (cs : List Char)

theorem step_down (c : Char) : (p.down n).step c = (p.step c).down n := by
  unfold step down
  split
  · rw [Nat.add_right_comm]
  · rfl

/-- A line begins at the first column. -/
theorem advance_origin_newline :
    origin.advance (cs ++ ['\n']) = origin.down (cs.count '\n' + 1) := by
  have hline := line_advance origin cs
  rw [advance_append]
  show (origin.advance cs).step '\n' = _
  rw [step, if_pos rfl, hline, down]
  rfl

end Position

namespace Scan

variable (n : Nat) (p : Position) (cs : List Char) (as bs ls : List Lexeme)

/-- The tokens of a text that begins further down. -/
theorem lexemes_down : lexemes (p.down n) cs = (lexemes p cs).map (Lexeme.down n) := by
  have hdown : Forall₂ (SameLexeme fun x y _ => y = x.down n) (lexemes p cs)
      (lexemes (p.down n) cs) := forall₂_lexemes (fun x _ c _ h => h ▸ x.step_down n c) _ rfl
  symm
  rw [← forall₂_eq_eq_eq, forall₂_map_left_iff]
  refine hdown.imp fun l m ⟨hword, ⟨_, hplace⟩, hremarks⟩ => ?_
  have htoken : l.token.down n = m.token := by
    rw [Token.down, ← hplace, show l.token.kind = m.token.kind from congrArg Word.kind hword,
      show l.token.text = m.token.text from congrArg Word.text hword]
  have hsame : l.remarks.map (Diagnostic.down n) = m.remarks := by
    rw [← forall₂_eq_eq_eq, forall₂_map_left_iff]
    refine hremarks.imp fun d e ⟨hmessage, _, hplace⟩ => ?_
    rw [Diagnostic.down, hmessage, ← hplace]
  rw [Lexeme.down, htoken, hsame]

/-! ## One text under another -/

def tokens (ls : List Lexeme) : List Token :=
  (ls.map Lexeme.token).filter fun t => t.kind ≠ .endOfInput

private theorem tokens_append : tokens (as ++ bs) = tokens as ++ tokens bs := by
  simp [tokens]

private theorem remarks_append : remarks (as ++ bs) = remarks as ++ remarks bs :=
  flatMap_append

private theorem tokens_map_down :
    tokens (ls.map (Lexeme.down n)) = (tokens ls).map (Token.down n) := by
  simp only [tokens, map_map, filter_map]
  rfl

private theorem remarks_map_down :
    remarks (ls.map (Lexeme.down n)) = (remarks ls).map (Diagnostic.down n) := by
  rw [remarks, remarks, flatMap_map, map_flatMap]
  rfl

private theorem tokens_dropLast : tokens (lexemes p cs).dropLast = tokens (lexemes p cs) := by
  obtain ⟨ls, l, hls, hend⟩ := exists_lexemes_concat p cs
  have hkind : l.token.kind = .endOfInput := congrArg Word.kind hend
  rw [hls, dropLast_concat, tokens_append]
  simp [tokens, hkind]

/-- All that is remarked on at the end of a text is a comment that is not closed. -/
theorem Closed.dropLast {p : Position} {cs : List Char} (h : Closed (lexemes p cs)) :
    remarks (lexemes p cs).dropLast = remarks (lexemes p cs) := by
  fun_induction lexemes p cs with
  | case1 p cs g here hrest =>
    have hquiet : g.remarks = [] := gap_remarks_eq_nil h fun d hd => hd
    simp [remarks, hquiet]
  | case2 p cs g here c rest hrest t ih =>
    rw [dropLast_cons_of_ne_nil (lexemes_ne_nil _ _), remarks_cons, remarks_cons, ih h.tail]

end Scan

/-- The end of a line ends all that a lexer can be in the middle of, but a comment between marks.
The tokens of two texts with the end of a line between them are those of the first and then, as many
lines further down, those of the second, and so are the remarks. -/
theorem lex_newline {source more : String} (h : Closed (lex source)) :
    tokens (lex (source ++ "\n" ++ more)) =
        tokens (lex source) ++
          (tokens (lex more)).map (Token.down (source.toList.count '\n' + 1)) ∧
      remarks (lex (source ++ "\n" ++ more)) =
        remarks (lex source) ++
          (remarks (lex more)).map (Diagnostic.down (source.toList.count '\n' + 1)) := by
  have hlex : lex (source ++ "\n" ++ more) = (lex source).dropLast ++
      (lex more).map (Lexeme.down (source.toList.count '\n' + 1)) := by
    have hchars : (source ++ "\n" ++ more).toList = source.toList ++ '\n' :: more.toList := by
      simp
    rw [lex, hchars, lexemes_newline h, Position.advance_origin_newline, lexemes_down]
    rfl
  constructor
  · rw [hlex, tokens_append, tokens_map_down, lex, tokens_dropLast]
  · rw [hlex, remarks_append, remarks_map_down, lex, Closed.dropLast h]

theorem lex_newline_of_open_string :
    Closed (lex ".\"\\") ∧ remarks (lex ".\"\\") ≠ [] ∧
      tokens (lex (".\"\\" ++ "\n" ++ "5/")) =
        tokens (lex ".\"\\") ++ (tokens (lex "5/")).map (Token.down 1) ∧
      remarks (lex (".\"\\" ++ "\n" ++ "5/")) =
        remarks (lex ".\"\\") ++ (remarks (lex "5/")).map (Diagnostic.down 1) := by
  have hclosed : Closed (lex ".\"\\") := by decide +kernel
  have hcount : ".\"\\".toList.count '\n' + 1 = 1 := by decide
  have hlines := @lex_newline ".\"\\" "5/" hclosed
  rw [hcount] at hlines
  exact ⟨hclosed, by decide +kernel, hlines⟩

end ProtoSchema
