import ProtoSchema.Proofs.Token.Words
import Mathlib.Data.List.Forall2

/-!
Reading a text line by line. No token goes on over the end of a line, so the tokens of a text that
leaves no comment open do not depend on the lines behind it. Where a text begins is of no matter for
what its tokens are, and each token and remark stands at a place of the text.
-/

namespace ProtoSchema

open List

variable {cs : List Char} {d : Diagnostic}

namespace Scan

/-! ## The end of a line ends every stretch -/

section Stretches

variable {p : Char → Bool}

private theorem takeWhile_newline (hp : p '\n' = false) (cs r : List Char) :
    (cs ++ '\n' :: r).takeWhile p = cs.takeWhile p := by
  induction cs with
  | nil => simp [hp]
  | cons c cs ih =>
    rw [cons_append, takeWhile_cons, takeWhile_cons, ih]

private theorem dropWhile_newline (hp : p '\n' = false) (cs r : List Char) :
    (cs ++ '\n' :: r).dropWhile p = cs.dropWhile p ++ '\n' :: r := by
  induction cs with
  | nil => simp [hp]
  | cons c cs ih =>
    rw [cons_append, dropWhile_cons, dropWhile_cons, ih]
    split <;> rfl

private theorem takeWhile_take_newline (hp : p '\n' = false) (k : Nat) (cs r : List Char) :
    ((cs ++ '\n' :: r).take k).takeWhile p = (cs.take k).takeWhile p := by
  induction cs generalizing k with
  | nil => cases k <;> simp [hp]
  | cons c cs ih =>
    cases k with
    | zero => rfl
    | succ k => simp only [cons_append, take_succ_cons, takeWhile_cons, ih]

end Stretches

/-! ## Gaps -/

private theorem blockComment_append (h : (blockComment cs).closed = true) (r : List Char) :
    blockComment (cs ++ r) =
      ⟨(blockComment cs).text, (blockComment cs).rest ++ r, true⟩ := by
  fun_induction blockComment cs with
  | case1 => cases h
  | case2 rest => rfl
  | case3 c rest hne body ih =>
    -- The close of the comment is inside the text, so the characters at its front are the same.
    have hopen : ∀ tail, c :: rest ++ r ≠ '*' :: '/' :: tail := by
      intro tail heq
      cases rest with
      | nil => cases h
      | cons d rest =>
        simp only [cons_append, List.cons.injEq] at heq
        exact hne rest heq.1 (by rw [heq.2.1])
    rw [cons_append, blockComment, ih h]
    exact fun tail hc hrest => hopen tail (by rw [cons_append, hc, hrest])

variable {k : Comment} {p : Position} {l : Lexeme} {ls : List Lexeme} {c : Char}
  {rest : List Char}

theorem comment?_newline (h : comment? cs = some k) (hclosed : k.closed = true) (r : List Char) :
    comment? (cs ++ '\n' :: r) = some ⟨k.text, k.rest ++ '\n' :: r, true⟩ := by
  unfold comment? at h
  split at h
  · next rest =>
    cases h
    have htake := takeWhile_newline (p := (· ≠ '\n')) (by decide) ('/' :: '/' :: rest) r
    have hdrop := dropWhile_newline (p := (· ≠ '\n')) (by decide) ('/' :: '/' :: rest) r
    rw [← htake, ← hdrop]
    rfl
  · next rest =>
    cases h
    simp only [cons_append, comment?, blockComment_append hclosed]
  · cases h

private theorem comment?_newline_eq_none (h : comment? cs = none) (r : List Char) :
    comment? (cs ++ '\n' :: r) = none := by
  match cs with
  | [] => rfl
  | [c] =>
    apply comment?_eq_none
    rintro rfl
    exact stops_cons.mpr (by decide)
  | c :: d :: rest =>
    apply comment?_eq_none
    rintro rfl
    apply stops_cons.mpr
    by_cases hd : d = '/' ∨ d = '*'
    · rcases hd with rfl | rfl <;> cases h
    · simpa using hd

/-- All that is remarked on in a gap is a comment that is not closed. -/
theorem message_of_mem_gap (h : d ∈ (gap p cs).remarks) :
    d.message = Fault.unclosedComment.message := by
  fun_induction gap p cs with
  | case1 => cases h
  | case2 p c rest _ g ih => exact ih h
  | case3 p c rest _ k _ g unclosed ih =>
    rcases mem_append.mp h with h | h
    · simp only [unclosed] at h
      split at h
      · cases h
      · rw [mem_singleton.mp h]
        rfl
    · exact ih h
  | case4 => cases h

theorem gap_comment (hblank : ¬isBlank c) (h : comment? (c :: rest) = some k) (p : Position) :
    gap p (c :: rest) =
      let g := gap (p.advance k.text) k.rest
      ⟨k.text ++ g.text, g.rest,
        (if k.closed then [] else [Diagnostic.ofFault p .unclosedComment]) ++ g.remarks⟩ := by
  rw [gap, if_neg hblank]
  split
  · next hk =>
    cases h.symm.trans hk
    rfl
  · next hk => cases h.symm.trans hk

theorem gap_of_none (hblank : ¬isBlank c) (h : comment? (c :: rest) = none) (p : Position) :
    gap p (c :: rest) = ⟨[], c :: rest, []⟩ := by
  rw [gap, if_neg hblank]
  split
  · next hk => cases h.symm.trans hk
  · rfl

/-- A gap that ends in a line is not changed by the lines behind it, and one that goes to the end of
a line goes on behind it. -/
theorem gap_newline (h : (gap p cs).remarks = []) (r : List Char) :
    gap p (cs ++ '\n' :: r) =
      if (gap p cs).rest = [] then
        let g := gap (p.advance (cs ++ ['\n'])) r
        ⟨cs ++ '\n' :: g.text, g.rest, g.remarks⟩
      else ⟨(gap p cs).text, (gap p cs).rest ++ '\n' :: r, []⟩ := by
  fun_induction gap p cs with
  | case1 p =>
    rw [nil_append, gap, if_pos (by decide)]
    rfl
  | case2 p c rest hblank g ih =>
    rw [cons_append, gap, if_pos hblank, ih h]
    simp only [g]
    split <;> rfl
  | case3 p c rest hblank k hk g unclosed ih =>
    obtain ⟨hclosed, hrest⟩ : unclosed = [] ∧ g.remarks = [] := by simpa using h
    have hclosed : k.closed = true := by
      by_cases hopen : k.closed = true
      · exact hopen
      · simp [unclosed, hopen] at hclosed
    have hcomment := comment?_newline hk hclosed r
    have htext := comment?_text_rest hk
    rw [cons_append] at hcomment ⊢
    rw [gap_comment hblank hcomment]
    simp only [ih hrest, if_true, nil_append, g]
    split
    · rw [← htext]
      simp [Position.advance_append]
    · simp
  | case4 p c rest hblank hnone =>
    have hnone := comment?_newline_eq_none hnone r
    rw [cons_append] at hnone ⊢
    rw [gap_of_none hblank hnone]
    simp

/-! ## Tokens -/

def Numeral.followed (r : List Char) (n : Numeral) : Numeral :=
  { n with rest := n.rest ++ r }

def Cut.followed (r : List Char) (t : Cut) : Cut :=
  { t with rest := t.rest ++ r }

def StringBody.followed (r : List Char) (b : StringBody) : StringBody :=
  { b with rest := b.rest ++ r }

namespace Numeral

theorem decimal_newline (cs r : List Char) :
    decimal (cs ++ '\n' :: r) = (decimal cs).followed ('\n' :: r) := by
  have htake := takeWhile_newline (p := isDigit) rfl
  have hdrop := dropWhile_newline (p := isDigit) rfl
  unfold decimal
  rw [htake, hdrop]
  cases hrest : cs.dropWhile isDigit with
  | nil => rfl
  | cons c ds =>
    by_cases hc : c = '.'
    · subst hc
      simp only [cons_append, htake, hdrop, followed]
    · simp [followed, hc]

theorem mantissa_newline (cs r : List Char) :
    mantissa (cs ++ '\n' :: r) = (mantissa cs).followed ('\n' :: r) := by
  have htake := takeWhile_newline (p := isDigit) rfl
  have hdrop := dropWhile_newline (p := isDigit) rfl
  cases cs with
  | nil => rfl
  | cons c ds =>
    by_cases hpoint : c = '.'
    · subst hpoint
      simp only [cons_append, mantissa, htake, hdrop, followed]
    · by_cases hzero : c = '0'
      · subst hzero
        cases ds with
        | nil => rfl
        | cons d ds =>
          simp only [cons_append, mantissa]
          split
          · simp only [hexadecimal, takeWhile_newline (p := Escape.isHex) rfl,
              dropWhile_newline (p := Escape.isHex) rfl, followed]
          · split
            · simp only [octal, ← cons_append, htake, hdrop, followed]
            · exact decimal_newline ('0' :: d :: ds) r
      · have hdecimal : ∀ ds, mantissa (c :: ds) = decimal (c :: ds) := by
          intro ds
          unfold mantissa
          split
          · next heq => exact absurd (List.cons.inj heq).1 hpoint
          · next heq => exact absurd (List.cons.inj heq).1 hzero
          · rfl
        rw [cons_append, hdecimal, hdecimal]
        exact decimal_newline (c :: ds) r

theorem sign_newline (cs r : List Char) :
    sign (cs ++ '\n' :: r) = ((sign cs).1, (sign cs).2 ++ '\n' :: r) := by
  cases cs with
  | nil => rfl
  | cons c rest =>
    simp only [cons_append, sign]
    split <;> rfl

theorem withExponent_newline (n : Numeral) (r : List Char) :
    (n.followed ('\n' :: r)).withExponent = n.withExponent.followed ('\n' :: r) := by
  unfold withExponent followed
  cases hrest : n.rest with
  | nil => simp [hrest]
  | cons e rest =>
    simp only [cons_append]
    split
    · simp only [sign_newline, takeWhile_newline (p := isDigit) rfl,
        dropWhile_newline (p := isDigit) rfl]
    · simp [hrest]

theorem withSuffix_newline (n : Numeral) (r : List Char) :
    (n.followed ('\n' :: r)).withSuffix = n.withSuffix.followed ('\n' :: r) := by
  unfold withSuffix followed
  cases hrest : n.rest with
  | nil => simp [hrest]
  | cons c rest =>
    simp only [cons_append]
    split
    · rfl
    · simp [hrest]

theorem ofChars_newline (cs r : List Char) :
    ofChars (cs ++ '\n' :: r) = (ofChars cs).followed ('\n' :: r) := by
  simp only [ofChars, mantissa_newline]
  have hhex : ((mantissa cs).followed ('\n' :: r)).hex = (mantissa cs).hex := rfl
  rw [hhex]
  split
  · rfl
  · rw [withExponent_newline, withSuffix_newline]

end Numeral

theorem number_newline (p : Position) (cs r : List Char) :
    number p (cs ++ '\n' :: r) = (number p cs).followed ('\n' :: r) := by
  simp only [number, Numeral.ofChars_newline, Numeral.followed, Cut.followed]
  cases (Numeral.ofChars cs).rest with
  | nil => simp [isLetter]
  | cons c rest => rfl

theorem escapeLength_newline (cs r : List Char) :
    escapeLength (cs ++ '\n' :: r) = escapeLength cs := by
  cases cs with
  | nil => rfl
  | cons c rest =>
    have hoctal := takeWhile_take_newline (p := Escape.isOctal) rfl 3 (c :: rest) r
    rw [cons_append] at hoctal ⊢
    simp only [escapeLength, takeWhile_take_newline (p := Escape.isHex) rfl, hoctal]

private theorem escapeLength_le (cs : List Char) : (escapeLength cs).1 ≤ cs.length := by
  have hrun (p : Char → Bool) (k : Nat) (ds : List Char) :
      ((ds.take k).takeWhile p).length ≤ ds.length :=
    Nat.le_trans (List.takeWhile_prefix p).length_le (length_take_le' k ds)
  cases cs with
  | nil => simp [escapeLength]
  | cons c rest =>
    have hhex := fun k => hrun Escape.isHex k rest
    have hoctal := hrun Escape.isOctal 3 (c :: rest)
    rw [length_cons] at hoctal ⊢
    simp only [escapeLength]
    repeat' split
    all_goals simp only
    all_goals have h2 := hhex 2; have h4 := hhex 4; have h8 := hhex 8; omega

theorem stringBody_newline (quote : Char) (p : Position) (cs r : List Char) :
    stringBody quote p (cs ++ '\n' :: r) = (stringBody quote p cs).followed ('\n' :: r) := by
  fun_induction stringBody quote p cs with
  | case1 p =>
    rw [nil_append, stringBody, if_pos rfl]
    rfl
  | case2 p rest =>
    rw [cons_append, stringBody, if_pos rfl]
    rfl
  | case3 p rest hnl =>
    rw [cons_append, stringBody, if_neg hnl, if_pos rfl]
    rfl
  | case4 p rest n remark hnl hne here body ih =>
    have hle := escapeLength_le rest
    rw [cons_append, stringBody, if_neg hnl, if_neg hne, if_pos rfl]
    simp only [escapeLength_newline, take_append_of_le_length hle,
      drop_append_of_le_length hle, n, here, body, remark] at ih ⊢
    rw [ih]
    rfl
  | case5 p c rest hnl hne hescape body ih =>
    rw [cons_append, stringBody, if_neg hnl, if_neg hne, if_neg hescape, ih]
    rfl

theorem startsNumber_newline (c : Char) (rest r : List Char) :
    startsNumber c (rest ++ '\n' :: r) = startsNumber c rest := by
  cases rest with
  | nil => simp [startsNumber, isDigit]
  | cons d rest => rfl

/-- No token goes on over the end of a line. -/
theorem token_newline (p : Position) (c : Char) (rest r : List Char) :
    token p c (rest ++ '\n' :: r) = (token p c rest).followed ('\n' :: r) := by
  unfold token
  rw [takeWhile_newline rfl, dropWhile_newline rfl, startsNumber_newline]
  split
  · rfl
  · split
    · exact number_newline p (c :: rest) r
    · split
      · simp only [string, stringBody_newline]
        rfl
      · split <;> rfl

/-! ## Whole texts -/

def remarks (ls : List Lexeme) : List Diagnostic :=
  ls.flatMap Lexeme.remarks

/-- No comment is left open by a text with the given tokens. -/
def Closed (ls : List Lexeme) : Prop :=
  ∀ d ∈ remarks ls, d.message ≠ Fault.unclosedComment.message

instance (ls : List Lexeme) : Decidable (Closed ls) :=
  inferInstanceAs (Decidable (∀ d ∈ remarks ls, _))

@[simp]
theorem remarks_cons (l : Lexeme) (ls : List Lexeme) :
    remarks (l :: ls) = l.remarks ++ remarks ls :=
  rfl

theorem Closed.tail (h : Closed (l :: ls)) : Closed ls :=
  fun d hd => h d (by simp [hd])

theorem gap_remarks_eq_nil (h : Closed (l :: ls)) (hl : ∀ d ∈ (gap p cs).remarks, d ∈ l.remarks) :
    (gap p cs).remarks = [] := by
  apply eq_nil_iff_forall_not_mem.mpr
  intro d hd
  exact h d (by simp [hl d hd]) (message_of_mem_gap hd)

theorem Closed.gap {p : Position} (h : Closed (lexemes p cs)) : (gap p cs).remarks = [] := by
  cases hrest : (Scan.gap p cs).rest with
  | nil =>
    rw [lexemes_end hrest] at h
    exact gap_remarks_eq_nil h fun d hd => hd
  | cons c rest =>
    rw [lexemes_token hrest] at h
    exact gap_remarks_eq_nil h fun d hd => mem_append.mpr (.inl hd)

theorem lexemes_ne_nil (p : Position) (cs : List Char) : lexemes p cs ≠ [] := by
  rw [lexemes]
  split <;> simp

/-- The tokens of a text that leaves no comment open do not depend on the lines behind it. -/
theorem lexemes_newline (h : Closed (lexemes p cs)) (r : List Char) :
    lexemes p (cs ++ '\n' :: r) =
      (lexemes p cs).dropLast ++ lexemes (p.advance (cs ++ ['\n'])) r := by
  fun_induction lexemes p cs with
  | case1 p cs g here hrest =>
    have hquiet := gap_remarks_eq_nil h fun d hd => hd
    have hgap := gap_newline hquiet r
    rw [if_pos hrest] at hgap
    rw [dropLast_singleton, nil_append]
    apply lexemes_of_gap
    rw [hgap, append_assoc]
    rfl
  | case2 p cs g here c rest hrest t ih =>
    have hquiet := gap_remarks_eq_nil h fun d hd => mem_append.mpr (.inl hd)
    have hgap := gap_newline hquiet r
    rw [if_neg (by rw [hrest]; simp), hrest] at hgap
    have htext : cs = g.text ++ (t.text ++ t.rest) := by
      rw [token_text_rest, ← hrest, gap_text_rest]
    have hend : p.advance (cs ++ ['\n']) = (here.advance t.text).advance (t.rest ++ ['\n']) :=
      calc p.advance (cs ++ ['\n'])
          = p.advance (g.text ++ (t.text ++ t.rest) ++ ['\n']) := by rw [← htext]
        _ = (here.advance t.text).advance (t.rest ++ ['\n']) := by
          simp only [append_assoc, Position.advance_append, here]
    have hnext : (gap p (cs ++ '\n' :: r)).rest = c :: (rest ++ '\n' :: r) := by
      rw [hgap]
      rfl
    rw [lexemes_token hnext, hgap, dropLast_cons_of_ne_nil (lexemes_ne_nil _ _), cons_append]
    simp only [token_newline, Cut.followed]
    rw [ih h.tail, hend, hquiet]
    rfl

/-! ## The last line -/

theorem blockComment_closed_newline (cs : List Char) :
    (blockComment (cs ++ ['\n'])).closed = (blockComment cs).closed := by
  fun_induction blockComment cs with
  | case1 => rfl
  | case2 => rfl
  | case3 c rest hne body ih =>
    rw [cons_append, blockComment]
    · exact ih
    · intro tail hc hrest
      cases rest with
      | nil => cases hrest
      | cons d rest =>
        rw [cons_append, List.cons.injEq] at hrest
        exact hne rest hc (by rw [hrest.1])

theorem exists_comment?_newline (h : comment? cs = some k) :
    ∃ k', comment? (cs ++ ['\n']) = some k' ∧ k'.closed = k.closed := by
  unfold comment? at h
  split at h
  · cases h
    exact ⟨_, rfl, rfl⟩
  · next rest =>
    cases h
    exact ⟨_, rfl, blockComment_closed_newline rest⟩
  · cases h

theorem gap_remarks_of_newline (h : (gap p (cs ++ ['\n'])).remarks = []) :
    (gap p cs).remarks = [] := by
  fun_induction gap p cs with
  | case1 => rfl
  | case2 p c rest hblank g ih =>
    rw [cons_append, gap, if_pos hblank] at h
    exact ih h
  | case3 p c rest hblank k hk g unclosed ih =>
    obtain ⟨k', hk', hsame⟩ := exists_comment?_newline hk
    rw [cons_append] at hk' h
    rw [gap_comment hblank hk'] at h
    obtain ⟨hopen, hrest⟩ := append_eq_nil_iff.mp h
    have hclosed : k.closed = true := by
      rw [← hsame]
      by_cases hk : k'.closed = true
      · exact hk
      · simp [hk] at hopen
    have hcomment := comment?_newline hk hclosed []
    rw [cons_append, hk'] at hcomment
    cases hcomment
    simp only [unclosed, hclosed, dite_true, nil_append]
    exact ih hrest
  | case4 => rfl

theorem Closed.of_newline (h : Closed (lexemes p (cs ++ ['\n']))) : Closed (lexemes p cs) := by
  fun_induction lexemes p cs with
  | case1 p cs g here hrest =>
    have hquiet : g.remarks = [] := gap_remarks_of_newline h.gap
    intro d hd
    simp [remarks, hquiet] at hd
  | case2 p cs g here c rest hrest t ih =>
    have hquiet : g.remarks = [] := gap_remarks_of_newline h.gap
    have hgap := gap_newline hquiet []
    rw [if_neg (by rw [hrest]; simp), hrest] at hgap
    have hnext : (Scan.gap p (cs ++ ['\n'])).rest = c :: (rest ++ ['\n']) := by
      rw [hgap]
      rfl
    rw [lexemes_token hnext, hgap] at h
    simp only [token_newline, Cut.followed] at h
    intro d hd
    rw [remarks_cons, mem_append, hquiet] at hd
    rcases hd with hd | hd
    · exact h d (mem_append.mpr (.inl hd))
    · exact ih h.tail d hd

end Scan

def lined (text : String) : String :=
  if text = "" ∨ text.toList.getLast? = some '\n' then text else text ++ "\n"

open Scan

/-- Behind whole lines that leave no comment open, reading goes on as at the front of a text. -/
theorem lexemes_lined {p : Position} {text : String} (h : Closed (lexemes p text.toList))
    (r : List Char) :
    lexemes p ((lined text).toList ++ r) =
      (lexemes p text.toList).dropLast ++ lexemes (p.advance (lined text).toList) r := by
  unfold lined
  split
  · next hlined =>
    rcases hlined with rfl | hlast
    · rw [String.toList_empty, lexemes_nil]
      rfl
    · obtain ⟨cs, hcs⟩ := getLast?_eq_some_iff.mp hlast
      rw [hcs] at h ⊢
      have hend := lexemes_newline h.of_newline []
      rw [lexemes_nil] at hend
      rw [hend, dropLast_concat, append_assoc]
      exact lexemes_newline h.of_newline r
  · rw [String.toList_append, append_assoc]
    exact lexemes_newline h r

/-! ## Places -/

namespace Position

/-- `q` is a place of the text `cs` that begins at `p`, its end counted. -/
def Within (p : Position) (cs : List Char) (q : Position) : Prop :=
  ∃ t, t <+: cs ∧ q = p.advance t

variable {p q : Position} {as : List Char}

theorem line_advance (p : Position) (cs : List Char) :
    (p.advance cs).line = p.line + cs.count '\n' := by
  induction cs generalizing p with
  | nil => rfl
  | cons c cs ih =>
    have hstep : (p.step c).line = p.line + if c = '\n' then 1 else 0 := by
      unfold step
      split <;> rfl
    rw [show p.advance (c :: cs) = (p.step c).advance cs from rfl, ih, hstep, count_cons]
    simp only [beq_iff_eq]
    omega

theorem Within.line (h : p.Within as q) :
    p.line ≤ q.line ∧ q.line ≤ p.line + as.count '\n' := by
  obtain ⟨t, ht, rfl⟩ := h
  have hcount := ht.sublist.count_le '\n'
  rw [line_advance]
  omega

end Position

namespace Scan

variable {p : Position}

/-! ## Wherever a text begins -/

/-- Holds on from character to character, between the places of a text that is read from two
beginnings. The third argument is what is left of the text. -/
def Steady (R : Position → Position → List Char → Prop) : Prop :=
  ∀ ⦃p q c cs⦄, R p q (c :: cs) → R (p.step c) (q.step c) cs

variable {R : Position → Position → List Char → Prop} {q : Position}

theorem Steady.advance {as : List Char} (hR : Steady R) (h : R p q (as ++ cs)) :
    R (p.advance as) (q.advance as) cs := by
  induction as generalizing p q with
  | nil => exact h
  | cons a as ih => exact ih (hR h)

/-- The same remark at related places. -/
def SameRemark (R : Position → Position → List Char → Prop) (d e : Diagnostic) : Prop :=
  d.message = e.message ∧ ∃ cs, R d.position e.position cs

private theorem sameRemark_ofFault (h : R p q cs) (f : Fault) :
    SameRemark R (.ofFault p f) (.ofFault q f) :=
  ⟨rfl, cs, h⟩

private theorem sameRemarks_of_open (h : R p q cs) (b : Bool) (f : Fault) :
    Forall₂ (SameRemark R) (if b then [] else [.ofFault p f])
      (if b then [] else [.ofFault q f]) := by
  cases b
  · exact .cons (sameRemark_ofFault h f) .nil
  · exact .nil

private theorem exists_gap (hR : Steady R) (q : Position) (h : R p q cs) :
    ∃ es, gap q cs = { gap p cs with remarks := es } ∧
      Forall₂ (SameRemark R) (gap p cs).remarks es := by
  fun_induction gap p cs generalizing q with
  | case1 => exact ⟨[], by rw [gap], .nil⟩
  | case2 p c rest hblank g ih =>
    obtain ⟨es, hgap, hes⟩ := ih _ (hR h)
    exact ⟨es, by rw [gap, if_pos hblank, hgap], hes⟩
  | case3 p c rest hblank k hk g unclosed ih =>
    obtain ⟨es, hgap, hes⟩ := ih _ (hR.advance (by rwa [comment?_text_rest hk]))
    exact ⟨_, by rw [gap_comment hblank hk, hgap], rel_append (sameRemarks_of_open h _ _) hes⟩
  | case4 p c rest hblank hk => exact ⟨[], gap_of_none hblank hk q, .nil⟩

private theorem exists_stringBody (quote : Char) (hR : Steady R) (q : Position) (h : R p q cs) :
    ∃ es, stringBody quote q cs = { stringBody quote p cs with remarks := es } ∧
      Forall₂ (SameRemark R) (stringBody quote p cs).remarks es := by
  fun_induction stringBody quote p cs generalizing q with
  | case1 => exact ⟨[], by rw [stringBody], .nil⟩
  | case2 => exact ⟨[], by rw [stringBody, if_pos rfl], .nil⟩
  | case3 p rest hnl => exact ⟨[], by rw [stringBody, if_neg hnl, if_pos rfl], .nil⟩
  | case4 p rest n remark hnl hne here body ih =>
    have hhere : R p q (here ++ rest.drop n) := by simpa [here] using h
    obtain ⟨es, hbody, hes⟩ := ih _ (hR.advance hhere)
    refine ⟨_, ?_, rel_append (sameRemarks_of_open h _ _) hes⟩
    rw [stringBody, if_neg hnl, if_neg hne, if_pos rfl]
    simp only [n, here] at hbody
    simp only [hbody]
    rfl
  | case5 p c rest hnl hne hescape body ih =>
    obtain ⟨es, hbody, hes⟩ := ih _ (hR h)
    exact ⟨es, by rw [stringBody, if_neg hnl, if_neg hne, if_neg hescape, hbody], hes⟩

private theorem exists_token (hR : Steady R) (h : R p q (c :: rest)) :
    ∃ es, token q c rest = { token p c rest with remarks := es } ∧
      Forall₂ (SameRemark R) (token p c rest).remarks es := by
  unfold token
  split
  · exact ⟨[], rfl, .nil⟩
  · split
    · refine ⟨_, rfl, rel_append (forall₂_map_left_iff.mpr (forall₂_map_right_iff.mpr
        (forall₂_same.mpr fun f _ => sameRemark_ofFault h f))) ?_⟩
      have hend := hR.advance (by rwa [Numeral.ofChars_text_rest])
      split
      · split
        · exact .cons (sameRemark_ofFault hend _) .nil
        · exact .nil
      · exact .nil
    · split
      · obtain ⟨es, hbody, hes⟩ := exists_stringBody c hR _ (hR h)
        exact ⟨_, by rw [string, hbody]; rfl, rel_append hes (sameRemarks_of_open h _ _)⟩
      · split
        · exact ⟨[], rfl, .nil⟩
        · exact ⟨_, rfl, .cons (sameRemark_ofFault h _) .nil⟩

structure SameLexeme (R : Position → Position → List Char → Prop) (l m : Lexeme) : Prop where
  word : l.token.word = m.token.word
  place : ∃ cs, R l.token.position m.token.position cs
  remarks : Forall₂ (SameRemark R) l.remarks m.remarks

/-- Of a text that is read from two beginnings, the lexemes are the same, at related places. -/
theorem forall₂_lexemes (hR : Steady R) (q : Position) (h : R p q cs) :
    Forall₂ (SameLexeme R) (lexemes p cs) (lexemes q cs) := by
  fun_induction lexemes p cs generalizing q with
  | case1 p cs g here hrest =>
    obtain ⟨es, hgap, hes⟩ := exists_gap hR q h
    have hend := hR.advance (by rwa [gap_text_rest p cs])
    rw [lexemes_end (by rw [hgap]; exact hrest), hgap]
    exact .cons ⟨rfl, ⟨_, hend⟩, hes⟩ .nil
  | case2 p cs g here c rest hrest t ih =>
    obtain ⟨es, hgap, hes⟩ := exists_gap hR q h
    have hhere := hR.advance (by rwa [gap_text_rest p cs])
    rw [hrest] at hhere
    obtain ⟨es', htoken, hes'⟩ := exists_token hR hhere
    rw [lexemes_token (p := q) (by rw [hgap]; exact hrest), hgap]
    simp only [htoken]
    exact .cons ⟨rfl, ⟨_, hhere⟩, rel_append hes hes'⟩
      (ih _ (hR.advance (by rwa [token_text_rest])))

/-- Each token and each remark stands at a place of the text. -/
theorem within_of_mem_lexemes {l : Lexeme} (h : l ∈ lexemes p cs) :
    p.Within cs l.token.position ∧ ∀ d ∈ l.remarks, p.Within cs d.position := by
  let R : Position → Position → List Char → Prop := fun x _ rest =>
    ∃ t, t ++ rest = cs ∧ x = p.advance t
  have hR : Steady R := by
    rintro _ _ c _ ⟨t, ht, rfl⟩
    exact ⟨t ++ [c], by simpa using ht, (p.advance_append t [c]).symm⟩
  have hplace : ∀ {x}, (∃ rest, R x x rest) → p.Within cs x :=
    fun ⟨rest, t, ht, hx⟩ => ⟨t, ⟨rest, ht⟩, hx⟩
  have hsame : Forall₂ (SameLexeme R) (lexemes p cs) (lexemes p cs) :=
    forall₂_lexemes hR p ⟨[], rfl, rfl⟩
  have hl := forall₂_same.mp hsame l h
  exact ⟨hplace hl.place, fun d hd => hplace (forall₂_same.mp hl.remarks d hd).2⟩

/-- What the tokens of a text are, and what is remarked on them, does not depend on where the text
begins. -/
theorem forall₂_elsewhere (p q : Position) (cs : List Char) :
    Forall₂ (SameLexeme fun _ _ _ => True) (lexemes p cs) (lexemes q cs) :=
  forall₂_lexemes (fun _ _ _ _ h => h) q trivial

theorem map_word_lexemes (p q : Position) (cs : List Char) :
    (lexemes q cs).map (fun l => l.token.word) = (lexemes p cs).map fun l => l.token.word := by
  rw [← forall₂_eq_eq_eq, forall₂_map_left_iff, forall₂_map_right_iff]
  exact (forall₂_elsewhere q p cs).imp fun _ _ h => h.word

theorem map_message_remarks (p q : Position) (cs : List Char) :
    (remarks (lexemes q cs)).map Diagnostic.message =
      (remarks (lexemes p cs)).map Diagnostic.message := by
  rw [← forall₂_eq_eq_eq, forall₂_map_left_iff, forall₂_map_right_iff]
  exact (rel_flatMap (forall₂_elsewhere q p cs) fun _ _ h => h.remarks).imp fun _ _ h => h.1

theorem Closed.elsewhere (h : Closed (lexemes p cs)) (q : Position) : Closed (lexemes q cs) := by
  intro d hd
  have hmessage := mem_map_of_mem (f := Diagnostic.message) hd
  rw [map_message_remarks p] at hmessage
  obtain ⟨e, he, hsame⟩ := mem_map.mp hmessage
  exact hsame ▸ h e he

theorem quiet_elsewhere (h : ∀ l ∈ lexemes p cs, l.remarks = []) (q : Position) :
    ∀ l ∈ lexemes q cs, l.remarks = [] := by
  have hmessages := map_message_remarks p q cs
  rw [remarks, remarks, flatMap_eq_nil_iff.mpr h] at hmessages
  exact flatMap_eq_nil_iff.mp (map_eq_nil_iff.mp hmessages)

/-- A text has an end, and nothing behind it. -/
theorem exists_lexemes_concat (p : Position) (cs : List Char) :
    ∃ ls l, lexemes p cs = ls ++ [l] ∧ l.token.word = .endOfInput := by
  fun_induction lexemes p cs with
  | case1 => exact ⟨[], _, rfl, rfl⟩
  | case2 p cs g here c rest hrest t ih =>
    obtain ⟨ls, l, hls, hend⟩ := ih
    exact ⟨_ :: ls, l, by rw [hls]; rfl, hend⟩

end Scan

end ProtoSchema
