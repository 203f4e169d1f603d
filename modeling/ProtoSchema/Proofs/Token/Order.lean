import ProtoSchema.Proofs.Token.Lines

/-!
The order of places in a text. Each token covers a stretch of the text that lies on one line, the
stretches follow one another, and so do the places where they begin and end.
-/

namespace ProtoSchema

open List

variable {p : Position} {cs : List Char}

namespace Position

/-- Places are ordered as they are read: by line, and on a line by column. -/
instance : LE Position :=
  ⟨fun p q => p.line < q.line ∨ p.line = q.line ∧ p.column ≤ q.column⟩

theorem le_def {q : Position} : p ≤ q ↔ p.line < q.line ∨ p.line = q.line ∧ p.column ≤ q.column :=
  Iff.rfl

instance (p q : Position) : Decidable (p ≤ q) :=
  decidable_of_iff' _ le_def

theorem le_refl (p : Position) : p ≤ p :=
  .inr ⟨rfl, Nat.le_refl _⟩

theorem le_trans {q r : Position} (h : p ≤ q) (k : q ≤ r) : p ≤ r := by
  rw [le_def] at *
  omega

private theorem le_step (p : Position) (c : Char) : p ≤ p.step c := by
  rw [le_def, step]
  split
  · exact .inl (Nat.lt_succ_self _)
  · exact .inr ⟨rfl, Nat.le_succ _⟩

theorem le_advance (p : Position) (cs : List Char) : p ≤ p.advance cs := by
  induction cs generalizing p with
  | nil => exact le_refl p
  | cons c cs ih => exact le_trans (le_step p c) (ih (p.step c))

theorem advance_of_newline_notMem (h : '\n' ∉ cs) (p : Position) :
    p.advance cs = ⟨p.line, p.column + cs.length⟩ := by
  induction cs generalizing p with
  | nil => rfl
  | cons c cs ih =>
    rw [mem_cons, not_or] at h
    have hstep : p.step c = ⟨p.line, p.column + 1⟩ := if_neg (Ne.symm h.1)
    rw [show p.advance (c :: cs) = (p.step c).advance cs from rfl, hstep, ih h.2, length_cons,
      Nat.add_assoc, Nat.add_comm 1]

end Position

namespace Scan

theorem isBlank_of_gap {c : Char} {rest : List Char} (h : (gap p cs).rest = c :: rest) :
    isBlank c = false := by
  fun_induction gap p cs with
  | case1 => cases h
  | case2 p c' rest' _ g ih => exact ih h
  | case3 p c' rest' _ k _ g _ ih => exact ih h
  | case4 p c' rest' hblank _ =>
    cases h
    simpa using hblank

/-- A token ends where its line does. -/
theorem newline_notMem_token {c : Char} (hc : c ≠ '\n') (p : Position) (rest : List Char) :
    '\n' ∉ (token p c rest).text := by
  have hline : ∀ line, '\n' ∉ line → '\n' ∉ (token p c line).text := by
    intro line hline hmem
    have hall : '\n' ∈ c :: line := by
      rw [← token_text_rest p c line]
      exact mem_append_left _ hmem
    rcases mem_cons.mp hall with heq | hmem
    · exact hc heq.symm
    · exact hline hmem
  by_cases hnewline : '\n' ∈ rest
  · obtain ⟨line, r, rfl, hmem⟩ := eq_append_cons_of_mem hnewline
    rw [token_newline]
    exact hline line hmem
  · exact hline rest hnewline

theorem finish_token {here : Position} {c : Char} {rest : List Char}
    (h : (gap p cs).rest = c :: rest) (kind : TokenKind) :
    (⟨kind, String.ofList (token here c rest).text, here⟩ : Token).finish =
      here.advance (token here c rest).text := by
  have hc : c ≠ '\n' := by
    rintro rfl
    exact absurd (isBlank_of_gap h) (by decide)
  rw [Position.advance_of_newline_notMem (newline_notMem_token hc here rest), Token.finish,
    String.length_ofList]

end Scan

theorem Token.position_le_finish (t : Token) : t.position ≤ t.finish :=
  .inr ⟨rfl, Nat.le_add_right _ _⟩

def Token.StandsBehind (t : Token) (p : Position) (cs before : List Char) : Prop :=
  before ++ t.text.toList <+: cs ∧ t.position = p.advance before ∧
    t.finish = p.advance (before ++ t.text.toList)

namespace Scan

theorem exists_standsBehind_of_mem_lexemes {l : Lexeme} (h : l ∈ lexemes p cs) :
    ∃ before, l.token.StandsBehind p cs before := by
  fun_induction lexemes p cs with
  | case1 p cs g here hrest =>
    rw [mem_singleton.mp h]
    have htext : g.text = cs := by rw [← gap_text_rest p cs, hrest, append_nil]
    refine ⟨g.text, ?_, rfl, ?_⟩
    · simp [htext]
    · simp [Token.finish, here]
  | case2 p cs g here c rest hrest t ih =>
    have htext : cs = g.text ++ (t.text ++ t.rest) := by
      rw [token_text_rest, ← hrest, gap_text_rest]
    rcases mem_cons.mp h with rfl | h
    · refine ⟨g.text, ?_, rfl, ?_⟩
      · rw [String.toList_ofList, htext, ← append_assoc]
        exact prefix_append _ _
      · rw [String.toList_ofList, Position.advance_append]
        exact finish_token hrest t.kind
    · obtain ⟨before, hprefix, hposition, hfinish⟩ := ih h
      refine ⟨g.text ++ t.text ++ before, ?_, ?_, ?_⟩
      · rw [htext, ← append_assoc, append_assoc (g.text ++ t.text)]
        exact (prefix_append_right_inj _).mpr hprefix
      · rw [hposition, Position.advance_append, Position.advance_append]
      · rw [hfinish, append_assoc (g.text ++ t.text), Position.advance_append _ (_ ++ _),
          Position.advance_append _ g.text]

/-- Only the last token, which marks the end, is empty. -/
theorem text_ne_of_mem_dropLast {l : Lexeme} (h : l ∈ (lexemes p cs).dropLast) :
    l.token.text ≠ "" := by
  fun_induction lexemes p cs with
  | case1 => cases h
  | case2 p cs g here c rest hrest t ih =>
    rw [dropLast_cons_of_ne_nil (lexemes_ne_nil _ _)] at h
    rcases mem_cons.mp h with rfl | h
    · intro hempty
      have hnil := congrArg String.toList hempty
      rw [String.toList_ofList] at hnil
      exact token_text_ne_nil here c rest hnil
    · exact ih h

/-- Every token begins where the ones before it have ended. -/
theorem pairwise_lexemes (p : Position) (cs : List Char) :
    (lexemes p cs).Pairwise fun l k => l.token.finish ≤ k.token.position := by
  fun_induction lexemes p cs with
  | case1 => exact pairwise_singleton _ _
  | case2 p cs g here c rest hrest t ih =>
    refine pairwise_cons.mpr ⟨fun l hl => ?_, ih⟩
    obtain ⟨before, _, hposition, _⟩ := exists_standsBehind_of_mem_lexemes hl
    rw [hposition, finish_token hrest]
    exact Position.le_advance _ _

end Scan

/-- Later tokens begin and end later. -/
theorem Token.le_of_getElem? {source : String} {i j : Nat} {t u : Token} (hij : i ≤ j)
    (ht : ((lex source).map Lexeme.token)[i]? = some t)
    (hu : ((lex source).map Lexeme.token)[j]? = some u) :
    t.position ≤ u.position ∧ t.finish ≤ u.finish := by
  rcases Nat.eq_or_lt_of_le hij with rfl | hlt
  · cases ht.symm.trans hu
    exact ⟨Position.le_refl _, Position.le_refl _⟩
  · have hbehind : t.finish ≤ u.position := by
      have hpairwise : ((lex source).map Lexeme.token).Pairwise fun t u => t.finish ≤ u.position :=
        pairwise_map.mpr (Scan.pairwise_lexemes _ _)
      obtain ⟨hi, rfl⟩ := List.getElem?_eq_some_iff.mp ht
      obtain ⟨hj, rfl⟩ := List.getElem?_eq_some_iff.mp hu
      exact List.pairwise_iff_getElem.mp hpairwise i j hi hj hlt
    exact ⟨Position.le_trans t.position_le_finish hbehind,
      Position.le_trans hbehind u.position_le_finish⟩

end ProtoSchema
