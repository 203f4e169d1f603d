import ProtoSchema.Proofs.Containment

/-!
Blocks of messages as stretches of a text. In a text without faults a cursor is told by the tokens
it has still to read. A block that is read without a complaint ends at the brace that matches the
one before it, which is also where it ends if it is skipped.
-/

namespace ProtoSchema

open Scan List Token Cursor

namespace Production

variable {σ α : Type} {p p' : Production σ α} {s s' t : σ} {a : α} {c c' d : Cursor}
  {Q : α → α → σ → σ → Prop}

/-- What is recognised without a complaint in one text is recognised before the same words in
another. -/
theorem Echoes.exists_run (h : ∀ rest rest', Echoes rest rest' 0 1 p p' s s' Q) (hc : c.Clean)
    (hbounded : c.Bounded) (hrun : p.run s c = (some a, t, d)) (hd : d.diagnostics = [])
    (hlt : d.ahead.length < c.ahead.length) {read read' rest' : List Lexeme}
    (htext : c.unread = read ++ d.unread) (htext' : c'.unread = read' ++ rest')
    (hwords : read'.map (fun l => l.token.word) = read.map fun l => l.token.word)
    (hquiet : Quiet c'.unread) (hrest : rest' ≠ []) :
    ∃ a' t' d', p'.run s' c' = (some a', t', d') ∧ d'.unread = rest' ∧ c'.Silent d' ∧
      Q a a' t t' := by
  rw [htext'] at hquiet
  obtain ⟨hquietRead, hquietRest⟩ := hquiet.of_append
  obtain ⟨l, ls, rfl⟩ := exists_cons_of_ne_nil hrest
  have hlast : d.unread.getLast?.map (fun l => l.token.kind) = some .endOfInput := by
    have hd := (onward_of_run hrun).bounded hbounded
    rw [Cursor.Bounded, show d.tokens = d.unread.map Lexeme.token from rfl, getLast?_map,
      Option.map_map] at hd
    exact hd
  have hparts : Fork d.unread (l :: ls) := ⟨hlast, l, ls, rfl, hquietRest l (by simp)⟩
  have hecho : c.Echo d.unread (l :: ls) c' := by
    refine ⟨⟨c.current, []⟩, ⟨c'.current, []⟩, rfl, rfl, ?_⟩
    rw [← Cursor.unread, ← Cursor.unread, htext, htext']
    exact continues_of_words hparts hwords hquietRead
  obtain ⟨a', t', d', hrun', _, hecho', hside, hQ⟩ :=
    h d.unread (l :: ls) c c' a t d hc hecho hlt hrun hd (Nat.le_refl _)
  exact ⟨a', t', d', hrun', (hecho'.at_rest (Nat.lt_succ_self _)).2,
    ⟨hside.diagnostics, hside.unterminated⟩, hQ⟩

end Production

/-! ## Matching braces -/

namespace Cursor

variable {c : Cursor} {inner rest : List Lexeme} {close : Lexeme}

/-- A block is skipped up to the brace that closes it. -/
theorem skipBlock_balanced {k : Nat} (htext : c.unread = inner ++ close :: rest)
    (hbalanced : Balanced k (inner.map fun l => l.token.word))
    (hclose : close.token.word = .symbol "\x7d") (hquiet : Quiet c.unread) (hrest : rest ≠ []) :
    (c.skipBlock k).unread = rest ∧ c.Silent (c.skipBlock k) ∧
      (c.skipBlock k).lastEnd = close.token.finish := by
  induction inner generalizing c k with
  | nil =>
    obtain ⟨l, ls, rfl⟩ := exists_cons_of_ne_nil hrest
    rw [htext] at hquiet
    have hcurrent := (current_of_unread htext).1
    have hne : c.ahead ≠ [] := by rw [(current_of_unread htext).2]; simp
    have hskip : c.skipBlock 0 = c.bump := by
      rw [skipBlock, dif_neg hne, if_neg, if_pos]
      · exact isSymbol_iff.mpr (hcurrent ▸ hclose)
      · rw [isSymbol_iff, hcurrent, hclose]
        decide
    cases hbalanced
    rw [hskip]
    exact unread_bump htext (hquiet l (by simp))
  | cons x inner ih =>
    obtain ⟨hcurrent, hahead⟩ := current_of_unread htext
    obtain ⟨y, ys, hys⟩ := exists_cons_of_ne_nil (l := inner ++ close :: rest) (by simp)
    rw [htext] at hquiet
    have hmore : c.unread = x :: y :: ys := by rw [htext, ← hys]; rfl
    have hy : y.remarks = [] := hquiet y (by rw [cons_append, hys]; simp)
    obtain ⟨hbump, hsilent, _⟩ := unread_bump hmore hy
    have hne : c.ahead ≠ [] := by rw [hahead]; simp
    have hquiet' : Quiet c.bump.unread := by
      rw [hbump, ← hys]
      exact fun l hl => hquiet l (mem_cons_of_mem x hl)
    have hstep : ∀ {j}, Balanced j (inner.map fun l => l.token.word) →
        (c.bump.skipBlock j).unread = rest ∧ c.Silent (c.bump.skipBlock j) ∧
          (c.bump.skipBlock j).lastEnd = close.token.finish := by
      intro j hj
      obtain ⟨hunread, hsilent', hend⟩ := ih (hbump.trans hys.symm) hj hquiet'
      exact ⟨hunread, hsilent.trans hsilent', hend⟩
    rw [map_cons, ← hcurrent] at hbalanced
    rw [skipBlock.eq_def, dif_neg hne]
    rcases hbalanced.cases_cons with ⟨hopen, h⟩ | ⟨hbrace, k, rfl, h⟩ | ⟨hopen, hbrace, h⟩
    · rw [if_pos (isSymbol_iff.mpr hopen)]
      exact hstep h
    · rw [if_neg, if_pos (isSymbol_iff.mpr hbrace)]
      · exact hstep h
      · rw [isSymbol_iff, hbrace]
        decide
    · rw [if_neg fun h => hopen (isSymbol_iff.mp h), if_neg fun h => hbrace (isSymbol_iff.mp h)]
      exact hstep h

/-- The name and the block of a message are skipped, unless the name is taken for the beginning of
another statement. -/
theorem skipStatement_named {name opening : Lexeme} {x : String}
    (htext : c.unread = name :: opening :: (inner ++ close :: rest))
    (hname : name.token.word = .ident x) (hopening : opening.token.word = .symbol "\x7b")
    (hclose : close.token.word = .symbol "\x7d")
    (hbalanced : Balanced 0 (inner.map fun l => l.token.word)) (hquiet : Quiet c.unread)
    (hrest : rest ≠ []) (hopens : c.opensStatement = false) :
    c.skipStatement.unread = rest ∧ c.Silent c.skipStatement ∧
      c.skipStatement.lastEnd = close.token.finish := by
  obtain ⟨hcurrent, hahead⟩ := current_of_unread htext
  obtain ⟨k, ks, hks⟩ := exists_cons_of_ne_nil (l := inner ++ close :: rest) (by simp)
  rw [htext] at hquiet
  obtain ⟨hquietOpening, hquietBlock⟩ := hquiet.of_cons.2.of_cons
  obtain ⟨hbump, hsilent, _⟩ := unread_bump htext hquietOpening
  have hk : k.remarks = [] := hquietBlock k (by rw [hks]; simp)
  obtain ⟨hbump₂, hsilent₂, _⟩ := unread_bump (by rw [hbump, hks]) hk
  have hsymbol : ∀ y, ¬c.current.isSymbol y = true := by
    intro y
    rw [isSymbol_iff, hcurrent, hname]
    exact Word.ident_ne_symbol x y
  obtain ⟨hcurrent₂, hahead₂⟩ := current_of_unread hbump
  have hskip : c.skipStatement = c.bump.bump.skipBlock 0 := by
    rw [skipStatement, dif_neg (by simp [hahead]), if_neg (hsymbol _), if_neg (hsymbol _),
      if_neg (hsymbol _), if_neg (by simp [hopens]), skipStatement, dif_neg (by simp [hahead₂]),
      if_neg, if_pos]
    · exact isSymbol_iff.mpr (hcurrent₂ ▸ hopening)
    · rw [isSymbol_iff, hcurrent₂, hopening]
      decide
  rw [← hks] at hbump₂
  obtain ⟨hunread, hsilent₃, hend⟩ := skipBlock_balanced hbump₂ hbalanced hclose
    (hbump₂ ▸ hquietBlock) hrest
  rw [hskip]
  exact ⟨hunread, (hsilent.trans hsilent₂).trans hsilent₃, hend⟩

end Cursor

namespace Production

variable {dialect : Dialect} {budget : Nat} {path : List Int} {m t : Message} {c d : Cursor}

abbrev statementWithin (dialect : Dialect) (budget : Nat) (path : List Int) :
    Production Message Unit :=
  messageStatement ⟨dialect, .resume⟩ path (message ⟨dialect, .resume⟩ budget)

/-- Unless the input has come to its end, `k` more blocks have been opened than closed since `c`. -/
def OpenSince (c : Cursor) (k : Nat) (d : Cursor) : Prop :=
  d.ahead = [] ∨ Quiet d.ahead ∧ ∃ read, c.unread = read ++ d.unread ∧
    ∀ ws, Balanced k ws → Balanced 0 (read.map (fun l => l.token.word) ++ ws)

theorem OpenSince.bump {j k : Nat} (h : OpenSince c k d)
    (hstep : ∀ ws, Balanced j ws → Balanced k (d.current.word :: ws)) : OpenSince c j d.bump := by
  rcases h with hnil | ⟨hquiet, read, hread, hbalanced⟩
  · exact .inl (by rw [bump_of_nil hnil]; exact hnil)
  cases hahead : d.ahead with
  | nil => exact .inl (by rw [bump_of_nil hahead]; exact hahead)
  | cons l ls =>
    rw [hahead] at hquiet
    have hunread := (unread_bump (congrArg _ hahead) hquiet.of_cons.1).1
    refine .inr ⟨?_, read ++ [⟨d.current, []⟩], ?_, fun ws hws => ?_⟩
    · rw [(current_of_unread hunread).2]
      exact hquiet.of_cons.2
    · rw [hread, hunread, Cursor.unread, hahead, append_assoc]
      rfl
    · rw [map_append, append_assoc]
      exact hbalanced _ (hstep ws hws)

def openSince (c : Cursor) : Invariant Unit where
  Holds _ := OpenSince c
  Covers _ := True
  Records _ := True
  covers _ := trivial
  bump h _ hplain := h.bump fun _ => .other (fun hw => hplain.1 (Token.isSymbol_iff.mpr hw))
    fun hw => hplain.2 (Token.isSymbol_iff.mpr hw)
  enter h hopen := h.bump fun _ hws => Token.isSymbol_iff.mp hopen ▸ .opening hws
  leave h hclose := h.bump fun _ hws => Token.isSymbol_iff.mp hclose ▸ .close hws
  report h _ := h
  record h _ := h
  finish _ hnil _ _ := .inl hnil

/-- The block of a message that is read without a complaint ends at the brace that matches the one
before it. -/
theorem exists_balanced (hbounded : c.Bounded) (hquiet : Quiet c.ahead)
    (hrun : (block .resume "message" (statementWithin dialect budget path)).run m c =
      (some (), t, d)) (hd : d.diagnostics = []) :
    ∃ inner close, c.unread = inner ++ close :: d.unread ∧ close.token.word = .symbol "\x7d" ∧
      Balanced 0 (inner.map fun l => l.token.word) ∧ d.lastEnd = close.token.finish := by
  have hstatement : ∀ u, Keeps ((openSince c).under () fun _ => True) 0 u
      (statementWithin dialect budget path) := fun _ =>
    keeps_messageStatement (Message.kept_name fun _ => True) (fun _ _ _ _ => trivial)
      fun hword _ => ⟨keeps_message (kind_of_isWord hword) fun _ _ => trivial,
        fun _ _ _ _ _ _ => trivial⟩
  obtain ⟨_, e, _, hblock, ⟨he, _⟩, hend⟩ := keeps_runBlock hstatement "message"
    ⟨.inr ⟨hquiet, [], rfl, fun _ hws => hws⟩, trivial⟩
  cases hrun.symm.trans hblock
  rcases hend with ⟨hclose, rfl⟩ | ⟨_, rfl⟩
  · have hne : e.ahead ≠ [] := by
      intro hnil
      have hbump := (onward_of_run hrun).bounded hbounded
      rw [bump_of_nil hnil] at hbump
      exact hbump.ahead_ne_nil (ne_endOfInput (kind_of_isSymbol hclose)) hnil
    obtain ⟨hquiet, read, hread, hbalanced⟩ := he.resolve_left hne
    obtain ⟨l, ls, hahead⟩ := exists_cons_of_ne_nil hne
    obtain ⟨hunread, _, hlast⟩ :=
      unread_bump (congrArg _ hahead) (hquiet l (by simp [hahead]))
    refine ⟨read, ⟨e.current, []⟩, ?_, isSymbol_iff.mp hclose, ?_, hlast⟩
    · rw [hread, hunread, Cursor.unread, hahead]
    · simpa using hbalanced [] .nil
  · simp [Cursor.report, Cursor.markUnterminated] at hd

end Production

end ProtoSchema
