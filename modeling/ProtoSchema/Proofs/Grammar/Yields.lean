import ProtoSchema.Grammar.Recovery
import ProtoSchema.Proofs.Token.Words

/-!
What can be said of a value once a production has read it without a complaint. `Yields` is stated
for the word a production begins with; the rules follow the productions, and a loop needs only what
one round of it keeps.
-/

namespace ProtoSchema

open Scan Token

variable {x : String}

/-- Lexemes of which each one without a remark is a valid word, the end of the input apart, which
is the last one. -/
def Sound : List Lexeme → Prop
  | [] => True
  | l :: ls =>
    (l.remarks = [] → l.token.word.Valid ∨ l.token.word = .endOfInput ∧ ls = []) ∧ Sound ls

theorem sound_lexemes (p : Position) (cs : List Char) : Sound (lexemes p cs) := by
  fun_induction lexemes p cs with
  | case1 p cs g here h => exact ⟨fun _ => .inr ⟨rfl, rfl⟩, trivial⟩
  | case2 p cs g here c rest h t ih =>
    exact ⟨fun hr => .inl (valid_of_token (List.append_eq_nil_iff.mp hr).2), ih⟩

theorem Sound.of_suffix {ls ls' : List Lexeme} (h : Sound ls) (hsuffix : ls' <:+ ls) :
    Sound ls' := by
  obtain ⟨before, rfl⟩ := hsuffix
  induction before with
  | nil => exact h
  | cons l before ih => exact ih h.2

theorem Sound.valid {ls : List Lexeme} {l : Lexeme} (h : Sound (ls ++ [l]))
    (hclean : ∀ k ∈ ls, k.remarks = []) : ∀ k ∈ ls, k.token.word.Valid := by
  induction ls with
  | nil => exact List.forall_mem_nil _
  | cons k ls ih =>
    obtain ⟨hk, hls⟩ := List.forall_mem_cons.mp hclean
    obtain ⟨hfirst, hrest⟩ := h
    refine List.forall_mem_cons.mpr ⟨?_, ih hrest hls⟩
    rcases hfirst hk with hvalid | ⟨_, hnil⟩
    · exact hvalid
    · simp at hnil

def Word.InText (w : Word) : Prop :=
  w.Valid ∨ w = .endOfInput

namespace Word.InText

variable {w : Word}

theorem isIdentifier (h : w.InText) (hk : w.kind = .identifier) : IsIdentifier w.text := by
  rcases h with h | rfl
  · cases h with
    | identifier hname => exact hname
    | number ht => rcases ht.kind_eq with rfl | rfl <;> cases hk
    | string => cases hk
    | symbol => cases hk
  · cases hk

theorem numeral {kind : TokenKind} (h : w.InText) (hk : w.kind = kind)
    (hnumber : kind = .integer ∨ kind = .float) : Numeral.Text kind w.text.toList := by
  subst hk
  rcases h with h | rfl
  · cases h with
    | identifier => rcases hnumber with hk | hk <;> cases hk
    | number ht => exact ht
    | string => rcases hnumber with hk | hk <;> cases hk
    | symbol => rcases hnumber with hk | hk <;> cases hk
  · rcases hnumber with hk | hk <;> cases hk

end Word.InText

namespace Token

theorem isSymbol_iff {t : Token} : t.isSymbol x = true ↔ t.word = .symbol x := by
  simp [isSymbol, word, Word.symbol]

theorem isWord_iff {t : Token} : t.isWord x = true ↔ t.word = .ident x := by
  simp [isWord, word, Word.ident]

end Token

theorem forall_mem_concat {α : Type} {P : α → Prop} {xs : List α} {x : α} (h : ∀ y ∈ xs, P y)
    (hx : P x) : ∀ y ∈ xs ++ [x], P y :=
  List.forall_mem_append.mpr ⟨h, List.forall_mem_singleton.mpr hx⟩

namespace Cursor

/-- Nothing has been reported, and what lies ahead is the rest of a text. -/
structure Clean (c : Cursor) : Prop where
  quiet : c.diagnostics = []
  current : c.current.word.Valid ∨ c.current.word = .endOfInput ∧ c.ahead = []
  ahead : Sound c.ahead

theorem Clean.bump {c : Cursor} (h : c.Clean) (hq : c.bump.diagnostics = []) : c.bump.Clean := by
  obtain ⟨_, hcurrent, hahead⟩ := h
  unfold Cursor.bump next at hq ⊢
  split at hq
  · next hnil => exact ⟨hq, by simpa [hnil] using hcurrent, by rw [hnil]; trivial⟩
  · next l rest hcons =>
    rw [show c.ahead = l :: rest from hcons] at hahead
    exact ⟨hq, hahead.1 (List.append_eq_nil_iff.mp hq).2, hahead.2⟩

end Cursor

namespace Production

variable {σ τ α β : Type}

/-- Run on `s` at the word `w`, and if nothing is reported, the production recognises a value, and
`Q` holds of it, of what has been built and of the word it stops at. -/
def Yields (p : Production σ α) (s : σ) (w : Word) (Q : α → σ → Word → Prop) : Prop :=
  ∀ c : Cursor, c.Clean → c.current.word = w → (p.run s c).2.2.diagnostics = [] →
    ∃ a s' d, p.run s c = (some a, s', d) ∧ d.Clean ∧ Q a s' d.current.word

namespace Yields

variable {p : Production σ α} {f : α → Production σ β} {s : σ} {w : Word}
  {Q : α → σ → Word → Prop} {R : β → σ → Word → Prop}

theorem bind (h : Yields p s w Q) (k : ∀ a s' w', Q a s' w' → Yields (f a) s' w' R) :
    Yields (p >>= f) s w R := by
  intro c hc hw hquiet
  have hfirst : (p.run s c).2.2.diagnostics = [] := by
    rw [run_bind] at hquiet
    generalize p.run s c = r at hquiet
    obtain ⟨_ | a, s', d⟩ := r
    · exact hquiet
    · exact ((f a).onward s' d).quiet hquiet
  obtain ⟨a, s', d, hrun, hd, hQ⟩ := h c hc hw hfirst
  rw [run_bind, hrun] at hquiet ⊢
  exact k a s' _ hQ d hd rfl hquiet

/-- The rest of a sequence as what has to hold behind its first part. -/
theorem step (h : Yields p s w fun a s' w' => Yields (f a) s' w' R) : Yields (p >>= f) s w R :=
  h.bind fun _ _ _ k => k

theorem mono {Q' : α → σ → Word → Prop} (h : Yields p s w Q)
    (hle : ∀ a s' w', Q a s' w' → Q' a s' w') : Yields p s w Q' := by
  intro c hc hw hquiet
  obtain ⟨a, s', d, hrun, hd, hQ⟩ := h c hc hw hquiet
  exact ⟨a, s', d, hrun, hd, hle _ _ _ hQ⟩

theorem elim (h : Yields p s w Q) {c d : Cursor} {r : Option α} {s' : σ} (hc : c.Clean)
    (hw : c.current.word = w) (hrun : p.run s c = (r, s', d)) (hquiet : d.diagnostics = []) :
    ∃ a, r = some a ∧ d.Clean ∧ Q a s' d.current.word := by
  obtain ⟨a, s₁, e, hrun', he, hQ⟩ := h c hc hw (by rw [hrun]; exact hquiet)
  rw [hrun] at hrun'
  cases hrun'
  exact ⟨a, rfl, he, hQ⟩

/-- The word a production begins with may be taken to be one of a text without faults. -/
theorem of_inText (h : w.InText → Yields p s w Q) : Yields p s w Q := by
  intro c hc hw
  refine h ?_ c hc hw
  rw [← hw]
  exact hc.current.imp_right And.left

end Yields

section Rules

variable {Q : Bool → σ → Word → Prop}

variable {s : σ} {w : Word}

theorem yields_pure {a : α} {Q : α → σ → Word → Prop} (h : Q a s w) : Yields (pure a) s w Q := by
  rintro c hc rfl -
  exact ⟨a, s, c, rfl, hc, h⟩

theorem yields_look {f : Cursor → α} {Q : α → σ → Word → Prop}
    (h : ∀ c : Cursor, c.current.word = w → Q (f c) s w) : Yields (look f) s w Q := by
  rintro c hc rfl -
  exact ⟨f c, s, c, rfl, hc, h c rfl⟩

theorem yields_peek {Q : Token → σ → Word → Prop} (h : ∀ t : Token, t.word = w → Q t s w) :
    Yields peek s w Q :=
  yields_look fun c hc => h c.current hc

theorem yields_here {Q : Position → σ → Word → Prop} (h : ∀ place, Q place s w) :
    Yields here s w Q :=
  yields_look fun _ _ => h _

theorem yields_move {f : Cursor → α × Cursor} {hf : ∀ c : Cursor, c.Onward (f c).2}
    {Q : α → σ → Word → Prop}
    (h : ∀ c : Cursor, c.Clean → c.current.word = w → (f c).2.diagnostics = [] →
      (f c).2.Clean ∧ Q (f c).1 s (f c).2.current.word) : Yields (move f hf) s w Q := by
  intro c hc hw hquiet
  exact ⟨_, s, _, rfl, h c hc hw hquiet⟩

theorem yields_bump {Q : Token → σ → Word → Prop} (h : ∀ (t : Token) w', t.word = w → Q t s w') :
    Yields bump s w Q :=
  yields_move fun c hc hw hquiet => ⟨hc.bump hquiet, h c.current _ hw⟩

variable {path : List Int} {place : Position} {fault : Fault} {what : String}

theorem yields_record {start : Position} {Q : Unit → σ → Word → Prop} (h : Q () s w) :
    Yields (record path start) s w Q :=
  yields_move fun _ hc hw _ => ⟨⟨hc.quiet, hc.current, hc.ahead⟩, hw ▸ h⟩

theorem yields_report {Q : Unit → σ → Word → Prop} : Yields (report place fault) s w Q := by
  intro c _ _ hquiet
  simp [report, move, Cursor.report] at hquiet

theorem yields_reject {Q : α → σ → Word → Prop} : Yields (reject place fault) s w Q :=
  yields_report.step

theorem yields_rejectHere {Q : α → σ → Word → Prop} : Yields (rejectHere fault) s w Q :=
  .step (yields_here fun _ => yields_reject)

theorem yields_expected {Q : α → σ → Word → Prop} : Yields (expected what) s w Q :=
  .step (yields_peek fun _ _ => yields_rejectHere)

theorem yields_built {Q : σ → σ → Word → Prop} (h : Q s s w) : Yields built s w Q := by
  rintro c hc rfl -
  exact ⟨s, s, c, rfl, hc, h⟩

theorem yields_edit {f : σ → σ} {Q : Unit → σ → Word → Prop} (h : Q () (f s) w) :
    Yields (edit f) s w Q := by
  rintro c hc rfl -
  exact ⟨(), f s, c, rfl, hc, h⟩

theorem run_build (init : τ) (p : Production τ α) (s : σ) (c : Cursor) :
    (build init p).run s c =
      match p.run init c with
      | (some _, t, c) => (some t, s, c)
      | (none, _, c) => (none, s, c) :=
  rfl

theorem yields_build {init : τ} {p : Production τ α} {Q : τ → σ → Word → Prop}
    (h : Yields p init w fun _ t w' => Q t s w') : Yields (build init p) s w Q := by
  intro c hc hw hquiet
  have hinner : (p.run init c).2.2.diagnostics = [] := by
    rw [run_build] at hquiet
    generalize p.run init c = r at hquiet
    obtain ⟨_ | a, t, d⟩ := r <;> exact hquiet
  obtain ⟨a, t, d, hrun, hd, hQ⟩ := h c hc hw hinner
  exact ⟨t, s, d, by rw [run_build, hrun], hd, hQ⟩

/-! ## Words and symbols -/

theorem yields_atKind {kind : TokenKind} (h : Q (decide (w.kind = kind)) s w) :
    Yields (atKind kind) s w Q :=
  yields_look fun _ hc => by
    subst hc
    exact h

theorem yields_atSymbol (h : Q (decide (w = .symbol x)) s w) : Yields (atSymbol x) s w Q :=
  yields_look fun c hc => by
    rwa [show c.current.isSymbol x = decide (w = .symbol x) by
      rw [Bool.eq_iff_iff, isSymbol_iff, decide_eq_true_eq, hc]]

theorem yields_atWord (h : Q (decide (w = .ident x)) s w) : Yields (atWord x) s w Q :=
  yields_look fun c hc => by
    rwa [show c.current.isWord x = decide (w = .ident x) by
      rw [Bool.eq_iff_iff, isWord_iff, decide_eq_true_eq, hc]]

private theorem yields_eat {v : Word} (hpos : w = v → ∀ w', Q true s w')
    (hneg : w ≠ v → Q false s w) :
    Yields (if decide (w = v) = true then bump >>= fun _ => pure true else pure false) s w Q := by
  by_cases hw : w = v
  · rw [if_pos (decide_eq_true hw)]
    exact .step (yields_bump fun _ w' _ => yields_pure (hpos hw w'))
  · rw [if_neg (by simpa using hw)]
    exact yields_pure (hneg hw)

theorem yields_eatSymbol (hpos : w = .symbol x → ∀ w', Q true s w')
    (hneg : w ≠ .symbol x → Q false s w) : Yields (eatSymbol x) s w Q :=
  .step (yields_atSymbol (yields_eat hpos hneg))

theorem yields_eatSymbol_any (h : ∀ b w', Q b s w') : Yields (eatSymbol x) s w Q :=
  yields_eatSymbol (fun _ w' => h true w') fun _ => h false w

theorem yields_eatWord (hpos : w = .ident x → ∀ w', Q true s w')
    (hneg : w ≠ .ident x → Q false s w) : Yields (eatWord x) s w Q :=
  .step (yields_atWord (yields_eat hpos hneg))

theorem yields_symbol {Q : Unit → σ → Word → Prop} (h : w = .symbol x → ∀ w', Q () s w') :
    Yields (symbol x) s w Q :=
  .step (yields_eatSymbol (fun hw w' => yields_pure (h hw w')) fun _ => yields_expected)

theorem yields_word {Q : Unit → σ → Word → Prop} (h : w = .ident x → ∀ w', Q () s w') :
    Yields (word x) s w Q :=
  .step (yields_eatWord (fun hw w' => yields_pure (h hw w')) fun _ => yields_expected)

theorem yields_identifier {Q : String → σ → Word → Prop}
    (h : ∀ name w', w = .ident name → IsIdentifier name → Q name s w') :
    Yields (identifier what) s w Q := by
  refine .of_inText fun hw => .step (yields_atKind ?_)
  split
  · next hk =>
    refine .step (yields_bump fun t w' ht => yields_pure ?_)
    subst ht
    have hkind : t.word.kind = .identifier := by simpa using hk
    exact h t.text w' (Word.ext hkind rfl) (hw.isIdentifier hkind)
  · exact yields_expected

/-! ## Repetition -/

section Repetition

variable {I : σ → Prop} {P : α → Prop} {separator : String} {item : Production σ α}

theorem yields_after (h : ∀ s w, I s → Yields item s w fun a s' _ => P a ∧ I s') (hs : I s) :
    Yields (after separator item) s w fun as s' _ => (∀ a ∈ as, P a) ∧ I s' := by
  have hitem : ∀ s (c : Cursor), I s → c.Clean → ∀ {r s₁ d}, item.run s c.bump = (r, s₁, d) →
      d.diagnostics = [] → ∃ a, r = some a ∧ d.Clean ∧ P a ∧ I s₁ := by
    intro s c hs hc r s₁ d hrun hquiet
    have hd := item.onward s c.bump
    rw [hrun] at hd
    exact (h s _ hs).elim (hc.bump (hd.quiet hquiet)) rfl hrun hquiet
  intro c hc hw hquiet
  clear hw
  simp only [after] at hquiet ⊢
  fun_induction runAfter separator item s c with
  | case1 s c => exact ⟨[], s, c, rfl, hc, by simp, hs⟩
  | case2 s c _ _ s₁ d hrun =>
    obtain ⟨a, hsome, _⟩ := hitem s c hs hc hrun hquiet
    cases hsome
  | case3 s c _ _ a s₁ d hrun as s₂ e hrest ih =>
    have he := runAfter_onward separator item s₁ d
    rw [hrest] at he ih
    obtain ⟨_, hsome, hclean, ha, hs₁⟩ := hitem s c hs hc hrun (he.quiet hquiet)
    obtain ⟨_, _, _, heq, hclean', has, hs₂⟩ := ih hs₁ hclean hquiet
    cases hsome
    cases heq
    exact ⟨_, _, _, rfl, hclean', by simpa using ⟨ha, has⟩, hs₂⟩
  | case4 s c _ _ a s₁ d hrun s₂ e hrest ih =>
    have he := runAfter_onward separator item s₁ d
    rw [hrest] at he ih
    obtain ⟨_, _, hclean, _, hs₁⟩ := hitem s c hs hc hrun (he.quiet hquiet)
    obtain ⟨_, _, _, heq, _⟩ := ih hs₁ hclean hquiet
    cases heq
  | case5 s c => exact ⟨[], s, c, rfl, hc, by simp, hs⟩

theorem yields_sepBy (h : ∀ s w, I s → Yields item s w fun a s' _ => P a ∧ I s') (hs : I s) :
    Yields (sepBy separator item) s w fun as s' _ => (∀ a ∈ as, P a) ∧ I s' := by
  refine (h s w hs).bind fun a s' w' ⟨ha, hs'⟩ => (yields_after h hs').bind ?_
  intro as s'' w'' ⟨has, hs''⟩
  exact yields_pure ⟨by simpa using ⟨ha, has⟩, hs''⟩

/-! ## Blocks of statements -/

variable {statement : Production σ Unit}

theorem exists_runStatement {c d : Cursor} {r : Option Unit} {s' : σ}
    (h : Yields statement s c.current.word fun _ s' _ => I s') (hc : c.Clean)
    (hrun : runStatement .resume statement s c = (r, s', d)) (hquiet : d.diagnostics = []) :
    r = some () ∧ d.Clean ∧ I s' := by
  unfold runStatement at hrun
  generalize hstatement : statement.run s c = outcome at hrun
  obtain ⟨result, s₁, e⟩ := outcome
  have hunstick : ∀ (e : Cursor), e.Clean → (e.unstick c.position).diagnostics = [] →
      (e.unstick c.position).Clean := by
    intro e he hq
    unfold Cursor.unstick at hq ⊢
    split
    · next hp => exact he.bump (by rwa [if_pos hp] at hq)
    · exact he
  cases result with
  | none =>
    cases hrun
    have he := (e.skipStatement_onward.trans (Cursor.unstick_onward _ _)).quiet hquiet
    obtain ⟨_, hsome, _⟩ := h.elim hc rfl hstatement he
    cases hsome
  | some u =>
    cases hrun
    obtain ⟨_, _, hclean, hI⟩ := h.elim hc rfl hstatement ((Cursor.unstick_onward _ _).quiet hquiet)
    exact ⟨rfl, hunstick e hclean hquiet, hI⟩

theorem yields_block {construct : String}
    (h : ∀ s w, I s → w ≠ .symbol "\x7d" → Yields statement s w fun _ s' _ => I s') (hs : I s) :
    Yields (block .resume construct statement) s w fun _ s' _ => I s' := by
  intro c hc hw hquiet
  clear hw
  simp only [block] at hquiet ⊢
  fun_induction runBlock .resume construct statement s c with
  | case1 s c => exact ⟨_, _, _, rfl, hc.bump hquiet, hs⟩
  | case2 s c _ _ d => simp [d, Cursor.report, Cursor.markUnterminated] at hquiet
  | case3 s c hend _ s₁ d hrun ih =>
    have hd := runBlock_onward .resume construct statement s₁ d
    obtain ⟨_, hclean, hs₁⟩ := exists_runStatement
      (h s _ hs fun hw => hend (isSymbol_iff.mpr hw)) hc hrun (hd.quiet hquiet)
    exact ih hs₁ hclean hquiet
  | case4 s c hend _ s₁ d hrun =>
    obtain ⟨hsome, _⟩ := exists_runStatement
      (h s _ hs fun hw => hend (isSymbol_iff.mpr hw)) hc hrun hquiet
    cases hsome

theorem yields_statements
    (h : ∀ s w, I s → w ≠ .symbol "\x7d" → Yields statement s w fun _ s' _ => I s') (hs : I s) :
    Yields (statements .resume statement) s w fun _ s' _ => I s' := by
  intro c hc hw hquiet
  clear hw
  simp only [statements] at hquiet ⊢
  fun_induction runStatements .resume statement s c with
  | case1 s c => exact ⟨_, _, _, rfl, hc, hs⟩
  | case2 s c _ _ d _ ih =>
    have hd := (d.bump_onward.trans (runStatements_onward .resume statement s d.bump)).quiet hquiet
    simp [d, Cursor.report] at hd
  | case3 s c _ _ d => simp [d, Cursor.report] at hquiet
  | case4 s c _ hend s₁ d hrun ih =>
    have hd := runStatements_onward .resume statement s₁ d
    obtain ⟨_, hclean, hs₁⟩ := exists_runStatement
      (h s _ hs fun hw => hend (isSymbol_iff.mpr hw)) hc hrun (hd.quiet hquiet)
    exact ih hs₁ hclean hquiet
  | case5 s c _ hend s₁ d hrun =>
    obtain ⟨hsome, _⟩ := exists_runStatement
      (h s _ hs fun hw => hend (isSymbol_iff.mpr hw)) hc hrun hquiet
    cases hsome

end Repetition

/-- A declaration with a name and a block, each statement of which keeps `I`. -/
theorem yields_declaration {I : τ → Prop} {init : String → τ} {finish : τ → α}
    {statement : Production τ Unit} {construct : String} {Q : α → σ → Word → Prop}
    (hinit : ∀ name, IsIdentifier name → I (init name))
    (hstatement : ∀ t w, I t → Yields statement t w fun _ t' _ => I t')
    (h : ∀ t w', I t → Q (finish t) s w') :
    Yields (do
      let start ← here
      let _ ← bump
      let name ← identifier what
      symbol "\x7b"
      let built ← build (init name) (block .resume construct statement)
      record path start
      return finish built) s w Q := by
  refine .step (yields_here fun start => .step (yields_bump fun _ w' _ => ?_))
  refine .step (yields_identifier fun name w'' _ hname => .step (yields_symbol fun _ w₃ => ?_))
  have hblock : Yields (block .resume construct statement) (init name) w₃ fun _ t _ => I t :=
    yields_block (fun t w ht _ => hstatement t w ht) (hinit name hname)
  refine .step (yields_build (hblock.mono fun _ t w₄ ht => .step (yields_record ?_)))
  exact yields_pure (h t w₄ ht)

end Rules

end Production

end ProtoSchema
