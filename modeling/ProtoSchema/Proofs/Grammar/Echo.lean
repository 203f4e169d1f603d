import ProtoSchema.Proofs.Grammar.Heard
import ProtoSchema.Proofs.Grammar.Takes

/-!
Reading the same words twice. What is read without a complaint from one text is read alike from
another that has the same words up to there, wherever the two stand and whatever follows. `Echoes`
relates the two runs of a production; the rules follow the productions.
-/

namespace ProtoSchema

open Scan List Token

/-! ## What is still to be read -/

def Quiet (ls : List Lexeme) : Prop :=
  ∀ l ∈ ls, l.remarks = []

variable {ls ks : List Lexeme}

theorem Quiet.of_append (h : Quiet (ls ++ ks)) : Quiet ls ∧ Quiet ks :=
  forall_mem_append.mp h

theorem Quiet.of_cons {l : Lexeme} (h : Quiet (l :: ls)) : l.remarks = [] ∧ Quiet ls :=
  forall_mem_cons.mp h

theorem Quiet.eq_of_tokens (hls : Quiet ls) (hks : Quiet ks)
    (h : ls.map Lexeme.token = ks.map Lexeme.token) : ls = ks := by
  have hremarks : ∀ {ms : List Lexeme}, Quiet ms → ms.map (fun l => ⟨l.token, []⟩) = ms := by
    intro ms hms
    nth_rewrite 2 [← map_id ms]
    exact map_congr_left fun l hl => congrArg (Lexeme.mk l.token) (hms l hl).symm
  have hsame := congrArg (List.map fun t => (⟨t, []⟩ : Lexeme)) h
  rw [map_map, map_map] at hsame
  rw [← hremarks hls, ← hremarks hks]
  exact hsame

namespace Cursor

variable {c d : Cursor} {k l : Lexeme} {ls : List Lexeme}

def unread (c : Cursor) : List Lexeme :=
  ⟨c.current, []⟩ :: c.ahead

theorem unread_ne_nil (c : Cursor) : c.unread ≠ [] :=
  cons_ne_nil _ _

theorem length_unread (c : Cursor) : c.unread.length = c.ahead.length + 1 :=
  rfl

theorem current_of_unread (h : c.unread = l :: ls) : c.current = l.token ∧ c.ahead = ls := by
  obtain ⟨rfl, hahead⟩ := List.cons.inj h
  exact ⟨rfl, hahead⟩

theorem unread_of_cons (hl : l.token = c.current) (h : l :: c.ahead = ls)
    (hquiet : l.remarks = []) : c.unread = ls := by
  rw [← h, unread, ← hl, ← hquiet]

structure Silent (c d : Cursor) : Prop where
  diagnostics : d.diagnostics = c.diagnostics
  unterminated : d.unterminated = c.unterminated

theorem Silent.trans {e : Cursor} (h : c.Silent d) (k : d.Silent e) : c.Silent e :=
  ⟨k.diagnostics.trans h.diagnostics, k.unterminated.trans h.unterminated⟩

theorem unread_bump (h : c.unread = l :: k :: ls) (hk : k.remarks = []) :
    c.bump.unread = k :: ls ∧ c.Silent c.bump ∧ c.bump.lastEnd = l.token.finish := by
  obtain ⟨hcurrent, hahead⟩ := current_of_unread h
  rw [bump_of_cons hahead]
  exact ⟨unread_of_cons rfl rfl hk, ⟨by rw [hk]; simp, rfl⟩, by rw [← hcurrent]⟩

theorem Onward.unread (h : c.Onward d) (hquiet : Quiet c.ahead) :
    ∃ read, c.unread = read ++ d.unread := by
  obtain ⟨read, htokens⟩ := h.tokens
  have hmap : c.unread.map Lexeme.token = read ++ d.unread.map Lexeme.token := htokens.symm
  obtain ⟨ls, ks, hunread, _, hks⟩ := map_eq_append_iff.mp hmap
  have hc : Quiet c.unread := forall_mem_cons.mpr ⟨rfl, hquiet⟩
  have hd : Quiet d.unread := forall_mem_cons.mpr ⟨rfl, fun l hl => hquiet l (h.ahead.subset hl)⟩
  rw [hunread] at hc
  exact ⟨ls, by rw [hunread, Quiet.eq_of_tokens hc.of_append.2 hd hks]⟩

end Cursor

/-! ## Cursors before the same words -/

/-- Where two texts part. Of the first it is known that it comes to its end, of the second that
nothing was remarked about the token it goes on with. -/
structure Fork (rest rest' : List Lexeme) : Prop where
  bounded : rest.getLast?.map (fun l => l.token.kind) = some .endOfInput
  resumes : ∃ l ls, rest' = l :: ls ∧ l.remarks = []

/-- Two texts of the same words, up to `rest` in the first and `rest'` in the second. -/
inductive Continues (rest rest' : List Lexeme) : List Lexeme → List Lexeme → Prop
  | stop : Fork rest rest' → Continues rest rest' rest rest'
  | step {l l' : Lexeme} {ls ls' : List Lexeme} :
    l'.token.word = l.token.word → l'.remarks = [] → Continues rest rest' ls ls' →
    Continues rest rest' (l :: ls) (l' :: ls')

namespace Continues

variable {rest rest' ls ls' : List Lexeme} {l l' : Lexeme}

theorem of_cons (h : Continues rest rest' (l :: ls) (l' :: ls')) (hle : rest.length ≤ ls.length) :
    l'.token.word = l.token.word ∧ Continues rest rest' ls ls' := by
  generalize hks : l :: ls = ks at h
  generalize hks' : l' :: ls' = ks' at h
  cases h with
  | stop =>
    rw [← hks, length_cons] at hle
    omega
  | step hword _ hmore =>
    cases hks
    cases hks'
    exact ⟨hword, hmore⟩

variable (h : Continues rest rest' ls ls')
include h

theorem parts : Fork rest rest' := by
  induction h with
  | stop h => exact h
  | step _ _ _ ih => exact ih

theorem rest_ne_nil : rest ≠ [] := by
  rintro rfl
  exact absurd h.parts.bounded (by simp)

theorem length_le : rest.length ≤ ls.length := by
  induction h with
  | stop => exact Nat.le_refl _
  | step _ _ _ ih => exact Nat.le_succ_of_le ih

theorem exists_cons : ∃ l ks l' ks', ls = l :: ks ∧ ls' = l' :: ks' ∧ l'.remarks = [] := by
  cases h with
  | stop h =>
    obtain ⟨l, ks, hrest⟩ := exists_cons_of_ne_nil (Continues.stop h).rest_ne_nil
    obtain ⟨l', ks', hrest', hremarks⟩ := h.resumes
    exact ⟨l, ks, l', ks', hrest, hrest', hremarks⟩
  | step _ hremarks _ => exact ⟨_, _, _, _, rfl, rfl, hremarks⟩

theorem eq_of_length_le (hle : ls.length ≤ rest.length) : ls = rest ∧ ls' = rest' := by
  cases h with
  | stop => exact ⟨rfl, rfl⟩
  | step _ _ hmore =>
    have hlength := hmore.length_le
    rw [length_cons] at hle
    omega

theorem getLast?_eq : ls.getLast? = rest.getLast? := by
  induction h with
  | stop => rfl
  | step _ _ hmore ih =>
    obtain ⟨l, ks, _, _, rfl, _⟩ := hmore.exists_cons
    rw [getLast?_cons_cons, ih]

end Continues

namespace Cursor

/-- The cursors stand before the same words, up to `rest` and `rest'`. -/
def Echo (rest rest' : List Lexeme) (c c' : Cursor) : Prop :=
  ∃ l l', l.token = c.current ∧ l'.token = c'.current ∧
    Continues rest rest' (l :: c.ahead) (l' :: c'.ahead)

/-- Nothing was reported on the way from `c'` to `d'`, which is as long as that from `c` to `d`. -/
structure Alongside (c d c' d' : Cursor) : Prop where
  diagnostics : d'.diagnostics = c'.diagnostics
  unterminated : d'.unterminated = c'.unterminated
  position : c.position + d'.position = d.position + c'.position

namespace Alongside

variable {c d e c' d' e' : Cursor}

theorem refl (c c' : Cursor) : Alongside c c c' c' :=
  ⟨rfl, rfl, rfl⟩

theorem trans (h : Alongside c d c' d') (k : Alongside d e d' e') : Alongside c e c' e' := by
  refine ⟨k.diagnostics.trans h.diagnostics, k.unterminated.trans h.unterminated, ?_⟩
  have hfirst := h.position
  have hsecond := k.position
  omega

end Alongside

namespace Echo

variable {rest rest' : List Lexeme} {c c' : Cursor} (h : c.Echo rest rest' c')
include h

theorem length_le : rest.length ≤ c.ahead.length + 1 := by
  obtain ⟨_, _, _, _, htext⟩ := h
  exact htext.length_le

theorem rest_length_pos : 0 < rest.length := by
  obtain ⟨_, _, _, _, htext⟩ := h
  exact length_pos_iff.mpr htext.rest_ne_nil

theorem bounded : c.Bounded := by
  obtain ⟨l, l', hl, _, htext⟩ := h
  have hlast := htext.parts.bounded
  rw [← htext.getLast?_eq] at hlast
  rw [Bounded, tokens, ← hl, ← map_cons (f := fun l : Lexeme => l.token), getLast?_map,
    Option.map_map]
  exact hlast

/-- Where the texts part, the cursors stand before the rests. -/
theorem at_rest (hle : c.ahead.length < rest.length) :
    (∃ l, l.token = c.current ∧ l :: c.ahead = rest) ∧ c'.unread = rest' := by
  obtain ⟨l, l', hl, hl', htext⟩ := h
  obtain ⟨hrest, hrest'⟩ := htext.eq_of_length_le (by rw [length_cons]; omega)
  obtain ⟨k, ks, hk, hquiet⟩ := htext.parts.resumes
  refine ⟨⟨l, hl, hrest⟩, unread_of_cons hl' hrest' ?_⟩
  rw [(List.cons.inj (hrest'.trans hk)).1, hquiet]

section Before

variable (hle : rest.length ≤ c.ahead.length)
include hle

theorem word : c'.current.word = c.current.word := by
  obtain ⟨l, l', hl, hl', htext⟩ := h
  rw [← hl, ← hl']
  exact (htext.of_cons hle).1

theorem isSymbol (x : String) : c'.current.isSymbol x = c.current.isSymbol x := by
  rw [Bool.eq_iff_iff, isSymbol_iff, isSymbol_iff, h.word hle]

theorem ahead_ne_nil : c'.ahead ≠ [] := by
  obtain ⟨l, l', hl, hl', htext⟩ := h
  obtain ⟨_, _, _, _, _, hahead', _⟩ := (htext.of_cons hle).2.exists_cons
  rw [hahead']
  simp

theorem bump : c.bump.Echo rest rest' c'.bump ∧ Alongside c c.bump c' c'.bump := by
  obtain ⟨l, l', hl, hl', htext⟩ := h
  have hmore := (htext.of_cons hle).2
  obtain ⟨k, ks, k', ks', hahead, hahead', hremarks⟩ := hmore.exists_cons
  rw [hahead, hahead'] at hmore
  rw [bump_of_cons hahead, bump_of_cons hahead']
  refine ⟨⟨k, k', rfl, rfl, hmore⟩, by simp [hremarks], rfl, ?_⟩
  show c.position + (c'.position + 1) = c.position + 1 + c'.position
  omega

end Before

end Echo

end Cursor

/-! ## Two runs -/

namespace Production

variable {σ τ α β : Type}

theorem run_move_bind (f : Cursor → α × Cursor) (hf : ∀ c : Cursor, c.Onward (f c).2)
    (k : α → Production σ β) (s : σ) (c : Cursor) :
    (move f hf >>= k).run s c = (k (f c).1).run s (f c).2 :=
  rfl

/-- Something is reported in every run. -/
class Complains (p : Production σ α) : Prop where
  loud : ∀ s c, (p.run s c).2.2.diagnostics ≠ []

namespace Complains

instance bind {p : Production σ α} {f : α → Production σ β} [Complains p] :
    Complains (p >>= f) := by
  refine ⟨fun s c hquiet => loud (p := p) s c ?_⟩
  rw [run_bind] at hquiet
  generalize p.run s c = r at hquiet
  obtain ⟨_ | a, t, d⟩ := r
  · exact hquiet
  · exact ((f a).onward t d).quiet hquiet

variable {place : Position} {fault : Fault}

instance report : Complains (report place fault : Production σ Unit) := by
  refine ⟨fun s c hquiet => ?_⟩
  simp [Production.report, move, Cursor.report] at hquiet

instance reject : Complains (reject place fault : Production σ α) :=
  bind

instance rejectHere : Complains (rejectHere fault : Production σ α) :=
  ⟨fun s c => reject.loud s c⟩

instance expected {what : String} : Complains (expected what : Production σ α) :=
  ⟨fun s c => rejectHere.loud s c⟩

end Complains

/-- What is recognised without a complaint has at least one token, of a text that comes to its
end. -/
class Consumes (p : Production σ α) : Prop where
  ahead_lt : ∀ (s t : σ) (c d : Cursor) (a : α), c.Bounded → p.run s c = (some a, t, d) →
    d.diagnostics = [] → d.ahead.length < c.ahead.length

namespace Consumes

variable {p q : Production σ α} {f : α → Production σ β}

instance bind_right [∀ a, Consumes (f a)] : Consumes (p >>= f) := by
  refine ⟨fun s t c d b hc hrun hquiet => ?_⟩
  obtain ⟨a, u, e, hp, hf⟩ := exists_run_of_bind hrun
  have honward := onward_of_run hp
  exact Nat.lt_of_lt_of_le (ahead_lt u t e d b (honward.bounded hc) hf hquiet) honward.length_le

instance bind_left [Consumes p] : Consumes (p >>= f) := by
  refine ⟨fun s t c d b hc hrun hquiet => ?_⟩
  obtain ⟨a, u, e, hp, hf⟩ := exists_run_of_bind hrun
  have honward := onward_of_run hf
  exact Nat.lt_of_le_of_lt honward.length_le (ahead_lt s u c e a hc hp (honward.quiet hquiet))

instance ite {P : Prop} [Decidable P] [Consumes p] [Consumes q] :
    Consumes (if P then p else q) := by
  split <;> infer_instance

instance of_complains [Complains p] : Consumes p := by
  refine ⟨fun s t c d a _ hrun hquiet => ?_⟩
  have hloud := Complains.loud (p := p) s c
  rw [hrun] at hloud
  exact absurd hquiet hloud

instance symbol {x : String} : Consumes (symbol x : Production σ Unit) := by
  refine ⟨fun s t c d a hc hrun hquiet => ?_⟩
  obtain ⟨b, u, e, heat, hrest⟩ := exists_run_of_bind hrun
  obtain ⟨_, _, _, hat, heat⟩ := exists_run_of_bind heat
  cases hat
  split at heat
  · next hsymbol =>
    obtain ⟨_, _, _, hbump, hpure⟩ := exists_run_of_bind heat
    cases hbump
    cases hpure
    have hne := hc.ahead_ne_nil (Token.ne_endOfInput (Token.kind_of_isSymbol hsymbol))
    exact Nat.lt_of_le_of_lt (onward_of_run hrest).length_le (Cursor.bump_ahead_lt hne)
  · cases heat
    exact ahead_lt (p := Production.expected (quoted x)) s t c d a hc hrest hquiet

instance endOfStatement : Consumes (endOfStatement : Production σ Unit) :=
  symbol

instance build {init : τ} {p : Production τ α} [Consumes p] :
    Consumes (build init p : Production σ τ) := by
  refine ⟨fun s t c d a hc hrun hquiet => ?_⟩
  rw [run_build] at hrun
  generalize hp : p.run init c = r at hrun
  obtain ⟨_ | b, u, e⟩ := r
  · cases hrun
  · cases hrun
    exact ahead_lt init _ c _ b hc hp hquiet

/-- A block ends with a brace, which it consumes. -/
instance block {construct : String} {statement : Production σ Unit} :
    Consumes (block .resume construct statement) := by
  refine ⟨fun s t c d a hc hrun hquiet => ?_⟩
  simp only [Production.block] at hrun
  fun_induction runBlock .resume construct statement s c with
  | case1 s c hclose =>
    cases hrun
    have hkind := Token.ne_endOfInput (Token.kind_of_isSymbol hclose)
    exact Cursor.bump_ahead_lt (hc.ahead_ne_nil hkind)
  | case2 s c =>
    have hd := (Prod.mk.inj (Prod.mk.inj hrun).2).2
    simp +zetaDelta [← hd, Cursor.report, Cursor.markUnterminated] at hquiet
  | case3 s c _ _ s₁ e hstatement ih =>
    have honward := runStatement_onward .resume statement s c
    rw [hstatement] at honward
    exact Nat.lt_of_lt_of_le (ih (honward.bounded hc) hrun) honward.length_le
  | case4 => cases hrun

end Consumes

/-- The productions `p` and `p'` are run on `s` and `s'` before the same words. If `p` recognises a
value without a complaint and without looking behind the place where the texts part, so does `p'`
without a further one, and `Q` holds of the values and of what has been built. The numbers `i` and
`j` are `0` if the runs begin and end before that place, and `1` if they may do so right at it. -/
def Echoes (rest rest' : List Lexeme) (i j : Nat) (p p' : Production σ α) (s s' : σ)
    (Q : α → α → σ → σ → Prop) : Prop :=
  ∀ (c c' : Cursor) (a : α) (t : σ) (d : Cursor), c.Clean → c.Echo rest rest' c' →
    rest.length ≤ c.ahead.length + i → p.run s c = (some a, t, d) → d.diagnostics = [] →
    rest.length ≤ d.ahead.length + j →
    ∃ a' t' d', p'.run s' c' = (some a', t', d') ∧ d.Clean ∧ d.Echo rest rest' d' ∧
      Cursor.Alongside c d c' d' ∧ Q a a' t t'

section Rules

variable {rest rest' : List Lexeme} {i j : Nat} {s s' : σ}

namespace Echoes

variable {p p' q q' : Production σ α} {f f' : α → Production σ β} {Q : α → α → σ → σ → Prop}
  {R : β → β → σ → σ → Prop}

theorem imp {Q' : α → α → σ → σ → Prop} (h : Echoes rest rest' i j p p' s s' Q)
    (hQ : ∀ a a' t t', Q a a' t t' → Q' a a' t t') : Echoes rest rest' i j p p' s s' Q' := by
  intro c c' a t d hc hecho hle hrun hquiet hle'
  obtain ⟨a', t', d', hrun', hd, hecho', hside, hafter⟩ :=
    h c c' a t d hc hecho hle hrun hquiet hle'
  exact ⟨a', t', d', hrun', hd, hecho', hside, hQ a a' t t' hafter⟩

/-- Two steps, of which the second does not begin behind the place `k` where it has to begin. -/
theorem bind {k : Nat} (h : Echoes rest rest' i k p p' s s' Q)
    (hf : ∀ a a' t t', Q a a' t t' → Echoes rest rest' k j (f a) (f' a') t t' R)
    (hmiddle : ∀ a t u d e b, d.Bounded → (f a).run t d = (some b, u, e) → e.diagnostics = [] →
      rest.length ≤ e.ahead.length + j → rest.length ≤ d.ahead.length + k) :
    Echoes rest rest' i j (p >>= f) (p' >>= f') s s' R := by
  intro c c' b u e hc hecho hle hrun hquiet hle'
  obtain ⟨a, t, d, hp, hrest⟩ := exists_run_of_bind hrun
  have hlength := hmiddle a t u d e b ((onward_of_run hp).bounded hecho.bounded) hrest hquiet hle'
  obtain ⟨a', t', d', hp', hd, hecho', hside, hQ⟩ :=
    h c c' a t d hc hecho hle hp ((onward_of_run hrest).quiet hquiet) hlength
  obtain ⟨b', u', e', hrest', he, hecho₂, hside₂, hR⟩ :=
    hf a a' t t' hQ d d' b u e hd hecho' hlength hrest hquiet hle'
  refine ⟨b', u', e', ?_, he, hecho₂, hside.trans hside₂, hR⟩
  rw [run_bind, hp']
  exact hrest'

/-- The rest of two sequences as what has to hold behind their first parts. -/
theorem step (h : Echoes rest rest' i j p p' s s' fun a a' t t' =>
      Echoes rest rest' j j (f a) (f' a') t t' R) :
    Echoes rest rest' i j (p >>= f) (p' >>= f') s s' R :=
  h.bind (fun _ _ _ _ k => k) fun _ _ _ _ _ _ _ hrun _ hle =>
    hle.trans (Nat.add_le_add_right (onward_of_run hrun).length_le _)

/-- If the rest of a sequence consumes something and ends where the texts part at the latest, its
first part ends before. -/
theorem close (h : Echoes rest rest' i 0 p p' s s' fun a a' t t' =>
      Echoes rest rest' 0 1 (f a) (f' a') t t' R) [∀ a, Consumes (f a)] :
    Echoes rest rest' i 1 (p >>= f) (p' >>= f') s s' R :=
  h.bind (fun _ _ _ _ k => k) fun a t u d e b hd hrun hquiet hle => by
    have hlt := Consumes.ahead_lt t u d e b hd hrun hquiet
    omega

/-- Where something is reported in the first run, nothing is said of the second. -/
theorem of_complains [Complains p] : Echoes rest rest' i j p p' s s' Q := by
  intro c c' a t d _ _ _ hrun hquiet
  have hloud := Complains.loud (p := p) s c
  rw [hrun] at hloud
  exact absurd hquiet hloud

theorem of_fails : Echoes rest rest' i j fail p' s s' Q := by
  intro c c' a t d _ _ _ hrun
  cases hrun

theorem look {g g' : Cursor → α}
    (h : ∀ c c' : Cursor, c'.current.word = c.current.word →
      Echoes rest rest' 0 j (f (g c)) (f' (g' c')) s s' R) :
    Echoes rest rest' 0 j (look g >>= f) (look g' >>= f') s s' R :=
  fun c c' b t d hc hecho hle => h c c' (hecho.word hle) c c' b t d hc hecho hle

theorem token {f f' : Token → Production σ β}
    (h : ∀ kind text place place',
      Echoes rest rest' 0 j (f ⟨kind, text, place⟩) (f' ⟨kind, text, place'⟩) s s' R) :
    Echoes rest rest' 0 j (peek >>= f) (peek >>= f') s s' R := by
  refine .look fun c c' hword => ?_
  obtain ⟨⟨kind, text, place⟩, _⟩ := c
  obtain ⟨⟨kind', text', place'⟩, _⟩ := c'
  obtain ⟨rfl, rfl⟩ := Word.mk.inj hword
  exact h kind' text' place place'

theorem here {f f' : Position → Production σ β}
    (h : ∀ place place', Echoes rest rest' i j (f place) (f' place') s s' R) :
    Echoes rest rest' i j (here >>= f) (here >>= f') s s' R :=
  fun c c' => h c.current.position c'.current.position c c'

theorem built {f f' : σ → Production σ β} (h : Echoes rest rest' i j (f s) (f' s') s s' R) :
    Echoes rest rest' i j (built >>= f) (built >>= f') s s' R :=
  h

theorem edit {g g' : σ → σ} {f f' : Unit → Production σ β}
    (h : Echoes rest rest' i j (f ()) (f' ()) (g s) (g' s') R) :
    Echoes rest rest' i j (edit g >>= f) (edit g' >>= f') s s' R :=
  h

section Words

variable {f f' : Bool → Production σ β} {x : String}
  (h : ∀ b, Echoes rest rest' 0 j (f b) (f' b) s s' R)
include h

theorem atSymbol : Echoes rest rest' 0 j (atSymbol x >>= f) (atSymbol x >>= f') s s' R := by
  refine .look fun c c' hword => ?_
  have hsame : c'.current.isSymbol x = c.current.isSymbol x := by
    rw [Bool.eq_iff_iff, isSymbol_iff, isSymbol_iff, hword]
  rw [hsame]
  exact h _

theorem atWord : Echoes rest rest' 0 j (atWord x >>= f) (atWord x >>= f') s s' R := by
  refine .look fun c c' hword => ?_
  have hsame : c'.current.isWord x = c.current.isWord x := by
    rw [Bool.eq_iff_iff, isWord_iff, isWord_iff, hword]
  rw [hsame]
  exact h _

theorem atKind {kind : TokenKind} :
    Echoes rest rest' 0 j (atKind kind >>= f) (atKind kind >>= f') s s' R := by
  refine .look fun c c' hword => ?_
  have hsame : c'.current.kind = c.current.kind := congrArg Word.kind hword
  rw [hsame]
  exact h _

end Words

end Echoes

theorem echoes_pure {a a' : α} {Q : α → α → σ → σ → Prop} (h : Q a a' s s') :
    Echoes rest rest' i j (pure a) (pure a') s s' Q := by
  rintro c c' b t d hc hecho - hrun - -
  cases hrun
  exact ⟨a', s', c', rfl, hc, hecho, .refl c c', h⟩

variable {Q : Unit → Unit → σ → σ → Prop}

theorem echoes_edit {f f' : σ → σ} (h : Q () () (f s) (f' s')) :
    Echoes rest rest' i j (edit f) (edit f') s s' Q := by
  rintro c c' b t d hc hecho - hrun - -
  cases hrun
  exact ⟨(), f' s', c', rfl, hc, hecho, .refl c c', h⟩

theorem echoes_record {path path' : List Int} {start start' : Position} (h : Q () () s s') :
    Echoes rest rest' i j (record path start) (record path' start') s s' Q := by
  rintro c c' b t d hc hecho - hrun - -
  cases hrun
  exact ⟨(), s', _, rfl, ⟨hc.quiet, hc.current, hc.ahead⟩, hecho, ⟨rfl, rfl, rfl⟩, h⟩

theorem echoes_build {init init' : τ} {p p' : Production τ α} {Q : τ → τ → σ → σ → Prop}
    (h : Echoes rest rest' i j p p' init init' fun _ _ t t' => Q t t' s s') :
    Echoes rest rest' i j (build init p) (build init' p') s s' Q := by
  intro c c' b t d hc hecho hle hrun hquiet hle'
  rw [run_build] at hrun
  generalize hp : p.run init c = r at hrun
  obtain ⟨_ | a, u, e⟩ := r
  · cases hrun
  · cases hrun
    obtain ⟨a', u', d', hp', hafter⟩ := h c c' a _ _ hc hecho hle hp hquiet hle'
    exact ⟨u', s', d', by rw [run_build, hp'], hafter⟩

/-! ## Words and symbols -/

theorem echoes_bump {Q : Token → Token → σ → σ → Prop}
    (h : ∀ t t' : Token, t'.word = t.word → Q t t' s s') :
    Echoes rest rest' 0 j bump bump s s' Q := by
  intro c c' b t d hc hecho hle hrun hquiet _
  cases hrun
  obtain ⟨hecho', hside⟩ := hecho.bump hle
  exact ⟨_, s', _, rfl, hc.bump hquiet, hecho', hside, h _ _ (hecho.word hle)⟩

/-- A symbol that may be there or not. Only if it is there may the texts part behind it. -/
theorem Echoes.eatSymbol {x : String} {f f' : Bool → Production σ β} {R : β → β → σ → σ → Prop}
    (hyes : Echoes rest rest' 1 j (f true) (f' true) s s' R)
    (hno : Echoes rest rest' 0 j (f false) (f' false) s s' R) :
    Echoes rest rest' 0 j (eatSymbol x >>= f) (eatSymbol x >>= f') s s' R := by
  intro c c' b t d hc hecho hle hrun hquiet hle'
  rw [run_bind, run_eatSymbol] at hrun ⊢
  rw [hecho.isSymbol hle]
  by_cases hsymbol : c.current.isSymbol x = true
  · rw [if_pos hsymbol] at hrun ⊢
    obtain ⟨hecho', hside⟩ := hecho.bump hle
    have hclean := hc.bump ((onward_of_run hrun).quiet hquiet)
    obtain ⟨b', t', d', hrun', hd, hecho₂, hside₂, hR⟩ :=
      hyes c.bump c'.bump b t d hclean hecho' hecho'.length_le hrun hquiet hle'
    exact ⟨b', t', d', hrun', hd, hecho₂, hside.trans hside₂, hR⟩
  · rw [if_neg hsymbol] at hrun ⊢
    exact hno c c' b t d hc hecho hle hrun hquiet hle'

/-! ## The same value from the same words -/

/-- The productions read the same value from the same words, and what is being built stays
related. -/
class Alike (S : σ → σ → Prop) (i j : Nat) (p p' : Production σ α) : Prop where
  echoes : ∀ {rest rest' : List Lexeme} {s s' : σ}, S s s' →
    Echoes rest rest' i j p p' s s' fun a a' t t' => a' = a ∧ S t t'

section Alike

variable {S : σ → σ → Prop} {p p' q q' : Production σ α} {f f' : α → Production σ β} {x : String}

theorem Echoes.of_alike {Q : α → α → σ → σ → Prop}
    [h : Alike (fun u u' => u = s ∧ u' = s') i j p p'] (hQ : ∀ a, Q a a s s') :
    Echoes rest rest' i j p p' s s' Q := by
  refine (h.echoes ⟨rfl, rfl⟩).imp ?_
  rintro _ a _ _ ⟨rfl, rfl, rfl⟩
  exact hQ a

theorem Echoes.alike [h : Alike S i j p p'] (hs : S s s') :
    Echoes rest rest' i j p p' s s' fun _ _ t t' => S t t' :=
  (h.echoes hs).imp fun _ _ _ _ => And.right

instance alike_pure {a : α} : Alike S i j (pure a) (pure a) :=
  ⟨fun hs => echoes_pure ⟨rfl, hs⟩⟩

instance alike_record {path path' : List Int} {start start' : Position} :
    Alike S i j (record path start) (record path' start') :=
  ⟨fun hs => echoes_record ⟨rfl, hs⟩⟩

instance alike_edit {g : σ → σ} : Alike Eq i j (edit g) (edit g) :=
  ⟨fun hs => echoes_edit ⟨rfl, congrArg g hs⟩⟩

instance alike_fail : Alike S i j fail p' :=
  ⟨fun _ => .of_fails⟩

instance alike_ite {P : Prop} [Decidable P] [Alike S i j p p'] [Alike S i j q q'] :
    Alike S i j (if P then p else q) (if P then p' else q') := by
  split <;> infer_instance

instance alike_bind [Alike S i j p p'] [∀ a, Alike S j j (f a) (f' a)] :
    Alike S i j (p >>= f) (p' >>= f') := by
  refine ⟨fun hs => .step ((Alike.echoes hs).imp ?_)⟩
  rintro a _ _ _ ⟨rfl, ht⟩
  exact Alike.echoes ht

instance alike_close [Alike S i 0 p p'] [∀ a, Alike S 0 1 (f a) (f' a)] [∀ a, Consumes (f a)] :
    Alike S i 1 (p >>= f) (p' >>= f') := by
  refine ⟨fun hs => .close ((Alike.echoes hs).imp ?_)⟩
  rintro a _ _ _ ⟨rfl, ht⟩
  exact Alike.echoes ht

instance alike_of_complains [Complains p] : Alike S i j p p' :=
  ⟨fun _ => .of_complains⟩

instance alike_here {f f' : Position → Production σ β} [∀ a a', Alike S i j (f a) (f' a')] :
    Alike S i j (here >>= f) (here >>= f') :=
  ⟨fun hs => .here fun _ _ => Alike.echoes hs⟩

instance alike_built {f f' : σ → Production σ β} [∀ s, Alike Eq i j (f s) (f' s)] :
    Alike Eq i j (built >>= f) (built >>= f') := by
  refine ⟨?_⟩
  rintro _ _ s _ rfl
  exact .built (Alike.echoes rfl)

instance alike_build {init : τ} {p p' : Production τ α} [h : Alike Eq i j p p'] :
    Alike S i j (build init p) (build init p') :=
  ⟨fun hs => echoes_build ((h.echoes rfl).imp fun _ _ _ _ ht => ⟨ht.2.symm, hs⟩)⟩

instance alike_bump {f f' : Token → Production σ β} [∀ t t', Alike S j j (f t) (f' t')] :
    Alike S 0 j (bump >>= f) (bump >>= f') :=
  ⟨fun hs => .step (echoes_bump fun _ _ _ => Alike.echoes hs)⟩

instance alike_bump_close {f f' : Token → Production σ β} [∀ t t', Alike S 0 1 (f t) (f' t')]
    [∀ t, Consumes (f t)] : Alike S 0 1 (bump >>= f) (bump >>= f') :=
  ⟨fun hs => .close (echoes_bump fun _ _ _ => Alike.echoes hs)⟩

instance alike_bump_text : Alike S 0 j (do return (← bump).text) (do return (← bump).text) := by
  refine ⟨fun hs => .step (echoes_bump fun t t' hword => echoes_pure ⟨?_, hs⟩)⟩
  exact congrArg Word.text hword

theorem alike_token {f f' : Token → Production σ β}
    (h : ∀ kind text place place',
      Alike S 0 j (f ⟨kind, text, place⟩) (f' ⟨kind, text, place'⟩)) :
    Alike S 0 j (peek >>= f) (peek >>= f') :=
  ⟨fun hs => .token fun kind text place place' => (h kind text place place').echoes hs⟩

section Words

variable {f f' : Bool → Production σ β} [∀ b, Alike S 0 j (f b) (f' b)]

instance alike_atSymbol : Alike S 0 j (atSymbol x >>= f) (atSymbol x >>= f') :=
  ⟨fun hs => .atSymbol fun _ => Alike.echoes hs⟩

instance alike_atWord : Alike S 0 j (atWord x >>= f) (atWord x >>= f') :=
  ⟨fun hs => .atWord fun _ => Alike.echoes hs⟩

instance alike_atKind {kind : TokenKind} : Alike S 0 j (atKind kind >>= f) (atKind kind >>= f') :=
  ⟨fun hs => .atKind fun _ => Alike.echoes hs⟩

end Words

instance alike_eatSymbol : Alike S 0 j (eatSymbol x) (eatSymbol x) := by
  unfold eatSymbol
  infer_instance

instance alike_eatSymbol_ite [h : Alike S 1 j p p'] [k : Alike S 0 j q q'] :
    Alike S 0 j (do if ← eatSymbol x then p else q) (do if ← eatSymbol x then p' else q') :=
  ⟨fun hs => .eatSymbol (h.echoes hs) (k.echoes hs)⟩

instance alike_eatWord : Alike S 0 j (eatWord x) (eatWord x) := by
  unfold eatWord
  infer_instance

instance alike_symbol : Alike S 0 j (symbol x) (symbol x) := by
  unfold symbol
  infer_instance

instance alike_endOfStatement : Alike S 0 j endOfStatement endOfStatement :=
  alike_symbol

instance alike_word : Alike S 0 j (word x) (word x) := by
  unfold word
  infer_instance

instance alike_identifier {what : String} : Alike S 0 j (identifier what) (identifier what) := by
  unfold identifier
  infer_instance

/-! ## Repetition -/

section Repetition

instance alike_after {separator : String} {item item' : Production σ α}
    [h : Alike S 0 0 item item'] :
    Alike S 0 0 (after separator item) (after separator item') := by
  refine ⟨fun {rest rest' s s'} hs c c' as t d hc hecho hle hrun hquiet hle' => ?_⟩
  suffices hruns : ∃ t' d', runAfter separator item' s' c' = (some as, t', d') ∧ d.Clean ∧
      d.Echo rest rest' d' ∧ Cursor.Alongside c d c' d' ∧ S t t' by
    obtain ⟨t', d', hrun', hd, hecho', hside, hS⟩ := hruns
    exact ⟨as, t', d', hrun', hd, hecho', hside, rfl, hS⟩
  simp only [after] at hrun
  fun_induction runAfter separator item s c generalizing s' c' as with
  | case1 s c hsep hnil =>
    have hpos := hecho.rest_length_pos
    rw [hnil, List.length_nil] at hle
    omega
  | case2 => cases hrun
  | case3 s c hsep hne a s₁ e hitem as s₂ e₂ hmore ih =>
    cases hrun
    rw [hmore] at ih
    have honward := runAfter_onward separator item s₁ e
    rw [hmore] at honward
    have hmiddle : rest.length ≤ e.ahead.length := hle'.trans honward.length_le
    obtain ⟨hecho', hside⟩ := hecho.bump hle
    have hbump : rest.length ≤ c.bump.ahead.length :=
      hmiddle.trans (onward_of_run hitem).length_le
    have hequiet := honward.quiet hquiet
    obtain ⟨_, t', e', hitem', he, hecho₂, hside₂, rfl, hS⟩ :=
      h.echoes hs c.bump c'.bump a s₁ e (hc.bump ((onward_of_run hitem).quiet hequiet)) hecho' hbump
        hitem hequiet hmiddle
    obtain ⟨t₂', d', hrun', hd, hecho₃, hside₃, hS₂⟩ := ih hS e' as he hecho₂ hmiddle rfl
    have hsep' : c'.current.isSymbol separator = true := (hecho.isSymbol hle _).trans hsep
    exact ⟨t₂', d', runAfter_step hsep' (hecho.ahead_ne_nil hle) hitem' hrun', hd, hecho₃,
      (hside.trans hside₂).trans hside₃, hS₂⟩
  | case4 => cases hrun
  | case5 s c hsep =>
    cases hrun
    refine ⟨s', c', ?_, hc, hecho, .refl _ _, hs⟩
    rw [runAfter, if_neg (by rwa [hecho.isSymbol hle])]

instance alike_sepBy {separator : String} {item item' : Production σ α} [Alike S 0 0 item item'] :
    Alike S 0 0 (sepBy separator item) (sepBy separator item') := by
  unfold sepBy
  infer_instance

variable {statement statement' : Production σ Unit} [Heard statement]
  [h : Alike S 0 1 statement statement']

/-- A statement of a block, which may end where the texts part. -/
theorem echo_runStatement {t : σ} {r : Option Unit} {c c' d : Cursor} (hs : S s s')
    (hc : c.Clean) (hecho : c.Echo rest rest' c') (hle : rest.length ≤ c.ahead.length)
    (hrun : runStatement .resume statement s c = (r, t, d)) (hquiet : d.diagnostics = [])
    (hle' : rest.length ≤ d.ahead.length + 1) :
    r = some () ∧ ∃ t' d', runStatement .resume statement' s' c' = (some (), t', d') ∧ d.Clean ∧
      d.Echo rest rest' d' ∧ Cursor.Alongside c d c' d' ∧ S t t' := by
  unfold runStatement at hrun
  generalize hstatement : statement.run s c = outcome at hrun
  obtain ⟨result, t₁, e⟩ := outcome
  have hunstick : ∀ e : Cursor, e.Onward (e.unstick c.position) := (Cursor.unstick_onward · _)
  have hequiet : e.diagnostics = [] := by
    cases result with
    | none =>
      cases hrun
      exact (e.skipStatement_onward.trans (hunstick _)).quiet hquiet
    | some _ =>
      cases hrun
      exact (hunstick _).quiet hquiet
  obtain ⟨u, rfl, _⟩ := Heard.clean inferInstance hc hstatement hequiet
  cases hrun
  obtain ⟨u', t', e', hrun', he, hecho', hside, _, hS⟩ :=
    h.echoes hs c c' u t e hc hecho hle hstatement hequiet
      (hle'.trans (Nat.add_le_add_right (hunstick e).length_le 1))
  have honward := onward_of_run hstatement
  have hresult' :
      runStatement .resume statement' s' c' = (some (), t', e'.unstick c'.position) := by
    simp [runStatement, hrun']
  rw [hresult']
  refine ⟨rfl, t', _, rfl, ?_⟩
  have hposition := hside.position
  by_cases hpos : e.position = c.position
  · have hpos' : e'.position = c'.position := by omega
    have hlength : rest.length ≤ e.ahead.length := by
      have hsum := honward.position
      omega
    obtain ⟨hecho₂, hside₂⟩ := hecho'.bump hlength
    simp only [Cursor.unstick, hpos, hpos', if_true] at hquiet ⊢
    exact ⟨he.bump hquiet, hecho₂, hside.trans hside₂, hS⟩
  · have hpos' : e'.position ≠ c'.position := by omega
    simp only [Cursor.unstick, hpos, hpos', if_false]
    exact ⟨he, hecho', hside, hS⟩

instance alike_block {construct : String} :
    Alike S 0 1 (block .resume construct statement) (block .resume construct statement') := by
  refine ⟨fun {rest rest' s s'} hs c c' u t d hc hecho hle hrun hquiet hle' => ?_⟩
  suffices hruns : ∃ t' d', runBlock .resume construct statement' s' c' = (some (), t', d') ∧
      d.Clean ∧ d.Echo rest rest' d' ∧ Cursor.Alongside c d c' d' ∧ S t t' by
    obtain ⟨t', d', hrun', hd, hecho', hside, hS⟩ := hruns
    exact ⟨(), t', d', hrun', hd, hecho', hside, rfl, hS⟩
  simp only [block] at hrun
  fun_induction runBlock .resume construct statement s c generalizing s' c' with
  | case1 s c hclose =>
    cases hrun
    obtain ⟨hecho', hside⟩ := hecho.bump hle
    refine ⟨s', _, ?_, hc.bump hquiet, hecho', hside, hs⟩
    rw [runBlock, if_pos (by rwa [hecho.isSymbol hle])]
  | case2 s c =>
    have hd := (Prod.mk.inj (Prod.mk.inj hrun).2).2
    simp +zetaDelta [← hd, Cursor.report, Cursor.markUnterminated] at hquiet
  | case3 s c hclose hne s₁ e hstatement ih =>
    -- The block is still to be closed, so the statement ends before the place where the texts part.
    have hbounded := (runStatement_onward .resume statement s c).bounded hecho.bounded
    rw [hstatement] at hbounded
    have hlt := Consumes.block.ahead_lt s₁ t e d u hbounded hrun hquiet
    have hmiddle : rest.length ≤ e.ahead.length := by omega
    have hequiet := (onward_of_run (p := block .resume construct statement) hrun).quiet hquiet
    obtain ⟨_, t', e', hstatement', he, hecho', hside, hS⟩ :=
      echo_runStatement (h := h) hs hc hecho hle hstatement hequiet (by omega)
    obtain ⟨t₂', d', hrun', hd, hecho₂, hside₂, hS₂⟩ := ih hS e' he hecho' hmiddle hrun
    refine ⟨t₂', d', ?_, hd, hecho₂, hside.trans hside₂, hS₂⟩
    have hclose' : c'.current.word ≠ .symbol "\x7d" := by
      rw [hecho.word hle]
      exact fun hw => hclose (Token.isSymbol_iff.mpr hw)
    rw [runBlock_step hclose' (hecho.ahead_ne_nil hle) hstatement', hrun']
  | case4 => cases hrun

/-- The statements of a whole text are read alike from a text that has them too, and there reading
goes on with what comes next. -/
theorem echo_runStatements {l : Lexeme} {t : σ} {r : Option Unit} {c c' d : Cursor}
    (hs : S s s') (hc : c.Clean) (hecho : c.Echo [l] rest' c')
    (hrun : runStatements .resume statement s c = (r, t, d)) (hquiet : d.diagnostics = []) :
    ∃ t' d', runStatements .resume statement' s' c' = runStatements .resume statement' t' d' ∧
      d.ahead = [] ∧ d.Echo [l] rest' d' ∧ Cursor.Alongside c d c' d' ∧ S t t' := by
  fun_induction runStatements .resume statement s c generalizing s' c' with
  | case1 s c hnil =>
    cases hrun
    exact ⟨s', c', rfl, hnil, hecho, .refl _ _, hs⟩
  | case2 s c _ _ e ih =>
    have honward := (Cursor.bump_onward e).trans (runStatements_onward .resume statement s e.bump)
    rw [hrun] at honward
    have he := honward.quiet hquiet
    simp +zetaDelta [Cursor.report] at he
  | case3 s c =>
    have hd := (Prod.mk.inj (Prod.mk.inj hrun).2).2
    simp +zetaDelta [← hd, Cursor.report] at hquiet
  | case4 s c hne hclose s₁ e hstatement ih =>
    have hle : [l].length ≤ c.ahead.length := length_pos_iff.mpr hne
    have hequiet := (onward_of_run (p := statements .resume statement) hrun).quiet hquiet
    obtain ⟨_, t', e', hstatement', he, hecho', hside, hS⟩ :=
      echo_runStatement (h := h) hs hc hecho hle hstatement hequiet (by simp)
    obtain ⟨t₂', d', hrun', hnil, hecho₂, hside₂, hS₂⟩ := ih hS he hecho' hrun
    refine ⟨t₂', d', ?_, hnil, hecho₂, hside.trans hside₂, hS₂⟩
    have hclose' : c'.current.word ≠ .symbol "\x7d" := by
      rw [hecho.word hle]
      exact fun hw => hclose (isSymbol_iff.mpr hw)
    rw [runStatements_step hclose' (hecho.ahead_ne_nil hle) hstatement', hrun']
  | case5 s c hne hclose s₁ e hstatement =>
    cases hrun
    obtain ⟨hsome, _⟩ := echo_runStatement (h := h) hs hc hecho
      (length_pos_iff.mpr hne) hstatement hquiet (by simp)
    cases hsome

end Repetition

end Alike

end Rules

end Production

end ProtoSchema
