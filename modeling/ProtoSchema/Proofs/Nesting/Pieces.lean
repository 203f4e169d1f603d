import ProtoSchema.Proofs.Nesting.Blocks
import ProtoSchema.Proofs.Nesting.Depth

/-!
A text in pieces. The messages that are nested too deep are cut out of a text that is read without a
complaint if they are not. What is left is read alike with and without them, as far as each of them
is skipped where it stands and nothing else is. `Carries` says so of a stretch of the text.
-/

namespace ProtoSchema

open Scan Production List

variable {ps qs : List Piece} {c d : Cursor} {ls : List Lexeme}

/-! ## Pieces of a text -/

/-- A stretch of a text. The place is given of a message that is nested too deep. -/
structure Piece where
  lexemes : List Lexeme
  place : Option Location

namespace Piece

def left (keep : Bool) (p : Piece) : List Lexeme :=
  if keep || p.place.isNone then p.lexemes else []

def Fits (p : Piece) : Prop :=
  ∀ r ∈ p.place, p.lexemes.head?.map (fun l => l.token.position) = some r.span.start ∧
    p.lexemes.getLast?.map (fun l => l.token.finish) = some r.span.finish

/-- The tokens of a text, with or without the messages that are nested too deep. -/
def text (keep : Bool) (ps : List Piece) : List Lexeme :=
  ps.flatMap (left keep)

def places (ps : List Piece) : List Location :=
  ps.filterMap place

theorem text_append (keep : Bool) (ps qs : List Piece) :
    text keep (ps ++ qs) = text keep ps ++ text keep qs :=
  flatMap_append

theorem places_append (ps qs : List Piece) : places (ps ++ qs) = places ps ++ places qs :=
  filterMap_append

theorem text_plain (keep : Bool) (ls : List Lexeme) (ps : List Piece) :
    text keep (⟨ls, none⟩ :: ps) = ls ++ text keep ps := by
  simp [text, left]

def Opens (ps : List Piece) : Prop :=
  ∃ l ls qs, ps = ⟨l :: ls, none⟩ :: qs

end Piece

open Piece

/-- Between the cursors there are the given pieces, and the places of those that are nested too deep
have been recorded. -/
structure Splits (ps : List Piece) (c d : Cursor) : Prop where
  unread : c.unread = text true ps ++ d.unread
  tooDeep : d.tooDeep = c.tooDeep ++ places ps
  fits : ∀ p ∈ ps, p.Fits

variable {e : Cursor} {keep : Bool} {rest : List Lexeme}

theorem Splits.trans (h : Splits ps c d) (k : Splits qs d e) :
    Splits (ps ++ qs) c e where
  unread := by rw [h.unread, k.unread, text_append, append_assoc]
  tooDeep := by rw [k.tooDeep, h.tooDeep, places_append, append_assoc]
  fits := forall_mem_append.mpr ⟨h.fits, k.fits⟩

/-- Nothing has been read that is nested too deep. -/
theorem splits_plain {read : List Lexeme} (h : c.unread = read ++ d.unread)
    (hsame : d.tooDeep = c.tooDeep) : Splits [⟨read, none⟩] c d where
  unread := by rw [h, text_plain]; simp [text]
  tooDeep := by simp [hsame, places]
  fits := forall_mem_singleton.mpr fun r hr => by cases hr

/-- The cursor `c'` is before the same pieces as `c`, or before the same words without those that
are cut out, and then there is `rest`. -/
structure Ahead (keep : Bool) (ps : List Piece) (c d : Cursor) (rest : List Lexeme) (c' : Cursor) :
    Prop where
  text : ∃ read, c'.unread = read ++ rest ∧
    read.map (fun l => l.token.word) = (Piece.text keep ps).map fun l => l.token.word
  same : keep = true → c'.unread = c.unread ∧ rest = d.unread
  quiet : Quiet c'.unread
  rest_ne_nil : rest ≠ []

def Location.report (r : Location) : Diagnostic :=
  .ofFault r.span.start .nestedTooDeep

structure Passed (keep : Bool) (ps : List Piece) (rest : List Lexeme) (c d : Cursor) : Prop where
  unread : d.unread = rest
  diagnostics : d.diagnostics =
    c.diagnostics ++ if keep then (places ps).map Location.report else []
  unterminated : d.unterminated = c.unterminated

namespace Ahead

variable {keep : Bool} {rest : List Lexeme} {e c' d' : Cursor}

theorem split (h : Ahead keep (ps ++ qs) c e rest c') (hps : Splits ps c d) :
    ∃ middle, Ahead keep ps c d middle c' ∧
      ∀ d' : Cursor, d'.unread = middle → Ahead keep qs d e rest d' := by
  obtain ⟨read, hread, hwords⟩ := h.text
  rw [text_append, map_append] at hwords
  obtain ⟨read₁, read₂, rfl, hwords₁, hwords₂⟩ := map_eq_append_iff.mp hwords
  rw [append_assoc] at hread
  have hquiet := h.quiet
  rw [hread] at hquiet
  have hsame : keep = true → read₂ ++ rest = d.unread := by
    intro hkeep
    have htext := (h.same hkeep).1
    rw [hread, hps.unread] at htext
    refine append_inj_right htext ?_
    rw [← length_map (f := fun l : Lexeme => l.token.word), hwords₁, hkeep, length_map]
  refine ⟨read₂ ++ rest, ⟨⟨read₁, hread, hwords₁⟩, fun hkeep => ⟨(h.same hkeep).1, hsame hkeep⟩,
    h.quiet, by simp [h.rest_ne_nil]⟩, fun d' hd' => ?_⟩
  refine ⟨⟨read₂, hd', hwords₂⟩, fun hkeep => ⟨hd'.trans (hsame hkeep), (h.same hkeep).2⟩, ?_,
    h.rest_ne_nil⟩
  rw [hd']
  exact hquiet.of_append.2

/-- The cursors are at the same word if the first piece is not cut out. -/
theorem head (h : Ahead keep ps c d rest c') (hps : Splits ps c d) (hopens : Opens ps) :
    c'.current.word = c.current.word ∧ rest.length < c'.unread.length := by
  obtain ⟨l, ls, qs, rfl⟩ := hopens
  obtain ⟨read, hread, hwords⟩ := h.text
  rw [text_plain, cons_append, map_cons] at hwords
  obtain ⟨k, ks, rfl, hword, _⟩ := map_eq_cons_iff.mp hwords
  have hunread := hps.unread
  rw [text_plain] at hunread
  rw [(Cursor.current_of_unread hread).1, (Cursor.current_of_unread hunread).1, hread]
  refine ⟨hword, ?_⟩
  rw [length_append, length_cons]
  omega

end Ahead

theorem Passed.trans {middle : List Lexeme} (h : Passed keep ps middle c d)
    (k : Passed keep qs rest d e) : Passed keep (ps ++ qs) rest c e := by
  refine ⟨k.unread, ?_, k.unterminated.trans h.unterminated⟩
  rw [k.diagnostics, h.diagnostics, places_append, map_append]
  cases keep <;> simp

/-- Where nothing is cut out, nothing is reported. -/
theorem Cursor.Silent.passed (h : c.Silent d) (hd : d.unread = rest) :
    Passed keep [⟨ls, none⟩] rest c d := by
  refine ⟨hd, ?_, h.unterminated⟩
  rw [h.diagnostics]
  simp [places]

/-! ## What follows a message that is nested too deep -/

def Token.opensBehind (t : Token) (last : Position) : Bool :=
  t.kind = .identifier && last.line < t.position.line && Cursor.statementWords.contains t.text

/-- A message that is skipped costs nothing else: its name is not taken for the beginning of a
statement, and the token behind it ends a statement or a block or is taken for such a beginning. -/
structure Clear (ls : List Lexeme) (span : Span) : Prop where
  name : ∀ p ∈ ls.zip ls.tail, p.1.token.position = span.start →
    p.2.token.opensBehind p.1.token.finish = false
  behind : ∀ p ∈ ls.zip ls.tail, p.1.token.finish = span.finish →
    p.2.token.word ∈ [.symbol ";", .symbol "\x7d"] ∨
      p.2.token.opensBehind span.finish = true

instance (ls : List Lexeme) (span : Span) : Decidable (Clear ls span) :=
  decidable_of_iff
    ((∀ p ∈ ls.zip ls.tail, p.1.token.position = span.start →
        p.2.token.opensBehind p.1.token.finish = false) ∧
      ∀ p ∈ ls.zip ls.tail, p.1.token.finish = span.finish →
        p.2.token.word ∈ [.symbol ";", .symbol "\x7d"] ∨
          p.2.token.opensBehind span.finish = true)
    ⟨fun h => ⟨h.1, h.2⟩, fun h => ⟨h.name, h.behind⟩⟩

theorem mem_zip_tail {k l : Lexeme} {ks : List Lexeme} (h : k :: l :: ks <:+ ls) :
    (k, l) ∈ ls.zip ls.tail := by
  obtain ⟨before, rfl⟩ := h
  induction before with
  | nil => simp
  | cons x before ih =>
    obtain ⟨y, ys, hys⟩ := exists_cons_of_ne_nil (l := before ++ k :: l :: ks) (by simp)
    rw [cons_append, tail_cons]
    rw [hys] at ih ⊢
    exact mem_cons_of_mem _ ih

/-- From `c` to `d` there are the given pieces. Wherever a cursor is before them, with or without
those that are cut out, `run` leads it behind them. -/
def Carries (ls : List Lexeme) (ps : List Piece) (c d : Cursor) (run : Cursor → Cursor → Prop) :
    Prop :=
  ∀ keep rest c', Ahead keep ps c d rest c' →
    (keep = true → ∀ r ∈ places ps, Clear ls r.span) →
    ∃ d', run c' d' ∧ Passed keep ps rest c' d'

theorem Carries.trans {run run₁ run₂ : Cursor → Cursor → Prop} (h : Carries ls ps c d run₁)
    (k : Carries ls qs d e run₂) (hps : Splits ps c d)
    (hrun : ∀ c' d' e', run₁ c' d' → run₂ d' e' → run c' e') : Carries ls (ps ++ qs) c e run := by
  intro keep rest c' hahead hclear
  rw [places_append] at hclear
  obtain ⟨middle, hahead₁, hahead₂⟩ := hahead.split hps
  obtain ⟨d', hrun₁, hpassed₁⟩ := h keep middle c' hahead₁ fun hkeep =>
    (forall_mem_append.mp (hclear hkeep)).1
  obtain ⟨e', hrun₂, hpassed₂⟩ := k keep rest d' (hahead₂ d' hpassed₁.unread) fun hkeep =>
    (forall_mem_append.mp (hclear hkeep)).2
  exact ⟨e', hrun c' d' e' hrun₁ hrun₂, hpassed₁.trans hpassed₂⟩

section Into

variable {σ : Type} {Same : σ → σ → Prop} {e : Cursor} {s t u : σ}

/-- What is read between the cursors into one state is read into every state that is the same but
for what is nested too deep. -/
def CarriesInto (Same : σ → σ → Prop) (ls : List Lexeme) (ps : List Piece) (c d : Cursor) (s t : σ)
    (run : σ → σ → Cursor → Cursor → Prop) : Prop :=
  ∀ s', Same s s' → ∃ t', Same t t' ∧ Carries ls ps c d (run s' t')

theorem CarriesInto.imp {run run' : σ → σ → Cursor → Cursor → Prop}
    (h : CarriesInto Same ls ps c d s t run)
    (k : ∀ {s' t'}, Carries ls ps c d (run s' t') → Carries ls ps c d (run' s' t')) :
    CarriesInto Same ls ps c d s t run' := by
  intro s' hs
  obtain ⟨t', ht, hcarries⟩ := h s' hs
  exact ⟨t', ht, k hcarries⟩

theorem CarriesInto.trans {run run₁ run₂ : σ → σ → Cursor → Cursor → Prop}
    (h : CarriesInto Same ls ps c d s t run₁) (k : CarriesInto Same ls qs d e t u run₂)
    (hps : Splits ps c d)
    (hrun : ∀ {s' t' u' c' d' e'}, run₁ s' t' c' d' → run₂ t' u' d' e' → run s' u' c' e') :
    CarriesInto Same ls (ps ++ qs) c e s u run := by
  intro s' hs
  obtain ⟨t', ht, hfirst⟩ := h s' hs
  obtain ⟨u', hu, hsecond⟩ := k t' ht
  exact ⟨u', hu, hfirst.trans hsecond hps fun _ _ _ h₁ h₂ => hrun h₁ h₂⟩

end Into

end ProtoSchema
