import ProtoSchema.Proofs.Grammar.Invariant
import ProtoSchema.Proofs.Grammar.Option

/-!
Reading inside a block, whatever stands there. The braces of the block match, so that none of its
statements takes in the brace that closes it, understood or not: that the cursor is in the block is
an invariant of reading.
-/

namespace ProtoSchema

open Scan

/-! ## Matching braces -/

namespace Balanced

variable {depth : Nat} {w : Word} {ws : List Word}

theorem cases_cons (h : Balanced depth (w :: ws)) :
    (w = .symbol "\x7b" ∧ Balanced (depth + 1) ws) ∨
      (w = .symbol "\x7d" ∧ ∃ outer, depth = outer + 1 ∧ Balanced outer ws) ∨
      (w ≠ .symbol "\x7b" ∧ w ≠ .symbol "\x7d" ∧ Balanced depth ws) := by
  cases h with
  | close h => exact .inr (.inl ⟨rfl, _, rfl, h⟩)
  | opening h => exact .inl ⟨rfl, h⟩
  | other hopen hclose h => exact .inr (.inr ⟨hopen, hclose, h⟩)

theorem of_opening (h : Balanced depth (.symbol "\x7b" :: ws)) : Balanced (depth + 1) ws := by
  rcases h.cases_cons with ⟨_, h⟩ | ⟨hw, _⟩ | ⟨hopen, _⟩
  · exact h
  · exact absurd hw (by decide)
  · exact absurd rfl hopen

theorem of_close (h : Balanced depth (.symbol "\x7d" :: ws)) :
    ∃ outer, depth = outer + 1 ∧ Balanced outer ws := by
  rcases h.cases_cons with ⟨hw, _⟩ | ⟨_, h⟩ | ⟨_, hclose, _⟩
  · exact absurd hw (by decide)
  · exact h
  · exact absurd rfl hclose

theorem of_other (h : Balanced depth (w :: ws)) (hopen : w ≠ .symbol "\x7b")
    (hclose : w ≠ .symbol "\x7d") : Balanced depth ws := by
  rcases h.cases_cons with ⟨hw, _⟩ | ⟨hw, _⟩ | ⟨_, _, h⟩
  · exact absurd hw hopen
  · exact absurd hw hclose
  · exact h

instance decidable : (depth : Nat) → (ws : List Word) → Decidable (Balanced depth ws)
  | depth, [] =>
    decidable_of_iff (depth = 0) ⟨fun h => h ▸ .nil, fun h => by cases h; rfl⟩
  | depth, w :: ws =>
    if hopen : w = .symbol "\x7b" then
      have := decidable (depth + 1) ws
      decidable_of_iff (Balanced (depth + 1) ws)
        ⟨fun h => hopen ▸ .opening h, fun h => of_opening (hopen ▸ h)⟩
    else if hclose : w = .symbol "\x7d" then
      match depth with
      | 0 => .isFalse fun h => by
        obtain ⟨_, hdepth, _⟩ := of_close (hclose ▸ h)
        cases hdepth
      | outer + 1 =>
        have := decidable outer ws
        decidable_of_iff (Balanced outer ws)
          ⟨fun h => hclose ▸ .close h, fun h => by
            obtain ⟨_, hdepth, hmore⟩ := of_close (hclose ▸ h)
            cases hdepth
            exact hmore⟩
    else
      have := decidable depth ws
      decidable_of_iff (Balanced depth ws)
        ⟨fun h => .other hopen hclose h, fun h => h.of_other hopen hclose⟩

end Balanced

/-! ## A cursor in a block -/

/-- The lines of a block, with the brace that closes it and what stands behind the brace. -/
structure Zone where
  first : Nat
  last : Nat
  wall : Lexeme
  beyond : List Lexeme
  /-- What had been reported before the block. -/
  before : List Diagnostic

namespace Zone

variable {z : Zone} {k : Nat} {c : Cursor}

def Covers (z : Zone) (p : Position) : Prop :=
  z.first ≤ p.line ∧ p.line ≤ z.last

def Contains (z : Zone) (l : Lexeme) : Prop :=
  z.Covers l.token.position ∧ ∀ d ∈ l.remarks, z.Covers d.position

/-- The block is closed on one of its lines, before the input ends. -/
structure Proper (z : Zone) : Prop where
  closing : z.wall.token.word = .symbol "\x7d"
  wall : z.Contains z.wall
  beyond : z.beyond ≠ []

/-- The cursor is in the block, or at the brace that closes it, and `k` further blocks have been
opened inside. -/
structure Inside (z : Zone) (k : Nat) (c : Cursor) : Prop where
  text : ∃ l ls, l.token = c.current ∧ l :: c.ahead = ls ++ z.wall :: z.beyond ∧
    Balanced k (ls.map fun l => l.token.word) ∧ ∀ l ∈ ls, z.Contains l
  reports : ∃ ds, c.diagnostics = z.before ++ ds ∧ ∀ d ∈ ds, z.Covers d.position
  terminated : c.unterminated = false

/-- The cursor is at the closing brace of the block, or before another token of it. -/
theorem Inside.cases (h : z.Inside k c) :
    c.current = z.wall.token ∧ c.ahead = z.beyond ∧ k = 0 ∨
      ∃ ls, c.ahead = ls ++ z.wall :: z.beyond ∧
        Balanced k (c.current.word :: ls.map fun l => l.token.word) ∧ z.Covers c.current.position ∧
        ∀ l ∈ ls, z.Contains l := by
  obtain ⟨l, ls, hl, htext, hbalanced, hcontains⟩ := h.text
  cases ls with
  | nil =>
    left
    obtain ⟨rfl, hahead⟩ := List.cons.inj htext
    cases hbalanced
    exact ⟨hl.symm, hahead, rfl⟩
  | cons x ls =>
    right
    obtain ⟨rfl, hahead⟩ := List.cons.inj htext
    refine ⟨ls, hahead, ?_, ?_, fun y hy => hcontains y (by simp [hy])⟩
    · rw [← hl]
      exact hbalanced
    · rw [← hl]
      exact (hcontains l (by simp)).1

theorem Inside.ahead_ne_nil (hz : z.Proper) (h : z.Inside k c) : c.ahead ≠ [] := by
  rcases h.cases with ⟨_, hahead, _⟩ | ⟨ls, hahead, _⟩
  · rw [hahead]
    exact hz.beyond
  · rw [hahead]
    simp

theorem Inside.covers (hz : z.Proper) (h : z.Inside k c) : z.Covers c.current.position := by
  rcases h.cases with ⟨hcurrent, _⟩ | ⟨_, _, _, hcovers, _⟩
  · rw [hcurrent]
    exact hz.wall.1
  · exact hcovers

/-- Past a token of the block. What the next token adds to the reports is on a line of the block. -/
theorem inside_bump (hz : z.Proper) (h : z.Inside k c) {j : Nat} {ls : List Lexeme}
    (hahead : c.ahead = ls ++ z.wall :: z.beyond)
    (hbalanced : Balanced j (ls.map fun l => l.token.word)) (hcontains : ∀ l ∈ ls, z.Contains l) :
    z.Inside j c.bump := by
  obtain ⟨l, rest, hnext⟩ := List.exists_cons_of_ne_nil (h.ahead_ne_nil hz)
  have hl : z.Contains l := by
    rw [hnext] at hahead
    cases ls with
    | nil =>
      cases hahead
      exact hz.wall
    | cons x ls =>
      cases hahead
      exact hcontains _ (by simp)
  obtain ⟨ds, hds, hcovers⟩ := h.reports
  rw [Cursor.bump_of_cons hnext]
  refine ⟨⟨l, ls, rfl, hnext ▸ hahead, hbalanced, hcontains⟩, ⟨ds ++ l.remarks, ?_, ?_⟩,
    h.terminated⟩
  · rw [← List.append_assoc, ← hds]
  · exact List.forall_mem_append.mpr ⟨hcovers, hl.2⟩

variable (hz : z.Proper)
include hz

theorem Inside.bump (h : z.Inside k c) (hopen : c.current.word ≠ .symbol "\x7b")
    (hclose : c.current.word ≠ .symbol "\x7d") : z.Inside k c.bump := by
  rcases h.cases with ⟨hcurrent, _⟩ | ⟨ls, hahead, hbalanced, _, hcontains⟩
  · rw [hcurrent] at hclose
    exact absurd hz.closing hclose
  · exact inside_bump hz h hahead (hbalanced.of_other hopen hclose) hcontains

theorem Inside.enter (h : z.Inside k c) (hopen : c.current.word = .symbol "\x7b") :
    z.Inside (k + 1) c.bump := by
  rcases h.cases with ⟨hcurrent, _⟩ | ⟨ls, hahead, hbalanced, _, hcontains⟩
  · rw [hcurrent, hz.closing] at hopen
    exact absurd hopen (by decide)
  · rw [hopen] at hbalanced
    exact inside_bump hz h hahead hbalanced.of_opening hcontains

theorem Inside.leave (h : z.Inside (k + 1) c) (hclose : c.current.word = .symbol "\x7d") :
    z.Inside k c.bump := by
  rcases h.cases with ⟨_, _, hk⟩ | ⟨ls, hahead, hbalanced, _, hcontains⟩
  · cases hk
  · rw [hclose] at hbalanced
    obtain ⟨_, hk, hbalanced⟩ := hbalanced.of_close
    cases hk
    exact inside_bump hz h hahead hbalanced hcontains

omit hz

/-- At a closing brace that matches none inside the block, the cursor is at the end of the block. -/
theorem Inside.wall (h : z.Inside 0 c) (hclose : c.current.word = .symbol "\x7d") :
    c.current = z.wall.token ∧ c.ahead = z.beyond := by
  rcases h.cases with ⟨hcurrent, hahead, _⟩ | ⟨ls, hahead, hbalanced, _, hcontains⟩
  · exact ⟨hcurrent, hahead⟩
  · rw [hclose] at hbalanced
    obtain ⟨_, hk, _⟩ := hbalanced.of_close
    cases hk

theorem Inside.report {d : Diagnostic} (h : z.Inside k c) (hd : z.Covers d.position) :
    z.Inside k (c.report d) := by
  obtain ⟨ds, hds, hcovers⟩ := h.reports
  refine ⟨h.text, ⟨ds ++ [d], ?_, ?_⟩, h.terminated⟩
  · rw [← List.append_assoc, ← hds]
    rfl
  · exact List.forall_mem_append.mpr ⟨hcovers, by simpa using hd⟩

theorem Inside.record (h : z.Inside k c) (path : List Int) (start : Position) :
    z.Inside k (c.record path start) :=
  ⟨h.text, h.reports, h.terminated⟩

/-- Reading stays in the block, and all that is reported is on a line of it. -/
def invariant {σ : Type} (hz : z.Proper) : Invariant σ where
  Holds _ k c := z.Inside k c
  Covers := z.Covers
  Records _ := True
  covers h := h.covers hz
  bump h _ hplain := h.bump hz (fun hw => hplain.1 (Token.isSymbol_iff.mpr hw))
    fun hw => hplain.2 (Token.isSymbol_iff.mpr hw)
  enter h hopen := h.enter hz (Token.isSymbol_iff.mp hopen)
  leave h hclose := h.leave hz (Token.isSymbol_iff.mp hclose)
  report h hplace := h.report hplace
  record h _ := h.record _ _
  finish h hnil := absurd hnil (h.ahead_ne_nil hz)

end Zone

end ProtoSchema
