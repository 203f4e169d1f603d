import ProtoSchema.Location
import ProtoSchema.Token.Scan

/-!
A place in a sequence of tokens, with all that has been noted on the way to it. A cursor only moves
forward and only adds to its notes; `Onward` says so.
-/

namespace ProtoSchema

structure Cursor where
  current : Token
  /-- The tokens after the current one. Empty exactly at the end of the input. -/
  ahead : List Lexeme
  /-- How many tokens have been read. -/
  position : Nat
  /-- Where the last consumed token ended. -/
  lastEnd : Position
  diagnostics : List Diagnostic
  locations : List Location
  /-- Whether the input ended inside a block. -/
  unterminated : Bool

namespace Cursor

def ofLexemes (ls : List Lexeme) : Cursor :=
  ⟨Token.start, ls, 0, Position.origin, [], [], false⟩

def ofSource (source : String) : Cursor :=
  ofLexemes (lex source)

def atEnd (c : Cursor) : Bool :=
  c.ahead.isEmpty

def tokens (c : Cursor) : List Token :=
  c.current :: c.ahead.map Lexeme.token

/-- Moves to the next token and takes over the remarks on it. The last token stays current. -/
def next (c : Cursor) : Cursor :=
  match c.ahead with
  | [] => c
  | l :: rest =>
    { c with
      current := l.token
      ahead := rest
      position := c.position + 1
      diagnostics := c.diagnostics ++ l.remarks }

def bump (c : Cursor) : Cursor :=
  next { c with lastEnd := c.current.finish }

def report (c : Cursor) (d : Diagnostic) : Cursor :=
  { c with diagnostics := c.diagnostics ++ [d] }

/-- Notes a declaration that began at `start` and ends with the last consumed token. -/
def record (c : Cursor) (path : List Int) (start : Position) : Cursor :=
  { c with locations := c.locations ++ [⟨path, start, c.lastEnd⟩] }

def markUnterminated (c : Cursor) : Cursor :=
  { c with unterminated := true }

/-- `d` can be reached from `c` by reading on and taking notes. -/
structure Onward (c d : Cursor) : Prop where
  ahead : d.ahead <:+ c.ahead
  tokens : d.tokens <:+ c.tokens
  position : d.position + d.ahead.length = c.position + c.ahead.length
  diagnostics : c.diagnostics <+: d.diagnostics
  locations : c.locations <+: d.locations
  /-- What was remarked on a token has been reported once the token is read. -/
  remarks : ∀ l ∈ c.ahead, l ∈ d.ahead ∨ l.remarks ⊆ d.diagnostics
  /-- An input that ends inside a block is reported. -/
  terminated : d.diagnostics = [] → d.unterminated = c.unterminated

namespace Onward

/-- Notes have been taken, and nothing read. -/
theorem of_notes {c d : Cursor} (hcurrent : d.current = c.current) (hahead : d.ahead = c.ahead)
    (hposition : d.position = c.position) (hdiagnostics : c.diagnostics <+: d.diagnostics)
    (hlocations : c.locations <+: d.locations)
    (hterminated : d.diagnostics = [] → d.unterminated = c.unterminated) : c.Onward d where
  ahead := hahead ▸ List.suffix_refl _
  tokens := by simp only [Cursor.tokens, hcurrent, hahead, List.suffix_refl]
  position := by rw [hposition, hahead]
  diagnostics := hdiagnostics
  locations := hlocations
  remarks l hl := .inl (hahead ▸ hl)
  terminated := hterminated

theorem refl (c : Cursor) : c.Onward c :=
  of_notes rfl rfl rfl (List.prefix_refl _) (List.prefix_refl _) fun _ => rfl

/-- What had nothing reported in the end had nothing reported before. -/
theorem quiet {c d : Cursor} (h : c.Onward d) (hd : d.diagnostics = []) : c.diagnostics = [] := by
  have hprefix := h.diagnostics
  rw [hd] at hprefix
  exact List.prefix_nil.mp hprefix

theorem trans {c d e : Cursor} (h : c.Onward d) (k : d.Onward e) : c.Onward e where
  ahead := k.ahead.trans h.ahead
  tokens := k.tokens.trans h.tokens
  position := k.position.trans h.position
  diagnostics := h.diagnostics.trans k.diagnostics
  locations := h.locations.trans k.locations
  remarks l hl := by
    rcases h.remarks l hl with hl | hl
    · exact k.remarks l hl
    · exact .inr (List.Subset.trans hl k.diagnostics.subset)
  terminated he := (k.terminated he).trans (h.terminated (k.quiet he))

theorem length_le {c d : Cursor} (h : c.Onward d) : d.ahead.length ≤ c.ahead.length :=
  h.ahead.length_le

theorem position_le {c d : Cursor} (h : c.Onward d) : c.position ≤ d.position := by
  have hp := h.position
  have hl := h.length_le
  omega

/-- A cursor that has read nothing stands at the same token. -/
theorem current_eq {c d : Cursor} (h : c.Onward d) (hpos : d.position = c.position) :
    d.current = c.current := by
  have hlen : d.tokens.length = c.tokens.length := by
    have hp := h.position
    simp only [Cursor.tokens, List.length_cons, List.length_map]
    omega
  exact (List.cons.inj (h.tokens.eq_of_length hlen)).1

end Onward

theorem next_onward (c : Cursor) : c.Onward c.next := by
  unfold next
  split
  · exact .refl c
  · next l rest h =>
    refine ⟨?_, ?_, ?_, List.prefix_append _ _, List.prefix_refl _, fun k hk => ?_, fun _ => rfl⟩
    · rw [h]; exact List.suffix_cons _ _
    · rw [tokens, tokens, h]; exact List.suffix_cons _ _
    · simp only [h, List.length_cons]; omega
    · rw [h] at hk
      rcases List.mem_cons.mp hk with rfl | hk
      · exact .inr (List.subset_append_right _ _)
      · exact .inl hk

theorem bump_onward (c : Cursor) : c.Onward c.bump :=
  have h := next_onward { c with lastEnd := c.current.finish }
  ⟨h.ahead, h.tokens, h.position, h.diagnostics, h.locations, h.remarks, h.terminated⟩

theorem report_onward (c : Cursor) (d : Diagnostic) : c.Onward (c.report d) :=
  .of_notes rfl rfl rfl (List.prefix_append _ _) (List.prefix_refl _) fun _ => rfl

theorem record_onward (c : Cursor) (path : List Int) (start : Position) :
    c.Onward (c.record path start) :=
  .of_notes rfl rfl rfl (List.prefix_refl _) (List.prefix_append _ _) fun _ => rfl

theorem markUnterminated_onward {c : Cursor} (h : c.diagnostics ≠ []) :
    c.Onward c.markUnterminated :=
  .of_notes rfl rfl rfl (List.prefix_refl _) (List.prefix_refl _) fun hnil => absurd hnil h

theorem bump_of_nil {c : Cursor} (h : c.ahead = []) :
    c.bump = { c with lastEnd := c.current.finish } := by
  simp [bump, next, h]

theorem bump_of_cons {c : Cursor} {l : Lexeme} {ls : List Lexeme} (h : c.ahead = l :: ls) :
    c.bump =
      { c with
        current := l.token
        ahead := ls
        position := c.position + 1
        lastEnd := c.current.finish
        diagnostics := c.diagnostics ++ l.remarks } := by
  simp [bump, next, h]

theorem bump_ahead_length (c : Cursor) : c.bump.ahead.length = c.ahead.length - 1 := by
  unfold bump next
  split
  · next h => simp only at h; simp [h]
  · next h => simp only at h; simp [h]

theorem bump_ahead_lt {c : Cursor} (h : c.ahead ≠ []) : c.bump.ahead.length < c.ahead.length := by
  rw [bump_ahead_length]
  have := List.length_pos_iff.mpr h
  omega

end Cursor

end ProtoSchema
