import ProtoSchema.Proofs.Grammar.Building
import ProtoSchema.Proofs.Token.Tiling
import Mathlib.Logic.Function.Iterate

/-!
Nothing of a text is left out when it is read, and every place that is told is a true one. The
tokens that come up one by one tile the text, and each of them, each remark of the lexer and each
report on a file is at the line and the column of a character of the text, or at its end.
-/

namespace ProtoSchema

namespace Cursor

/-- The tokens that come up one by one when a cursor is moved `n` times. -/
def yields : Nat → Cursor → List Token
  | 0, _ => []
  | n + 1, c => c.next.current :: c.next.yields n

/-- As many moves as there are tokens ahead bring up all of them. -/
theorem yields_length_ahead (c : Cursor) : c.yields c.ahead.length = c.ahead.map Lexeme.token := by
  generalize hls : c.ahead = ls
  induction ls generalizing c with
  | nil => rfl
  | cons l ls ih =>
    have hcurrent : c.next.current = l.token := by rw [next, hls]
    have hahead : c.next.ahead = ls := by rw [next, hls]
    rw [List.length_cons, yields, hcurrent, ih c.next hahead]
    rfl

/-- `P` holds of the places of all tokens from the current one on, of the places of the remarks on
those ahead, and of all that has been reported. -/
structure Placed (P : Position → Prop) (c : Cursor) : Prop where
  current : P c.current.position
  ahead : ∀ l ∈ c.ahead, P l.token.position ∧ ∀ d ∈ l.remarks, P d.position
  reported : ∀ d ∈ c.diagnostics, P d.position

variable {source : String} {P : Position → Prop}

namespace Placed

variable {c : Cursor}

/-- Reading on needs the current place only where it stays. -/
theorem of_next (hcurrent : c.ahead = [] → P c.current.position)
    (hahead : ∀ l ∈ c.ahead, P l.token.position ∧ ∀ d ∈ l.remarks, P d.position)
    (hreported : ∀ d ∈ c.diagnostics, P d.position) : c.next.Placed P := by
  unfold Cursor.next
  split
  · next hnil => exact ⟨hcurrent hnil, hahead, hreported⟩
  · next l rest hcons =>
    rw [hcons] at hahead
    obtain ⟨hl, hrest⟩ := List.forall_mem_cons.mp hahead
    exact ⟨hl.1, hrest, List.forall_mem_append.mpr ⟨hreported, hl.2⟩⟩

theorem next (h : c.Placed P) : c.next.Placed P :=
  of_next (fun _ => h.current) h.ahead h.reported

theorem bump (h : c.Placed P) : c.bump.Placed P :=
  of_next (fun _ => h.current) h.ahead h.reported

variable (P) in
/-- A production reports at tokens that it has read or stands at, and else passes on what was
remarked on a token. -/
def invariant : Invariant Unit where
  Holds _ _ c := c.Placed P
  Covers := P
  Records _ := True
  covers h := h.current
  bump h _ _ := h.bump
  enter h _ := h.bump
  leave h _ := h.bump
  report h hplace := ⟨h.current, h.ahead,
    List.forall_mem_append.mpr ⟨h.reported, List.forall_mem_singleton.mpr hplace⟩⟩
  record h _ := ⟨h.current, h.ahead, h.reported⟩
  finish h _ _ _ := ⟨h.current, h.ahead, h.reported⟩

end Placed

/-- Once it has been moved, a cursor stands at a token of the text. -/
theorem placed_next_iterate
    (h : ∀ l ∈ lex source, P l.token.position ∧ ∀ d ∈ l.remarks, P d.position) (n : Nat) :
    (next^[n + 1] (ofSource source)).Placed P := by
  induction n with
  | zero =>
    exact .of_next (fun hnil => absurd hnil (Scan.lexemes_ne_nil _ _)) h (List.forall_mem_nil _)
  | succ n ih =>
    rw [Function.iterate_succ_apply']
    exact ih.next

end Cursor

/-- What is reported when a file is read. The place of the current token does not matter before the
first token. -/
theorem placed_readInto {P : Position → Prop} {c : Cursor}
    (hcurrent : P c.current.position ∨ c.current.kind = .start ∧ c.ahead ≠ [])
    (hahead : ∀ l ∈ c.ahead, P l.token.position ∧ ∀ d ∈ l.remarks, P d.position)
    (hreported : ∀ d ∈ c.diagnostics, P d.position) (file : File) :
    ∀ d ∈ (readInto file c).diagnostics, P d.position := by
  have hopen : (if c.current.kind = .start then c.next else c).Placed P := by
    split
    · refine .of_next (fun hnil => hcurrent.resolve_right ?_) hahead hreported
      exact fun hstart => hstart.2 hnil
    · next hkind =>
      refine ⟨hcurrent.resolve_right ?_, hahead, hreported⟩
      exact fun hstart => hkind hstart.1
  exact (Production.keeps_fileBody (I := Cursor.Placed.invariant P) (s := ()) File.kept_true id
    (fun _ _ _ => trivial) (fun _ _ _ _ _ _ _ _ => trivial) 0 file _ ⟨hopen, trivial⟩
    rfl).1.reported

/-- Every token and remark is at a place of the text. -/
theorem isIn_of_mem_lex (source : String) : ∀ l ∈ lex source,
    l.token.position.In source ∧ ∀ d ∈ l.remarks, d.position.In source := by
  intro l hl
  obtain ⟨htoken, hremarks⟩ := Scan.within_of_mem_lexemes hl
  exact ⟨htoken.isIn, fun d hd => (hremarks d hd).isIn⟩

/-- Moving a cursor over a text to its end takes at most one move for each byte and another one.
The tokens that come up tile the text, so each of them is what stands in the text between two of its
bytes, behind the one before it and with only blanks and comments left out, and only the last one
marks the end. Whatever is reported on the way, and whatever is reported when a file is read from
any point of it on, is at the line and the column of a byte with which a character begins, or at the
end. -/
theorem tiled_yields (source : String) :
    (∃ n ≤ source.utf8ByteSize + 1, Tiled source 0 ((Cursor.ofSource source).yields n)) ∧
    ∀ n, (∀ d ∈ (Cursor.next^[n] (Cursor.ofSource source)).diagnostics, d.position.In source) ∧
      ∀ file, ∀ d ∈ (readInto file (Cursor.next^[n] (Cursor.ofSource source))).diagnostics,
        d.position.In source := by
  refine ⟨⟨(lex source).length, ?_, ?_⟩, fun n => ?_⟩
  · have hlength := (tiled_lex source).length_le
    rwa [List.length_map, Nat.zero_add] at hlength
  · rw [show lex source = (Cursor.ofSource source).ahead from rfl, Cursor.yields_length_ahead]
    exact tiled_lex source
  · cases n with
    | zero =>
      have hnone : ∀ d ∈ (Cursor.ofSource source).diagnostics, d.position.In source :=
        List.forall_mem_nil _
      exact ⟨hnone, placed_readInto (.inr ⟨rfl, Scan.lexemes_ne_nil _ _⟩)
        (isIn_of_mem_lex source) hnone⟩
    | succ n =>
      have hplaced := Cursor.placed_next_iterate (isIn_of_mem_lex source) n
      exact ⟨hplaced.reported, placed_readInto (.inl hplaced.current) hplaced.ahead
        hplaced.reported⟩

end ProtoSchema
