import ProtoSchema.Proofs.Containment

/-!
Layout does not matter. What is read from a text depends on its words and their order, not on the
blanks, comments and line breaks between them.
-/

namespace ProtoSchema

open Scan Production

/-- Two texts of the same words, both without a fault in how the words are written. They may differ
in all that stands between the words. -/
structure Respaced (source other : String) : Prop where
  words : (lex other).map (fun l => l.token.word) = (lex source).map fun l => l.token.word
  quiet : ∀ l ∈ lex source, l.remarks = []
  otherQuiet : ∀ l ∈ lex other, l.remarks = []

instance (source other : String) : Decidable (Respaced source other) :=
  decidable_of_iff
    ((lex other).map (fun l => l.token.word) = ((lex source).map fun l => l.token.word) ∧
      (∀ l ∈ lex source, l.remarks = []) ∧ ∀ l ∈ lex other, l.remarks = [])
    ⟨fun ⟨hwords, hquiet, hother⟩ => ⟨hwords, hquiet, hother⟩,
      fun h => ⟨h.words, h.quiet, h.otherQuiet⟩⟩

namespace Respaced

variable {source other path : String}

theorem symm (h : Respaced source other) : Respaced other source :=
  ⟨h.words.symm, h.otherQuiet, h.quiet⟩

/-- Each text goes on as the other does, up to an end of its own. -/
theorem exists_continues (h : Respaced source other) :
    ∃ l l', l.token.word = .endOfInput ∧ l'.token.word = .endOfInput ∧
      Continues [l] [l'] (lex source) (lex other) := by
  obtain ⟨ls, l, hls, hend⟩ := exists_lexemes_concat Position.origin source.toList
  obtain ⟨ls', l', hls', hend'⟩ := exists_lexemes_concat Position.origin other.toList
  have hquiet : Quiet (ls' ++ [l']) := by
    rw [← hls']
    exact h.otherQuiet
  have hwords : (ls' ++ [l']).map (fun l => l.token.word) =
      (ls ++ [l]).map fun l => l.token.word := by
    rw [← hls, ← hls']
    exact h.words
  rw [List.map_append, List.map_append] at hwords
  refine ⟨l, l', hend, hend', ?_⟩
  rw [lex, hls, lex, hls']
  exact continues_of_words (parts_of_end hend ⟨l', [], rfl, hquiet l' (by simp)⟩)
    (List.append_inj_left' hwords rfl) hquiet.of_append.1

/-- What is read from one text is read from the other. -/
theorem exists_parse (h : Respaced source other) {file : File} {locations : List Location}
    (hparse : parse path source = .ok (file, locations)) :
    ∃ locations', parse path other = .ok (file, locations') := by
  obtain ⟨l, l', hend, hend', htext⟩ := h.exists_continues
  have hhead : ∀ k ∈ [l'].head?, k.token.word ≠ .ident "syntax" := by
    rintro k ⟨⟩
    rw [hend']
    decide
  obtain ⟨c, hrun, hahead, hquiet, hterminated⟩ :=
    exists_run_behind hparse hend htext fun _ => hhead
  have hnil : c.ahead = [] := (List.cons.inj hahead).2
  rw [runStatements, dif_pos hnil] at hrun
  exact ⟨c.locations, parse_eq_ok_iff.mpr ⟨some (), c, hrun, hquiet, hterminated, rfl⟩⟩

end Respaced

/-- Of two texts that differ in their layout only, both are read, as the same file, or neither
is. -/
theorem parse_respaced (path source other : String) (h : Respaced source other) :
    (∃ file locations locations', parse path source = .ok (file, locations) ∧
      parse path other = .ok (file, locations')) ∨
    ∃ e e', parse path source = .error e ∧ parse path other = .error e' := by
  cases hsource : parse path source with
  | ok r =>
    obtain ⟨locations', hother⟩ := h.exists_parse hsource
    exact .inl ⟨r.1, r.2, locations', rfl, hother⟩
  | error e =>
    cases hother : parse path other with
    | ok r =>
      obtain ⟨_, hok⟩ := h.symm.exists_parse hother
      cases hsource.symm.trans hok
    | error e' => exact .inr ⟨e, e', rfl, rfl⟩

def onOneLine : String :=
  "message M\x7boptional int32 i=1;\x7d"

def commented : String :=
  "//a\nmessage/*b*/M\n\x7b\toptional int32 i = 1;//c\n\x7d\n"

theorem parse_respaced_commented : Respaced onOneLine commented ∧
    ∃ file locations locations', parse "t" onOneLine = .ok (file, locations) ∧
      parse "t" commented = .ok (file, locations') := by
  have h : Respaced onOneLine commented := by decide +kernel
  have hread : (parse "t" onOneLine).toOption.isSome := by decide +kernel
  rcases parse_respaced "t" _ _ h with hboth | ⟨e, _, he, _⟩
  · exact ⟨h, hboth⟩
  · rw [he] at hread
    cases hread

end ProtoSchema
