import ProtoSchema.Proofs.Integers
import ProtoSchema.Proofs.Settings

/-!
Option values are printed as they are read. A value read from a text without a fault is read again
from its printed form, whatever ends it there. Only a minus sign in front of an integer zero gets
lost on the way. Main statement: `run_optionValue_render`.
-/

namespace ProtoSchema

open Scan Production

/-- The cursor stands at a token of the text, one without remarks, and nothing has been reported. -/
structure Cursor.In (source : String) (c : Cursor) : Prop where
  quiet : c.diagnostics = []
  token : ∃ l, l :: c.ahead <:+ lex source ∧ l.token = c.current ∧ l.remarks = []

theorem Cursor.In.clean {source : String} {c : Cursor} (h : c.In source) : c.Clean := by
  obtain ⟨l, hsuffix, htoken, hclean⟩ := h.token
  have hsound := (sound_lexemes Position.origin source.toList).of_suffix hsuffix
  exact ⟨h.quiet, htoken ▸ hsound.1 hclean, hsound.2⟩

theorem Cursor.in_next_ofSource {source : String} (h : (ofSource source).next.diagnostics = []) :
    (ofSource source).next.In source := by
  obtain ⟨l, ls, hlex⟩ := exists_lex_cons source
  rw [next_ofSource hlex] at h ⊢
  exact ⟨h, l, hlex ▸ List.suffix_refl _, rfl, h⟩

namespace OptionValue

def reread (v : OptionValue) : OptionValue :=
  if v = .int 0 then .uint 0 else v

theorem reread_of_ne {v : OptionValue} (h : v ≠ .int 0) : v.reread = v :=
  if_neg h

/-- The words of a printed value, and what is read from them. -/
theorem Written.recovers_reread {σ : Type} {v : OptionValue} (h : v.Written) (s : σ) :
    RecoversItem optionValue s v.render v.reread s := by
  by_cases hzero : v = .int 0
  · subst hzero
    exact ⟨_, lexes_nat 0, fun rest _ => reads_uint 0⟩
  · rw [reread_of_ne hzero]
    exact h.recovers hzero

/-- The printed form of a value with `stop` behind it is read up to there, as `again`, and nothing
is reported. -/
def ReadsBack {σ : Type} (s : σ) (v again : OptionValue) (stop : String) : Prop :=
  ∃ d : Cursor, optionValue.run s (Cursor.ofSource (v.render ++ stop)).next = (some again, s, d) ∧
    d.diagnostics = [] ∧ d.current.word = .symbol stop ∧
    d.ahead.map (fun l => l.token.word) = [.endOfInput]

theorem Written.readsBack {σ : Type} {v : OptionValue} (h : v.Written) (s : σ) {stop : String}
    (hstop : stop ∈ [";", ",", "]"]) : v.ReadsBack s v.reread stop := by
  obtain ⟨ws, hlex, hreads⟩ := h.recovers_reread s
  have hsymbol : Lexes never stop [.symbol stop] := by
    simp only [List.mem_cons, List.not_mem_nil, or_false] at hstop
    rcases hstop with rfl | rfl | rfl <;> exact lexes_plain (by decide)
  have hfits : Fits goesOn never stop := by
    simp only [List.mem_cons, List.not_mem_nil, or_false] at hstop
    rcases hstop with rfl | rfl | rfl <;> exact fits_of_head rfl (by decide)
  have htext := (hlex.append hsymbol hfits).map_lex
  obtain ⟨hoffers, hquiet, _⟩ := Cursor.offers_next_ofSource htext.1 htext.2
  obtain ⟨d, hrun, hd, hdiag, _⟩ := hreads [.symbol stop] rfl _ hoffers
  obtain ⟨hcurrent, hahead⟩ := List.cons.inj hd.words
  exact ⟨d, hrun, hdiag.trans hquiet, hcurrent, hahead⟩

end OptionValue

/-- A value that is read somewhere in a text, without anything being reported, is read again from
its printed form, up to the symbol that ends it there. So is every value set in a file. An integer
zero behind a minus sign comes back as the plain zero, and nothing else is changed. -/
theorem run_optionValue_render {σ : Type} (s : σ) (stop : String) (hstop : stop ∈ [";", ",", "]"]) :
    (∀ source c v t d, Cursor.In source c → optionValue.run s c = (some v, t, d) →
      d.diagnostics = [] → v.ReadsBack s v.reread stop) ∧
    ∀ path source file locations, parse path source = .ok (file, locations) →
      ∀ t ∈ file.settings, t.value.ReadsBack s t.value.reread stop := by
  constructor
  · intro source c v t d hc hrun hquiet
    have hyields : Yields optionValue s c.current.word fun v _ _ => v.Written :=
      yields_optionValue fun _ _ hv => hv
    obtain ⟨_, hv, _, hwritten⟩ := hyields.elim hc.clean rfl hrun hquiet
    cases hv
    exact hwritten.readsBack s hstop
  · intro path source file locations hparse t ht
    obtain ⟨_, hwritten⟩ := (written_of_parse hparse).settings t ht
    exact hwritten.value.readsBack s hstop

def twoStrings : String :=
  "'a\"' \"b\"]"

theorem run_optionValue_render_string :
    (∃ d, Cursor.In twoStrings (Cursor.ofSource twoStrings).next ∧
      optionValue.run () (Cursor.ofSource twoStrings).next = (some (.string "a\"b"), (), d) ∧
      d.diagnostics = [] ∧ (OptionValue.string "a\"b").ReadsBack () (.string "a\"b") "]") ∧
    ∃ file locations, parse "t" "option x = -7;" = .ok (file, locations) ∧
      ⟨"x", .int (-7)⟩ ∈ file.settings ∧ (OptionValue.int (-7)).ReadsBack () (.int (-7)) ";" := by
  constructor
  · have hc : Cursor.In twoStrings (Cursor.ofSource twoStrings).next :=
      Cursor.in_next_ofSource (by decide +kernel)
    obtain ⟨d, hrun, hquiet⟩ : ∃ d : Cursor,
        optionValue.run () (Cursor.ofSource twoStrings).next = (some (.string "a\"b"), (), d) ∧
          d.diagnostics = [] := by
      have hvalue : (optionValue.run () (Cursor.ofSource twoStrings).next).1 =
          some (.string "a\"b") := by decide +kernel
      exact ⟨_, by rw [← hvalue], by decide +kernel⟩
    have hback := (run_optionValue_render () "]" (by decide)).1 _ _ _ _ _ hc hrun hquiet
    rw [OptionValue.reread_of_ne OptionValue.noConfusion] at hback
    exact ⟨d, hc, hrun, hquiet, hback⟩
  · let file : File := { name := "t", options := [⟨"x", .int (-7)⟩] }
    have hparse : parse "t" "option x = -7;" =
        .ok (file, (readFile "t" "option x = -7;").locations) := by decide +kernel
    have hmem : ⟨"x", .int (-7)⟩ ∈ file.settings := by decide
    have hback := (run_optionValue_render () ";" (by decide)).2 _ _ _ _ hparse _ hmem
    rw [OptionValue.reread_of_ne (by decide)] at hback
    exact ⟨file, _, hparse, hmem, hback⟩

/-- The sign of a zero is not printed, so the zero is read as one without a sign. -/
theorem not_readsBack_negative_zero :
    ∃ file locations, parse "t" "option x = -0;" = .ok (file, locations) ∧
      ⟨"x", .int 0⟩ ∈ file.settings ∧ ¬ (OptionValue.int 0).ReadsBack () (.int 0) ";" := by
  let file : File := { name := "t", options := [⟨"x", .int 0⟩] }
  have hparse : parse "t" "option x = -0;" =
      .ok (file, (readFile "t" "option x = -0;").locations) := by decide +kernel
  refine ⟨file, _, hparse, by decide, ?_⟩
  rintro ⟨d, hrun, _⟩
  have hvalue : (optionValue.run () (Cursor.ofSource "0;").next).1 = some (.uint 0) := by
    decide +kernel
  have hsame : (OptionValue.int 0).render ++ ";" = "0;" := by decide +kernel
  rw [hsame] at hrun
  rw [hrun] at hvalue
  cases hvalue

end ProtoSchema
