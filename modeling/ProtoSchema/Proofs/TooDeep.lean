import ProtoSchema.Proofs.Nesting.Files
import ProtoSchema.Proofs.Token.Order

/-!
A message that is nested too deep costs one report. The file is read as from a text without such
messages, as long as recovery takes nothing else along with them. It does so with a statement that
follows on the same line or that does not begin with a keyword.
-/

namespace ProtoSchema

open Scan Piece List

/-! ## What is left of a text -/

def Reading.tooDeep (r : Reading) : List Location :=
  r.locations.filter fun l => l.TooDeep

def Span.Covers (s : Span) (t : Token) : Prop :=
  s.start ≤ t.position ∧ t.finish ≤ s.finish

instance (s : Span) (t : Token) : Decidable (s.Covers t) :=
  inferInstanceAs (Decidable (_ ∧ _))

def outside (places : List Location) (ls : List Lexeme) : List Lexeme :=
  ls.filter fun l => ∀ r ∈ places, ¬r.span.Covers l.token

/-- The words of `other` are those that are left of `source` if what stands at the places is cut
out. -/
structure Remainder (source : String) (places : List Location) (other : String) : Prop where
  quiet : Quiet (lex other)
  words : words other = (outside places (lex source).dropLast).map fun l => l.token.word

/-- The tokens are in order, and none of them is empty. -/
structure InOrder (ls : List Lexeme) : Prop where
  pairwise : ls.Pairwise fun l k => l.token.finish ≤ k.token.position
  nonempty : ∀ l ∈ ls, l.token.text ≠ ""

theorem Token.not_finish_le {t : Token} (h : t.text ≠ "") : ¬t.finish ≤ t.position := by
  have hlength : 0 < t.text.length := by
    rw [Nat.pos_iff_ne_zero, Ne, String.length_eq_zero_iff]
    exact h
  simp only [Position.le_def, Token.finish]
  omega

private theorem inOrder_dropLast (source : String) : InOrder (lex source).dropLast :=
  ⟨(pairwise_lexemes _ _).sublist (dropLast_sublist _), fun _ hl => text_ne_of_mem_dropLast hl⟩

namespace InOrder

variable {as bs ls : List Lexeme} {r : Location} {l : Lexeme} {ps : List Piece}

theorem of_append (h : InOrder (as ++ bs)) : InOrder as ∧ InOrder bs ∧
    ∀ a ∈ as, ∀ b ∈ bs, a.token.finish ≤ b.token.position := by
  obtain ⟨hfirst, hlast, hacross⟩ := pairwise_append.mp h.pairwise
  exact ⟨⟨hfirst, fun l hl => h.nonempty l (mem_append_left _ hl)⟩,
    ⟨hlast, fun l hl => h.nonempty l (mem_append_right _ hl)⟩, hacross⟩

/-- What ends before a token does not cover it. -/
theorem not_covers_of_finish (h : InOrder (as ++ bs)) {k : Lexeme} (hk : k ∈ as)
    (hr : k.token.finish = r.span.finish) (hl : l ∈ bs) : ¬r.span.Covers l.token := by
  rintro ⟨_, hfinish⟩
  rw [← hr] at hfinish
  exact Token.not_finish_le (h.of_append.2.1.nonempty l hl)
    (Position.le_trans hfinish (h.of_append.2.2 k hk l hl))

/-- What begins behind a token does not cover it. -/
theorem not_covers_of_start (h : InOrder (as ++ bs)) {k : Lexeme} (hk : k ∈ bs)
    (hr : k.token.position = r.span.start) (hl : l ∈ as) : ¬r.span.Covers l.token := by
  rintro ⟨hstart, _⟩
  rw [← hr] at hstart
  exact Token.not_finish_le (h.of_append.1.nonempty l hl)
    (Position.le_trans (h.of_append.2.2 l hl k hk) hstart)

/-- A piece covers its own tokens. -/
theorem covers (h : InOrder ls) (hr : Piece.Fits ⟨ls, some r⟩) (hl : l ∈ ls) :
    r.span.Covers l.token := by
  obtain ⟨hstart, hfinish⟩ := hr r rfl
  constructor
  · obtain ⟨k, ks, rfl⟩ := exists_cons_of_ne_nil (ne_nil_of_mem hl)
    rw [← Option.some.inj hstart]
    rcases mem_cons.mp hl with rfl | hl
    · exact Position.le_refl _
    · exact Position.le_trans k.token.position_le_finish ((pairwise_cons.mp h.pairwise).1 l hl)
  · obtain ⟨k, hk, hlast⟩ := Option.map_eq_some_iff.mp hfinish
    obtain ⟨ks, rfl⟩ := getLast?_eq_some_iff.mp hk
    rw [← hlast]
    rcases mem_append.mp hl with hl | hl
    · exact Position.le_trans (h.of_append.2.2 l hl k (by simp)) k.token.position_le_finish
    · rw [mem_singleton.mp hl]
      exact Position.le_refl _

/-- The tokens outside of the pieces that are cut out are those of the other pieces. -/
theorem outside_text (h : InOrder (text true ps)) (hfits : ∀ p ∈ ps, p.Fits) :
    outside (places ps) (text true ps) = text false ps := by
  induction ps with
  | nil => rfl
  | cons p ps ih =>
    obtain ⟨ls, place⟩ := p
    have htext : text true (⟨ls, place⟩ :: ps) = ls ++ text true ps := rfl
    rw [htext] at h ⊢
    obtain ⟨hp, hps⟩ := forall_mem_cons.mp hfits
    have hrest := ih h.of_append.2.1 hps
    rw [outside, filter_append]
    cases place with
    | none =>
      rw [text_plain]
      refine congrArg₂ _ (filter_eq_self.mpr fun l hl => decide_eq_true fun r hr => ?_) hrest
      obtain ⟨q, hq, hplace⟩ : ∃ q ∈ ps, q.place = some r := mem_filterMap.mp hr
      obtain ⟨k, hk, hstart⟩ := Option.map_eq_some_iff.mp (hps q hq r hplace).1
      exact h.not_covers_of_start (mem_flatMap.mpr ⟨q, hq, mem_of_head? hk⟩) hstart hl
    | some r =>
      have hcut : ls.filter (fun l => ∀ s ∈ r :: places ps, ¬s.span.Covers l.token) = [] := by
        refine filter_eq_nil_iff.mpr fun l hl hout => ?_
        exact of_decide_eq_true hout r (by simp) (h.of_append.1.covers hp hl)
      have hsame : (text true ps).filter (fun l => ∀ s ∈ r :: places ps, ¬s.span.Covers l.token) =
          outside (places ps) (text true ps) := by
        refine filter_congr fun l hl => decide_eq_decide.mpr ?_
        obtain ⟨k, hk, hfinish⟩ := Option.map_eq_some_iff.mp (hp r rfl).2
        have hnot := h.not_covers_of_finish (mem_of_getLast? hk) hfinish hl
        simp [hnot]
      show ls.filter (fun l => ∀ s ∈ r :: places ps, ¬s.span.Covers l.token) ++
        (text true ps).filter (fun l => ∀ s ∈ r :: places ps, ¬s.span.Covers l.token) = _
      rw [hcut, hsame, hrest]
      rfl

end InOrder

theorem exists_remainder {source : String} (h : Quiet (lex source)) (places : List Location) :
    ∃ other, Remainder source places other := by
  have hvalid : ∀ w ∈ (outside places (lex source).dropLast).map (fun l => l.token.word),
      w.Valid := by
    obtain ⟨ls, l, hls, _⟩ := exists_lexemes_concat Position.origin source.toList
    have hsound := sound_lexemes Position.origin source.toList
    rw [lex] at h ⊢
    rw [hls] at h hsound
    rw [hls, dropLast_concat]
    refine forall_mem_map.mpr fun k hk => ?_
    exact hsound.valid (fun k hk => h k (by simp [hk])) k (mem_filter.mp hk).1
  obtain ⟨hwords, hquiet⟩ := (lexes_intercalate_blank hvalid).map_lex
  refine ⟨_, hquiet, ?_⟩
  rw [words, map_dropLast, hwords, dropLast_concat]

/-- Messages that are nested too deep are reported, one by one, and the file is the one that is read
from the text without them. -/
theorem readFile_tooDeep (limit : Nat) (path source : String)
    (h : (readWithin limit path source).diagnostics = [])
    (hclear : ∀ r ∈ (readWithin limit path source).tooDeep, Clear (lex source) r.span) :
    (readFile path source).complete = true ∧
      (readFile path source).diagnostics =
        (readWithin limit path source).tooDeep.map Location.report ∧
      (∃ other, Remainder source (readWithin limit path source).tooDeep other) ∧
      ∀ other, Remainder source (readWithin limit path source).tooDeep other →
        ∃ locations, parse path other = .ok ((readFile path source).file, locations) := by
  have hquiet := quiet_of_readWithin h
  obtain ⟨ps, file, stop, htext, hplaces, hfits, hread⟩ := exists_pieces h
  replace hplaces : places ps = (readWithin limit path source).tooDeep := hplaces
  have hdrop : (lex source).dropLast = text true ps := by rw [htext, List.dropLast_concat]
  have hend : ∀ other, (lex other).map (fun l => l.token.word) = words other ++ [.endOfInput] := by
    intro other
    obtain ⟨ls, l, hls, hl⟩ := exists_lexemes_concat Position.origin other.toList
    rw [words, lex, hls, List.dropLast_concat, List.map_append, List.map_singleton, hl]
  rw [← hplaces] at hclear ⊢
  obtain ⟨_, hsource⟩ := hread true source hquiet (by rw [hend, words, hdrop]) fun _ =>
    ⟨rfl, hclear⟩
  rw [hsource]
  refine ⟨rfl, rfl, exists_remainder hquiet _, fun other hother => ?_⟩
  have horder := inOrder_dropLast source
  have hwords := hother.words
  rw [hdrop] at horder hwords
  rw [horder.outside_text hfits] at hwords
  obtain ⟨locations, hrest⟩ := hread false other hother.quiet (by rw [hend, hwords])
    fun h => absurd h Bool.false_ne_true
  exact ⟨locations, by rw [parse, hrest]; rfl⟩

def atLimit (inner : String) : String :=
  String.ofList ((List.replicate Message.maxNesting "message M\x7b".toList).flatten ++
    inner.toList ++ List.replicate Message.maxNesting '\x7d')

theorem lex_atLimit (inner : String) : lex (atLimit inner) =
    lexemes Position.origin ((List.replicate Message.maxNesting "message M\x7b".toList).flatten ++
      inner.toList ++ List.replicate Message.maxNesting '\x7d') := by
  rw [lex, atLimit, String.toList_ofList]

def fieldBehind (blank : String) : String :=
  atLimit ("message N\x7b\x7d" ++ blank ++ "optional int32 i=1;")

theorem lex_fieldBehind (blank : String) : lex (fieldBehind blank) = lexemes Position.origin
    ((List.replicate Message.maxNesting "message M\x7b".toList).flatten ++
      ("message N\x7b\x7d" ++ blank ++ "optional int32 i=1;").toList ++
        List.replicate Message.maxNesting '\x7d') :=
  lex_atLimit _

/-- Without the message, the field is left. -/
theorem remainder_fieldBehind (blank : String) (h : blank ∈ ["\n", " "]) :
    (readWithin 33 "t" (fieldBehind blank)).diagnostics = [] ∧
      Remainder (fieldBehind blank) (readWithin 33 "t" (fieldBehind blank)).tooDeep
        (atLimit "optional int32 i=1;") := by
  have hquiet : Quiet (lex (atLimit "optional int32 i=1;")) := by
    rw [Quiet, lex_atLimit]
    decide +kernel
  rw [Reading.tooDeep, readWithin, Cursor.ofSource]
  refine ⟨?_, hquiet, ?_⟩
  · rw [lex_fieldBehind]
    revert blank
    decide +kernel
  · rw [words, lex_fieldBehind, lex_atLimit]
    revert blank
    decide +kernel

/-- The field is kept if it is on another line. -/
theorem readFile_tooDeep_newline :
    (readWithin 33 "t" (fieldBehind "\n")).diagnostics = [] ∧
      (∀ r ∈ (readWithin 33 "t" (fieldBehind "\n")).tooDeep,
        Clear (lex (fieldBehind "\n")) r.span) ∧
      (readFile "t" (fieldBehind "\n")).diagnostics = [.ofFault ⟨1, 321⟩ .nestedTooDeep] ∧
      ∃ locations, parse "t" (atLimit "optional int32 i=1;") =
        .ok ((readFile "t" (fieldBehind "\n")).file, locations) := by
  obtain ⟨hread, hremainder⟩ := remainder_fieldBehind "\n" (by simp)
  have htooDeep : (readWithin 33 "t" (fieldBehind "\n")).tooDeep.map Location.span =
      [⟨⟨1, 321⟩, ⟨1, 332⟩⟩] := by
    rw [Reading.tooDeep, readWithin, Cursor.ofSource, lex_fieldBehind]
    decide +kernel
  have hclear : ∀ r ∈ (readWithin 33 "t" (fieldBehind "\n")).tooDeep,
      Clear (lex (fieldBehind "\n")) r.span := by
    intro r hr
    have hspan := List.mem_map_of_mem (f := Location.span) hr
    rw [htooDeep] at hspan
    rw [List.mem_singleton.mp hspan, lex_fieldBehind]
    decide +kernel
  obtain ⟨_, hreports, _, hother⟩ := readFile_tooDeep 33 "t" _ hread hclear
  refine ⟨hread, hclear, ?_, hother _ hremainder⟩
  have hmap : ∀ ls : List Location, ls.map Location.report =
      (ls.map Location.span).map fun s => .ofFault s.start .nestedTooDeep := by
    simp [Location.report]
  rw [hreports, hmap, htooDeep]
  rfl

/-- The field is lost if it is on the same line. -/
theorem readFile_tooDeep_blank :
    (readWithin 33 "t" (fieldBehind " ")).diagnostics = [] ∧
      Remainder (fieldBehind " ") (readWithin 33 "t" (fieldBehind " ")).tooDeep
        (atLimit "optional int32 i=1;") ∧
      ∃ file locations, parse "t" (atLimit "optional int32 i=1;") = .ok (file, locations) ∧
        (readFile "t" (fieldBehind " ")).file ≠ file := by
  obtain ⟨hread, hremainder⟩ := remainder_fieldBehind " " (by simp)
  have hclean : ((readFile "t" (atLimit "optional int32 i=1;")).complete &&
      (readFile "t" (atLimit "optional int32 i=1;")).diagnostics.isEmpty) = true := by
    rw [readFile, Cursor.ofSource, lex_atLimit]
    decide +kernel
  have hdiffer : (readFile "t" (fieldBehind " ")).file ≠
      (readFile "t" (atLimit "optional int32 i=1;")).file := by
    rw [readFile, readFile, Cursor.ofSource, Cursor.ofSource, lex_fieldBehind, lex_atLimit]
    decide +kernel
  exact ⟨hread, hremainder, _, _, by rw [parse, if_pos hclean], hdiffer⟩

end ProtoSchema
