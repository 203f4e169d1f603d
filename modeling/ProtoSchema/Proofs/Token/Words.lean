import ProtoSchema.Proofs.Token.Integer
import ProtoSchema.Proofs.Token.Quoted
import ProtoSchema.Text.Layout

/-!
Texts as words. `Lexes` says which words a stretch of text stands for, wherever it begins and
whatever follows it, so that the words of a whole text are put together from those of its parts.
-/

namespace ProtoSchema

open Scan List

variable {p : Position} {cs rest : List Char} {c : Char} {stop : Char → Bool} {kind : TokenKind}
  {text : String} {ws : List Word}

@[ext]
structure Word where
  kind : TokenKind
  text : String
deriving DecidableEq, Repr

def Token.word (t : Token) : Word :=
  ⟨t.kind, t.text⟩

def IsIdentifier (name : String) : Prop :=
  ∃ c cs, name.toList = c :: cs ∧ isLetter c = true ∧ ∀ d ∈ cs, isWordChar d = true

namespace Word

def ident (name : String) : Word :=
  ⟨.identifier, name⟩

def symbol (text : String) : Word :=
  ⟨.symbol, text⟩

@[simp]
theorem ident_inj {x y : String} : ident x = ident y ↔ x = y := by
  simp [ident]

@[simp]
theorem symbol_inj {x y : String} : symbol x = symbol y ↔ x = y := by
  simp [symbol]

@[simp]
theorem ident_ne_symbol (x y : String) : ident x ≠ symbol y := by
  simp [ident, symbol]

@[simp]
theorem symbol_ne_ident (x y : String) : symbol x ≠ ident y := by
  simp [ident, symbol]

def endOfInput : Word :=
  ⟨.endOfInput, ""⟩

/-- The words that a text without lexical faults consists of. -/
inductive Valid : Word → Prop
  | identifier {name : String} : IsIdentifier name → Valid (ident name)
  | number {kind : TokenKind} {text : String} : Numeral.Text kind text.toList → Valid ⟨kind, text⟩
  | string {text : String} : QuotedText text.toList → Valid ⟨.string, text⟩
  | symbol {c : Char} : c ∈ symbols → Valid (symbol (String.ofList [c]))

end Word

/-! ## Lexing a part of a text -/

/-- Wherever the text begins, and if what follows does not begin with a character of `stop`, the
lexemes of the text are `ws` without a remark. -/
def Lexes (stop : Char → Bool) (text : String) (ws : List Word) : Prop :=
  ∀ (p : Position) (rest : List Char), Stops stop rest →
    ∃ ls : List Lexeme,
      lexemes p (text.toList ++ rest) = ls ++ lexemes (p.advance text.toList) rest ∧
      ls.map (fun l => l.token.word) = ws ∧ ∀ l ∈ ls, l.remarks = []

def never (_ : Char) : Bool :=
  false

theorem stops_never (rest : List Char) : Stops never rest :=
  fun _ _ => rfl

theorem lexemes_end (h : (gap p cs).rest = []) :
    lexemes p cs = [⟨⟨.endOfInput, "", p.advance (gap p cs).text⟩, (gap p cs).remarks⟩] := by
  rw [lexemes]
  split
  · rfl
  · next h' => rw [h] at h'; cases h'

theorem lexemes_nil (p : Position) : lexemes p [] = [⟨⟨.endOfInput, "", p⟩, []⟩] := by
  rw [lexemes_end (by rw [gap]), gap]
  rfl

theorem lexemes_token (h : (gap p cs).rest = c :: rest) :
    lexemes p cs =
      let here := p.advance (gap p cs).text
      let t := token here c rest
      ⟨⟨t.kind, String.ofList t.text, here⟩, (gap p cs).remarks ++ t.remarks⟩ ::
        lexemes (here.advance t.text) t.rest := by
  rw [lexemes]
  split
  · next h' => rw [h] at h'; cases h'
  · next h' =>
    rw [h] at h'
    cases h'
    rfl

variable {t word : List Char} {w : Word} {stop' : Char → Bool} {lines : List Line}

/-- A stretch that only makes the first gap longer adds no token. -/
theorem lexemes_of_gap
    (h : gap p cs = { gap (p.advance t) rest with text := t ++ (gap (p.advance t) rest).text }) :
    lexemes p cs = lexemes (p.advance t) rest := by
  cases hrest : (gap (p.advance t) rest).rest with
  | nil =>
    rw [lexemes_end hrest, lexemes_end (by rw [h]; exact hrest), h, Position.advance_append]
  | cons c ds =>
    have hrest' : (gap p cs).rest = c :: ds := by rw [h]; exact hrest
    rw [lexemes_token hrest, lexemes_token hrest', h, Position.advance_append]

theorem lexemes_blank {b : Char} (hb : isBlank b = true) (p : Position) (rest : List Char) :
    lexemes p (b :: rest) = lexemes (p.step b) rest :=
  lexemes_of_gap (t := [b]) (by rw [gap, if_pos hb]; rfl)

theorem comment?_eq_none (h : c = '/' → Stops (fun d => d = '/' || d = '*') rest) :
    comment? (c :: rest) = none := by
  unfold comment?
  split
  · next tail heq =>
    simp only [List.cons.injEq] at heq
    obtain ⟨rfl, rfl⟩ := heq
    exact absurd (stops_cons.mp (h rfl)) (by decide)
  · next tail heq =>
    simp only [List.cons.injEq] at heq
    obtain ⟨rfl, rfl⟩ := heq
    exact absurd (stops_cons.mp (h rfl)) (by decide)
  · rfl

theorem gap_of_token (hb : isBlank c = false)
    (hc : c = '/' → Stops (fun d => d = '/' || d = '*') rest) (p : Position) :
    gap p (c :: rest) = ⟨[], c :: rest, []⟩ := by
  rw [gap, if_neg (by simp [hb])]
  split
  · next h => rw [comment?_eq_none hc] at h; cases h
  · rfl

/-- The lexemes of a text that begins with the token `w`, followed by `rest`. -/
theorem lexemes_of_token (htext : w.text.toList = c :: cs) (hb : isBlank c = false)
    (hc : c = '/' → Stops (fun d => d = '/' || d = '*') (cs ++ rest))
    (ht : token p c (cs ++ rest) = ⟨w.kind, c :: cs, rest, []⟩) :
    lexemes p (w.text.toList ++ rest) =
      ⟨⟨w.kind, w.text, p⟩, []⟩ :: lexemes (p.advance w.text.toList) rest := by
  have hgap := gap_of_token hb hc p
  rw [htext, cons_append, lexemes_token (by rw [hgap])]
  simp only [hgap, Position.advance, foldl_nil]
  rw [ht, ← htext, String.ofList_toList]
  rfl

/-- A text whose first token is read whole, whatever follows it, stands for the word of it. -/
theorem lexes_of_token (htext : w.text.toList = c :: cs) (hb : isBlank c = false)
    (hc : ∀ rest, Stops stop rest → c = '/' → Stops (fun d => d = '/' || d = '*') (cs ++ rest))
    (ht : ∀ p rest, Stops stop rest → token p c (cs ++ rest) = ⟨w.kind, c :: cs, rest, []⟩) :
    Lexes stop w.text [w] := by
  intro p rest hrest
  have hlexemes := lexemes_of_token htext hb (hc rest hrest) (ht p rest hrest)
  exact ⟨[⟨⟨w.kind, w.text, p⟩, []⟩], hlexemes, rfl, by simp⟩

theorem lexes_ident {name : String} (h : IsIdentifier name) :
    Lexes isWordChar name [Word.ident name] := by
  obtain ⟨c, cs, hname, hc, hcs⟩ := h
  have hletter := (isLetter_iff c).mp hc
  refine lexes_of_token (w := .ident name) hname ?_ ?_ ?_
  · rw [← Bool.not_eq_true]
    simp only [isBlank, Bool.or_eq_true, decide_eq_true_eq, char_eq_iff, Char.reduceToNat]
    omega
  · rintro _ _ rfl
    exact absurd hc (by decide)
  · intro p rest hrest
    simp [token, hc, hrest.takeWhile_append hcs, hrest.dropWhile_append hcs, Word.ident]

def symbolStop (c d : Char) : Bool :=
  c = '.' && isDigit d || c = '/' && (d = '/' || d = '*')

private theorem not_token_of_mem_symbols :
    ∀ c ∈ symbols, isBlank c = false ∧ isLetter c = false ∧ isDigit c = false ∧
      isQuote c = false := by
  have hall : symbols.all (fun c => decide (isBlank c = false ∧ isLetter c = false ∧
      isDigit c = false ∧ isQuote c = false)) = true := by
    decide
  intro c hc
  exact of_decide_eq_true (all_eq_true.mp hall c hc)

theorem lexes_symbol (hc : c ∈ symbols) :
    Lexes (symbolStop c) (String.ofList [c]) [Word.symbol (String.ofList [c])] := by
  obtain ⟨hblank, hletter, hdigit, hquote⟩ := not_token_of_mem_symbols c hc
  refine lexes_of_token (w := .symbol (String.ofList [c])) (String.toList_ofList) hblank ?_ ?_
  · intro rest hrest hslash
    exact hrest.mono fun d hd => by simpa [symbolStop, hslash] using hd
  · intro p rest hrest
    have hstart : startsNumber c rest = false := by
      cases rest with
      | nil => simp [startsNumber, hdigit]
      | cons d rest =>
        have hd := stops_cons.mp hrest
        simp only [symbolStop, Bool.or_eq_false_iff] at hd
        simp [startsNumber, hdigit, hd.1]
    simp [token, hletter, hstart, hquote, hc, Word.symbol]

theorem Scan.Numeral.Whole.exists_cons {ds : List Char} (h : Numeral.Whole ds) :
    ∃ d tail, ds = d :: tail ∧ isDigit d = true := by
  obtain ⟨d, tail, rfl⟩ := exists_cons_of_ne_nil h.1
  exact ⟨d, tail, rfl, h.2.1 d (by simp)⟩

theorem Scan.Numeral.Mantissa.exists_starts {m : List Char} (h : Numeral.Mantissa kind m) :
    ∃ c cs, m = c :: cs ∧ ∀ rest, startsNumber c (cs ++ rest) = true := by
  cases h with
  | decimal hds =>
    obtain ⟨d, tail, rfl, hd⟩ := hds.exists_cons
    exact ⟨d, tail, rfl, fun rest => by simp [startsNumber, hd]⟩
  | octal => exact ⟨'0', _, rfl, fun rest => rfl⟩
  | fraction hds =>
    obtain ⟨d, tail, rfl, hd⟩ := hds.exists_cons
    exact ⟨d, _, rfl, fun rest => by simp [startsNumber, hd]⟩
  | point hne hfs =>
    obtain ⟨d, fs, rfl⟩ := exists_cons_of_ne_nil hne
    exact ⟨'.', _, rfl, fun rest => by simp [startsNumber, hfs d (by simp)]⟩

theorem Scan.Numeral.Text.exists_starts (h : Numeral.Text kind t) :
    ∃ c cs, t = c :: cs ∧ ∀ rest, startsNumber c (cs ++ rest) = true := by
  cases h with
  | hexadecimal => exact ⟨'0', _, rfl, fun rest => rfl⟩
  | integer hm => exact hm.exists_starts
  | float hm =>
    obtain ⟨c, cs, rfl, hc⟩ := hm.exists_starts
    exact ⟨c, _, rfl, fun rest => by simpa using hc _⟩

private theorem not_blank_of_startsNumber (h : startsNumber c rest = true) :
    isBlank c = false ∧ isLetter c = false ∧ c ≠ '/' := by
  have hc : isDigit c = true ∨ c = '.' := by
    simp only [startsNumber, Bool.or_eq_true, Bool.and_eq_true, decide_eq_true_eq] at h
    exact h.imp_right And.left
  rcases hc with hc | rfl
  · refine ⟨?_, isLetter_eq_false_of_isDigit hc, ?_⟩
    · rw [isDigit_iff] at hc
      rw [← Bool.not_eq_true]
      simp only [isBlank, Bool.or_eq_true, decide_eq_true_eq, char_eq_iff, Char.reduceToNat]
      omega
    · rintro rfl
      exact absurd hc (by decide)
  · decide

theorem lexes_number (h : Numeral.Text kind text.toList) : Lexes goesOn text [⟨kind, text⟩] := by
  obtain ⟨c, cs, htext, hstarts⟩ := h.exists_starts
  obtain ⟨hblank, hletter, hslash⟩ := not_blank_of_startsNumber (hstarts [])
  refine lexes_of_token (w := ⟨kind, text⟩) htext hblank (fun _ _ hc => absurd hc hslash) ?_
  intro p rest hrest
  rw [htext] at h
  simpa [token, hletter, hstarts] using number_append h hrest p

/-- A string is read as one token, whatever follows it. -/
theorem lexemes_string (h : QuotedText text.toList) (p : Position) (rest : List Char) :
    lexemes p (text.toList ++ rest) =
      ⟨⟨.string, text, p⟩, []⟩ :: lexemes (p.advance text.toList) rest := by
  obtain ⟨quote, body, htext, hquote, hbody⟩ := h
  have hq := isQuote_iff.mp hquote
  refine lexemes_of_token (w := ⟨.string, text⟩) htext ?_ ?_ ?_
  · rcases hq with rfl | rfl <;> decide
  · rintro rfl
    exact absurd hquote (by decide)
  · have hletter : isLetter quote = false := by rcases hq with rfl | rfl <;> decide
    have hstart : startsNumber quote (body ++ rest) = false := by
      rcases hq with rfl | rfl <;> rfl
    simpa [token, hletter, hstart, hquote] using string_append rfl hbody p

theorem lexes_string (h : QuotedText text.toList) : Lexes never text [⟨.string, text⟩] :=
  fun p rest _ => ⟨[⟨⟨.string, text, p⟩, []⟩], lexemes_string h p rest, rfl, by simp⟩

theorem Lexes.mono (h : Lexes stop text ws) (hle : ∀ c, stop c = true → stop' c = true) :
    Lexes stop' text ws :=
  fun p rest hrest => h p rest (hrest.mono hle)

theorem Lexes.any (h : Lexes never text ws) : Lexes stop text ws :=
  h.mono fun _ hc => by cases hc

theorem Lexes.goesOn (h : Lexes isWordChar text ws) : Lexes goesOn text ws :=
  h.mono goesOn_of_isWordChar

theorem Word.Valid.lexes (h : w.Valid) : Lexes goesOn w.text [w] := by
  cases h with
  | identifier hname => exact (lexes_ident hname).goesOn
  | number ht => exact lexes_number ht
  | string ht => exact (lexes_string ht).any
  | symbol hc =>
    refine (lexes_symbol hc).mono fun d hd => ?_
    simp only [symbolStop, Bool.or_eq_true, Bool.and_eq_true, decide_eq_true_eq] at hd
    rcases hd with ⟨_, hd⟩ | ⟨_, hd | hd⟩
    · exact goesOn_of_isDigit d hd
    · simp [goesOn, hd]
    · simp [goesOn, hd]

/-! ## Joining texts -/

/-- The text may stand behind one that ends where `stop` says, if it is followed as `stop'` says. -/
def Fits (stop stop' : Char → Bool) (text : String) : Prop :=
  ∀ rest, Stops stop' rest → Stops stop (text.toList ++ rest)

theorem fits_never (stop : Char → Bool) (text : String) : Fits never stop text :=
  fun _ _ => stops_never _

theorem fits_of_head (h : text.toList.head? = some c) (hc : stop c = false) :
    Fits stop stop' text := by
  intro rest _
  obtain ⟨cs, hcs⟩ := head?_eq_some_iff.mp h
  rw [hcs, cons_append]
  exact stops_cons.mpr hc

namespace Lexes

variable {stop' : Char → Bool} {s t : String} {vs : List Word}

theorem append (hs : Lexes stop s ws) (ht : Lexes stop' t vs) (h : Fits stop stop' t) :
    Lexes stop' (s ++ t) (ws ++ vs) := by
  intro p rest hrest
  obtain ⟨ls, hls, hws, hclean⟩ := hs p (t.toList ++ rest) (h rest hrest)
  obtain ⟨ks, hks, hvs, hclean'⟩ := ht (p.advance s.toList) rest hrest
  refine ⟨ls ++ ks, ?_, by rw [map_append, hws, hvs], ?_⟩
  · rw [String.toList_append, append_assoc, hls, hks, Position.advance_append, append_assoc]
  · intro l hl
    rcases mem_append.mp hl with hl | hl
    · exact hclean l hl
    · exact hclean' l hl

theorem empty (stop : Char → Bool) : Lexes stop "" [] := by
  intro p rest _
  exact ⟨[], by simp [Position.advance], rfl, by simp⟩

theorem blank {b : Char} (hb : isBlank b = true) : Lexes never (String.ofList [b]) [] := by
  intro p rest _
  refine ⟨[], ?_, rfl, by simp⟩
  rw [String.toList_ofList, singleton_append, lexemes_blank hb]
  rfl

end Lexes

/-! ## Fixed texts -/

def collected (word : List Char) : List Word :=
  if word.isEmpty then [] else [Word.ident (String.ofList word)]

/-- The words of a text of blanks, identifiers and symbols, none of them a point or a slash, and
whether it ends in an identifier. `word` is what has been collected of an identifier. -/
def plainWords (word : List Char) : List Char → Option (List Word × Bool)
  | [] => some (collected word, !word.isEmpty)
  | c :: cs =>
    if isLetter c || isDigit c && !word.isEmpty then plainWords (word ++ [c]) cs
    else if isBlank c then (plainWords [] cs).map fun (ws, e) => (collected word ++ ws, e)
    else if c ∈ symbols && c ≠ '.' && c ≠ '/' then
      (plainWords [] cs).map fun (ws, e) =>
        (collected word ++ Word.symbol (String.ofList [c]) :: ws, e)
    else none

def plainStop (endsInWord : Bool) : Char → Bool :=
  if endsInWord then isWordChar else never

theorem lexes_collected (h : word = [] ∨ IsIdentifier (String.ofList word)) :
    Lexes (plainStop (!word.isEmpty)) (String.ofList word) (collected word) := by
  rcases h with rfl | h
  · exact Lexes.empty never
  · have hne : word ≠ [] := by
      rintro rfl
      obtain ⟨c, cs, hname, _⟩ := h
      simp at hname
    simpa [plainStop, collected, hne] using lexes_ident h

private theorem isIdentifier_collected (hword : word = [] ∨ IsIdentifier (String.ofList word))
    (hc : (isLetter c || isDigit c && !word.isEmpty) = true) :
    IsIdentifier (String.ofList (word ++ [c])) := by
  rcases hword with rfl | ⟨d, ds, hname, hd, hds⟩
  · exact ⟨c, [], by simp, by simpa using hc, by simp⟩
  · rw [String.toList_ofList] at hname
    subst hname
    refine ⟨d, ds ++ [c], by simp, hd, fun x hx => ?_⟩
    rcases mem_append.mp hx with hx | hx
    · exact hds x hx
    · obtain rfl := mem_singleton.mp hx
      simpa [isWordChar] using hc

theorem lexes_collected_append {v : List Word}
    (hword : word = [] ∨ IsIdentifier (String.ofList word)) (hc : isWordChar c = false)
    (hone : Lexes never (String.ofList [c]) v) (hrest : Lexes stop (String.ofList cs) ws) :
    Lexes stop (String.ofList (word ++ c :: cs)) (collected word ++ (v ++ ws)) := by
  have htext : String.ofList (word ++ c :: cs) =
      String.ofList word ++ (String.ofList [c] ++ String.ofList cs) := by
    rw [← String.ofList_append, ← String.ofList_append, singleton_append]
  rw [htext]
  refine (lexes_collected hword).append (hone.append hrest (fits_never _ _)) ?_
  refine fits_of_head (c := c) (by simp) ?_
  unfold plainStop
  split
  · exact hc
  · rfl

private theorem isWordChar_of_isBlank (h : isBlank c = true) : isWordChar c = false := by
  simp only [isBlank, Bool.or_eq_true, decide_eq_true_eq] at h
  rcases h with ((((rfl | rfl) | rfl) | rfl) | rfl) | rfl <;> decide

theorem lexes_plainWords {e : Bool} (hword : word = [] ∨ IsIdentifier (String.ofList word))
    (h : plainWords word cs = some (ws, e)) :
    Lexes (plainStop e) (String.ofList (word ++ cs)) ws := by
  induction cs generalizing word ws with
  | nil =>
    cases h
    rw [append_nil]
    exact lexes_collected hword
  | cons c cs ih =>
    rw [plainWords] at h
    split at h
    · next hc =>
      have hmore := ih (.inr (isIdentifier_collected hword hc)) h
      rwa [append_assoc, singleton_append] at hmore
    · split at h
      · next hb =>
        obtain ⟨⟨vs, e'⟩, hvs, heq⟩ := Option.map_eq_some_iff.mp h
        cases heq
        have hrest := lexes_collected_append hword (isWordChar_of_isBlank hb) (Lexes.blank hb)
          (ih (.inl rfl) hvs)
        rwa [nil_append] at hrest
      · split at h
        · next hs =>
          simp only [Bool.and_eq_true, decide_eq_true_eq, ne_eq] at hs
          obtain ⟨⟨hmem, hpoint⟩, hslash⟩ := hs
          obtain ⟨⟨vs, e'⟩, hvs, heq⟩ := Option.map_eq_some_iff.mp h
          cases heq
          have hone : Lexes never (String.ofList [c]) [Word.symbol (String.ofList [c])] :=
            (lexes_symbol hmem).mono fun d hd => by simp [symbolStop, hpoint, hslash] at hd
          obtain ⟨_, hletter, hdigit, _⟩ := not_token_of_mem_symbols c hmem
          have hrest := lexes_collected_append hword (by simp [isWordChar, hletter, hdigit]) hone
            (ih (.inl rfl) hvs)
          rwa [singleton_append] at hrest
        · cases h

theorem lexes_plain (h : plainWords [] text.toList = some (ws, false)) : Lexes never text ws := by
  simpa [plainStop] using lexes_plainWords (.inl rfl) h

theorem lexes_plain_word (h : plainWords [] text.toList = some (ws, true)) :
    Lexes isWordChar text ws := by
  simpa [plainStop] using lexes_plainWords (.inl rfl) h

example : Lexes never "message " [.ident "message"] :=
  lexes_plain (by decide)

namespace Lexes

variable {stop' : Char → Bool} {s t u : String} {vs : List Word} (us : List Word)

theorem behind (ht : Lexes stop t ws) (hu : plainWords [] u.toList = some (us, false)) :
    Lexes stop (u ++ t) (us ++ ws) :=
  (lexes_plain hu).append ht (fits_never _ _)

variable (hs : Lexes stop s ws)
  (hu : plainWords [] u.toList = some (us, false) ∧ u.toList.head?.any (!stop ·) = true)
include hs hu

theorem joined (ht : Lexes stop' t vs) : Lexes stop' (s ++ (u ++ t)) (ws ++ (us ++ vs)) := by
  obtain ⟨c, hc, hstop⟩ := (Option.any_eq_true _ _).mp hu.2
  refine hs.append (ht.behind us hu.1) (fits_of_head (c := c) ?_ (by simpa using hstop))
  rw [String.toList_append, head?_append, hc]
  rfl

theorem followed : Lexes never (s ++ u) (ws ++ us) := by
  simpa using hs.joined us hu (.empty never)

end Lexes

/-! ## Lines -/

inductive LinesLex : List Line → List Word → Prop
  | nil : LinesLex [] []
  | gap {lines : List Line} {ws : List Word} : LinesLex lines ws → LinesLex (.gap :: lines) ws
  | text {depth : Nat} {content : String} {vs ws : List Word} {lines : List Line} :
    Lexes goesOn content vs → LinesLex lines ws → LinesLex (.text depth content :: lines) (vs ++ ws)

namespace LinesLex

variable {lines lines' : List Line} {ws' : List Word}

theorem append (h : LinesLex lines ws) (h' : LinesLex lines' ws') :
    LinesLex (lines ++ lines') (ws ++ ws') := by
  induction h with
  | nil => exact h'
  | gap _ ih => exact .gap ih
  | text hcontent _ ih =>
    rw [append_assoc, cons_append]
    exact .text hcontent ih

theorem indent (h : LinesLex lines ws) : LinesLex (lines.map Line.indent) ws := by
  induction h with
  | nil => exact .nil
  | gap _ ih => exact .gap ih
  | text hcontent _ ih => exact .text hcontent ih

theorem of {content : String} (h : Lexes goesOn content ws) : LinesLex [Line.of content] ws := by
  rw [← append_nil ws]
  exact .text h .nil

theorem block {opening closing : String} {vs us : List Word} (ho : Lexes goesOn opening vs)
    (h : LinesLex lines ws) (hc : Lexes goesOn closing us) :
    LinesLex (Line.block opening lines closing) (vs ++ (ws ++ us)) :=
  .text ho (h.indent.append (.of hc))

end LinesLex

theorem lexes_blanks (h : ∀ c ∈ cs, isBlank c = true) : Lexes never (String.ofList cs) [] := by
  induction cs with
  | nil => exact .empty never
  | cons c cs ih =>
    have hone := (Lexes.blank (h c (by simp))).append (ih fun d hd => h d (by simp [hd]))
      (fits_never _ _)
    rwa [← String.ofList_append] at hone

theorem exists_onto_gap (unit rev : List Char) :
    ∃ cs : List Char, Line.onto unit rev .gap = cs.reverse ++ rev ∧
      ∀ c ∈ cs, isBlank c = true := by
  unfold Line.onto
  split
  · next heq => cases heq
  · split
    iterate 3 exact ⟨[], rfl, by simp⟩
    · exact ⟨['\n'], rfl, all_eq_true.mp rfl⟩

theorem exists_onto_text {unit : List Char} (hunit : ∀ c ∈ unit, isBlank c = true) (depth : Nat)
    {content : String} {vs : List Word} (h : Lexes goesOn content vs) (rev : List Char) :
    ∃ cs, Line.onto unit rev (.text depth content) = cs.reverse ++ rev ∧
      Lexes never (String.ofList cs) vs := by
  generalize hblanks :
    (if content.isEmpty then [] else (List.replicate depth unit).flatten) = blanks
  have hall : ∀ c ∈ blanks, isBlank c = true := by
    intro c hc
    rw [← hblanks] at hc
    split at hc
    · cases hc
    · obtain ⟨u, hu, hcu⟩ := mem_flatten.mp hc
      rw [eq_of_mem_replicate hu] at hcu
      exact hunit c hcu
  refine ⟨blanks ++ (content.toList ++ ['\n']), ?_, ?_⟩
  · rw [Line.onto, hblanks]
    simp
  · have hline := h.append (Lexes.blank (b := '\n') rfl) (fits_of_head (c := '\n') rfl (by decide))
    have htext := (lexes_blanks hall).append hline (fits_never _ _)
    simpa [String.ofList_append] using htext

/-- Each line adds its words to a text that is kept backwards. -/
theorem exists_foldl_onto {unit : List Char} (hunit : ∀ c ∈ unit, isBlank c = true)
    (h : LinesLex lines ws) (rev : List Char) :
    ∃ cs, lines.foldl (Line.onto unit) rev = cs.reverse ++ rev ∧
      Lexes never (String.ofList cs) ws := by
  induction h generalizing rev with
  | nil => exact ⟨[], rfl, .empty never⟩
  | gap _ ih =>
    obtain ⟨cs, hcs, hblank⟩ := exists_onto_gap unit rev
    obtain ⟨ds, hds, hwords⟩ := ih (Line.onto unit rev .gap)
    refine ⟨cs ++ ds, by rw [foldl_cons, hds, hcs, reverse_append, append_assoc], ?_⟩
    rw [String.ofList_append]
    exact (lexes_blanks hblank).append hwords (fits_never _ _)
  | @text depth content _ _ _ hcontent _ ih =>
    obtain ⟨cs, hcs, hvs⟩ := exists_onto_text hunit depth hcontent rev
    obtain ⟨ds, hds, hwords⟩ := ih (Line.onto unit rev (.text depth content))
    refine ⟨cs ++ ds, by rw [foldl_cons, hds, hcs, reverse_append, append_assoc], ?_⟩
    rw [String.ofList_append]
    exact hvs.append hwords (fits_never _ _)

/-- The tokens of a whole text are its words and the end of the input. -/
theorem Lexes.map_lex (h : Lexes stop text ws) :
    (lex text).map (fun l => l.token.word) = ws ++ [.endOfInput] ∧
      ∀ l ∈ lex text, l.remarks = [] := by
  obtain ⟨ls, hls, hws, hclean⟩ := h Position.origin [] (stops_nil stop)
  rw [append_nil, lexemes_nil] at hls
  rw [lex, hls]
  refine ⟨by rw [map_append, hws]; rfl, fun l hl => ?_⟩
  rcases mem_append.mp hl with hl | hl
  · exact hclean l hl
  · obtain rfl := mem_singleton.mp hl
    rfl

/-- The tokens of printed lines are the words of the lines and the end of the input. -/
theorem exists_lex_render {unit : String} (hunit : ∀ c ∈ unit.toList, isBlank c = true)
    (h : LinesLex lines ws) :
    (lex (Line.render unit lines)).map (fun l => l.token.word) = ws ++ [.endOfInput] ∧
      ∀ l ∈ lex (Line.render unit lines), l.remarks = [] := by
  obtain ⟨cs, hcs, hwords⟩ := exists_foldl_onto hunit h []
  have hrender : Line.render unit lines = String.ofList cs := by
    rw [Line.render, hcs, append_nil, reverse_reverse]
  rw [hrender]
  exact hwords.map_lex

/-! ## What a text without remarks consists of -/

theorem valid_of_token (h : (token p c rest).remarks = []) :
    Word.Valid ⟨(token p c rest).kind, String.ofList (token p c rest).text⟩ := by
  unfold token at h ⊢
  split at h
  · next hc =>
    rw [if_pos hc]
    exact .identifier ⟨c, _, String.toList_ofList, hc, all_eq_true.mp all_takeWhile⟩
  · next hc =>
    rw [if_neg hc]
    split at h
    · next hn =>
      rw [if_pos hn]
      exact .number (by rw [String.toList_ofList]; exact text_of_number hn h)
    · next hn =>
      rw [if_neg hn]
      split at h
      · next hq =>
        rw [if_pos hq]
        exact .string (by rw [String.toList_ofList]; exact quotedText_of_string hq h)
      · next hq =>
        rw [if_neg hq]
        split at h
        · next hs =>
          rw [if_pos hs]
          exact .symbol hs
        · cases h

end ProtoSchema
