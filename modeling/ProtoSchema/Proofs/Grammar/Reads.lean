import ProtoSchema.Proofs.Grammar.Moves
import ProtoSchema.Proofs.Grammar.Yields

/-!
Reading given words. `Reads` says what a production makes of the words before it, whatever the
places they stand at. The rules follow the productions; `After` and `Steps` are the words of lists
and of blocks, put together from those of their items.
-/

namespace ProtoSchema

open Scan List Token

variable {separator : String} {c : Cursor} {ok : Word → Prop} {stop : Char → Bool}

namespace Word

/-- The first of the words that are left, or the end of the input. -/
def front (ws : List Word) : Word :=
  ws.headD .endOfInput

@[simp]
theorem front_cons (w : Word) (ws : List Word) : front (w :: ws) = w :=
  rfl

end Word

namespace Cursor

/-- The words left to read are `ws`, and nothing was remarked about them. -/
structure Offers (c : Cursor) (ws : List Word) : Prop where
  words : c.current.word :: c.ahead.map (fun l => l.token.word) = ws ++ [.endOfInput]
  clean : ∀ l ∈ c.ahead, l.remarks = []

namespace Offers

variable {w : Word} {ws : List Word}

theorem current (h : c.Offers ws) : c.current.word = Word.front ws := by
  have hwords := h.words
  cases ws with
  | nil => exact (List.cons.inj hwords).1
  | cons v vs => exact (List.cons.inj hwords).1

theorem length (h : c.Offers ws) : c.ahead.length = ws.length := by
  simpa using congrArg List.length h.words

theorem ahead_ne_nil (h : c.Offers (w :: ws)) : c.ahead ≠ [] := by
  rw [← length_pos_iff, h.length]
  exact Nat.zero_lt_succ _

theorem ahead_eq_nil (h : c.Offers []) : c.ahead = [] :=
  eq_nil_of_length_eq_zero h.length

theorem bump (h : c.Offers (w :: ws)) :
    c.bump.Offers ws ∧ c.bump.diagnostics = c.diagnostics ∧
      c.bump.unterminated = c.unterminated := by
  obtain ⟨l, rest, hahead⟩ := exists_cons_of_ne_nil h.ahead_ne_nil
  obtain ⟨hwords, hclean⟩ := h
  rw [hahead] at hwords hclean
  have hremarks := hclean l (by simp)
  simp only [Cursor.bump, next, hahead, hremarks, append_nil, and_true]
  exact ⟨(List.cons.inj hwords).2, fun k hk => hclean k (by simp [hk])⟩

end Offers

end Cursor

namespace Production

variable {σ τ α β : Type}

/-- At the words `ws` the production recognises `a`, makes `s'` of `s` and stops at the words `ws'`.
Nothing is reported. -/
def Reads (p : Production σ α) (s : σ) (ws : List Word) (a : α) (s' : σ) (ws' : List Word) :
    Prop :=
  ∀ c : Cursor, c.Offers ws → ∃ d : Cursor, p.run s c = (some a, s', d) ∧ d.Offers ws' ∧
    d.diagnostics = c.diagnostics ∧ d.unterminated = c.unterminated

section Rules

variable {b : β} {k : Token → Production σ β}

variable {s s₁ s₂ : σ} {ws ws₁ ws₂ : List Word}

variable {a : α} (x : String)

theorem Reads.bind {p : Production σ α} {f : α → Production σ β} (h : Reads p s ws a s₁ ws₁)
    (k : Reads (f a) s₁ ws₁ b s₂ ws₂) : Reads (p >>= f) s ws b s₂ ws₂ := by
  intro c hc
  obtain ⟨d, hrun, hd, hdiag, hterm⟩ := h c hc
  obtain ⟨e, hrun', he, hdiag', hterm'⟩ := k d hd
  refine ⟨e, ?_, he, hdiag'.trans hdiag, hterm'.trans hterm⟩
  rw [run_bind, hrun]
  exact hrun'

theorem reads_pure (a : α) : Reads (pure a) s ws a s ws :=
  fun c hc => ⟨c, rfl, hc, rfl, rfl⟩

theorem reads_look {f : Cursor → α} (h : ∀ c : Cursor, c.Offers ws → f c = a) :
    Reads (look f) s ws a s ws :=
  fun c hc => ⟨c, by rw [← h c hc]; rfl, hc, rfl, rfl⟩

theorem Reads.look {f : Cursor → α} {k : α → Production σ β}
    (h : ∀ c : Cursor, c.Offers ws → Reads (k (f c)) s ws b s₂ ws₂) :
    Reads (look f >>= k) s ws b s₂ ws₂ :=
  fun c hc => h c hc c hc

theorem Reads.peek (h : ∀ t : Token, t.word = Word.front ws → Reads (k t) s ws b s₂ ws₂) :
    Reads (peek >>= k) s ws b s₂ ws₂ :=
  .look fun c hc => h c.current hc.current

theorem Reads.token {kind : TokenKind} {text : String} (h : ∀ t : Token, t.kind = kind →
      t.text = text → Reads (k t) s (⟨kind, text⟩ :: ws) b s₂ ws₂) :
    Reads (Production.peek >>= k) s (⟨kind, text⟩ :: ws) b s₂ ws₂ :=
  .peek fun t ht => h t (congrArg Word.kind ht) (congrArg Word.text ht)

theorem Reads.here {k : Position → Production σ β} (h : ∀ place, Reads (k place) s ws b s₂ ws₂) :
    Reads (here >>= k) s ws b s₂ ws₂ :=
  .look fun _ _ => h _

theorem reads_move {f : Cursor → α × Cursor} {hf : ∀ c : Cursor, c.Onward (f c).2}
    (h : ∀ c : Cursor, c.Offers ws → ∃ d : Cursor, f c = (a, d) ∧ d.Offers ws₁ ∧
      d.diagnostics = c.diagnostics ∧ d.unterminated = c.unterminated) :
    Reads (move f hf) s ws a s ws₁ := by
  intro c hc
  obtain ⟨d, hd, hrest⟩ := h c hc
  exact ⟨d, by simp only [move, hd], hrest⟩

theorem Reads.bump {w : Word} (h : ∀ t : Token, t.word = w → Reads (k t) s ws b s₂ ws₂) :
    Reads (bump >>= k) s (w :: ws) b s₂ ws₂ := by
  intro c hc
  obtain ⟨hbump, hdiag, hterm⟩ := hc.bump
  obtain ⟨d, hrun, hd, hdiag', hterm'⟩ := h c.current hc.current c.bump hbump
  exact ⟨d, hrun, hd, hdiag'.trans hdiag, hterm'.trans hterm⟩

theorem reads_record (path : List Int) (start : Position) :
    Reads (record path start) s ws () s ws :=
  reads_move fun c hc => ⟨c.record path start, rfl, ⟨hc.words, hc.clean⟩, rfl, rfl⟩

theorem Reads.built {k : σ → Production σ β} (h : Reads (k s) s ws b s₂ ws₂) :
    Reads (built >>= k) s ws b s₂ ws₂ :=
  h

theorem reads_edit (f : σ → σ) : Reads (edit f) s ws () (f s) ws :=
  fun c hc => ⟨c, rfl, hc, rfl, rfl⟩

theorem reads_build {init t : τ} {p : Production τ α} (h : Reads p init ws a t ws₁) :
    Reads (build init p) s ws t s ws₁ := by
  intro c hc
  obtain ⟨d, hrun, hd, hdiag, hterm⟩ := h c hc
  exact ⟨d, by rw [run_build, hrun], hd, hdiag, hterm⟩

/-! ## Words and symbols -/

theorem reads_atKind (kind : TokenKind) :
    Reads (atKind kind) s ws (decide ((Word.front ws).kind = kind)) s ws :=
  reads_look fun c hc => by rw [← hc.current]; rfl

theorem reads_atSymbol : Reads (atSymbol x) s ws (decide (Word.front ws = .symbol x)) s ws :=
  reads_look fun c hc => by
    rw [Bool.eq_iff_iff, isSymbol_iff, decide_eq_true_eq, hc.current]

theorem reads_atWord : Reads (atWord x) s ws (decide (Word.front ws = .ident x)) s ws :=
  reads_look fun c hc => by
    rw [Bool.eq_iff_iff, isWord_iff, decide_eq_true_eq, hc.current]

theorem reads_eatSymbol : Reads (eatSymbol x) s (.symbol x :: ws) true s ws := by
  refine (reads_atSymbol x).bind ?_
  rw [if_pos (by simp)]
  exact .bump fun _ _ => reads_pure true

theorem reads_eatSymbol_of_ne {x : String} (h : Word.front ws ≠ .symbol x) :
    Reads (eatSymbol x) s ws false s ws := by
  refine (reads_atSymbol x).bind ?_
  rw [if_neg (by simpa using h)]
  exact reads_pure false

theorem reads_eatWord : Reads (eatWord x) s (.ident x :: ws) true s ws := by
  refine (reads_atWord x).bind ?_
  rw [if_pos (by simp)]
  exact .bump fun _ _ => reads_pure true

theorem reads_eatWord_of_ne {x : String} (h : Word.front ws ≠ .ident x) :
    Reads (eatWord x) s ws false s ws := by
  refine (reads_atWord x).bind ?_
  rw [if_neg (by simpa using h)]
  exact reads_pure false

theorem Reads.word {p : Production σ β} {x : String} (hfront : Word.front ws = .ident x)
    (h : ∀ t : Token, (∀ y, t.isWord y = decide (x = y)) → Reads (k t) s ws b s₂ ws₂) :
    Reads (do if ← eatSymbol ";" then p else k (← Production.peek)) s ws b s₂ ws₂ := by
  refine (reads_eatSymbol_of_ne (by simp [hfront])).bind (.peek fun t ht => h t fun y => ?_)
  rw [Bool.eq_iff_iff, isWord_iff, ht, hfront]
  simp

theorem reads_symbol : Reads (symbol x) s (.symbol x :: ws) () s ws :=
  (reads_eatSymbol x).bind (reads_pure ())

theorem reads_word : Reads (word x) s (.ident x :: ws) () s ws :=
  (reads_eatWord x).bind (reads_pure ())

theorem reads_identifier (name what : String) :
    Reads (identifier what) s (.ident name :: ws) name s ws := by
  refine (reads_atKind .identifier).bind ?_
  rw [if_pos (by rfl)]
  exact .bump fun t ht => by
    rw [show t.text = name from congrArg Word.text ht]
    exact reads_pure name

end Rules

/-! ## Lists -/

/-- The words of items, a separator before each. An item is read whole if the word behind it is as
`ok` says. -/
inductive After (separator : String) (item : Production σ α) (ok : Word → Prop) :
    σ → List Word → List α → σ → Prop
  | nil {s : σ} : After separator item ok s [] [] s
  | cons {s s₁ s₂ : σ} {ws vs : List Word} {a : α} {as : List α} :
    (∀ rest, ok (Word.front rest) → Reads item s (ws ++ rest) a s₁ rest) →
    After separator item ok s₁ vs as s₂ →
    After separator item ok s (.symbol separator :: ws ++ vs) (a :: as) s₂

variable {item : Production σ α} {s s₁ s₂ s' : σ} {d : Cursor} {as : List α}

theorem run_after (h : c.current.isSymbol separator = true) (hc : c.ahead ≠ []) :
    (after separator item).run s c =
      (do let a ← item; let as ← after separator item; return a :: as : Production σ _).run s
        c.bump := by
  conv => lhs; simp only [after]
  rw [runAfter, if_pos h, dif_neg hc, run_bind]
  split
  · next hrun => rw [hrun]
  · next hrun =>
    rw [hrun]
    dsimp only
    rw [run_bind]
    conv => rhs; simp only [after]
    split
    · next hrest => rw [hrest]; rfl
    · next hrest => rw [hrest]

theorem runAfter_step {e : Cursor} {a : α} (h : c.current.isSymbol separator = true)
    (hc : c.ahead ≠ []) (hitem : item.run s c.bump = (some a, s₁, d))
    (hmore : runAfter separator item s₁ d = (some as, s₂, e)) :
    runAfter separator item s c = (some (a :: as), s₂, e) := by
  refine (run_after h hc).trans ?_
  rw [run_bind, hitem]
  dsimp only
  rw [run_bind, show (after separator item).run s₁ d = (some as, s₂, e) from hmore]
  rfl

theorem After.reads {ws rest : List Word} (h : After separator item ok s ws as s')
    (hsep : ok (.symbol separator)) (hok : ok (Word.front rest))
    (hrest : Word.front rest ≠ .symbol separator) :
    Reads (after separator item) s (ws ++ rest) as s' rest := by
  induction h with
  | nil =>
    intro c hc
    refine ⟨c, ?_, hc, rfl, rfl⟩
    have hno : c.current.isSymbol separator = false := by
      rw [← Bool.not_eq_true, isSymbol_iff, hc.current]
      exact hrest
    simp only [after]
    rw [runAfter, if_neg (by simp [hno])]
  | @cons s s₁ s₂ ws vs a as hitem hmore ih =>
    intro c hc
    rw [append_assoc, cons_append] at hc
    have hfront : ok (Word.front (vs ++ rest)) := by
      cases hmore with
      | nil => exact hok
      | cons => exact hsep
    have hreads : Reads (do let a ← item; let as ← after separator item; return a :: as) s
        (ws ++ (vs ++ rest)) (a :: as) s₂ rest :=
      (hitem _ hfront).bind (ih.bind (reads_pure (a :: as)))
    obtain ⟨hbump, hdiag, hterm⟩ := hc.bump
    obtain ⟨d, hrun, hd, hdiag', hterm'⟩ := hreads c.bump hbump
    refine ⟨d, ?_, hd, hdiag'.trans hdiag, hterm'.trans hterm⟩
    rw [run_after (isSymbol_iff.mpr hc.current) hc.ahead_ne_nil]
    exact hrun

/-- The text stands for words that are read as `a`, if the text is followed as `stop` says and the
words as `ok` says. -/
def Recovers (stop : Char → Bool) (ok : Word → Prop) (item : Production σ α) (s : σ)
    (text : String) (a : α) (s' : σ) : Prop :=
  ∃ ws, Lexes stop text ws ∧
    ∀ rest, ok (Word.front rest) → Reads item s (ws ++ rest) a s' rest

inductive RecoversAll (stop : Char → Bool) (ok : Word → Prop) (item : Production σ α) :
    σ → List String → List α → σ → Prop
  | nil {s : σ} : RecoversAll stop ok item s [] [] s
  | cons {s s₁ s₂ : σ} {text : String} {a : α} {texts : List String} {as : List α} :
    Recovers stop ok item s text a s₁ → RecoversAll stop ok item s₁ texts as s₂ →
    RecoversAll stop ok item s (text :: texts) (a :: as) s₂

/-- An item of a list. It is read from its text, whatever symbol comes next. -/
abbrev RecoversItem (item : Production σ α) : σ → String → α → σ → Prop :=
  Recovers goesOn (fun w => w.kind = .symbol) item

abbrev RecoversItems (item : Production σ α) : σ → List String → List α → σ → Prop :=
  RecoversAll goesOn (fun w => w.kind = .symbol) item

theorem RecoversAll.append {texts texts' : List String} {bs : List α}
    (h : RecoversAll stop ok item s texts as s₁) (k : RecoversAll stop ok item s₁ texts' bs s₂) :
    RecoversAll stop ok item s (texts ++ texts') (as ++ bs) s₂ := by
  induction h with
  | nil => exact k
  | cons hfirst _ ih => exact .cons hfirst (ih k)

theorem RecoversAll.eq_of_nil (h : RecoversAll stop ok item s [] as s') : s = s' := by
  cases h
  rfl

/-- Texts of the members of a list. `state` is what has been built once the given members have been
read. -/
theorem recoversAll_map {ι : Type} {text : ι → String} {value : ι → α} {items : List ι}
    (state : List ι → σ)
    (h : ∀ done, ∀ i ∈ items,
      Recovers stop ok item (state done) (text i) (value i) (state (done ++ [i]))) (done : List ι) :
    RecoversAll stop ok item (state done) (items.map text) (items.map value)
      (state (done ++ items)) := by
  induction items generalizing done with
  | nil =>
    rw [append_nil]
    exact .nil
  | cons i items ih =>
    have hrest := ih (fun done j hj => h done j (by simp [hj])) (done ++ [i])
    rw [append_assoc, singleton_append] at hrest
    exact .cons (h done i (by simp)) hrest

private theorem exists_intercalate_cons (sep t : String) (ts : List String) :
    ∃ tail, sep.intercalate (t :: ts) = t ++ tail := by
  cases ts with
  | nil => exact ⟨"", by simp [String.intercalate_singleton]⟩
  | cons u ts => exact ⟨_, by rw [String.intercalate_cons_cons, String.append_assoc]⟩

section Separated

variable {stop' : Char → Bool} {sep x : String} {item : Production σ α} {s s' : σ}
  {texts : List String} {as : List α}

/-- Texts joined by a separator stand for the words of lists. -/
theorem RecoversAll.exists_after (h : RecoversAll stop ok item s texts as s')
    (hsep : Lexes stop' sep [.symbol x]) (hfit : Fits stop stop' sep)
    (htexts : ∀ t ∈ texts, Fits stop' never t) :
    ∃ ws, After x item ok s ws as s' ∧
      ∀ t us, Lexes stop t us → Lexes stop (sep.intercalate (t :: texts)) (us ++ ws) := by
  induction h with
  | nil =>
    refine ⟨[], .nil, fun t us ht => ?_⟩
    rwa [String.intercalate_singleton, append_nil]
  | @cons s s₁ s₂ text a texts as hitem _ ih =>
    obtain ⟨vs, hvs, hreads⟩ := hitem
    obtain ⟨ws, hafter, hlex⟩ := ih fun t ht => htexts t (by simp [ht])
    refine ⟨.symbol x :: vs ++ ws, .cons hreads hafter, fun t us ht => ?_⟩
    have hrest := hlex text vs hvs
    have hbehind : Fits stop' stop (sep.intercalate (text :: texts)) := by
      intro rest _
      obtain ⟨tail, htail⟩ := exists_intercalate_cons sep text texts
      rw [htail, String.toList_append, append_assoc]
      exact htexts text (by simp) _ (stops_never _)
    have hsepFits : Fits stop stop (sep ++ sep.intercalate (text :: texts)) := by
      intro rest hrest
      rw [String.toList_append, append_assoc]
      exact hfit _ (hbehind rest hrest)
    rw [String.intercalate_cons_cons, String.append_assoc]
    exact ht.append (hsep.append hrest hbehind) hsepFits

/-- Texts joined by a separator are read as the list of what each is read as. -/
theorem RecoversAll.exists_sepBy {s₀ : σ} {t : String} {a : α} {us : List Word}
    (h : RecoversAll stop ok item s texts as s') (ht : Lexes stop t us)
    (hfirst : ∀ rest, ok (Word.front rest) → Reads item s₀ (us ++ rest) a s rest)
    (hsep : Lexes stop' sep [.symbol x]) (hfit : Fits stop stop' sep)
    (htexts : ∀ t ∈ texts, Fits stop' never t) (hok : ok (.symbol x)) :
    ∃ ws, Lexes stop (sep.intercalate (t :: texts)) (us ++ ws) ∧
      ∀ rest, ok (Word.front rest) → Word.front rest ≠ .symbol x →
        Reads (sepBy x item) s₀ (us ++ ws ++ rest) (a :: as) s' rest := by
  obtain ⟨ws, hafter, hlex⟩ := h.exists_after hsep hfit htexts
  refine ⟨ws, hlex t us ht, fun rest hrest hne => ?_⟩
  have hfront : ok (Word.front (ws ++ rest)) := by
    cases hafter with
    | nil => exact hrest
    | cons => exact hok
  rw [append_assoc]
  exact (hfirst _ hfront).bind ((hafter.reads hok hrest hne).bind (reads_pure (a :: as)))

end Separated

/-! ## Blocks -/

theorem runBlock_step {recovery : Recovery} {construct : String} {statement : Production σ Unit}
    (hclose : c.current.word ≠ .symbol "\x7d") (hc : c.ahead ≠ [])
    (h : runStatement recovery statement s c = (some (), s₁, d)) :
    runBlock recovery construct statement s c = runBlock recovery construct statement s₁ d := by
  rw [runBlock_eq, if_neg (fun h => hclose (isSymbol_iff.mp h)), if_neg hc, h]

theorem runStatements_step {recovery : Recovery} {statement : Production σ Unit}
    (hclose : c.current.word ≠ .symbol "\x7d") (hc : c.ahead ≠ [])
    (h : runStatement recovery statement s c = (some (), s₁, d)) :
    runStatements recovery statement s c = runStatements recovery statement s₁ d := by
  rw [runStatements_eq, if_neg hc, if_neg (fun h => hclose (isSymbol_iff.mp h)), h]

inductive Steps (statement : Production σ Unit) : σ → List Word → σ → Prop
  | nil {s : σ} : Steps statement s [] s
  | cons {s s₁ s₂ : σ} {w : Word} {ws vs : List Word} :
    w ≠ .symbol "\x7d" → (∀ rest, Reads statement s (w :: ws ++ rest) () s₁ rest) →
    Steps statement s₁ vs s₂ → Steps statement s (w :: ws ++ vs) s₂

namespace Steps

variable {statement : Production σ Unit} {s s₁ s₂ : σ} {ws vs : List Word}

theorem append (h : Steps statement s ws s₁) (k : Steps statement s₁ vs s₂) :
    Steps statement s (ws ++ vs) s₂ := by
  induction h with
  | nil => exact k
  | cons hw hfirst _ ih =>
    rw [append_assoc]
    exact .cons hw hfirst (ih k)

/-- A loop that goes on behind the first statement. -/
theorem reads_cons {p : Production σ Unit} {w : Word} {rest : List Word} (hw : w ≠ .symbol "\x7d")
    (hfirst : Reads statement s (w :: ws ++ vs) () s₁ vs) (hloop : Reads p s₁ vs () s₂ rest)
    (hstep : ∀ {c d : Cursor}, c.current.word ≠ .symbol "\x7d" → c.ahead ≠ [] →
      runStatement .resume statement s c = (some (), s₁, d) → p.run s c = p.run s₁ d) :
    Reads p s (w :: ws ++ vs) () s₂ rest := by
  intro c hc
  obtain ⟨d, hrun, hd, hdiag, hterm⟩ := hfirst c hc
  obtain ⟨e, hrun', he, hdiag', hterm'⟩ := hloop d hd
  refine ⟨e, (hstep ?_ hc.ahead_ne_nil (runStatement_of_run hrun ?_)).trans hrun', he,
    hdiag'.trans hdiag, hterm'.trans hterm⟩
  · rw [hc.current]
    exact hw
  · rw [hd.length, hc.length]
    simp only [cons_append, length_cons, length_append]
    omega

theorem reads_block (h : Steps statement s ws s₁) (construct : String) (rest : List Word) :
    Reads (block .resume construct statement) s (ws ++ .symbol "\x7d" :: rest) () s₁ rest := by
  induction h with
  | nil =>
    intro c hc
    obtain ⟨hbump, hdiag, hterm⟩ := hc.bump
    refine ⟨c.bump, ?_, hbump, hdiag, hterm⟩
    simp only [block]
    rw [runBlock, if_pos (isSymbol_iff.mpr hc.current)]
  | cons hw hfirst _ ih =>
    rw [append_assoc]
    exact reads_cons hw (hfirst _) ih runBlock_step

theorem reads_statements (h : Steps statement s ws s₁) :
    Reads (statements .resume statement) s ws () s₁ [] := by
  induction h with
  | nil =>
    intro c hc
    refine ⟨c, ?_, hc, rfl, rfl⟩
    simp only [statements]
    rw [runStatements, dif_pos hc.ahead_eq_nil]
  | cons hw hfirst _ ih => exact reads_cons hw (hfirst _) ih runStatements_step

end Steps

/-- At the given word the statement is read as `p`. -/
def Dispatches (statement p : Production σ Unit) (word : String) : Prop :=
  ∀ {s s' : σ} {ws ws' : List Word}, Word.front ws = .ident word → Reads p s ws () s' ws' →
    Reads statement s ws () s' ws'

def Runs (statement : Production σ Unit) (s : σ) (lines : List Line) (s' : σ) : Prop :=
  ∃ ws, LinesLex lines ws ∧ Steps statement s ws s'

namespace Runs

variable {statement : Production σ Unit} {s s₁ s₂ : σ} {lines lines' : List Line}

theorem nil : Runs statement s [] s :=
  ⟨[], .nil, .nil⟩

theorem gap (h : Runs statement s lines s₁) : Runs statement s (.gap :: lines) s₁ := by
  obtain ⟨ws, hlex, hsteps⟩ := h
  exact ⟨ws, .gap hlex, hsteps⟩

theorem append (h : Runs statement s lines s₁) (k : Runs statement s₁ lines' s₂) :
    Runs statement s (lines ++ lines') s₂ := by
  obtain ⟨ws, hlex, hsteps⟩ := h
  obtain ⟨vs, hlex', hsteps'⟩ := k
  exact ⟨ws ++ vs, hlex.append hlex', hsteps.append hsteps'⟩

theorem single {w : Word} {ws : List Word} (hlex : LinesLex lines (w :: ws))
    (hw : w ≠ .symbol "\x7d") (h : ∀ rest, Reads statement s (w :: ws ++ rest) () s₁ rest) :
    Runs statement s lines s₁ := by
  refine ⟨w :: ws ++ [], ?_, .cons hw h .nil⟩
  rwa [append_nil]

/-- The lines of the members of a list, one after the other. `state` is what has been built once
the given members have been read. -/
theorem flatMap {ι : Type} {linesOf : ι → List Line} {items : List ι} (state : List ι → σ)
    (h : ∀ done, ∀ i ∈ items, Runs statement (state done) (linesOf i) (state (done ++ [i])))
    (done : List ι) :
    Runs statement (state done) (items.flatMap linesOf) (state (done ++ items)) := by
  induction items generalizing done with
  | nil =>
    rw [append_nil]
    exact nil
  | cons i items ih =>
    have hrest := ih (fun done j hj => h done j (by simp [hj])) (done ++ [i])
    rw [append_assoc, singleton_append] at hrest
    exact (h done i (by simp)).append hrest

theorem map {ι : Type} {lineOf : ι → Line} {items : List ι} (state : List ι → σ)
    (h : ∀ done, ∀ i ∈ items, Runs statement (state done) [lineOf i] (state (done ++ [i])))
    (done : List ι) :
    Runs statement (state done) (items.map lineOf) (state (done ++ items)) := by
  rw [map_eq_flatMap]
  exact flatMap state h done

end Runs

end Production

end ProtoSchema
