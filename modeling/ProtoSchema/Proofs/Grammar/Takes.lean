import ProtoSchema.Proofs.Grammar.Kept

/-!
How far a production gets, whatever comes of it. `Cursor.Takes` says which tokens have been consumed
on the way, and where the last one ended. What does not depend on how far the reading has come is
kept while tokens are taken. `Ends` says what holds where a production ends, with a value or
without.
-/

namespace ProtoSchema

namespace Cursor

variable {c d e : Cursor}

/-- The last token marks the end of the input. -/
def Bounded (c : Cursor) : Prop :=
  c.tokens.getLast?.map Token.kind = some .endOfInput

/-- The tokens between two cursors have been consumed, the last one at last. -/
def Takes (c d : Cursor) : Prop :=
  ∃ read, c.tokens = read ++ d.tokens ∧
    d.lastEnd = (read.getLast?.map Token.finish).getD c.lastEnd

theorem Bounded.ahead_ne_nil (h : c.Bounded) (hkind : c.current.kind ≠ .endOfInput) :
    c.ahead ≠ [] := by
  intro hnil
  simp only [Bounded, tokens, hnil, List.map_nil, List.getLast?_singleton, Option.map_some,
    Option.some.injEq] at h
  exact hkind h

theorem bounded_iff_of_suffix (h : d.tokens <:+ c.tokens) : c.Bounded ↔ d.Bounded := by
  obtain ⟨read, htokens⟩ := h
  rw [Bounded, Bounded, ← htokens, List.getLast?_append, tokens, List.getLast?_cons, Option.some_or]

theorem Onward.bounded (h : c.Onward d) (hc : c.Bounded) : d.Bounded :=
  (bounded_iff_of_suffix h.tokens).mp hc

theorem bump_locations (c : Cursor) : c.bump.locations = c.locations := by
  unfold bump next
  split <;> rfl

namespace Takes

theorem refl (c : Cursor) : c.Takes c :=
  ⟨[], rfl, rfl⟩

theorem of_notes (hcurrent : d.current = c.current) (hahead : d.ahead = c.ahead)
    (hend : d.lastEnd = c.lastEnd) : c.Takes d :=
  ⟨[], by simp [tokens, hcurrent, hahead], by simp [hend]⟩

theorem trans (h : c.Takes d) (k : d.Takes e) : c.Takes e := by
  obtain ⟨read, htokens, hend⟩ := h
  obtain ⟨more, htokens', hend'⟩ := k
  refine ⟨read ++ more, by rw [htokens, htokens', List.append_assoc], ?_⟩
  rw [hend', hend, List.getLast?_append]
  cases more.getLast? with
  | none => rfl
  | some t => rfl

theorem suffix (h : c.Takes d) : d.tokens <:+ c.tokens := by
  obtain ⟨read, htokens, _⟩ := h
  exact ⟨read, htokens.symm⟩

theorem bounded (h : c.Takes d) (hc : c.Bounded) : d.Bounded :=
  (bounded_iff_of_suffix h.suffix).mp hc

theorem length_le (h : c.Takes d) : d.tokens.length ≤ c.tokens.length :=
  h.suffix.length_le

theorem bump (h : c.ahead ≠ []) : c.Takes c.bump := by
  obtain ⟨l, ls, hahead⟩ := List.exists_cons_of_ne_nil h
  refine ⟨[c.current], ?_, ?_⟩
  · simp [tokens, bump_of_cons hahead, hahead]
  · simp [bump_of_cons hahead]

end Takes

end Cursor

namespace Production

variable {σ τ α β : Type}

/-- An invariant of what has been built and noted that does not depend on how far the reading has
come. -/
def Stable (I : σ → Cursor → Prop) : Prop :=
  ∀ (s : σ) (c d : Cursor), I s c → c.Takes d → d.locations = c.locations → I s d

namespace Stable

variable {I : σ → Cursor → Prop} (hI : Stable I) {b c d : Cursor} {s : σ}
include hI

theorem step (h : I s c ∧ b.Bounded ∧ b.Takes c) (htakes : c.Takes d)
    (hsame : d.locations = c.locations) : I s d ∧ b.Bounded ∧ b.Takes d :=
  ⟨hI s c d h.1 htakes hsame, h.2.1, h.2.2.trans htakes⟩

theorem step_bump (h : I s c ∧ b.Bounded ∧ b.Takes c)
    (hne : c.current.kind ≠ .endOfInput ∨ c.ahead ≠ []) : I s c.bump ∧ b.Bounded ∧ b.Takes c.bump :=
  hI.step h (.bump (hne.elim (h.2.2.bounded h.2.1).ahead_ne_nil id)) c.bump_locations

/-- Together with the tokens that have been taken since `b`, what is stable is kept by all that
records nothing. -/
def since (b : Cursor) : Invariant σ where
  Holds s _ c := I s c ∧ b.Bounded ∧ b.Takes c
  Covers _ := True
  Records _ := False
  covers _ := trivial
  bump h hne _ := hI.step_bump h hne
  enter h hopen := hI.step_bump h (.inl (Token.ne_endOfInput (Token.kind_of_isSymbol hopen)))
  leave h hclose := hI.step_bump h (.inl (Token.ne_endOfInput (Token.kind_of_isSymbol hclose)))
  report h _ := hI.step h (.of_notes rfl rfl rfl) rfl
  record _ hpath := hpath.elim
  finish h _ _ _ := hI.step h (.of_notes rfl rfl rfl) rfl

/-- Braces are tokens like others to it. -/
theorem keeps_eatSymbol {x : String} {t : Token} : Keeps (hI.since b) 0 t (eatSymbol x) := by
  refine .atSymbol (.ite (fun h => ?_) fun _ => keeps_pure _)
  refine .bind (keeps_move fun hs ht => hI.step_bump hs (.inl ?_)) fun _ _ => keeps_pure _
  exact ht ▸ Token.ne_endOfInput (Token.kind_of_isSymbol h)

theorem keeps_symbol {x : String} {t : Token} : Keeps (hI.since b) 0 t (symbol x) :=
  hI.keeps_eatSymbol.bind fun _ _ => .ite (fun _ => keeps_pure _) fun _ => keeps_expected

end Stable

/-- What holds where the production ends: `Q` with the value it recognises, `E` without one. -/
def Ends (p : Production σ α) (s : σ) (c : Cursor) (Q : α → σ → Cursor → Prop)
    (E : σ → Cursor → Prop) : Prop :=
  match p.run s c with
  | (some a, s', d) => Q a s' d
  | (none, s', d) => E s' d

namespace Ends

variable {Q : α → σ → Cursor → Prop}

variable {p : Production σ α} {f : α → Production σ β} {s : σ} {c : Cursor} {E : σ → Cursor → Prop}

theorem bind {Q : β → σ → Cursor → Prop}
    (h : Ends p s c (fun a s' d => Ends (f a) s' d Q E) E) : Ends (p >>= f) s c Q E := by
  unfold Ends at h ⊢
  rw [run_bind]
  generalize p.run s c = outcome at h
  obtain ⟨_ | a, s', d⟩ := outcome
  · exact h
  · exact h

theorem mono {P : α → σ → Cursor → Prop} {D : σ → Cursor → Prop} (h : Ends p s c P D)
    (hvalue : ∀ a s' d, P a s' d → Q a s' d) (hnone : ∀ s' d, D s' d → E s' d) :
    Ends p s c Q E := by
  unfold Ends at h ⊢
  generalize p.run s c = outcome at h
  obtain ⟨_ | a, s', d⟩ := outcome
  · exact hnone s' d h
  · exact hvalue a s' d h

theorem of_run (h : Ends p s c Q E) {a : α} {s' : σ} {d : Cursor}
    (hrun : p.run s c = (some a, s', d)) : Q a s' d := by
  unfold Ends at h
  rwa [hrun] at h

theorem of_value (h : ∀ a s' d, p.run s c = (some a, s', d) → Q a s' d) :
    Ends p s c Q fun _ _ => True := by
  unfold Ends
  generalize p.run s c = outcome at h
  obtain ⟨_ | a, s', d⟩ := outcome
  · trivial
  · exact h a s' d rfl

theorem any {Q : β → σ → Cursor → Prop} (h : ∀ a s' d, Ends (f a) s' d Q fun _ _ => True) :
    Ends (p >>= f) s c Q fun _ _ => True :=
  .bind (.of_value fun a s' d _ => h a s' d)

theorem any_guarded {P : Prop} [Decidable P] {p : Production σ Unit} {f : Unit → Production σ β}
    {Q : β → σ → Cursor → Prop} (h : ∀ s' d, Ends (f ()) s' d Q fun _ _ => True) :
    Ends (if P then p >>= f else f ()) s c Q fun _ _ => True := by
  split
  · exact .any fun _ => h
  · exact h s c

/-- Where a production that keeps an invariant ends. -/
theorem of_keeps {I : σ → Cursor → Prop} {hI : Stable I} (h : Keeps (hI.since c) 0 c.current p)
    (hs : I s c) (hc : c.Bounded) (hvalue : ∀ a s' d, I s' d → c.Takes d → Q a s' d)
    (hnone : ∀ s' d, I s' d → c.Takes d → E s' d) : Ends p s c Q E := by
  obtain ⟨hkept, _, htakes⟩ := h 0 s c ⟨hs, hc, .refl c⟩ rfl
  unfold Ends
  generalize p.run s c = outcome at hkept htakes
  obtain ⟨_ | a, s', d⟩ := outcome
  · exact hnone s' d hkept htakes
  · exact hvalue a s' d hkept htakes

theorem ite {P : Prop} [Decidable P] {q : Production σ α} (h : P → Ends p s c Q E)
    (k : ¬P → Ends q s c Q E) : Ends (if P then p else q) s c Q E := by
  split
  · next hP => exact h hP
  · next hP => exact k hP

/-- Where a declaration is built of its own, the one around it is left alone. -/
theorem build {init : τ} {p : Production τ α} {Q : τ → σ → Cursor → Prop}
    (h : Ends p init c (fun _ t d => Q t s d) fun _ d => E s d) :
    Ends (Production.build init p) s c Q E := by
  unfold Ends at h ⊢
  simp only [Production.build]
  generalize p.run init c = outcome at h
  obtain ⟨_ | a, t, d⟩ := outcome
  · exact h
  · exact h

end Ends

variable {I : σ → Cursor → Prop} {hI : Stable I} {b : Cursor}

/-- A production that is specified by where it ends. -/
theorem Keeps.of_ends {i : Nat} {t : Token} {p : Production σ α}
    (h : ∀ s c, I s c → c.Bounded → c.current = t →
      Ends p s c (fun _ s' d => I s' d ∧ c.Takes d) fun s' d => I s' d ∧ c.Takes d) :
    Keeps (hI.since b) i t p := by
  rintro _ s c ⟨hs, hb, htakes⟩ ht
  have hends := h s c hs (htakes.bounded hb) ht
  unfold Ends at hends
  generalize p.run s c = outcome at hends
  obtain ⟨_ | a, s', d⟩ := outcome
  · exact ⟨hends.1, hb, htakes.trans hends.2⟩
  · exact ⟨hends.1, hb, htakes.trans hends.2⟩

/-- Where statements are skipped that are not understood, a block always comes to its end. -/
theorem ends_block {construct : String} {statement : Production σ Unit} {s : σ} {c : Cursor}
    {E : σ → Cursor → Prop} (h : ∀ u, Keeps (hI.since c) 0 u statement) [Moves statement]
    (hs : I s c) (hc : c.Bounded) :
    Ends (block .resume construct statement) s c (fun _ s' d => I s' d ∧ c.Takes d) E := by
  have hstart : (hI.since c).Holds s 1 c := ⟨hs, hc, .refl c⟩
  have hkeeps : Keeps (hI.since c) 1 c.current (block .resume construct statement) :=
    keeps_block h
  have hkept := hkeeps 0 s c hstart rfl
  obtain ⟨s', _, d, hrun, _⟩ := keeps_runBlock h construct hstart
  have hblock : (block .resume construct statement).run s c = (some (), s', d) := hrun
  rw [hblock] at hkept
  rw [Ends, hblock]
  exact ⟨hkept.1, hkept.2.2⟩

end Production

end ProtoSchema
