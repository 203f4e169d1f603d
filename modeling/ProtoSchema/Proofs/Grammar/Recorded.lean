import ProtoSchema.Proofs.Grammar.Takes
import ProtoSchema.Proofs.Schema.Maps

/-!
Declarations that hold no others: fields, enum values and methods. Each leaves one location, from
its first token to its last one, and nothing if it is not understood.
-/

namespace ProtoSchema.Production

variable {path : List Int}

variable {σ α β : Type} {s₀ s : σ} {c₀ c : Cursor}

/-- Since `c₀` tokens have been taken, and nothing has been built or recorded. -/
def Still (s₀ : σ) (c₀ : Cursor) (s : σ) (c : Cursor) : Prop :=
  s = s₀ ∧ c₀.Takes c ∧ c.locations = c₀.locations

theorem still_refl (s : σ) (c : Cursor) : Still s c s c :=
  ⟨rfl, .refl c, rfl⟩

theorem stable_still (s₀ : σ) (c₀ : Cursor) : Stable (Still s₀ c₀) := by
  rintro s c d ⟨hs, htakes, hlocations⟩ hd hsame
  exact ⟨hs, htakes.trans hd, hsame.trans hlocations⟩

/-- What is stable holds where a production fails before it has recorded anything. -/
theorem Stable.still {I : σ → Cursor → Prop} (hI : Stable I) {s s' : σ} {c d : Cursor} (h : I s c)
    (hd : Still s c s' d) : I s' d ∧ c.Takes d := by
  obtain ⟨rfl, htakes, hlocations⟩ := hd
  exact ⟨hI _ _ _ h htakes hlocations, htakes⟩

def Named (s₀ : σ) (c₀ : Cursor) (s : σ) (c : Cursor) : Prop :=
  Still s₀ c₀ s c ∧ c.tokens.length < c₀.tokens.length

theorem stable_named (s₀ : σ) (c₀ : Cursor) : Stable (Named s₀ c₀) := by
  rintro s c d ⟨hstill, hlt⟩ hd hsame
  exact ⟨stable_still s₀ c₀ s c d hstill hd hsame, Nat.lt_of_le_of_lt hd.length_le hlt⟩

structure Recorded (path : List Int) (c d : Cursor) : Prop where
  takes : c.Takes d
  lt : d.tokens.length < c.tokens.length
  locations : d.locations = c.locations ++ [⟨path, c.current.position, d.lastEnd⟩]

namespace Ends

variable {f : α → Production σ β}

variable {E : σ → Cursor → Prop} {Q : β → σ → Cursor → Prop}

theorem look {g : Cursor → α} (h : Ends (f (g c)) s c Q E) :
    Ends (Production.look g >>= f) s c Q E :=
  h

theorem built {f : σ → Production σ β} (h : Ends (f s) s c Q E) :
    Ends (Production.built >>= f) s c Q E :=
  h

theorem report {place : Position} {fault : Fault} {f : Unit → Production σ β}
    (h : Ends (f ()) s (c.report (.ofFault place fault)) Q E) :
    Ends (Production.report place fault >>= f) s c Q E :=
  h

theorem pure {b : β} (h : Q b s c) : Ends (Pure.pure b) s c Q E :=
  h

theorem edit {change : σ → σ} {Q : Unit → σ → Cursor → Prop} (h : Q () (change s) c) :
    Ends (Production.edit change) s c Q E :=
  h

theorem step {p : Production σ α} (h : Keeps ((stable_still s₀ c₀).since c) 0 c.current p)
    (hs : Still s₀ c₀ s c) (hc₀ : c₀.Bounded)
    (k : ∀ a d, Still s₀ c₀ s₀ d → Ends (f a) s₀ d Q (Still s₀ c₀)) :
    Ends (p >>= f) s c Q (Still s₀ c₀) := by
  refine .bind (.of_keeps h hs (hs.2.1.bounded hc₀) (fun a s' d hd _ => ?_) fun _ _ hd _ => hd)
  obtain rfl : s' = s₀ := hd.1
  exact k a d hd

theorem name {what : String} {f : String → Production σ β} (hs : Still s₀ c₀ s c)
    (hc₀ : c₀.Bounded) (k : ∀ x d, Named s₀ c₀ s₀ d → Ends (f x) s₀ d Q (Still s₀ c₀)) :
    Ends (identifier what >>= f) s c Q (Still s₀ c₀) := by
  have hI := stable_still s₀ c₀
  refine .bind (.look (.ite (fun h => ?_) fun _ => ?_))
  · have hkind : c.current.kind = .identifier := of_decide_eq_true h
    have hahead := (hs.2.1.bounded hc₀).ahead_ne_nil (Token.ne_endOfInput hkind)
    obtain rfl : s = s₀ := hs.1
    refine k c.current.text c.bump ⟨hI _ _ _ hs (.bump hahead) c.bump_locations, ?_⟩
    have hlt := Cursor.bump_ahead_lt hahead
    have hle := hs.2.1.length_le
    simp only [Cursor.tokens, List.length_cons, List.length_map] at hle ⊢
    omega
  · exact hI _ _ _ hs (.of_notes rfl rfl rfl) rfl

/-- One step of a production that has read the name and has not recorded anything yet. -/
theorem next {p : Production σ α} (h : Keeps ((stable_named s₀ c₀).since c) 0 c.current p)
    (hs : Named s₀ c₀ s c) (hc₀ : c₀.Bounded)
    (k : ∀ a d, Named s₀ c₀ s₀ d → Ends (f a) s₀ d Q (Still s₀ c₀)) :
    Ends (p >>= f) s c Q (Still s₀ c₀) := by
  refine .bind (.of_keeps h hs (hs.1.2.1.bounded hc₀) (fun a s' d hd _ => ?_) fun _ _ hd _ => hd.1)
  obtain rfl : s' = s₀ := hd.1.1
  exact k a d hd

theorem record {f : Unit → Production σ β} (hs : Named s₀ c₀ s c)
    (h : ∀ d, Recorded path c₀ d → Ends (f ()) s₀ d Q E) :
    Ends (Production.record path c₀.current.position >>= f) s c Q E := by
  obtain ⟨⟨rfl, htakes, hlocations⟩, hlt⟩ := hs
  refine h (c.record path c₀.current.position) ⟨htakes.trans (.of_notes rfl rfl rfl), hlt, ?_⟩
  simp [Cursor.record, hlocations]

end Ends

/-! ## Fields -/

structure FieldRead (inOneof : Bool) (f : Field) (entry : Option Message) : Prop where
  unmarked : inOneof = true → f.proto3Optional = false
  pairType : ∀ n ∈ entry, f.DeclaresMap n

/-- What is written like an option does not matter. -/
theorem FieldRead.sameButOptions {inOneof : Bool} {f : Field} {entry : Option Message}
    (h : FieldRead inOneof f entry) (defaultValue jsonName : Option String) (options : Options) :
    FieldRead inOneof { f with defaultValue, jsonName, options } entry := by
  refine ⟨h.unmarked, fun n hn => ?_⟩
  obtain ⟨hlabel, htypeName, hentry⟩ := h.pairType n hn
  exact ⟨hlabel, htypeName, hentry⟩

theorem fieldRead_declaredField (dialect : Dialect) (inOneof : Bool) (label : Option Label)
    (name : String) (number : Int32) (type : TypeRef ⊕ TypeRef × TypeRef) :
    FieldRead inOneof (declaredField dialect inOneof label name number type).1
      (declaredField dialect inOneof label name number type).2 := by
  cases type with
  | inl type => exact ⟨fun h => by simp [declaredField, h], fun n hn => by cases hn⟩
  | inr types =>
    refine ⟨fun _ => rfl, fun n hn => ?_⟩
    cases hn
    exact ⟨rfl, rfl, _, _, rfl⟩

section Fields

variable {dialect : Dialect} {inOneof : Bool}

theorem fieldRead_of_run {s' : σ} {d : Cursor} {a : Field × Option Message}
    (h : (field dialect path inOneof).run s c = (some a, s', d)) : FieldRead inOneof a.1 a.2 := by
  refine Ends.of_run (Q := fun a _ _ => FieldRead inOneof a.1 a.2) (E := fun _ _ => True) ?_ h
  refine .any fun _ _ _ => .any fun label _ _ => .any fun _ _ _ => .any fun _ _ _ => ?_
  refine .any_guarded fun _ _ => .any fun type _ _ => .any fun name _ _ => .any fun _ _ _ => ?_
  refine .any fun number _ _ => ?_
  have hbare := fieldRead_declaredField dialect inOneof label name number type
  generalize declaredField dialect inOneof label name number type = declared at hbare
  obtain ⟨bare, entry⟩ := declared
  have hend : ∀ f s d start, FieldRead inOneof f entry → Ends (do
      endOfStatement
      record path start
      return (f, entry) : Production σ (Field × Option Message)) s d
      (fun a _ _ => FieldRead inOneof a.1 a.2) fun _ _ => True :=
    fun _ _ _ _ hf => .any fun _ _ _ => .any fun _ _ _ => .pure hf
  refine .any_guarded fun _ _ => .any_guarded fun _ _ => .any fun _ _ _ => .ite (fun _ => ?_)
    fun _ => hend bare _ _ _ hbare
  refine .bind (.of_value fun f _ _ hrun => hend f _ _ _ ?_)
  refine Keeps.of_run_build (I := .any) (J := fun f => FieldRead inOneof f entry) (k := 0)
    (keeps_fieldOptions ?_) trivial hbare hrun
  exact fun _ _ _ hf => ⟨hf.1, hf.2.sameButOptions _ _ _⟩

theorem ends_fieldEnd {bare : Field} {entry : Option Message} (hs : Named s₀ c₀ s c)
    (hc₀ : c₀.Bounded) :
    Ends (do
      let f ← if ← atSymbol "[" then build bare (fieldOptions dialect) else pure bare
      endOfStatement
      record path c₀.current.position
      return (f, entry)) s c (fun _ s' d => s' = s₀ ∧ Recorded path c₀ d) (Still s₀ c₀) := by
  have hrest : ∀ (f : Field) s c, Named s₀ c₀ s c → Ends (do
      endOfStatement
      record path c₀.current.position
      return (f, entry)) s c (fun _ s' d => s' = s₀ ∧ Recorded path c₀ d) (Still s₀ c₀) :=
    fun f s c hs => .next keeps_symbol hs hc₀ fun _ d hd =>
      .record hd fun _ hrecorded => ⟨rfl, hrecorded⟩
  refine .look (.ite (fun _ => ?_) fun _ => hrest bare s c hs)
  have hI : Stable fun (_ : Field) d => Named s₀ c₀ s d := fun _ => stable_named s₀ c₀ s
  have hoptions : Keeps (hI.since c) 0 c.current (fieldOptions dialect) :=
    keeps_fieldOptions fun _ _ _ h => h
  refine .bind (.build (.of_keeps hoptions hs (hs.1.2.1.bounded hc₀) ?_ fun _ d hd _ => hd.1))
  exact fun _ f d hd _ => hrest f s d hd

theorem ends_field (hc : c.Bounded) :
    Ends (field dialect path inOneof) s c (fun _ s' d => s' = s ∧ Recorded path c d)
      (Still s c) := by
  refine .look (.step keeps_label? (still_refl s c) hc fun label _ hd => ?_)
  refine .step (keeps_checkLabel trivial) hd hc fun _ d hd => .look ?_
  refine .ite (fun _ => ?_) fun _ => ?_
  · exact .bind (stable_still s c _ _ _ hd (.of_notes rfl rfl rfl) rfl)
  refine .step keeps_declaredType hd hc fun type _ hd => .name hd hc fun name _ hd => ?_
  refine .next keeps_symbol hd hc fun _ _ hd => .next keeps_int32 hd hc fun number _ hd => ?_
  generalize declaredField dialect inOneof label name number type = declared
  obtain ⟨bare, entry⟩ := declared
  have hinOneof : ∀ d, Named s c s d → Ends (do
      if entry.isSome && inOneof then report c.current.position .mapInOneof
      let f ← if ← atSymbol "[" then build bare (fieldOptions dialect) else pure bare
      endOfStatement
      record path c.current.position
      return (f, entry)) s d (fun _ s' d => s' = s ∧ Recorded path c d) (Still s c) :=
    fun d hd => .ite (fun _ => .next (keeps_report trivial) hd hc fun _ _ hd => ends_fieldEnd hd hc)
      fun _ => ends_fieldEnd hd hc
  exact .ite (fun _ => .next (keeps_report trivial) hd hc fun _ _ hd => hinOneof _ hd)
    fun _ => hinOneof _ hd

end Fields

/-! ## Enum values and methods -/

theorem ends_enumValue {e : Enum} (hc : c.Bounded) :
    Ends (enumValue path) e c
      (fun _ e' d => ∃ v, e' = { e with values := e.values ++ [v] } ∧
        Recorded (Location.child path Location.enumValue e.values.length) c d) (Still e c) := by
  refine .look (.name (still_refl e c) hc fun name _ hd => ?_)
  refine .next keeps_symbol hd hc fun _ _ hd => ?_
  refine .next keeps_int32 hd hc fun number _ hd => ?_
  refine .next keeps_optionalOptions hd hc fun options _ hd => ?_
  refine .next keeps_symbol hd hc fun _ _ hd => .built ?_
  exact .record hd fun _ hrecorded => .edit ⟨_, rfl, hrecorded⟩

theorem ends_method (hc : c.Bounded) (ht : c.current.kind = .identifier) :
    Ends (method .resume path) s c (fun _ s' d => s' = s ∧ Recorded path c d) (Still s c) := by
  refine .look (.step (keeps_bump ht) (still_refl s c) hc fun _ _ hd => ?_)
  refine .name hd hc fun name _ hd => ?_
  refine .next keeps_methodType hd hc fun input _ hd => ?_
  refine .next keeps_word hd hc fun _ _ hd => ?_
  refine .next keeps_methodType hd hc fun output _ hd => ?_
  refine .next (stable_named s c).keeps_eatSymbol hd hc fun _ _ hd => .ite (fun _ => ?_) fun _ => ?_
  · have hI : Stable fun (_ : Method) d => Named s c s d := fun _ => stable_named s c s
    have hstatement : ∀ b u, Keeps (hI.since b) 0 u methodStatement := fun _ _ =>
      keeps_methodStatement fun _ h => h
    refine .bind (.build (.mono (ends_block (hstatement _) hd (hd.1.2.1.bounded hc)) ?_
      fun _ _ h => h))
    rintro _ m d ⟨hd, _⟩
    exact .record hd fun _ hrecorded => ⟨rfl, hrecorded⟩
  · refine .next keeps_symbol hd hc fun _ _ hd => .bind (.pure ?_)
    exact .record hd fun _ hrecorded => ⟨rfl, hrecorded⟩

end ProtoSchema.Production
