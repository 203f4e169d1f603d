import ProtoSchema.Proofs.Grammar.Heard

/-!
Reading with and without recovery. A reading with nothing to report understood every statement. It
never had to recover, and a reading that stops at the first statement it does not understand reads
the same file. `Leads` relates the two: the reading without recovery is the one with it, as far as
it gets.
-/

namespace ProtoSchema

variable {path : List Int}

namespace Production

variable {σ τ α β : Type}

/-! ## Reading as far as the first failure -/

/-- The production `q` does what `p` does, or stops at a place that `p` comes by. -/
class Leads (q p : Production σ α) : Prop where
  cases : ∀ (s : σ) (c : Cursor),
    (∃ a t d, q.run s c = (some a, t, d) ∧ p.run s c = (some a, t, d)) ∨
      ∃ t d, q.run s c = (none, t, d) ∧ d.Onward (p.run s c).2.2

namespace Leads

variable {q p q' p' : Production σ α} {g f : α → Production σ β}

instance bind [h : Leads q p] [k : ∀ a, Leads (g a) (f a)] : Leads (q >>= g) (p >>= f) := by
  refine ⟨fun s c => ?_⟩
  rw [run_bind, run_bind]
  rcases h.cases s c with ⟨a, t, d, hq, hp⟩ | ⟨t, d, hq, honward⟩
  · rw [hq, hp]
    exact (k a).cases t d
  · rw [hq]
    refine .inr ⟨t, d, rfl, ?_⟩
    generalize p.run s c = r at honward
    obtain ⟨_ | a, t', d'⟩ := r
    · exact honward
    · exact honward.trans ((f a).onward t' d')

instance ite {P : Prop} [Decidable P] [Leads q p] [Leads q' p'] :
    Leads (if P then q else q') (if P then p else p') := by
  split <;> infer_instance

instance build {init : τ} {q p : Production τ α} [h : Leads q p] :
    Leads (build init q : Production σ τ) (build init p) := by
  refine ⟨fun s c => ?_⟩
  rw [run_build, run_build]
  rcases h.cases init c with ⟨a, t, d, hq, hp⟩ | ⟨t, d, hq, honward⟩
  · rw [hq, hp]
    exact .inl ⟨t, s, d, rfl, rfl⟩
  · rw [hq]
    refine .inr ⟨s, d, rfl, ?_⟩
    generalize p.run init c = r at honward
    obtain ⟨_ | a, t', d'⟩ := r
    · exact honward
    · exact honward

section Statements

variable {q p : Production σ Unit} [h : Leads q p]

theorem runStatement (s : σ) (c : Cursor) :
    (∃ t d, runStatement .abandon q s c = (some (), t, d) ∧
        runStatement .resume p s c = (some (), t, d)) ∨
      ∃ t d, Production.runStatement .abandon q s c = (none, t, d) ∧
        d.Onward (Production.runStatement .resume p s c).2.2 := by
  unfold Production.runStatement
  rcases h.cases s c with ⟨_, t, d, hq, hp⟩ | ⟨t, d, hq, honward⟩
  · rw [hq, hp]
    by_cases hd : d.position = c.position
    · exact .inr ⟨t, d, by simp [hd], Cursor.unstick_onward _ _⟩
    · exact .inl ⟨t, d, by simp [hd], by simp [hd, Cursor.unstick]⟩
  · rw [hq]
    refine .inr ⟨t, d, rfl, ?_⟩
    generalize p.run s c = r at honward
    obtain ⟨_ | u, t', d'⟩ := r
    · exact (honward.trans d'.skipStatement_onward).trans (Cursor.unstick_onward _ _)
    · exact honward.trans (Cursor.unstick_onward _ _)

instance block {construct : String} :
    Leads (block .abandon construct q) (block .resume construct p) := by
  refine ⟨fun s c => ?_⟩
  simp only [Production.block]
  fun_induction runBlock .abandon construct q s c with
  | case1 s c hend => exact .inl ⟨_, _, _, rfl, by rw [runBlock_eq, if_pos hend]⟩
  | case2 s c hend hnil d =>
    rw [runBlock_eq, if_neg hend, if_pos hnil]
    exact .inr ⟨_, _, rfl, .refl _⟩
  | case3 s c hend hne s₁ d hrun ih =>
    rcases runStatement (h := h) s c with ⟨_, _, hq, hp⟩ | ⟨_, _, hq, _⟩
    · cases hrun.symm.trans hq
      rw [runBlock_eq .resume, if_neg hend, if_neg hne, hp]
      exact ih
    · cases hrun.symm.trans hq
  | case4 s c hend hne s₁ d hrun =>
    rcases runStatement (h := h) s c with ⟨_, _, hq, _⟩ | ⟨_, _, hq, honward⟩
    · cases hrun.symm.trans hq
    · cases hrun.symm.trans hq
      rw [runBlock_eq .resume, if_neg hend, if_neg hne]
      refine .inr ⟨s₁, d, rfl, ?_⟩
      generalize Production.runStatement .resume p s c = r at honward
      obtain ⟨_ | _, s₂, e⟩ := r
      · exact honward
      · exact honward.trans (runBlock_onward .resume construct p s₂ e)

instance statements : Leads (statements .abandon q) (statements .resume p) := by
  refine ⟨fun s c => ?_⟩
  simp only [Production.statements]
  fun_induction runStatements .abandon q s c with
  | case1 s c hnil => exact .inl ⟨_, _, _, rfl, by rw [runStatements_eq, if_pos hnil]⟩
  | case2 s c _ _ d hresume => cases hresume
  | case3 s c hne hbrace d =>
    refine .inr ⟨_, _, rfl, ?_⟩
    rw [runStatements_eq .resume, if_neg hne, if_pos hbrace]
    exact d.bump_onward.trans (runStatements_onward .resume p s d.bump)
  | case4 s c hne hbrace s₁ d hrun ih =>
    rcases runStatement (h := h) s c with ⟨_, _, hq, hp⟩ | ⟨_, _, hq, _⟩
    · cases hrun.symm.trans hq
      rw [runStatements_eq .resume, if_neg hne, if_neg hbrace, hp]
      exact ih
    · cases hrun.symm.trans hq
  | case5 s c hne hbrace s₁ d hrun =>
    rcases runStatement (h := h) s c with ⟨_, _, hq, _⟩ | ⟨_, _, hq, honward⟩
    · cases hrun.symm.trans hq
    · cases hrun.symm.trans hq
      rw [runStatements_eq .resume, if_neg hne, if_neg hbrace]
      refine .inr ⟨s₁, d, rfl, ?_⟩
      generalize Production.runStatement .resume p s c = r at honward
      obtain ⟨_ | _, s₂, e⟩ := r
      · exact honward
      · exact honward.trans (runStatements_onward .resume p s₂ e)

end Statements

instance tolerate {p : Production σ Unit} :
    Leads (tolerate .abandon p) (tolerate .resume p) := by
  refine ⟨fun s c => ?_⟩
  simp only [Production.tolerate]
  generalize p.run s c = r
  obtain ⟨_ | u, t, d⟩ := r
  · exact .inr ⟨t, d, rfl, d.skipStatement_onward⟩
  · exact .inl ⟨u, t, d, rfl, rfl⟩

instance (priority := high) refl {p : Production σ α} : Leads p p := by
  refine ⟨fun s c => ?_⟩
  generalize p.run s c = r
  obtain ⟨_ | a, t, d⟩ := r
  · exact .inr ⟨t, d, rfl, .refl _⟩
  · exact .inl ⟨a, t, d, rfl, rfl⟩

end Leads

/-! ## The productions -/

set_option synthInstance.maxSize 512

instance leads_enum : Leads (enum .abandon path : Production σ Enum) (enum .resume path) := by
  unfold enum
  infer_instance

instance leads_method :
    Leads (method .abandon path : Production σ Method) (method .resume path) := by
  unfold method
  dsimp only
  infer_instance

instance leads_serviceStatement :
    Leads (serviceStatement .abandon path) (serviceStatement .resume path) := by
  unfold serviceStatement
  infer_instance

instance leads_service :
    Leads (service .abandon path : Production σ Service) (service .resume path) := by
  unfold service
  infer_instance

section Messages

variable {dialect : Dialect}

instance leads_extend {extensions : List Field} :
    Leads (extend ⟨dialect, .abandon⟩ path extensions : Production σ (List Field))
      (extend ⟨dialect, .resume⟩ path extensions) := by
  unfold extend
  infer_instance

instance leads_messageStatement {nested nested' : List Int → Production Message Message}
    [∀ path, Leads (nested path) (nested' path)] :
    Leads (messageStatement ⟨dialect, .abandon⟩ path nested)
      (messageStatement ⟨dialect, .resume⟩ path nested') := by
  unfold messageStatement oneof
  infer_instance

instance leads_message {budget : Nat} :
    Leads (message ⟨dialect, .abandon⟩ budget path : Production σ Message)
      (message ⟨dialect, .resume⟩ budget path) := by
  induction budget generalizing σ path with
  | zero =>
    unfold message
    infer_instance
  | succ budget ih =>
    unfold message
    infer_instance

instance leads_topLevelStatement :
    Leads (topLevelStatement ⟨dialect, .abandon⟩) (topLevelStatement ⟨dialect, .resume⟩) := by
  unfold topLevelStatement
  infer_instance

end Messages

instance leads_file : Leads (file .abandon) (file .resume) := by
  unfold file
  dsimp only
  infer_instance

/-! ## Whole files -/

/-- A whole file has been read when the end of the input is reached. -/
theorem atEnd_of_run_abandon {s s' : File} {c d : Cursor}
    (h : (file .abandon).run s c = (some (), s', d)) : d.atEnd = true := by
  have hstatements : ∀ statement : Production File Unit, ∀ s c,
      (statements .abandon statement).run s c = (some (), s', d) → d.atEnd = true := by
    intro statement s c hrun
    simp only [statements] at hrun
    fun_induction runStatements .abandon statement s c with
    | case1 s c hnil =>
      cases hrun
      simp [Cursor.atEnd, hnil]
    | case2 s c _ _ _ hresume => cases hresume
    | case3 => cases hrun
    | case4 s c _ _ _ _ _ ih => exact ih hrun
    | case5 => cases hrun
  obtain ⟨_, _, _, _, h⟩ := exists_run_of_bind h
  obtain ⟨_, _, _, _, h⟩ := exists_run_of_bind h
  dsimp only at h
  split at h
  · obtain ⟨_, _, _, _, h⟩ := exists_run_of_bind h
    obtain ⟨_, _, _, _, h⟩ := exists_run_of_bind h
    exact hstatements _ _ _ h
  · obtain ⟨_, _, _, _, h⟩ := exists_run_of_bind h
    exact hstatements _ _ _ h

end Production

open Production Cursor

/-- What is read to the end without recovery is read the same way with recovery. -/
theorem run_resume_of_abandon {start file : File} {source : String} {c : Cursor}
    (h : (Production.file .abandon).run start (ofSource source) = (some (), file, c)) :
    (Production.file .resume).run start (ofSource source) = (some (), file, c) := by
  rcases leads_file.cases start (ofSource source) with ⟨_, _, _, hq, hp⟩ | ⟨_, _, hq, _⟩
  · cases h.symm.trans hq
    exact hp
  · cases h.symm.trans hq

/-- Where nothing is reported, reading without recovery gets to the end. -/
theorem exists_run_abandon_of_quiet {start : File} {source : String}
    (h : (readInto start (ofSource source)).diagnostics = []) :
    ∃ file c, (Production.file .abandon).run start (ofSource source) = (some (), file, c) ∧
      (Production.file .resume).run start (ofSource source) = (some (), file, c) ∧
      c.diagnostics = [] := by
  have hquiet : ((Production.file .resume).run start (ofSource source)).2.2.diagnostics = [] :=
    h
  have hstrict : ((Production.file .abandon).run start (ofSource source)).2.2.diagnostics = [] := by
    rcases leads_file.cases start (ofSource source) with
      ⟨_, _, _, hq, hp⟩ | ⟨_, _, hq, honward⟩
    · rwa [hq, ← hp]
    · rw [hq]
      exact honward.quiet hquiet
  have hclean : (ofSource source).next.Clean := by
    rw [Production.file, run_open] at hstrict
    exact Cursor.clean_next_ofSource ((Production.onward _ _ _).quiet hstrict)
  generalize hrun : (Production.file .abandon).run start (ofSource source) = outcome at *
  obtain ⟨r, file, c⟩ := outcome
  have hbody := hrun
  rw [Production.file, run_open] at hbody
  obtain ⟨_, rfl, _⟩ := heard_fileBody.clean hclean hbody hstrict
  exact ⟨file, c, rfl, run_resume_of_abandon hrun, hstrict⟩

/-- No declaration is dropped in silence. A text is read with nothing to report exactly if it can be
read to its end without recovery, that is, if no production fails and each statement consumes
something; then both readings go the same way, and every block is closed. So a text is accepted
exactly if the reading that stops at the first failure gets to the end with nothing to report, and
both give the same file. -/
theorem parse_iff_read_without_recovery (start : File) (path source : String) :
    ((readInto start (ofSource source)).diagnostics = [] ↔
      ∃ file c, (Production.file .abandon).run start (ofSource source) = (some (), file, c) ∧
        (Production.file .resume).run start (ofSource source) = (some (), file, c) ∧
        c.diagnostics = [] ∧ c.atEnd = true ∧
        (readInto start (ofSource source)).complete = true) ∧
    ∀ file, (∃ locations, parse path source = .ok (file, locations)) ↔
      ∃ c, (Production.file .abandon).run { name := path } (ofSource source) =
          (some (), file, c) ∧ c.atEnd = true ∧ c.diagnostics = [] := by
  have hterminated : ∀ {start file : File} {c : Cursor} {r : Option Unit},
      (Production.file .resume).run start (ofSource source) = (r, file, c) →
      c.diagnostics = [] → c.unterminated = false := fun hrun hquiet =>
    (onward_of_run hrun).terminated hquiet
  refine ⟨⟨fun h => ?_, ?_⟩, fun file => ⟨?_, ?_⟩⟩
  · obtain ⟨file, c, habandon, hresume, hquiet⟩ := exists_run_abandon_of_quiet h
    refine ⟨file, c, habandon, hresume, hquiet, atEnd_of_run_abandon habandon, ?_⟩
    simp [readInto, hresume, hterminated hresume hquiet]
  · rintro ⟨file, c, _, hresume, hquiet, _⟩
    simp [readInto, hresume, hquiet]
  · rintro ⟨locations, hparse⟩
    obtain ⟨r, d, hrun, hquiet, _⟩ := parse_eq_ok_iff.mp hparse
    have hread : (readInto { name := path } (ofSource source)).diagnostics = [] := by
      simp [readInto, hrun, hquiet]
    obtain ⟨file', c, habandon, hresume, hquiet'⟩ := exists_run_abandon_of_quiet hread
    rw [hrun] at hresume
    cases hresume
    exact ⟨d, habandon, atEnd_of_run_abandon habandon, hquiet'⟩
  · rintro ⟨c, habandon, _, hquiet⟩
    have hresume := run_resume_of_abandon habandon
    exact ⟨_, parse_eq_ok_iff.mpr ⟨_, c, hresume, hquiet, hterminated hresume hquiet, rfl⟩⟩

end ProtoSchema
