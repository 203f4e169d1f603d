import ProtoSchema.Proofs.Compiler.Visit

/-!
A compiler has no memory of its calls. All that a call can change is whether the well-known files
are kept, and a compiler that keeps them goes through the same steps as one that has yet to link
them.
-/

namespace ProtoSchema

namespace Compiler

variable {c d e : Compiler} {library : Library}

/-- What calls can make of a compiler: nothing, or it keeps the well-known files from now on. -/
def Settles (c d : Compiler) : Prop :=
  d = c ∨ ∃ library, c.known = .ok library ∧ d = c.keeping library

theorem known_keeping (c : Compiler) (library : Library) :
    (c.keeping library).known = .ok library :=
  rfl

theorem Settles.known_eq (h : c.Settles d) : d.known = c.known := by
  rcases h with rfl | ⟨library, hk, rfl⟩
  · rfl
  · rw [known_keeping, hk]

theorem Settles.keeping_eq (h : c.Settles d) : d.keeping library = c.keeping library := by
  rcases h with rfl | ⟨_, _, rfl⟩ <;> rfl

theorem Settles.trans (h : c.Settles d) (k : d.Settles e) : c.Settles e := by
  rcases k with rfl | ⟨library, hk, rfl⟩
  · exact h
  · rw [h.known_eq] at hk
    exact .inr ⟨library, hk, h.keeping_eq⟩

/-- Once the well-known files are kept, nothing changes any more. -/
theorem Settles.eq_of_wellKnown (h : c.Settles d) (hk : c.wellKnown = some library) : d = c := by
  rcases h with rfl | ⟨built, hknown, rfl⟩
  · rfl
  · rw [Compiler.known, hk] at hknown
    cases hknown
    exact keeping_eq_self hk

end Compiler

namespace Linking

variable {α β : Type} {roots library : Sources} {chain : List String} {path : String}
  {known : Library} {p : Progress}

/-! ## What a run does to the compiler -/

theorem carries_settles : Carries fun p q => p.compiler.Settles q.compiler where
  refl _ := .inl rfl
  trans h k := h.trans k
  asking p roots path := .inl (Progress.asking_compiler p roots path)
  adding _ _ _ := .inl rfl
  keeping hk := .inr ⟨_, hk, rfl⟩

/-! ## Runs that start with the well-known files -/

def keep (known : Library) (outcome : Except CompileError α × Progress) :
    Except CompileError α × Progress :=
  (outcome.1, outcome.2.keeping known)

private theorem proceed_keep {outcome : Except CompileError α × Progress}
    {next : α → Progress → Except CompileError β × Progress}
    (h : ∀ a, next a (outcome.2.keeping known) = keep known (next a outcome.2)) :
    proceed (keep known outcome) next = keep known (proceed outcome next) := by
  obtain ⟨result, q⟩ := outcome
  cases result with
  | error e => rfl
  | ok a => exact h a

theorem asking_keeping (p : Progress) (roots : Sources) (path : String) :
    (p.keeping known).asking roots path = (p.asking roots path).keeping known := by
  unfold Progress.asking
  split <;> rfl

theorem run_finish_keeping (file : File) (locations : List Location) (p : Progress) :
    (finish path file locations).run (p.keeping known) =
      keep known ((finish path file locations).run p) := by
  have hlink : (p.keeping known).linked.link (p.keeping known).compiler.linker file =
      p.linked.link p.compiler.linker file := rfl
  rw [run_finish, run_finish, hlink]
  cases p.linked.link p.compiler.linker file <;> rfl

theorem run_wellKnown_keeping (h : p.compiler.known = .ok known) :
    wellKnown.run (p.keeping known) = keep known (wellKnown.run p) := by
  rw [run_wellKnown, run_wellKnown, h]
  rfl

theorem run_takeWellKnown_keeping (importer path : String) (h : p.compiler.known = .ok known) :
    (takeWellKnown importer path).run (p.keeping known) =
      keep known ((takeWellKnown importer path).run p) := by
  rw [takeWellKnown]
  cases WellKnown.text? path with
  | none => rfl
  | some text =>
    change (wellKnown >>= _).run _ = keep known ((wellKnown >>= _).run p)
    rw [run_bind, run_bind, run_wellKnown_keeping h]
    refine proceed_keep fun library => ?_
    cases library.lookup path <;> rfl

theorem run_visit_keeping (h : p.compiler.known = .ok known)
    (himports : ∀ text, (roots ++ library).lookup path = some text → path ∉ chain →
      ∀ (file : File) (p : Progress), p.compiler.known = .ok known →
        (linkAll roots library (path :: chain) file.imports).run (p.keeping known) =
          keep known ((linkAll roots library (path :: chain) file.imports).run p)) :
    (visit roots library chain path).run (p.keeping known) =
      keep known ((visit roots library chain path).run p) := by
  by_cases hlinked : (p.linked.lookup path).isSome
  · rw [run_visit_of_linked hlinked, run_visit_of_linked (p := p.keeping known) hlinked]
    rfl
  · have hl : p.linked.lookup path = none := Option.not_isSome_iff_eq_none.mp hlinked
    by_cases hc : path ∈ chain
    · rw [run_visit_of_waiting hl hc, run_visit_of_waiting (p := p.keeping known) hl hc]
      rfl
    · rw [run_visit_of_new hl hc, run_visit_of_new (p := p.keeping known) hl hc, asking_keeping]
      have hasked : (p.asking roots path).compiler.known = .ok known := by
        rw [Progress.asking_compiler, h]
      cases ht : (roots ++ library).lookup path with
      | none => exact run_takeWellKnown_keeping _ path hasked
      | some text =>
        dsimp only
        cases parse path text with
        | error e => rfl
        | ok r =>
          dsimp only
          rw [himports text ht hc r.1 _ hasked]
          exact proceed_keep fun _ => run_finish_keeping r.1 r.2 _

/-- A run that starts with the well-known files does what one does that would link them. -/
theorem run_linkAll_keeping (chain paths : List String) (h : p.compiler.known = .ok known) :
    (linkAll roots library chain paths).run (p.keeping known) =
      keep known ((linkAll roots library chain paths).run p) := by
  induction chain, paths using linkAll.induct roots library generalizing p with
  | case1 chain =>
    rw [run_linkAll_nil, run_linkAll_nil]
    rfl
  | case2 chain path paths ihrest ihimports =>
    have hvisit := carries_settles.run_visit roots library chain path p
    rw [run_linkAll_cons, run_linkAll_cons,
      run_visit_keeping h fun text ht hc file p => ihimports hc text ht file]
    exact proceed_keep fun _ => ihrest (hvisit.known_eq.trans h)

end Linking

namespace Compiler

variable {c d : Compiler} {known : Library}

theorem settles_link (c : Compiler) (roots library : Sources) :
    c.Settles (c.link roots library).compiler :=
  Linking.carries_settles.run_linkAll roots library [] roots.sortedPaths { compiler := c }

theorem link_keeping (h : c.known = .ok known) (roots library : Sources) :
    (c.keeping known).link roots library =
      { c.link roots library with compiler := (c.link roots library).compiler.keeping known } := by
  let start : Progress := { compiler := c }
  have hrun : (Linking.linkAll roots library [] roots.sortedPaths).run (start.keeping known) =
      Linking.keep known ((Linking.linkAll roots library [] roots.sortedPaths).run start) :=
    Linking.run_linkAll_keeping [] roots.sortedPaths h
  change (Linking.linkAll roots library [] roots.sortedPaths).run
    { compiler := c.keeping known } = _ at hrun
  unfold link
  rw [hrun]
  rfl

theorem settles_compile (c : Compiler) (roots : Sources) (targets : List Target)
    (library : Sources) : c.Settles (c.compile roots targets library).compiler := by
  unfold compile
  split
  · exact .inl rfl
  · exact c.settles_link roots library

theorem compile_keeping (h : c.known = .ok known) (roots : Sources) (targets : List Target)
    (library : Sources) :
    (c.keeping known).compile roots targets library =
      { c.compile roots targets library with
        compiler := (c.compile roots targets library).compiler.keeping known } := by
  have hplan : (c.keeping known).plan targets = c.plan targets := rfl
  unfold compile
  rw [hplan, link_keeping h]
  cases c.plan targets <;> rfl

/-! ## Calls, one after the other -/

inductive Call
  | link (roots library : Sources)
  | compile (roots : Sources) (targets : List Target) (library : Sources)

inductive Reply
  | linked (result : Except CompileError Library) (asked : List String)
  | compiled (result : Except CompileError (List Output)) (asked : List String)

def answer (c : Compiler) : Call → Reply × Compiler
  | .link roots library =>
    let outcome := c.link roots library
    (.linked outcome.result outcome.asked, outcome.compiler)
  | .compile roots targets library =>
    let outcome := c.compile roots targets library
    (.compiled outcome.result outcome.asked, outcome.compiler)

/-- The replies to calls that are made one after the other, and the compiler after the last. -/
def answers (c : Compiler) : List Call → List Reply × Compiler
  | [] => ([], c)
  | call :: calls =>
    let (reply, next) := c.answer call
    let (replies, last) := next.answers calls
    (reply :: replies, last)

theorem settles_answer (c : Compiler) (call : Call) : c.Settles (c.answer call).2 := by
  cases call with
  | link roots library => exact c.settles_link roots library
  | compile roots targets library => exact c.settles_compile roots targets library

theorem settles_answers (c : Compiler) (calls : List Call) : c.Settles (c.answers calls).2 := by
  induction calls generalizing c with
  | nil => exact .inl rfl
  | cons call calls ih => exact (c.settles_answer call).trans (ih _)

theorem reply_keeping (h : c.known = .ok known) (call : Call) :
    ((c.keeping known).answer call).1 = (c.answer call).1 := by
  cases call with
  | link roots library => simp only [answer, link_keeping h]
  | compile roots targets library => simp only [answer, compile_keeping h]

theorem Settles.reply_eq (h : c.Settles d) (call : Call) :
    (d.answer call).1 = (c.answer call).1 := by
  rcases h with rfl | ⟨known, hk, rfl⟩
  · rfl
  · exact reply_keeping hk call

theorem Settles.replies_eq (h : c.Settles d) (calls : List Call) :
    (d.answers calls).1 = calls.map fun call => (c.answer call).1 := by
  induction calls generalizing d with
  | nil => rfl
  | cons call calls ih =>
    simp only [answers, List.map_cons, h.reply_eq call, ih (h.trans (d.settles_answer call))]

private theorem answers_append (c : Compiler) (calls more : List Call) :
    (c.answers (calls ++ more)).2 = ((c.answers calls).2.answers more).2 := by
  induction calls generalizing c with
  | nil => rfl
  | cons call calls ih => exact ih _

/-- A compiler that is used for one call after the other replies to each as if it were new,
whether the calls before it succeeded or failed. After any of them it is as it was, or it keeps
the well-known files as its linker makes them, and then it stays as it is. -/
theorem answers_without_history (linker : Linker) (generators : List Generator)
    (recordLocations : Bool) (calls : List Call) :
    let c : Compiler := { linker, generators, recordLocations }
    (c.answers calls).1 = calls.map (fun call => (c.answer call).1) ∧
      ((c.answers calls).2 = c ∨
        ∃ known, WellKnown.library linker = .ok known ∧
          (c.answers calls).2 = { c with wellKnown := some known }) ∧
      ∀ more, (c.answers calls).2.wellKnown.isSome →
        (c.answers (calls ++ more)).2 = (c.answers calls).2 := by
  intro c
  refine ⟨Settles.replies_eq (.inl rfl) calls, c.settles_answers calls, fun more hbuilt => ?_⟩
  obtain ⟨known, hknown⟩ := Option.isSome_iff_exists.mp hbuilt
  rw [answers_append]
  exact (settles_answers _ more).eq_of_wellKnown hknown

end Compiler

end ProtoSchema
