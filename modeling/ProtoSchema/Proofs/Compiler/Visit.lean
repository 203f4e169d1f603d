import ProtoSchema.Compiler

/-!
What linking does at one path. `Visited` lists every way in which a visit can end, with the
progress it leaves behind, so that what a whole run keeps is shown case by case from it.
-/

namespace ProtoSchema

namespace Compiler

def known (c : Compiler) : Except CompileError Library :=
  match c.wellKnown with
  | some library => .ok library
  | none => WellKnown.library c.linker

def keeping (c : Compiler) (library : Library) : Compiler :=
  { c with wellKnown := some library }

theorem keeping_eq_self {c : Compiler} {library : Library} (h : c.wellKnown = some library) :
    c.keeping library = c := by
  rw [keeping, ← h]

end Compiler

namespace Progress

def asking (p : Progress) (roots : Sources) (path : String) : Progress :=
  if path ∈ roots.paths then p else { p with asked := p.asked ++ [path] }

variable (p : Progress) (roots : Sources) (path : String)

@[simp]
theorem asking_compiler : (p.asking roots path).compiler = p.compiler := by
  unfold asking
  split <;> rfl

@[simp]
theorem asking_linked : (p.asking roots path).linked = p.linked := by
  unfold asking
  split <;> rfl

def adding (p : Progress) (path : String) (linked : LinkedFile) : Progress :=
  { p with linked := p.linked ++ [(path, linked)] }

def keeping (p : Progress) (library : Library) : Progress :=
  { p with compiler := p.compiler.keeping library }

def located (p : Progress) (linked : LinkedFile) (locations : List Location) : LinkedFile :=
  { linked with locations := if p.compiler.recordLocations then locations else [] }

end Progress

namespace Linking

variable {α β : Type}

/-! ## Running steps -/

def proceed (outcome : Except CompileError α × Progress)
    (next : α → Progress → Except CompileError β × Progress) : Except CompileError β × Progress :=
  match outcome with
  | (.ok a, p) => next a p
  | (.error e, p) => (.error e, p)

theorem run_bind (x : Linking α) (f : α → Linking β) (p : Progress) :
    (x >>= f).run p = proceed (x.run p) fun a q => (f a).run q := by
  change (StateT.bind x.run (ExceptT.bindCont f)) p = _
  simp only [StateT.bind, proceed]
  rcases x.run p with ⟨a | a, q⟩ <;> rfl

variable (p : Progress) (roots library : Sources) (path : String) (chain : List String)

private theorem run_get : (get : Linking Progress).run p = (.ok p, p) :=
  rfl

private theorem run_ask (p : Progress) :
    (ask roots path).run p = (.ok (), p.asking roots path) := by
  unfold ask Progress.asking
  split <;> rfl

theorem run_wellKnown :
    wellKnown.run p =
      match p.compiler.known with
      | .ok library => (.ok library, p.keeping library)
      | .error e => (.error e, p) := by
  cases hk : p.compiler.wellKnown with
  | some library =>
    have hknown : p.compiler.known = .ok library := by rw [Compiler.known, hk]
    rw [wellKnown, run_bind, run_get, hknown]
    simp only [proceed, hk, Progress.keeping, Compiler.keeping_eq_self hk]
    rfl
  | none =>
    have hknown : p.compiler.known = WellKnown.library p.compiler.linker := by
      rw [Compiler.known, hk]
    rw [wellKnown, run_bind, run_get, hknown]
    simp only [proceed, hk]
    -- the well-known files are never computed here
    generalize WellKnown.library p.compiler.linker = built
    cases built <;> rfl

theorem run_finish (file : File) (locations : List Location) (p : Progress) :
    (finish path file locations).run p =
      match p.linked.link p.compiler.linker file with
      | .ok linked => (.ok (), p.adding path (p.located linked locations))
      | .error e => (.error (.link e), p) := by
  rw [finish, run_bind, run_get]
  dsimp only [proceed]
  cases p.linked.link p.compiler.linker file <;> rfl

/-! ## One path -/

/-- The visit of one path by `linkAll`. -/
def visit (roots library : Sources) (chain : List String) (path : String) : Linking Unit := do
  if ((← get).linked.lookup path).isSome then pure ()
  else if path ∈ chain then throw (.circularImport path (cycle path chain))
  else
    ask roots path
    match (roots ++ library).lookup path with
    | some text =>
      match parse path text with
      | .ok (file, locations) => do
        linkAll roots library (path :: chain) file.imports
        finish path file locations
      | .error e => throw (.parse e)
    | none => takeWellKnown (chain.head?.getD "") path

theorem run_linkAll_nil (p : Progress) : (linkAll roots library chain []).run p = (.ok (), p) := by
  rw [linkAll]
  rfl

theorem run_linkAll_cons (path : String) (paths : List String) (p : Progress) :
    (linkAll roots library chain (path :: paths)).run p =
      proceed ((visit roots library chain path).run p) fun _ q =>
        (linkAll roots library chain paths).run q := by
  rw [linkAll, visit, run_bind, run_bind, run_get]
  dsimp only [proceed]
  by_cases hl : (p.linked.lookup path).isSome
  · rw [if_pos hl, if_pos hl]
    rfl
  · rw [if_neg hl, if_neg hl]
    by_cases hc : path ∈ chain
    · rw [dif_pos hc, if_pos hc]
      rfl
    · rw [dif_neg hc, if_neg hc, run_bind, run_bind, run_ask]
      dsimp only [proceed]
      rw [run_bind]
      cases (roots ++ library).lookup path <;> rfl

section Visits

variable {roots library : Sources} {chain : List String} {path : String} {p : Progress}

theorem run_visit_of_linked (h : (p.linked.lookup path).isSome) :
    (visit roots library chain path).run p = (.ok (), p) := by
  rw [visit, run_bind, run_get, proceed, if_pos h]
  rfl

theorem run_visit_of_waiting (hl : p.linked.lookup path = none) (hc : path ∈ chain) :
    (visit roots library chain path).run p =
      (.error (.circularImport path (cycle path chain)), p) := by
  rw [visit, run_bind, run_get, proceed, if_neg (by rw [hl]; exact Bool.false_ne_true), if_pos hc]
  rfl

theorem run_visit_of_new (hl : p.linked.lookup path = none) (hc : path ∉ chain) :
    (visit roots library chain path).run p =
      match (roots ++ library).lookup path with
      | some text =>
        match parse path text with
        | .ok (file, locations) =>
          proceed ((linkAll roots library (path :: chain) file.imports).run (p.asking roots path))
            fun _ q => (finish path file locations).run q
        | .error e => (.error (.parse e), p.asking roots path)
      | none => (takeWellKnown (chain.head?.getD "") path).run (p.asking roots path) := by
  rw [visit, run_bind, run_get, proceed, if_neg (by rw [hl]; exact Bool.false_ne_true), if_neg hc,
    run_bind, run_ask, proceed]
  cases (roots ++ library).lookup path with
  | none => rfl
  | some text =>
    dsimp only
    cases parse path text with
    | error e => rfl
    | ok r => exact run_bind _ _ _

end Visits

/-- How the visit of a path that is neither linked nor waited for can end. `p` is the progress
after the path was looked for. -/
inductive Opened (roots library : Sources) (chain : List String) (path : String) (p : Progress) :
    Except CompileError Unit × Progress → Prop
  | unreadable {text : String} {e : ParseError} (ht : (roots ++ library).lookup path = some text)
      (he : parse path text = .error e) : Opened roots library chain path p (.error (.parse e), p)
  | blocked {text : String} {file : File} {locations : List Location} {e : CompileError}
      {q : Progress} (ht : (roots ++ library).lookup path = some text)
      (hf : parse path text = .ok (file, locations))
      (hrun : (linkAll roots library (path :: chain) file.imports).run p = (.error e, q)) :
      Opened roots library chain path p (.error e, q)
  | rejected {text : String} {file : File} {locations : List Location} {e : LinkError}
      {q : Progress} (ht : (roots ++ library).lookup path = some text)
      (hf : parse path text = .ok (file, locations))
      (hrun : (linkAll roots library (path :: chain) file.imports).run p = (.ok (), q))
      (he : q.linked.link q.compiler.linker file = .error e) :
      Opened roots library chain path p (.error (.link e), q)
  | linked {text : String} {file : File} {locations : List Location} {l : LinkedFile}
      {q : Progress} (ht : (roots ++ library).lookup path = some text)
      (hf : parse path text = .ok (file, locations))
      (hrun : (linkAll roots library (path :: chain) file.imports).run p = (.ok (), q))
      (hl : q.linked.link q.compiler.linker file = .ok l) :
      Opened roots library chain path p (.ok (), q.adding path (q.located l locations))
  | foreign (ht : (roots ++ library).lookup path = none) (hw : WellKnown.text? path = none) :
      Opened roots library chain path p
        (.error (.missingImport (chain.head?.getD "") path), p)
  | unbuilt {e : CompileError} (ht : (roots ++ library).lookup path = none)
      (hw : (WellKnown.text? path).isSome) (he : p.compiler.known = .error e) :
      Opened roots library chain path p (.error e, p)
  | missing {known : Library} (ht : (roots ++ library).lookup path = none)
      (hw : (WellKnown.text? path).isSome) (hk : p.compiler.known = .ok known)
      (hl : known.lookup path = none) :
      Opened roots library chain path p
        (.error (.missingImport (chain.head?.getD "") path), p.keeping known)
  | known {known : Library} {l : LinkedFile} (ht : (roots ++ library).lookup path = none)
      (hw : (WellKnown.text? path).isSome) (hk : p.compiler.known = .ok known)
      (hl : known.lookup path = some l) :
      Opened roots library chain path p (.ok (), (p.keeping known).adding path l)

inductive Visited (roots library : Sources) (chain : List String) (path : String) (p : Progress) :
    Except CompileError Unit × Progress → Prop
  | cached (h : (p.linked.lookup path).isSome) : Visited roots library chain path p (.ok (), p)
  | circular (hl : p.linked.lookup path = none) (hc : path ∈ chain) :
      Visited roots library chain path p (.error (.circularImport path (cycle path chain)), p)
  | opened {outcome : Except CompileError Unit × Progress} (hl : p.linked.lookup path = none)
      (hc : path ∉ chain) (h : Opened roots library chain path (p.asking roots path) outcome) :
      Visited roots library chain path p outcome

theorem opened_takeWellKnown {roots library : Sources} {chain : List String} {path : String}
    {p : Progress} (ht : (roots ++ library).lookup path = none) :
    Opened roots library chain path p ((takeWellKnown (chain.head?.getD "") path).run p) := by
  rw [takeWellKnown]
  cases hw : WellKnown.text? path with
  | none => exact .foreign ht hw
  | some text =>
    have hsome : (WellKnown.text? path).isSome := by rw [hw]; rfl
    change Opened roots library chain path p ((wellKnown >>= _).run p)
    rw [run_bind, run_wellKnown]
    cases hk : p.compiler.known with
    | error e => exact .unbuilt ht hsome hk
    | ok known =>
      dsimp only [proceed]
      cases hl : known.lookup path with
      | none => exact .missing ht hsome hk hl
      | some l => exact .known ht hsome hk hl

/-- Every visit ends in one of these ways. -/
theorem visited (path : String) (p : Progress) :
    Visited roots library chain path p ((visit roots library chain path).run p) := by
  by_cases h : (p.linked.lookup path).isSome
  · rw [run_visit_of_linked h]
    exact .cached h
  · have hl : p.linked.lookup path = none := Option.not_isSome_iff_eq_none.mp h
    by_cases hc : path ∈ chain
    · rw [run_visit_of_waiting hl hc]
      exact .circular hl hc
    · rw [run_visit_of_new hl hc]
      refine .opened hl hc ?_
      cases ht : (roots ++ library).lookup path with
      | none => exact opened_takeWellKnown ht
      | some text =>
        dsimp only
        cases hf : parse path text with
        | error e => exact .unreadable ht hf
        | ok r =>
          obtain ⟨file, locations⟩ := r
          dsimp only
          cases hrun : (linkAll roots library (path :: chain) file.imports).run
              (p.asking roots path) with
          | mk result q =>
            cases result with
            | error e => exact .blocked ht hf hrun
            | ok _ =>
              rw [proceed, run_finish]
              cases hlink : q.linked.link q.compiler.linker file with
              | error e => exact .rejected ht hf hrun hlink
              | ok l => exact .linked ht hf hrun hlink

/-! ## What all runs keep -/

/-- The relation holds between the progress before and after each change that a run can make. -/
structure Carries (R : Progress → Progress → Prop) : Prop where
  refl : ∀ p, R p p
  trans : ∀ {p q r}, R p q → R q r → R p r
  asking : ∀ p roots path, R p (p.asking roots path)
  adding : ∀ p path l, R p (p.adding path l)
  keeping : ∀ {p known}, p.compiler.known = .ok known → R p (p.keeping known)

namespace Carries

variable {R : Progress → Progress → Prop} {roots library : Sources} {chain : List String}
  {path : String} {p : Progress} {outcome : Except CompileError Unit × Progress}

theorem of_opened (hR : Carries R)
    (himports : ∀ text, (roots ++ library).lookup path = some text → ∀ file : File,
      R p ((linkAll roots library (path :: chain) file.imports).run p).2)
    (h : Opened roots library chain path p outcome) : R p outcome.2 := by
  have himported : ∀ {text : String} {file : File} {result : Except CompileError Unit}
      {q : Progress}, (roots ++ library).lookup path = some text →
      (linkAll roots library (path :: chain) file.imports).run p = (result, q) → R p q := by
    intro text file result q ht hrun
    have h := himports text ht file
    rwa [hrun] at h
  cases h with
  | unreadable => exact hR.refl p
  | foreign => exact hR.refl p
  | unbuilt => exact hR.refl p
  | missing _ _ hk => exact hR.keeping hk
  | known _ _ hk => exact hR.trans (hR.keeping hk) (hR.adding _ _ _)
  | blocked ht _ hrun => exact himported ht hrun
  | rejected ht _ hrun => exact himported ht hrun
  | linked ht _ hrun => exact hR.trans (himported ht hrun) (hR.adding _ _ _)

theorem of_visited (hR : Carries R)
    (himports : path ∉ chain → ∀ text, (roots ++ library).lookup path = some text →
      ∀ (file : File) (p : Progress),
        R p ((linkAll roots library (path :: chain) file.imports).run p).2)
    (h : Visited roots library chain path p outcome) : R p outcome.2 := by
  cases h with
  | cached => exact hR.refl p
  | circular => exact hR.refl p
  | opened _ hc h =>
    have hopened := hR.of_opened (fun text ht file => himports hc text ht file _) h
    exact hR.trans (hR.asking p roots path) hopened

theorem run_linkAll (hR : Carries R) (roots library : Sources) (chain paths : List String)
    (p : Progress) : R p ((linkAll roots library chain paths).run p).2 := by
  induction chain, paths using linkAll.induct roots library generalizing p with
  | case1 chain =>
    rw [run_linkAll_nil]
    exact hR.refl p
  | case2 chain path paths ihrest ihimports =>
    have hvisit := hR.of_visited ihimports (visited roots library chain path p)
    rw [run_linkAll_cons]
    generalize (visit roots library chain path).run p = outcome at hvisit ⊢
    obtain ⟨result, q⟩ := outcome
    cases result with
    | error e => exact hvisit
    | ok _ => exact hR.trans hvisit (ihrest q)

theorem run_visit (hR : Carries R) (roots library : Sources) (chain : List String) (path : String)
    (p : Progress) : R p ((visit roots library chain path).run p).2 :=
  hR.of_visited (fun _ _ _ file p => hR.run_linkAll roots library _ file.imports p)
    (visited roots library chain path p)

end Carries

end Linking

end ProtoSchema
