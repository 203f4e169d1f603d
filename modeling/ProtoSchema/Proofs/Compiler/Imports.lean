import Mathlib.Data.List.Chain
import Mathlib.Logic.Relation
import ProtoSchema.Proofs.Compiler.Visit

/-!
The import graph of a set of sources, and the linked file that each path stands for. A path that
reaches a cycle stands for no file. A run of the linker adds only files that their paths stand for,
and a failure of it points at something in the graph.
-/

namespace ProtoSchema

open Relation List Sources

variable {path : String} {file : File} {locations : List Location} {a : LinkedFile}
  {chain paths : List String} {roots : Sources} {p : Progress}

namespace Sources

/-- The text under a path: that of a root if there is one, and otherwise that of the library. -/
def text? (roots library : Sources) (path : String) : Option String :=
  (roots.lookup path).or (library.lookup path)

theorem lookup_append_eq (roots library : Sources) (path : String) :
    (roots ++ library).lookup path = text? roots library path :=
  lookup_append

end Sources

/-! ## The graph -/

section Graph

variable (source : String → Option String)

def Reads (path : String) (file : File) (locations : List Location) : Prop :=
  ∃ text, source path = some text ∧ parse path text = .ok (file, locations)

def Imports (path next : String) : Prop :=
  ∃ file locations, Reads source path file locations ∧ next ∈ file.imports

/-- The path is a root or imported, over any number of steps, by one. -/
def Reachable (roots : Sources) (path : String) : Prop :=
  ∃ root ∈ roots.paths, ReflTransGen (Imports source) root path

/-- The linked file that a path stands for. -/
inductive Links (c : Compiler) : String → LinkedFile → Prop
  | source {path : String} {file : File} {locations : List Location}
      {dependency : String → LinkedFile} {linked : LinkedFile}
      (hread : Reads source path file locations)
      (himports : ∀ q ∈ file.imports, Links c q (dependency q))
      (hlink : c.linker file (file.imports.map dependency) = .ok linked) :
      Links c path { linked with locations := if c.recordLocations then locations else [] }
  | known {path : String} {known : Library} {linked : LinkedFile}
      (htext : source path = none) (hw : (WellKnown.text? path).isSome)
      (hk : c.known = .ok known) (hl : known.lookup path = some linked) : Links c path linked

variable {source} {c : Compiler}

/-- What shows of a text that is read is that of a file. -/
theorem exists_parse_of_map {α : Type} {x : α} {text : String} {g : File × List Location → α}
    (h : (parse path text).toOption.map g = some x) :
    ∃ file locations, parse path text = .ok (file, locations) ∧ g (file, locations) = x := by
  cases hparse : parse path text with
  | error e =>
    rw [hparse] at h
    cases h
  | ok r =>
    rw [hparse] at h
    exact ⟨r.1, r.2, rfl, Option.some.inj h⟩

theorem Reads.unique {file' : File} {locations' : List Location}
    (h : Reads source path file locations) (h' : Reads source path file' locations') :
    file = file' ∧ locations = locations' := by
  obtain ⟨text, ht, hp⟩ := h
  obtain ⟨text', ht', hp'⟩ := h'
  cases ht.symm.trans ht'
  cases hp.symm.trans hp'
  exact ⟨rfl, rfl⟩

theorem Reads.source_ne_none (h : Reads source path file locations) : source path ≠ none := by
  obtain ⟨text, ht, _⟩ := h
  rw [ht]
  nofun

/-- A path stands for one file at most. -/
theorem Links.unique {b : LinkedFile} (ha : Links source c path a) (hb : Links source c path b) :
    a = b := by
  induction ha generalizing b with
  | source hread _ hlink ih =>
    cases hb with
    | source hread' himports' hlink' =>
      obtain ⟨rfl, rfl⟩ := hread.unique hread'
      rw [map_congr_left fun q hq => ih q hq (himports' q hq)] at hlink
      cases hlink.symm.trans hlink'
      rfl
    | known htext => exact absurd htext hread.source_ne_none
  | known htext _ hk hl =>
    cases hb with
    | source hread => exact absurd htext hread.source_ne_none
    | known _ _ hk' hl' =>
      cases hk.symm.trans hk'
      exact Option.some.inj (hl.symm.trans hl')

theorem Links.of_imports {next : String} (ha : Links source c path a)
    (h : Imports source path next) :
    ∃ b, Links source c next b := by
  obtain ⟨file, locations, hread, hnext⟩ := h
  cases ha with
  | source hread' himports =>
    obtain ⟨rfl, rfl⟩ := hread.unique hread'
    exact ⟨_, himports next hnext⟩
  | known htext => exact absurd htext hread.source_ne_none

theorem Links.of_reachable {next : String} (ha : Links source c path a)
    (h : ReflTransGen (Imports source) path next) : ∃ b, Links source c next b := by
  induction h with
  | refl => exact ⟨a, ha⟩
  | tail _ hstep ih =>
    obtain ⟨b, hb⟩ := ih
    exact hb.of_imports hstep

/-- A path that stands for a file does not import itself, over any number of steps. -/
theorem Links.not_cyclic (ha : Links source c path a) : ¬TransGen (Imports source) path path := by
  induction ha with
  | source hread _ _ ih =>
    intro hcycle
    -- the first import on the cycle is on a cycle itself
    obtain ⟨next, ⟨file, locations, hread', hnext⟩, hback⟩ := TransGen.head'_iff.mp hcycle
    obtain ⟨rfl, rfl⟩ := hread.unique hread'
    exact ih next hnext (TransGen.tail' hback ⟨_, _, hread, hnext⟩)
  | known htext =>
    intro hcycle
    obtain ⟨next, ⟨file, locations, hread, _⟩, _⟩ := TransGen.head'_iff.mp hcycle
    exact hread.source_ne_none htext

/-! ## Cycles -/

/-- The chain leads from the path over imports back to it and meets no other path twice. -/
structure ImportCycle (source : String → Option String) (path : String) (chain : List String) :
    Prop where
  long : 2 ≤ chain.length
  first : chain.head? = some path
  last : chain.getLast? = some path
  distinct : chain.dropLast.Nodup
  imports : chain.IsChain (Imports source)

theorem ImportCycle.cyclic (h : ImportCycle source path chain) :
    TransGen (Imports source) path path := by
  obtain ⟨long, first, last, _, imports⟩ := h
  match chain, long with
  | a :: b :: rest, _ =>
    obtain rfl : a = path := Option.some.inj first
    rw [getLast?_cons_cons] at last
    obtain ⟨hab, hrest⟩ := isChain_cons_cons.mp imports
    have hlast : (b :: rest).getLast (cons_ne_nil _ _) = a :=
      Option.some.inj ((getLast?_eq_some_getLast _).symm.trans last)
    exact TransGen.head' hab (relationReflTransGen_of_exists_isChain_cons rest hrest hlast)

/-- The files of a chain wait for one another, innermost first, and the first one for `paths`. -/
structure Waiting (source : String → Option String) (roots : Sources)
    (chain paths : List String) : Prop where
  distinct : chain.Nodup
  imports : ∀ path ∈ paths, (path :: chain).IsChain fun a b => Imports source b a
  reachable : ∀ path ∈ paths, Reachable source roots path

section Waiting

variable (h : Waiting source roots chain (path :: paths))
include h

theorem Waiting.tail : Waiting source roots chain paths :=
  ⟨h.distinct, fun q hq => h.imports q (mem_cons_of_mem _ hq),
    fun q hq => h.reachable q (mem_cons_of_mem _ hq)⟩

theorem Waiting.inside (hc : path ∉ chain) (hread : Reads source path file locations) :
    Waiting source roots (path :: chain) file.imports where
  distinct := nodup_cons.mpr ⟨hc, h.distinct⟩
  imports q hq := isChain_cons_cons.mpr ⟨⟨file, locations, hread, hq⟩, h.imports path mem_cons_self⟩
  reachable q hq := by
    obtain ⟨root, hroot, hpath⟩ := h.reachable path mem_cons_self
    exact ⟨root, hroot, hpath.tail ⟨file, locations, hread, hq⟩⟩

theorem Waiting.importCycle (hc : path ∈ chain) :
    ImportCycle source path (Linking.cycle path chain) := by
  obtain ⟨inner, outer, rfl⟩ := append_of_mem hc
  have himports := h.imports path mem_cons_self
  obtain ⟨hinner, _, hne⟩ := nodup_append.mp h.distinct
  have hpath : path ∉ inner := fun hmem => hne path hmem path mem_cons_self rfl
  have hcycle : Linking.cycle path (inner ++ path :: outer) =
      path :: (inner.reverse ++ [path]) := by
    have hbefore : ∀ x ∈ inner, decide (x ≠ path) = true :=
      fun x hx => decide_eq_true fun heq => hpath (heq ▸ hx)
    rw [Linking.cycle, takeWhile_append_of_pos hbefore, takeWhile_cons]
    simp
  rw [hcycle]
  refine ⟨by simp, rfl, ?_, ?_, ?_⟩
  · rw [← cons_append, getLast?_append]
    rfl
  · rw [← cons_append, dropLast_concat, nodup_cons, mem_reverse]
    exact ⟨hpath, hinner.reverse.imp Ne.symm⟩
  · have hupto : (path :: inner ++ [path]).IsChain fun a b => Imports source b a := by
      have hsplit : path :: (inner ++ path :: outer) = (path :: inner ++ [path]) ++ outer := by
        simp
      rw [hsplit] at himports
      exact himports.left_of_append
    have hreverse : path :: (inner.reverse ++ [path]) = (path :: inner ++ [path]).reverse := by
      simp
    rw [hreverse]
    exact isChain_reverse.mpr hupto

end Waiting

/-! ## What a run keeps -/

/-- What is linked is what the paths stand for, and the compiler has changed at most in having its
well-known files. -/
structure Progress.Sound (source : String → Option String) (c : Compiler) (p : Progress) :
    Prop where
  linked : ∀ path l, p.linked.lookup path = some l → Links source c path l
  linker : p.compiler.linker = c.linker
  records : p.compiler.recordLocations = c.recordLocations
  known : p.compiler.known = c.known

namespace Progress

variable {q : Progress}

theorem Sound.asking (h : p.Sound source c) (roots : Sources) (path : String) :
    (p.asking roots path).Sound source c := by
  obtain ⟨hlinked, hlinker, hrecords, hknown⟩ := h
  constructor <;> simpa

theorem Sound.keeping (h : p.Sound source c) {known : Library} (hk : p.compiler.known = .ok known) :
    (p.keeping known).Sound source c :=
  ⟨h.linked, h.linker, h.records, hk.symm.trans h.known⟩

theorem lookup_adding (path x : String) (l : LinkedFile) :
    (p.adding path l).linked.lookup x =
      (p.linked.lookup x).or (if x = path then some l else none) := by
  rw [adding, lookup_append, lookup_cons]
  by_cases hx : x = path
  · simp [hx]
  · rw [beq_false_of_ne hx, if_neg hx]
    rfl

theorem Sound.adding (h : p.Sound source c) {l : LinkedFile} (hl : Links source c path l) :
    (p.adding path l).Sound source c := by
  refine ⟨?_, h.linker, h.records, h.known⟩
  intro x m hm
  rw [lookup_adding] at hm
  rcases Option.or_eq_some_iff.mp hm with hm | ⟨_, hm⟩
  · exact h.linked x m hm
  · split at hm
    · next hx =>
      cases hm
      rwa [hx]
    · cases hm

def Extends (p q : Progress) : Prop :=
  ∀ path l, p.linked.lookup path = some l → q.linked.lookup path = some l

theorem Extends.trans {r : Progress} (h : p.Extends q) (k : q.Extends r) : p.Extends r :=
  fun path l hl => k path l (h path l hl)

theorem extends_adding (p : Progress) (path : String) (l : LinkedFile) :
    p.Extends (p.adding path l) := by
  intro x m hm
  rw [lookup_adding, hm]
  rfl

end Progress

/-- Why a run fails: something at a path that can be reached. -/
inductive Explained (source : String → Option String) (c : Compiler) (roots : Sources) :
    CompileError → Prop
  | circular {path : String} {chain : List String} (hr : Reachable source roots path)
      (h : ImportCycle source path chain) : Explained source c roots (.circularImport path chain)
  | unreadable {path text : String} {e : ParseError} (hr : Reachable source roots path)
      (ht : source path = some text) (he : parse path text = .error e) :
      Explained source c roots (.parse e)
  | missing {importer path : String} (hr : Reachable source roots path)
      (ht : source path = none)
      (hw : ∀ known, c.known = .ok known → (WellKnown.text? path).isSome →
        known.lookup path = none) : Explained source c roots (.missingImport importer path)
  | unbuilt {path : String} {e : CompileError} (hr : Reachable source roots path)
      (ht : source path = none) (he : c.known = .error e) : Explained source c roots e
  | rejected {path : String} {file : File} {locations : List Location}
      {dependency : String → LinkedFile} {e : LinkError} (hr : Reachable source roots path)
      (hread : Reads source path file locations)
      (himports : ∀ q ∈ file.imports, Links source c q (dependency q))
      (he : c.linker file (file.imports.map dependency) = .error e) :
      Explained source c roots (.link e)

/-- What is known of a run over `paths` once it has ended. -/
structure Ended (source : String → Option String) (c : Compiler) (roots : Sources)
    (paths : List String) (p : Progress) (outcome : Except CompileError Unit × Progress) :
    Prop where
  sound : outcome.2.Sound source c
  grows : p.Extends outcome.2
  linked : outcome.1 = .ok () → ∀ path ∈ paths, (outcome.2.linked.lookup path).isSome
  explained : ∀ e, outcome.1 = .error e → Explained source c roots e

theorem Ended.failure {q : Progress} {e : CompileError} (hq : q.Sound source c) (hpq : p.Extends q)
    (he : Explained source c roots e) : Ended source c roots paths p (.error e, q) :=
  ⟨hq, hpq, nofun, fun _ heq => Except.error.inj heq ▸ he⟩

theorem Ended.success {q : Progress} (hq : q.Sound source c) (hpq : p.Extends q)
    (hl : ∀ path ∈ paths, (q.linked.lookup path).isSome) :
    Ended source c roots paths p (.ok (), q) :=
  ⟨hq, hpq, fun _ => hl, nofun⟩

private theorem mapM_eq_ok_map {ε α β : Type} {f : α → Except ε β} {g : α → β} {xs : List α}
    (h : ∀ x ∈ xs, f x = .ok (g x)) : xs.mapM f = .ok (xs.map g) := by
  induction xs with
  | nil => rfl
  | cons x xs ih =>
    obtain ⟨hx, hxs⟩ := forall_mem_cons.mp h
    rw [mapM_cons, hx, ih hxs]
    rfl

/-- A file whose imports are linked is linked against what their paths stand for. -/
theorem Progress.Sound.link_eq (h : p.Sound source c)
    (hl : ∀ path ∈ file.imports, (p.linked.lookup path).isSome) :
    ∃ dependency, (∀ q ∈ file.imports, Links source c q (dependency q)) ∧
      p.linked.link p.compiler.linker file = c.linker file (file.imports.map dependency) := by
  have hfound : ∀ q ∈ file.imports,
      p.linked.lookup q = some ((p.linked.lookup q).getD ⟨file, [], []⟩) := by
    intro q hq
    obtain ⟨l, hl⟩ := Option.isSome_iff_exists.mp (hl q hq)
    rw [hl]
    rfl
  refine ⟨fun q => (p.linked.lookup q).getD ⟨file, [], []⟩,
    fun q hq => h.linked q _ (hfound q hq), ?_⟩
  have hdependencies : p.linked.dependencies file =
      .ok (file.imports.map fun q => (p.linked.lookup q).getD ⟨file, [], []⟩) := by
    refine mapM_eq_ok_map fun q hq => ?_
    rw [hfound q hq]
    rfl
  rw [Library.link, hdependencies, h.linker]
  rfl

theorem Progress.isSome_lookup_adding (p : Progress) (path : String) (l : LinkedFile) :
    ((p.adding path l).linked.lookup path).isSome := by
  rw [Progress.lookup_adding]
  cases p.linked.lookup path <;> simp

/-- What the visit of an unvisited path keeps, given what the run over its imports keeps. -/
theorem ended_opened {library : Sources} {outcome : Except CompileError Unit × Progress}
    (hp : p.Sound (text? roots library) c)
    (hw : Waiting (text? roots library) roots chain (path :: paths)) (hc : path ∉ chain)
    (himports : ∀ text, (roots ++ library).lookup path = some text →
      ∀ (file : File) (q : Progress), q.Sound (text? roots library) c →
        Waiting (text? roots library) roots (path :: chain) file.imports →
        Ended (text? roots library) c roots file.imports q
          ((Linking.linkAll roots library (path :: chain) file.imports).run q))
    (h : Linking.Opened roots library chain path p outcome) :
    Ended (text? roots library) c roots [path] p outcome := by
  have hreach := hw.reachable path mem_cons_self
  have hread : ∀ {text file locations}, (roots ++ library).lookup path = some text →
      parse path text = .ok (file, locations) →
      Reads (text? roots library) path file locations :=
    fun ht hf => ⟨_, by rw [← lookup_append_eq, ht], hf⟩
  cases h with
  | unreadable ht he =>
    rw [lookup_append_eq] at ht
    exact .failure hp (fun _ _ hl => hl) (.unreadable hreach ht he)
  | blocked ht hf hrun =>
    have hended := himports _ ht _ p hp (hw.inside hc (hread ht hf))
    rw [hrun] at hended
    exact .failure hended.sound hended.grows (hended.explained _ rfl)
  | rejected ht hf hrun he =>
    have hended := himports _ ht _ p hp (hw.inside hc (hread ht hf))
    rw [hrun] at hended
    obtain ⟨dependency, hlinks, heq⟩ := hended.sound.link_eq (hended.linked rfl)
    exact .failure hended.sound hended.grows
      (.rejected hreach (hread ht hf) hlinks (heq.symm.trans he))
  | linked ht hf hrun hl =>
    have hended := himports _ ht _ p hp (hw.inside hc (hread ht hf))
    rw [hrun] at hended
    obtain ⟨dependency, hlinks, heq⟩ := hended.sound.link_eq (hended.linked rfl)
    refine .success (hended.sound.adding ?_) (hended.grows.trans (Progress.extends_adding _ _ _)) ?_
    · rw [Progress.located, hended.sound.records]
      exact .source (hread ht hf) hlinks (heq.symm.trans hl)
    · exact fun q hq => mem_singleton.mp hq ▸ Progress.isSome_lookup_adding _ _ _
  | foreign ht hnone =>
    rw [lookup_append_eq] at ht
    refine .failure hp (fun _ _ hl => hl) (.missing hreach ht ?_)
    intro known _ hsome
    rw [hnone] at hsome
    cases hsome
  | unbuilt ht _ he =>
    rw [lookup_append_eq] at ht
    exact .failure hp (fun _ _ hl => hl) (.unbuilt hreach ht (hp.known.symm.trans he))
  | missing ht _ hk hl =>
    rw [lookup_append_eq] at ht
    refine .failure (hp.keeping hk) (fun _ _ hl => hl) (.missing hreach ht ?_)
    intro known hknown _
    cases (hk.symm.trans hp.known).trans hknown
    exact hl
  | known ht hsome hk hl =>
    rw [lookup_append_eq] at ht
    refine .success ((hp.keeping hk).adding ?_) (Progress.extends_adding (p.keeping _) _ _) ?_
    · exact .known ht hsome (hp.known.symm.trans hk) hl
    · exact fun q hq => mem_singleton.mp hq ▸ Progress.isSome_lookup_adding _ _ _

/-- What the visit of a path keeps, given what the run over its imports keeps. -/
theorem ended_visit {library : Sources} (hp : p.Sound (text? roots library) c)
    (hw : Waiting (text? roots library) roots chain (path :: paths))
    (himports : path ∉ chain → ∀ text, (roots ++ library).lookup path = some text →
      ∀ (file : File) (q : Progress), q.Sound (text? roots library) c →
        Waiting (text? roots library) roots (path :: chain) file.imports →
        Ended (text? roots library) c roots file.imports q
          ((Linking.linkAll roots library (path :: chain) file.imports).run q)) :
    Ended (text? roots library) c roots [path] p
      ((Linking.visit roots library chain path).run p) := by
  have hvisited := Linking.visited roots library chain path p
  generalize (Linking.visit roots library chain path).run p = outcome at hvisited ⊢
  cases hvisited with
  | cached h => exact .success hp (fun _ _ hl => hl) fun q hq => mem_singleton.mp hq ▸ h
  | circular _ hc =>
    exact .failure hp (fun _ _ hl => hl)
      (.circular (hw.reachable path mem_cons_self) (hw.importCycle hc))
  | opened _ hc h =>
    have hended := ended_opened (hp.asking roots path) hw hc (himports hc) h
    refine ⟨hended.sound, ?_, hended.linked, hended.explained⟩
    intro x l hl
    exact hended.grows x l (by rwa [Progress.asking_linked])

theorem ended_linkAll (roots library : Sources) (chain paths : List String) (p : Progress)
    (hp : p.Sound (text? roots library) c)
    (hw : Waiting (text? roots library) roots chain paths) :
    Ended (text? roots library) c roots paths p
      ((Linking.linkAll roots library chain paths).run p) := by
  induction chain, paths using Linking.linkAll.induct roots library generalizing p with
  | case1 chain =>
    rw [Linking.run_linkAll_nil]
    exact .success hp (fun _ _ hl => hl) fun _ hpath => absurd hpath not_mem_nil
  | case2 chain path paths ihrest ihimports =>
    have hvisit := ended_visit hp hw fun hc text ht file q hq hwait =>
      ihimports hc text ht file q hq hwait
    rw [Linking.run_linkAll_cons]
    generalize (Linking.visit roots library chain path).run p = outcome at hvisit ⊢
    obtain ⟨result, q⟩ := outcome
    cases result with
    | error e => exact .failure hvisit.sound hvisit.grows (hvisit.explained e rfl)
    | ok _ =>
      have hrest := ihrest q hvisit.sound hw.tail
      refine ⟨hrest.sound, hvisit.grows.trans hrest.grows, ?_, hrest.explained⟩
      intro hok x hx
      rcases mem_cons.mp hx with rfl | hx
      · obtain ⟨l, hl⟩ := Option.isSome_iff_exists.mp (hvisit.linked rfl x mem_cons_self)
        exact Option.isSome_iff_exists.mpr ⟨l, hrest.grows x l hl⟩
      · exact hrest.linked hok x hx

end Graph

end ProtoSchema
