import Mathlib.Data.List.ProdSigma
import ProtoSchema.Proofs.Compiler.Coherence

/-!
What a compilation gives out: one text for each root and each target, under paths that have to
differ. Every text is what its target makes of its root alone.
-/

namespace ProtoSchema

open List Sources

variable {l : LinkedFile} {o : Output} {outputs : List Output} {plan : List (Generator × String)}

/-! ## Targets -/

/-- The texts that a generator can write, and the extension of their paths. -/
structure Writer where
  extension : String
  /-- The texts under the parameters that ask for them. -/
  texts : List (String × (LinkedFile → String))

namespace Writer

def json : Writer where
  extension := "json"
  texts :=
    [("", fun l => l.file.toJson.pretty), ("pretty", fun l => l.file.toJson.pretty),
      ("compact", fun l => l.file.toJson.compact)]

def proto : Writer where
  extension := "proto"
  texts := [("", fun l => l.file.print)]

def rust : Writer where
  extension := "rs"
  texts :=
    [("", fun l => RustTypes.render ⟨l, .hash⟩), ("map=hash", fun l => RustTypes.render ⟨l, .hash⟩),
      ("map=btree", fun l => RustTypes.render ⟨l, .btree⟩)]

def builtIn : List (String × Writer) :=
  [("json", json), ("proto", proto), ("rust", rust)]

end Writer

namespace Target

variable {t : Target}

def writer? (t : Target) : Option Writer :=
  Writer.builtIn.lookup t.name

def Known (t : Target) : Prop :=
  t.writer?.isSome

instance : Decidable t.Known :=
  inferInstanceAs (Decidable (t.writer?.isSome = true))

def path? (t : Target) (root : String) : Option String :=
  t.writer?.map fun w => Output.pathFor root w.extension

/-- The text that the target makes of a file, if its generator knows its parameter. -/
def text? (t : Target) : Option (LinkedFile → String) :=
  t.writer?.bind fun w => w.texts.lookup t.parameter

def Accepted (t : Target) : Prop :=
  t.text?.isSome

instance : Decidable t.Accepted :=
  inferInstanceAs (Decidable (t.text?.isSome = true))

def output? (t : Target) (root : String) (l : LinkedFile) : Option Output :=
  (t.path? root).bind fun path => t.text?.map fun text => ⟨path, text l⟩

theorem output?_eq_some_iff {root : String} :
    t.output? root l = some o ↔
      t.path? root = some o.path ∧ ∃ text, t.text? = some text ∧ o.content = text l := by
  rw [output?, Option.bind_eq_some_iff]
  simp only [Option.map_eq_some_iff]
  constructor
  · rintro ⟨path, hpath, text, htext, rfl⟩
    exact ⟨hpath, text, htext, rfl⟩
  · rintro ⟨hpath, text, htext, hcontent⟩
    exact ⟨o.path, hpath, text, htext, by rw [← hcontent]⟩

def RunBy (t : Target) (g : Generator) : Prop :=
  ∀ l os, g.generate l t.parameter = .ok os ↔ ∃ o, t.output? l.name l = some o ∧ os = [o]

/-- A generator of one text that has the same texts as the target's writer. -/
theorem runBy_single {w : Writer} {name : String} {text? : String → Option (LinkedFile → String)}
    (hw : t.writer? = some w) (htext : w.texts.lookup t.parameter = text? t.parameter) :
    t.RunBy (.single name w.extension text?) := by
  intro l os
  simp only [output?, path?, Target.text?, hw, Option.map_some, Option.bind_some, htext,
    Generator.single]
  cases text? t.parameter with
  | none => simp
  | some text => simp [eq_comm]

/-- The built-in generators write what their writers say. -/
theorem runBy_of_find? {g : Generator} (h : Generator.find? Generator.builtIn t.name = some g) :
    t.RunBy g := by
  have hfound := find?_some h
  have hname : g.name = t.name := of_decide_eq_true hfound
  have hmem := mem_of_find?_eq_some h
  simp only [Generator.builtIn, mem_cons, not_mem_nil, or_false] at hmem
  rcases hmem with rfl | rfl | rfl
  · refine runBy_single (w := .json) (by rw [writer?, ← hname]; rfl) (Eq.symm ?_)
    split
    iterate 3 next h => rw [h]; rfl
    · exact (lookup_eq_none_iff.mpr (by simp_all [Writer.json])).symm
  · refine runBy_single (w := .proto) (by rw [writer?, ← hname]; rfl) (Eq.symm ?_)
    split
    · next h => rw [h]; rfl
    · exact (lookup_eq_none_iff.mpr (by simp_all [Writer.proto])).symm
  · refine runBy_single (w := .rust) (by rw [writer?, ← hname]; rfl) (Eq.symm ?_)
    split
    iterate 3 next h => rw [h]; rfl
    · exact (lookup_eq_none_iff.mpr (by simp_all [Writer.rust])).symm

theorem exists_find?_iff :
    (∃ g, Generator.find? Generator.builtIn t.name = some g) ↔ t.Known := by
  have hnames : Generator.builtIn.map Generator.name = Writer.builtIn.map Prod.fst := rfl
  have hknown : t.Known ↔ t.name ∈ Writer.builtIn.map Prod.fst := by
    rw [Known, writer?, lookup_isSome_iff, mem_map]
    simp only [beq_iff_eq, eq_comm (a := t.name)]
  rw [hknown, ← hnames, ← Option.isSome_iff_exists, Generator.find?, find?_isSome, mem_map]
  simp only [decide_eq_true_eq]

end Target

/-! ## Writing outputs -/

namespace Output

theorem write_eq_ok_iff {next : List Output} :
    write outputs o = .ok next ↔ o.path ∉ outputs.map path ∧ next = outputs ++ [o] := by
  have hany : (outputs.any fun p => p.path = o.path) = true ↔ o.path ∈ outputs.map path := by
    simp [any_eq_true]
  rw [write]
  split
  · next h => simp [hany.mp h]
  · next h => simp only [Except.ok.injEq, mt hany.mpr h, not_false_eq_true, true_and, eq_comm]

/-- Outputs are written behind others unless a path comes twice. -/
theorem foldlM_write_eq_ok_iff {more result : List Output} :
    more.foldlM write outputs = .ok result ↔
      (more.map path).Nodup ∧ (∀ o ∈ more, o.path ∉ outputs.map path) ∧
        result = outputs ++ more := by
  induction more generalizing outputs with
  | nil => simp [pure, Except.pure, eq_comm]
  | cons o more ih =>
    have hapart : (∀ p ∈ more, p.path ∉ (outputs ++ [o]).map path) ↔
        (∀ p ∈ more, p.path ∉ outputs.map path) ∧ o.path ∉ more.map path := by
      simp only [map_append, map_cons, map_nil, mem_append, mem_singleton,
        not_or, forall_and, mem_map, not_exists, not_and]
    rw [foldlM_cons, bind_eq_ok_iff]
    simp only [write_eq_ok_iff, ih, map_cons, nodup_cons, forall_mem_cons]
    constructor
    · rintro ⟨_, ⟨ho, rfl⟩, hnodup, hmore, rfl⟩
      obtain ⟨hmore, hnot⟩ := hapart.mp hmore
      exact ⟨⟨hnot, hnodup⟩, ⟨ho, hmore⟩, by simp⟩
    · rintro ⟨⟨hnot, hnodup⟩, ⟨ho, hmore⟩, rfl⟩
      exact ⟨_, ⟨ho, rfl⟩, hnodup, hapart.mpr ⟨hmore, hnot⟩, by simp⟩

/-- Sorting keeps the outputs, and puts distinct paths into strict order. -/
theorem pairwise_sorted (h : (outputs.map path).Nodup) :
    (sorted outputs).Pairwise fun a b => a.path < b.path := by
  have hperm : (sorted outputs).Perm outputs := mergeSort_perm _ _
  have hle : (sorted outputs).Pairwise fun a b => decide (a.path ≤ b.path) = true := by
    refine pairwise_mergeSort ?_ ?_ outputs
    · intro a b c hab hbc
      exact decide_eq_true (String.le_trans (of_decide_eq_true hab) (of_decide_eq_true hbc))
    · intro a b
      simpa using String.le_total a.path b.path
  have hne : (sorted outputs).Pairwise fun a b => a.path ≠ b.path :=
    pairwise_map.mp ((hperm.map path).nodup_iff.mpr h)
  refine (hle.and hne).imp ?_
  rintro a b ⟨hab, hne⟩
  exact Std.lt_of_le_of_ne (of_decide_eq_true hab) hne

end Output

theorem Emission.run_ofOutputs (os outputs : List Output) :
    (ofOutputs os).run outputs = os.foldlM Output.write outputs := by
  induction os generalizing outputs with
  | nil => rfl
  | cons o os ih =>
    rw [ofOutputs, run, foldlM_cons]
    cases Output.write outputs o with
    | error e => rfl
    | ok next => exact ih next

/-- The generator does nothing but write its outputs. -/
def Generator.OnlyWrites (g : Generator) : Prop :=
  ∀ file parameter, g.emission file parameter = .ofResult (g.generate file parameter)

theorem Generator.onlyWrites_of_mem_builtIn {g : Generator} (h : g ∈ builtIn) : g.OnlyWrites := by
  simp only [builtIn, mem_cons, not_mem_nil, or_false] at h
  rcases h with rfl | rfl | rfl <;> exact fun _ _ => rfl

namespace Compiler

variable {c : Compiler} {roots library : Sources} {targets : List Target} {files : Library}

/-! ## Running generators -/

/-- The generators are run one after the other on the files one after the other. -/
theorem emitAll_eq_foldlM (plan : List (Generator × String)) (files : List LinkedFile) :
    emitAll plan files =
      (files ×ˢ plan).foldlM (fun outputs x => emit outputs x.1 x.2.1 x.2.2) [] := by
  rw [emitAll]
  generalize ([] : List Output) = outputs
  induction files generalizing outputs with
  | nil => rfl
  | cons file files ih =>
    rw [product_cons, foldlM_append, foldlM_cons, foldlM_map]
    simp only [ih]

theorem emit_eq_ok_iff {g : Generator} (h : g.OnlyWrites) {parameter : String}
    {result : List Output} :
    emit outputs l g parameter = .ok result ↔
      ∃ os, g.generate l parameter = .ok os ∧ os.foldlM Output.write outputs = .ok result := by
  rw [emit, h]
  cases g.generate l parameter with
  | error e => simp [Emission.ofResult, Emission.run]
  | ok os => simp [Emission.ofResult, Emission.run_ofOutputs]

theorem foldlM_emit_eq_ok_iff {tasks : List (LinkedFile × Generator × String)}
    (hplain : ∀ x ∈ tasks, x.2.1.OnlyWrites) {result : List Output} :
    tasks.foldlM (fun outputs x => emit outputs x.1 x.2.1 x.2.2) outputs = .ok result ↔
      ∃ written, tasks.mapM (fun x => x.2.1.generate x.1 x.2.2) = .ok written ∧
        written.flatten.foldlM Output.write outputs = .ok result := by
  induction tasks generalizing outputs with
  | nil => simp [pure, Except.pure]
  | cons x tasks ih =>
    obtain ⟨hx, htasks⟩ := forall_mem_cons.mp hplain
    simp only [foldlM_cons, bind_eq_ok_iff, ih htasks, mapM_cons, pure_eq_ok_iff, emit_eq_ok_iff hx]
    constructor
    · rintro ⟨next, ⟨os, hos, hnext⟩, written, hwritten, hresult⟩
      refine ⟨os :: written, ⟨os, hos, written, hwritten, rfl⟩, ?_⟩
      rw [flatten_cons, foldlM_append, bind_eq_ok_iff]
      exact ⟨next, hnext, hresult⟩
    · rintro ⟨_, ⟨os, hos, written, hwritten, rfl⟩, hresult⟩
      rw [flatten_cons, foldlM_append, bind_eq_ok_iff] at hresult
      obtain ⟨next, hnext, hresult⟩ := hresult
      exact ⟨next, ⟨os, hos, hnext⟩, written, hwritten, hresult⟩

/-- Everything that is made is given out, and no path may come twice. -/
theorem emitAll_eq_ok_iff (hplain : ∀ x ∈ plan, x.1.OnlyWrites) {files : List LinkedFile} :
    emitAll plan files = .ok outputs ↔
      ∃ written, (files ×ˢ plan).mapM (fun x => x.2.1.generate x.1 x.2.2) = .ok written ∧
        (outputs.map Output.path).Nodup ∧ outputs = written.flatten := by
  rw [emitAll_eq_foldlM, foldlM_emit_eq_ok_iff fun x hx => hplain _ (mem_product.mp hx).2]
  simp only [Output.foldlM_write_eq_ok_iff, map_nil, not_mem_nil, not_false_eq_true,
    implies_true, true_and, nil_append]
  constructor
  · rintro ⟨written, hwritten, hnodup, rfl⟩
    exact ⟨written, hwritten, hnodup, rfl⟩
  · rintro ⟨written, hwritten, hnodup, rfl⟩
    exact ⟨written, hwritten, hnodup, rfl⟩

/-! ## Running targets -/

/-- What the targets make of each root, root by root. -/
def made (targets : List Target) (files : Library) : List (Option Output) :=
  (files ×ˢ targets).map fun x => x.2.output? x.1.1 x.1.2

theorem mem_made_iff {x : Option Output} :
    x ∈ made targets files ↔
      ∃ root l t, (root, l) ∈ files ∧ t ∈ targets ∧ t.output? root l = x := by
  rw [made, mem_map]
  constructor
  · rintro ⟨⟨⟨root, l⟩, t⟩, hmem, hx⟩
    obtain ⟨hl, ht⟩ := mem_product.mp hmem
    exact ⟨root, l, t, hl, ht, hx⟩
  · rintro ⟨root, l, t, hl, ht, hx⟩
    exact ⟨((root, l), t), mem_product.mpr ⟨hl, ht⟩, hx⟩

def picked (t : Target) : Generator × String :=
  ((Generator.find? Generator.builtIn t.name).getD Generator.json, t.parameter)

variable {t : Target} {α β : Type} {path text : String} {os : List Output}

theorem runBy_picked (h : t.Known) : t.RunBy (picked t).1 := by
  obtain ⟨g, hg⟩ := Target.exists_find?_iff.mpr h
  rw [picked, hg]
  exact Target.runBy_of_find? hg

theorem plan_eq_ok_iff (hg : c.generators = Generator.builtIn) :
    c.plan targets = .ok plan ↔ (∀ t ∈ targets, t.Known) ∧ plan = targets.map picked := by
  rw [Compiler.plan, mapM_eq_ok_iff, hg]
  constructor
  · intro h
    have hpicked : List.Forall₂ (fun t x => t.Known ∧ picked t = x) targets plan := by
      refine h.imp fun t x hx => ?_
      rw [← Target.exists_find?_iff, picked]
      cases hfind : Generator.find? Generator.builtIn t.name with
      | some g =>
        rw [hfind] at hx
        exact ⟨⟨g, rfl⟩, Except.ok.inj hx⟩
      | none =>
        rw [hfind] at hx
        cases hx
    constructor
    · intro t ht
      obtain ⟨x, _, hx⟩ := exists_mem_of_forall₂ hpicked.flip ht
      exact hx.1
    · have heq := forall₂_map_left_iff.mpr (hpicked.imp fun _ _ hx => hx.2)
      exact (forall₂_eq_eq_eq ▸ heq : targets.map picked = plan).symm
  · rintro ⟨hknown, rfl⟩
    rw [forall₂_map_right_iff, forall₂_same]
    intro t ht
    obtain ⟨g, hfind⟩ := Target.exists_find?_iff.mpr (hknown t ht)
    rw [picked, hfind]
    rfl

/-- Where each item makes one thing or nothing, all of them make something exactly if all things
are listed. -/
theorem forall₂_singleton_iff {R : α → List β → Prop} {f : α → Option β} {xs : List α}
    {ys : List (List β)} (h : ∀ x ∈ xs, ∀ y, R x y ↔ ∃ b, f x = some b ∧ y = [b]) :
    List.Forall₂ R xs ys ↔ ∃ bs : List β, xs.map f = bs.map some ∧ ys = bs.map ([·]) := by
  induction xs generalizing ys with
  | nil =>
    rw [forall₂_nil_left_iff]
    constructor
    · rintro rfl
      exact ⟨[], rfl, rfl⟩
    · rintro ⟨bs, hbs, rfl⟩
      rw [map_nil, eq_comm, map_eq_nil_iff] at hbs
      rw [hbs, map_nil]
  | cons x xs ih =>
    obtain ⟨hx, hxs⟩ := forall_mem_cons.mp h
    rw [forall₂_cons_left_iff]
    simp only [hx, ih hxs]
    constructor
    · rintro ⟨_, _, ⟨b, hb, rfl⟩, ⟨bs, hbs, rfl⟩, rfl⟩
      exact ⟨b :: bs, by rw [map_cons, hb, hbs, map_cons], rfl⟩
    · rintro ⟨_ | ⟨b, bs⟩, hbs, rfl⟩
      · cases hbs
      · obtain ⟨hb, hbs⟩ := List.cons.inj hbs
        exact ⟨_, _, ⟨b, hb, rfl⟩, ⟨bs, hbs, rfl⟩, rfl⟩

private theorem product_map {γ δ : Type} (f : α → γ) (g : β → δ) (xs : List α) (ys : List β) :
    xs.map f ×ˢ ys.map g = (xs ×ˢ ys).map (Prod.map f g) := by
  induction xs with
  | nil => rfl
  | cons x xs ih =>
    rw [map_cons, product_cons, product_cons, map_append, ih, map_map, map_map]
    rfl

/-- Targets that are known write one text for each root. -/
theorem emitAll_picked_eq_ok_iff (hknown : ∀ t ∈ targets, t.Known)
    (hnames : ∀ x ∈ files, x.2.name = x.1) :
    emitAll (targets.map picked) (files.map Prod.snd) = .ok outputs ↔
      made targets files = outputs.map some ∧ (outputs.map Output.path).Nodup := by
  have hrun : ∀ x ∈ files ×ˢ targets, ∀ os, (picked x.2).1.generate x.1.2 (picked x.2).2 = .ok os ↔
        ∃ o, x.2.output? x.1.1 x.1.2 = some o ∧ os = [o] := by
    rintro ⟨⟨root, l⟩, t⟩ hx os
    obtain ⟨hl, ht⟩ := mem_product.mp hx
    have hname : l.name = root := hnames _ hl
    rw [← hname]
    exact runBy_picked (hknown t ht) l os
  have hflatten : ∀ os : List Output, (os.map ([·])).flatten = os := flatMap_singleton'
  have hplain : ∀ x ∈ targets.map picked, x.1.OnlyWrites := by
    refine forall_mem_map.mpr fun t ht => ?_
    obtain ⟨g, hg⟩ := Target.exists_find?_iff.mpr (hknown t ht)
    rw [picked, hg]
    exact Generator.onlyWrites_of_mem_builtIn (mem_of_find?_eq_some hg)
  rw [emitAll_eq_ok_iff hplain, product_map]
  simp only [mapM_eq_ok_iff, forall₂_map_left_iff, Prod.map_fst, Prod.map_snd,
    forall₂_singleton_iff hrun]
  constructor
  · rintro ⟨_, ⟨os, hos, rfl⟩, hnodup, heq⟩
    rw [hflatten] at heq
    exact ⟨heq ▸ hos, hnodup⟩
  · rintro ⟨hos, hnodup⟩
    exact ⟨_, ⟨outputs, hos, rfl⟩, hnodup, (hflatten outputs).symm⟩

/-! ## Calls -/

/-- A compilation succeeds if all of its steps do. -/
theorem compile_eq_ok_iff_steps :
    (c.compile roots targets library).result = .ok outputs ↔
      ∃ plan files os, c.plan targets = .ok plan ∧ (c.link roots library).result = .ok files ∧
        emitAll plan (files.map Prod.snd) = .ok os ∧ Output.sorted os = outputs := by
  rw [compile]
  cases c.plan targets with
  | error e => simp
  | ok plan =>
    cases hlink : (c.link roots library).result with
    | error e => simp [hlink, bind, Except.bind]
    | ok files =>
      simp only [hlink, bind, Except.bind]
      cases hemit : emitAll plan (files.map Prod.snd) with
      | error e => simp [Except.mapError, hemit]
      | ok os => simp [Except.mapError, pure, Except.pure, hemit]

variable (hl : c.linker = ProtoSchema.link) (hg : c.generators = Generator.builtIn)
  (h : (c.link roots library).result = .ok files)

include hl in
/-- A root stands for a file of its name. -/
theorem name_eq_of_links_root (hpath : path ∈ roots.paths)
    (h : Links (text? roots library) c path l) : l.name = path := by
  refine (h.name_eq_or hl).resolve_right fun ⟨htext, _⟩ => ?_
  obtain ⟨text, ht⟩ := mem_paths_iff.mp hpath
  rw [text?, ht] at htext
  cases htext

include h in
/-- The files that a call gives are what the roots stand for. -/
theorem mem_iff_of_link_eq_ok :
    (path, l) ∈ files ↔ path ∈ roots.paths ∧ Links (text? roots library) c path l := by
  constructor
  · intro hmem
    obtain ⟨result, p, _, hended, hlink⟩ := exists_ended c roots library
    rw [hlink] at h
    cases result with
    | error e => cases h
    | ok _ =>
      obtain rfl := Except.ok.inj h
      obtain ⟨path, hpath, hfound⟩ := mem_filterMap.mp hmem
      obtain ⟨l, hl, heq⟩ := Option.map_eq_some_iff.mp hfound
      cases heq
      exact ⟨mem_sortedPaths.mp hpath, hended.sound.linked path l hl⟩
  · rintro ⟨hpath, hlinks⟩
    obtain ⟨k, hk, hlinks'⟩ := lookup_of_link_eq_ok h hpath
    obtain ⟨before, after, hfiles, _⟩ := lookup_eq_some_iff.mp hk
    rw [hfiles, hlinks.unique hlinks']
    simp

include h in
/-- A call without roots gives no files, and no other does. -/
theorem ne_nil_iff_of_link_eq_ok : files ≠ [] ↔ roots ≠ [] := by
  constructor
  · rintro hfiles rfl
    obtain ⟨⟨path, l⟩, hmem⟩ := exists_mem_of_ne_nil files hfiles
    exact not_mem_nil ((mem_iff_of_link_eq_ok h).mp hmem).1
  · intro hroots
    obtain ⟨⟨path, text⟩, hmem⟩ := exists_mem_of_ne_nil roots hroots
    have hpath : path ∈ roots.paths := mem_map_of_mem hmem
    obtain ⟨l, _, hlinks⟩ := lookup_of_link_eq_ok h hpath
    exact ne_nil_of_mem ((mem_iff_of_link_eq_ok h).mpr ⟨hpath, hlinks⟩)

include hl h in
theorem name_eq_of_mem_link : ∀ x ∈ files, x.2.name = x.1 := by
  rintro ⟨path, l⟩ hx
  obtain ⟨hpath, hlinks⟩ := (mem_iff_of_link_eq_ok h).mp hx
  exact name_eq_of_links_root hl hpath hlinks

include hl hg in
theorem compile_eq_ok_iff :
    (c.compile roots targets library).result = .ok outputs ↔
      (∀ t ∈ targets, t.Known) ∧ ∃ files os, (c.link roots library).result = .ok files ∧
        made targets files = os.map some ∧ (os.map Output.path).Nodup ∧
        Output.sorted os = outputs := by
  rw [compile_eq_ok_iff_steps]
  constructor
  · rintro ⟨plan, files, os, hplan, hlink, hemit, rfl⟩
    obtain ⟨hknown, rfl⟩ := (plan_eq_ok_iff hg).mp hplan
    obtain ⟨hmade, hnodup⟩ :=
      (emitAll_picked_eq_ok_iff hknown (name_eq_of_mem_link hl hlink)).mp hemit
    exact ⟨hknown, files, os, hlink, hmade, hnodup, rfl⟩
  · rintro ⟨hknown, files, os, hlink, hmade, hnodup, rfl⟩
    exact ⟨_, files, os, (plan_eq_ok_iff hg).mpr ⟨hknown, rfl⟩, hlink,
      (emitAll_picked_eq_ok_iff hknown (name_eq_of_mem_link hl hlink)).mpr ⟨hmade, hnodup⟩, rfl⟩

include h in
/-- A root with the other roots in the library stands for the same file. -/
theorem link_single (ht : roots.lookup path = some text) (hl : (path, l) ∈ files) :
    (c.link [(path, text)] (roots ++ library)).result = .ok [(path, l)] := by
  have hlinks := ((mem_iff_of_link_eq_ok h).mp hl).2
  rw [← text?_single ht] at hlinks
  have hpaths : paths [(path, text)] = [path] := rfl
  obtain ⟨single, hsingle⟩ :
      ∃ single, (c.link [(path, text)] (roots ++ library)).result = .ok single := by
    rw [exists_link_eq_ok_iff, hpaths]
    exact forall_mem_singleton.mpr ⟨l, hlinks⟩
  have hkeys := keys_of_link_eq_ok hsingle
  rw [sortedPaths, hpaths, show [path].eraseDups = [path] from rfl,
    mergeSort_singleton] at hkeys
  obtain ⟨⟨q, k⟩, rfl, rfl⟩ := map_eq_singleton_iff.mp hkeys
  obtain ⟨_, hk⟩ := (mem_iff_of_link_eq_ok hsingle).mp mem_cons_self
  rw [hsingle, hk.unique hlinks]

include hl hg h in
/-- What a target makes of a root alone, with the other roots in the library. -/
theorem compile_single_eq_ok_iff (ht : roots.lookup path = some text) (hmem : (path, l) ∈ files)
    (hknown : t.Known) :
    (c.compile [(path, text)] [t] (roots ++ library)).result = .ok [o] ↔
      t.output? path l = some o := by
  have hlink := link_single h ht hmem
  rw [compile_eq_ok_iff hl hg]
  constructor
  · rintro ⟨_, files', os, hlink', hmade, _, hsorted⟩
    obtain rfl := Except.ok.inj (hlink.symm.trans hlink')
    have hperm : os.Perm [o] := hsorted ▸ (mergeSort_perm os _).symm
    rw [perm_singleton.mp hperm] at hmade
    exact (List.cons.inj hmade).1
  · intro ho
    refine ⟨forall_mem_singleton.mpr hknown, _, [o], hlink, ?_, by simp, ?_⟩
    · exact congrArg ([·]) ho
    · exact mergeSort_singleton _

/-- The paths of what is made are those of the targets for the roots. -/
theorem map_path?_eq (h : made targets files = os.map some) :
    ((files.map Prod.fst ×ˢ targets).map fun x => x.2.path? x.1) =
      (os.map Output.path).map some := by
  have hpath : ∀ x ∈ files ×ˢ targets,
      x.2.path? x.1.1 = (x.2.output? x.1.1 x.1.2).map Output.path := by
    rintro ⟨⟨root, l⟩, t⟩ hx
    obtain ⟨hl, ht⟩ := mem_product.mp hx
    have hmem : t.output? root l ∈ made targets files :=
      mem_made_iff.mpr ⟨root, l, t, hl, ht, rfl⟩
    rw [h] at hmem
    obtain ⟨o, _, ho⟩ := mem_map.mp hmem
    rw [← ho, (Target.output?_eq_some_iff.mp ho.symm).1]
    rfl
  have hproduct : files.map Prod.fst ×ˢ targets =
      (files ×ˢ targets).map (Prod.map Prod.fst id) := by
    rw [← product_map, map_id]
  calc (files.map Prod.fst ×ˢ targets).map (fun x => x.2.path? x.1)
      = (files ×ˢ targets).map fun x => x.2.path? x.1.1 := by
        rw [hproduct, map_map]
        rfl
    _ = (made targets files).map (Option.map Output.path) := by
        rw [made, map_map]
        exact map_congr_left hpath
    _ = (os.map Output.path).map some := by
        rw [h, map_map, map_map]
        rfl

/-- Where the generators know the parameters, something is made of every root. -/
theorem exists_made_eq (hknown : ∀ t ∈ targets, t.Known)
    (haccepted : files ≠ [] → ∀ t ∈ targets, t.Accepted) :
    ∃ os : List Output, made targets files = os.map some := by
  have hsome : ∀ x ∈ files ×ˢ targets, ∃ o, x.2.output? x.1.1 x.1.2 = some o := by
    rintro ⟨⟨path, l⟩, t⟩ hx
    obtain ⟨hl, ht⟩ := mem_product.mp hx
    obtain ⟨w, hw⟩ := Option.isSome_iff_exists.mp (hknown t ht)
    obtain ⟨text, htext⟩ :=
      Option.isSome_iff_exists.mp (haccepted (ne_nil_of_mem hl) t ht)
    exact ⟨⟨_, text l⟩, Target.output?_eq_some_iff.mpr
      ⟨by rw [Target.path?, hw]; rfl, text, htext, rfl⟩⟩
  rw [made]
  generalize files ×ˢ targets = xs at hsome
  induction xs with
  | nil => exact ⟨[], rfl⟩
  | cons x xs ih =>
    obtain ⟨⟨o, ho⟩, hxs⟩ := forall_mem_cons.mp hsome
    obtain ⟨os, hos⟩ := ih hxs
    exact ⟨o :: os, by rw [map_cons, ho, hos, map_cons]⟩

include hl hg h in
/-- What is made of the roots in one call is made of each root alone. -/
theorem mem_iff_compile_single (hknown : ∀ t ∈ targets, t.Known)
    (hmade : made targets files = os.map some) :
    o ∈ os ↔ ∃ root text t, roots.lookup root = some text ∧ t ∈ targets ∧
      (c.compile [(root, text)] [t] (roots ++ library)).result = .ok [o] := by
  have hmem : o ∈ os ↔ some o ∈ made targets files := by
    rw [hmade, mem_map_of_injective (Option.some_injective _)]
  rw [hmem, mem_made_iff]
  constructor
  · rintro ⟨root, l, t, hmem, ht, ho⟩
    obtain ⟨text, htext⟩ := mem_paths_iff.mp ((mem_iff_of_link_eq_ok h).mp hmem).1
    exact ⟨root, text, t, htext, ht,
      (compile_single_eq_ok_iff hl hg h htext hmem (hknown t ht)).mpr ho⟩
  · rintro ⟨root, text, t, htext, ht, hsingle⟩
    have hroot := Sources.mem_paths_of_lookup htext
    obtain ⟨l, _, hlinks⟩ := lookup_of_link_eq_ok h hroot
    have hmem := (mem_iff_of_link_eq_ok h).mpr ⟨hroot, hlinks⟩
    exact ⟨root, l, t, hmem, ht,
      (compile_single_eq_ok_iff hl hg h htext hmem (hknown t ht)).mp hsingle⟩

/-- A compilation gives everything or nothing, and texts for the roots only. It succeeds exactly if
every target is known, the roots can be linked, every parameter is one that its generator knows
(without roots no generator is asked), and no two pairs of a root and a target lead to the same
path. The outputs are then, in the order of their paths, one for each pair. They are those that come
of each root with each target alone, the other roots being in the library. -/
theorem compile_outputs_exact (c : Compiler) (hl : c.linker = ProtoSchema.link)
    (hg : c.generators = Generator.builtIn) (roots library : Sources) (targets : List Target) :
    ((∃ outputs, (c.compile roots targets library).result = .ok outputs) ↔
      (∀ t ∈ targets, t.Known) ∧ (∃ files, (c.link roots library).result = .ok files) ∧
        (roots ≠ [] → ∀ t ∈ targets, t.Accepted) ∧
        ((roots.sortedPaths ×ˢ targets).map fun x => x.2.path? x.1).Nodup) ∧
    ∀ outputs, (c.compile roots targets library).result = .ok outputs →
      (outputs.Pairwise fun a b => a.path < b.path) ∧
      (∃ files, (c.link roots library).result = .ok files ∧
        files.map Prod.fst = roots.sortedPaths ∧ (outputs.map some).Perm (made targets files)) ∧
      ∀ o, o ∈ outputs ↔ ∃ root text t, roots.lookup root = some text ∧ t ∈ targets ∧
        (c.compile [(root, text)] [t] (roots ++ library)).result = .ok [o] := by
  have hinjective := Option.some_injective String
  refine ⟨⟨?_, ?_⟩, ?_⟩
  · rintro ⟨outputs, h⟩
    obtain ⟨hknown, files, os, hlink, hmade, hnodup, rfl⟩ := (compile_eq_ok_iff hl hg).mp h
    refine ⟨hknown, ⟨files, hlink⟩, fun hroots t ht => ?_, ?_⟩
    · obtain ⟨⟨root, l⟩, hmem⟩ :=
        List.exists_mem_of_ne_nil files ((ne_nil_iff_of_link_eq_ok hlink).mpr hroots)
      have hout : t.output? root l ∈ made targets files :=
        mem_made_iff.mpr ⟨root, l, t, hmem, ht, rfl⟩
      rw [hmade] at hout
      obtain ⟨o, _, ho⟩ := List.mem_map.mp hout
      obtain ⟨_, text, htext, _⟩ := Target.output?_eq_some_iff.mp ho.symm
      rw [Target.Accepted, htext]
      rfl
    · rw [← keys_of_link_eq_ok hlink, map_path?_eq hmade]
      exact hnodup.map hinjective
  · rintro ⟨hknown, ⟨files, hlink⟩, haccepted, hnodup⟩
    obtain ⟨os, hmade⟩ := exists_made_eq hknown fun hfiles =>
      haccepted ((ne_nil_iff_of_link_eq_ok hlink).mp hfiles)
    rw [← keys_of_link_eq_ok hlink, map_path?_eq hmade, List.nodup_map_iff hinjective] at hnodup
    exact ⟨_, (compile_eq_ok_iff hl hg).mpr ⟨hknown, files, os, hlink, hmade, hnodup, rfl⟩⟩
  · intro outputs h
    obtain ⟨hknown, files, os, hlink, hmade, hnodup, rfl⟩ := (compile_eq_ok_iff hl hg).mp h
    have hperm : (Output.sorted os).Perm os := List.mergeSort_perm os _
    refine ⟨Output.pairwise_sorted hnodup, ⟨files, hlink, keys_of_link_eq_ok hlink, ?_⟩,
      fun o => ?_⟩
    · rw [hmade]
      exact hperm.map some
    · rw [hperm.mem_iff]
      exact mem_iff_compile_single hl hg hlink hknown hmade

/-- Paths that are given in order stay so. -/
theorem sortedPaths_eq {sources : Sources} {paths : List String}
    (h : sources.paths.eraseDups = paths) (hsorted : paths.Pairwise (· ≤ ·)) :
    sources.sortedPaths = paths := by
  rw [sortedPaths, h]
  exact mergeSort_of_pairwise (hsorted.imp fun hle => decide_eq_true hle)

def twoRoots : Sources :=
  [("a", "import 'b';"), ("c.proto", "")]

def twoTargets : List Target :=
  [⟨"proto", ""⟩, ⟨"rust", "map=btree"⟩]

/-- Two roots and two targets give four outputs, none of them for the imported file. Roots that
differ in nothing but the extension get in each other's way. -/
theorem compile_outputs_exact_twoRoots :
    (∃ outputs, (({} : Compiler).compile twoRoots twoTargets [("b", "")]).result = .ok outputs ∧
      outputs.length = 4) ∧
    ¬∃ outputs, (({} : Compiler).compile [("a", ""), ("a.proto", "")] [⟨"json", ""⟩] []).result =
      .ok outputs := by
  constructor
  · obtain ⟨hiff, hgives⟩ := compile_outputs_exact {} rfl rfl twoRoots [("b", "")] twoTargets
    have hsorted : sortedPaths twoRoots = ["a", "c.proto"] :=
      sortedPaths_eq rfl (by decide)
    let source := text? twoRoots [("b", "")]
    let empty : String → LinkedFile := fun q => ⟨{ name := q }, [], []⟩
    obtain ⟨b, hb, _⟩ := Links.of_imports_only source .new "b" [] empty rfl
      (by decide +kernel) nofun
    obtain ⟨a, ha, _⟩ := Links.of_imports_only source .new "a" ["b"] (fun _ => b) rfl
      (by decide +kernel) (List.forall_mem_singleton.mpr hb)
    obtain ⟨l, hc, _⟩ := Links.of_imports_only source .new "c.proto" [] empty rfl
      (by decide +kernel) nofun
    have hpaths : ∀ path ∈ paths twoRoots, ∃ l, Links source {} path l :=
      List.forall_mem_cons.mpr ⟨⟨a, ha⟩, List.forall_mem_singleton.mpr ⟨l, hc⟩⟩
    obtain ⟨outputs, h⟩ := hiff.mpr ⟨by decide +kernel, exists_link_eq_ok_iff.mpr hpaths,
      fun _ => by decide +kernel, by rw [hsorted]; decide +kernel⟩
    obtain ⟨_, ⟨files, _, hkeys, hperm⟩, _⟩ := hgives outputs h
    have hlength : files.length = 2 := by
      rw [← List.length_map, hkeys, hsorted]
      rfl
    refine ⟨outputs, h, ?_⟩
    rw [← List.length_map some, hperm.length_eq, made, List.length_map, List.length_product,
      hlength]
    rfl
  · intro h
    have hsorted : sortedPaths [("a", ""), ("a.proto", "")] = ["a", "a.proto"] :=
      sortedPaths_eq rfl (by decide)
    have hnodup := ((compile_outputs_exact {} rfl rfl _ _ _).1.mp h).2.2.2
    rw [hsorted] at hnodup
    exact absurd hnodup (by decide +kernel)

end Compiler

end ProtoSchema
