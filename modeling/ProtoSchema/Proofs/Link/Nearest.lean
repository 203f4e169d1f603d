import ProtoSchema.Proofs.Link.Visible

/-!
The files that a file depends on are listed nearest first.

The search works through a queue. At any time the queue holds files at the end of paths of `k`
imports, and behind them files at the end of paths of `k + 1` imports, for some `k`. `AtLevel` adds
to this what is known of the files that were found, and has one lemma for each step of the search.
Main statement: `transitiveDependencies_nearest_first`.
-/

namespace ProtoSchema.LinkedFile

open Relation List

/-! ## Distances -/

/-- A path of so many imports leads from `f` to a file. -/
inductive ImportPath (f : LinkedFile) : Nat → LinkedFile → Prop
  | nil : ImportPath f 0 f
  | snoc {n : Nat} {g d : LinkedFile} (h : ImportPath f n g) (hd : g.Imports d) :
      ImportPath f (n + 1) d

structure IsDistance (f g : LinkedFile) (n : Nat) : Prop where
  path : ImportPath f n g
  shortest : ∀ m, ImportPath f m g → n ≤ m

def NotFarther (f g h : LinkedFile) : Prop :=
  ∃ m n, IsDistance f g m ∧ IsDistance f h n ∧ m ≤ n

variable {f g : LinkedFile}

theorem IsDistance.unique {m n : Nat} (hm : IsDistance f g m) (hn : IsDistance f g n) : m = n :=
  Nat.le_antisymm (hm.shortest n hn.path) (hn.shortest m hm.path)

theorem ImportPath.reached {n : Nat} (h : ImportPath f n g) : ReflTransGen Imports f g := by
  induction h with
  | nil => exact .refl
  | snoc _ hd ih => exact ih.tail hd

/-- Every import leads to a smaller file. -/
theorem ImportPath.sizeOf_le {n : Nat} (h : ImportPath f n g) : sizeOf g + n ≤ sizeOf f := by
  induction h with
  | nil => exact Nat.le_refl _
  | snoc _ hd ih =>
    have hlt := sizeOf_lt_of_mem hd
    omega

/-- No imports lead from a file back to it. -/
theorem ImportPath.eq_zero {n : Nat} (h : ImportPath f n f) : n = 0 := by
  have hle := h.sizeOf_le
  omega

/-! ## The queue -/

/-- The search from `f` is at the files that `k` imports lead to. Of these `now` are still in the
queue, and `later` are what comes behind them. -/
structure AtLevel (f : LinkedFile) (k : Nat) (found now later : List LinkedFile) : Prop where
  /-- Every file that is nearer is found. -/
  nearer : ∀ n g, 0 < n → n < k → ImportPath f n g → g ∈ found
  here : ∀ g, ImportPath f k g → g ∈ found ∨ g ∈ now
  now_path : ∀ g ∈ now, ImportPath f k g
  later_path : ∀ g ∈ later, ImportPath f (k + 1) g
  /-- What the files at this level import is in the queue from the time when they are found. -/
  queued : ∀ g ∈ found, IsDistance f g k → ∀ d, g.Imports d → d ∈ later
  distance : ∀ g ∈ found, ∃ n ≤ k, IsDistance f g n
  ordered : found.Pairwise (NotFarther f)

namespace AtLevel

variable {k : Nat} {found now later : List LinkedFile} {q : LinkedFile}

theorem start (f : LinkedFile) : AtLevel f 1 [] f.dependencies [] where
  nearer n g hpos hlt := by omega
  here g hg := by
    cases hg with
    | snoc h hd =>
      cases h
      exact .inr hd
  now_path g hg := .snoc .nil hg
  later_path _ hg := absurd hg not_mem_nil
  queued _ hg := absurd hg not_mem_nil
  distance _ hg := absurd hg not_mem_nil
  ordered := .nil

/-- A file that was found before leaves the queue. -/
theorem skip (h : AtLevel f k found (q :: now) later) (hq : q ∈ found) :
    AtLevel f k found now later where
  nearer := h.nearer
  here g hg := by
    rcases h.here g hg with hfound | hnow
    · exact .inl hfound
    · rcases mem_cons.mp hnow with rfl | hnow
      · exact .inl hq
      · exact .inr hnow
  now_path g hg := h.now_path g (mem_cons_of_mem q hg)
  later_path := h.later_path
  queued := h.queued
  distance := h.distance
  ordered := h.ordered

/-- A file that comes up and was not found before has no shorter path to it. -/
theorem isDistance (h : AtLevel f k found (q :: now) later) (hk : 0 < k) (hq : q ∉ found) :
    IsDistance f q k := by
  have hpath := h.now_path q mem_cons_self
  refine ⟨hpath, fun m hm => ?_⟩
  by_contra hlt
  rcases Nat.eq_zero_or_pos m with rfl | hpos
  · cases hm
    have hzero := hpath.eq_zero
    omega
  · exact hq (h.nearer m q hpos (by omega) hm)

/-- A new file is found, and its imports join the queue. -/
theorem take (h : AtLevel f k found (q :: now) later) (hk : 0 < k) (hq : q ∉ found) :
    AtLevel f k (found ++ [q]) now (later ++ q.dependencies) where
  nearer n g hpos hlt hg := mem_append_left _ (h.nearer n g hpos hlt hg)
  here g hg := by
    rcases h.here g hg with hfound | hnow
    · exact .inl (mem_append_left _ hfound)
    · rcases mem_cons.mp hnow with rfl | hnow
      · exact .inl (mem_append_right _ mem_cons_self)
      · exact .inr hnow
  now_path g hg := h.now_path g (mem_cons_of_mem q hg)
  later_path g hg := by
    rcases mem_append.mp hg with hlater | hd
    · exact h.later_path g hlater
    · exact .snoc (h.now_path q mem_cons_self) hd
  queued g hg hdist d hd := by
    rcases mem_append.mp hg with hfound | hself
    · exact mem_append_left _ (h.queued g hfound hdist d hd)
    · rw [mem_singleton.mp hself] at hd
      exact mem_append_right _ hd
  distance g hg := by
    rcases mem_append.mp hg with hfound | hself
    · exact h.distance g hfound
    · rw [mem_singleton.mp hself]
      exact ⟨k, Nat.le_refl k, h.isDistance hk hq⟩
  ordered := by
    refine pairwise_append.mpr ⟨h.ordered, pairwise_singleton _ _, ?_⟩
    intro g hg r hr
    obtain ⟨n, hn, hdist⟩ := h.distance g hg
    rw [mem_singleton.mp hr]
    exact ⟨n, k, hdist, h.isDistance hk hq, hn⟩

/-- Once the files of a level have left the queue, the next level is there. -/
theorem next (h : AtLevel f k found [] later) : AtLevel f (k + 1) found later [] := by
  have hhere : ∀ g, ImportPath f k g → g ∈ found := by
    intro g hg
    rcases h.here g hg with hfound | hnow
    · exact hfound
    · cases hnow
  have hupto : ∀ n g, 0 < n → n < k + 1 → ImportPath f n g → g ∈ found := by
    intro n g hpos hlt hg
    rcases Nat.lt_succ_iff_lt_or_eq.mp hlt with hlt | rfl
    · exact h.nearer n g hpos hlt hg
    · exact hhere g hg
  refine ⟨hupto, ?_, h.later_path, fun _ hg => absurd hg not_mem_nil, ?_, ?_, h.ordered⟩
  · intro g hg
    cases hg with
    | @snoc _ e _ he hd =>
      -- the importer may be nearer than the path says, and then the file was found already
      obtain ⟨n, hn, hdist⟩ := h.distance e (hhere e he)
      rcases Nat.lt_or_eq_of_le hn with hlt | rfl
      · exact .inl (hupto (n + 1) g (Nat.succ_pos n) (by omega) (.snoc hdist.path hd))
      · exact .inr (h.queued e (hhere e he) hdist g hd)
  · intro g hg hdist
    obtain ⟨n, hn, hdist'⟩ := h.distance g hg
    have heq := hdist.unique hdist'
    omega
  · intro g hg
    obtain ⟨n, hn, hdist⟩ := h.distance g hg
    exact ⟨n, Nat.le_succ_of_le hn, hdist⟩

/-- The file at the front of the queue belongs to this level, or to the next if this one is done. -/
theorem exists_front {queue : List LinkedFile} (h : AtLevel f k found now later) (hk : 0 < k)
    (hqueue : q :: queue = now ++ later) :
    ∃ k now later, 0 < k ∧ queue = now ++ later ∧ AtLevel f k found (q :: now) later := by
  cases now with
  | nil =>
    obtain rfl : q :: queue = later := hqueue
    exact ⟨k + 1, queue, [], Nat.succ_pos k, (append_nil queue).symm, h.next⟩
  | cons r now =>
    obtain ⟨rfl, rfl⟩ := List.cons.inj hqueue
    exact ⟨k, now, later, hk, rfl, h⟩

end AtLevel

/-! ## Nearest first -/

/-- Where names tell the files apart, a file whose name was found was found itself. -/
theorem AtLevel.mem_found {k : Nat} {found now later : List LinkedFile} {q : LinkedFile}
    (hf : f.Coherent) (h : AtLevel f k found (q :: now) later) (hq : NameIn found q.name) :
    q ∈ found := by
  obtain ⟨g, hg, hname⟩ := hq
  obtain ⟨n, _, hdist⟩ := h.distance g hg
  have hpath := h.now_path q mem_cons_self
  exact hf g q hdist.path.reached hpath.reached hname ▸ hg

theorem pairwise_reach {found queue : List LinkedFile} (hf : f.Coherent)
    (h : ∃ k now later, 0 < k ∧ queue = now ++ later ∧ AtLevel f k found now later) :
    (reach found queue).Pairwise (NotFarther f) := by
  fun_induction reach found queue with
  | case1 found =>
    obtain ⟨k, now, later, _, _, hlevel⟩ := h
    exact hlevel.ordered
  | case2 found q queue hq ih =>
    obtain ⟨_, _, _, hk, hqueue, hlevel⟩ := h
    obtain ⟨k, now, later, hk, hqueue, hlevel⟩ := hlevel.exists_front hk hqueue
    have hfound := hlevel.mem_found hf (nameIn_iff_any.mpr hq)
    exact ih ⟨k, now, later, hk, hqueue, hlevel.skip hfound⟩
  | case3 found q queue hq ih =>
    obtain ⟨_, _, _, hk, hqueue, hlevel⟩ := h
    obtain ⟨k, now, later, hk, hqueue, hlevel⟩ := hlevel.exists_front hk hqueue
    have hnew : q ∉ found := fun hmem => hq (nameIn_iff_any.mp ⟨q, hmem, rfl⟩)
    refine ih ⟨k, now, later ++ q.dependencies, hk, ?_, hlevel.take hk hnew⟩
    rw [hqueue, append_assoc]

theorem nodup_names_reach {found queue : List LinkedFile} (h : (found.map name).Nodup) :
    ((reach found queue).map name).Nodup := by
  fun_induction reach found queue with
  | case1 found => exact h
  | case2 found q queue hq ih => exact ih h
  | case3 found q queue hq ih =>
    exact ih (nodup_names_concat h fun hname => hq (nameIn_iff_any.mp hname))

/-- The transitive dependencies of a file are the files that one or more imports lead to, each of
them once, in the order of their distances from the file. -/
theorem transitiveDependencies_nearest_first (f : LinkedFile) (hf : f.Coherent) :
    f.transitiveDependencies.Nodup ∧
      (∀ g, g ∈ f.transitiveDependencies ↔ TransGen Imports f g) ∧
      f.transitiveDependencies.Pairwise fun g h =>
        ∃ m n, IsDistance f g m ∧ IsDistance f h n ∧ m ≤ n := by
  have hnames : (f.transitiveDependencies.map name).Nodup :=
    @nodup_names_reach [] f.dependencies List.nodup_nil
  refine ⟨hnames.of_map, fun g => ?_, ?_⟩
  · exact ⟨reached_of_mem_transitiveDependencies, mem_transitiveDependencies hf⟩
  · exact pairwise_reach hf ⟨1, f.dependencies, [], Nat.one_pos, (List.append_nil _).symm, .start f⟩

def shortcut : LinkedFile :=
  importing "f" [importing "a" [importing "b" [importing "d" [] []] []] [], importing "d" [] []] []

theorem transitiveDependencies_nearest_first_shortcut :
    shortcut.Coherent ∧ shortcut.transitiveDependencies.Nodup ∧
      (∀ g, g ∈ shortcut.transitiveDependencies ↔ TransGen Imports shortcut g) ∧
      shortcut.transitiveDependencies.Pairwise fun g h =>
        ∃ m n, IsDistance shortcut g m ∧ IsDistance shortcut h n ∧ m ≤ n := by
  have hnames : Distinguished [shortcut] := by
    refine distinguished_of_closed (shortcut :: shortcut.dependencies ++
      [importing "b" [importing "d" [] []] []]) ?_ ?_ ?_
    · exact List.forall_mem_singleton.mpr List.mem_cons_self
    · simp [shortcut, importing]
    · decide
  have h := hnames.coherent List.mem_cons_self
  exact ⟨h, transitiveDependencies_nearest_first shortcut h⟩

example : shortcut.transitiveDependencies.map name = ["a", "d", "b"] := by
  decide +kernel

end ProtoSchema.LinkedFile
