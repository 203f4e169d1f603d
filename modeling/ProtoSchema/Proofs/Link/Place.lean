import Mathlib.Data.List.Nodup
import ProtoSchema.Link

/-!
Where the declarations of a file stand in it. A path leads from the file to a declaration, one
step for each message on the way, and `Holds` says which declaration a path leads to and what its
full name is. The list `declared` of a file has each of them once.
-/

namespace ProtoSchema

open List Message Name

variable {path : List Step} {d : Declared} {m : Message} {file : File}

mutual

/-- What holds of a message if it holds of those nested in it holds of every message. -/
theorem Message.nestedInduction {P : Message → Prop} (h : ∀ m, (∀ n ∈ m.nested, P n) → P m) :
    ∀ m : Message, P m
  | ⟨_, _, _, nested, _, _, _, _, _, _⟩ => h _ (nestedInductionAll h nested)

theorem Message.nestedInductionAll {P : Message → Prop} (h : ∀ m, (∀ n ∈ m.nested, P n) → P m) :
    ∀ ms : List Message, ∀ m ∈ ms, P m
  | [] => forall_mem_nil _
  | m :: ms => forall_mem_cons.mpr ⟨nestedInduction h m, nestedInductionAll h ms⟩

end

/-- The declaration that a path leads to from a message that stands in `scope`. -/
inductive Message.Holds : String → Message → List Step → Declared → Prop
  | self (scope : String) (m : Message) :
      Holds scope m [] ⟨qualify scope m.name, .message m⟩
  | nested {scope : String} {m n : Message} {i : Nat} {path : List Step} {d : Declared}
      (hn : m.nested[i]? = some n) (h : Holds (qualify scope m.name) n path d) :
      Holds scope m (.message i :: path) d
  | enum {scope : String} {m : Message} {i : Nat} {e : Enum} (he : m.enums[i]? = some e) :
      Holds scope m [.enum i] ⟨qualify (qualify scope m.name) e.name, .enum e⟩

inductive File.Holds (file : File) : List Step → Declared → Prop
  | message {i : Nat} {m : Message} {path : List Step} {d : Declared}
      (hm : file.messages[i]? = some m) (h : m.Holds file.scope path d) :
      Holds file (.message i :: path) d
  | enum {i : Nat} {e : Enum} (he : file.enums[i]? = some e) :
      Holds file [.enum i] ⟨qualify file.scope e.name, .enum e⟩
  | service {i : Nat} {s : Service} (hs : file.services[i]? = some s) :
      Holds file [.service i] ⟨qualify file.scope s.name, .service s⟩

theorem Message.Holds.at?_eq {scope : String} (h : m.Holds scope path d) :
    m.at? path = some d.declaration := by
  induction h with
  | self => rfl
  | nested hn _ ih =>
    rw [Message.at?, hn]
    exact ih
  | enum he =>
    rw [Message.at?, he]
    rfl

theorem File.Holds.at?_eq (h : file.Holds path d) : file.at? path = some d.declaration := by
  cases h with
  | message hm h =>
    rw [File.at?, hm]
    exact h.at?_eq
  | enum he =>
    rw [File.at?, he]
    rfl
  | service hs =>
    rw [File.at?, hs]
    rfl

/-! ## Declarations listed with their paths -/

namespace Placed

@[simp]
theorem map_snd_behind (step : Step) (xs : List Placed) :
    (xs.map (behind step)).map Prod.snd = xs.map Prod.snd := by
  simp [behind, Function.comp_def]

theorem mem_map_behind {step : Step} {xs : List Placed} :
    (path, d) ∈ xs.map (behind step) ↔ ∃ rest, path = step :: rest ∧ (rest, d) ∈ xs := by
  constructor
  · intro h
    obtain ⟨x, hx, heq⟩ := mem_map.mp h
    cases heq
    exact ⟨x.1, rfl, hx⟩
  · rintro ⟨rest, rfl, hx⟩
    exact mem_map.mpr ⟨(rest, d), hx, rfl⟩

theorem nodup_map_behind {step : Step} {xs : List Placed} (h : (xs.map Prod.fst).Nodup) :
    ((xs.map (behind step)).map Prod.fst).Nodup := by
  have hpaths : (xs.map (behind step)).map Prod.fst = (xs.map Prod.fst).map (step :: ·) := by
    rw [map_map, map_map]
    rfl
  rw [hpaths]
  exact h.map fun p q heq => (List.cons.inj heq).2

variable {α : Type} {step : Nat → Step} {declare : α → Declared} {xs : List α}

@[simp]
theorem leaves_map_snd : (leaves step declare xs).map Prod.snd = xs.map declare := by
  rw [leaves, map_map, ← zipIdx_map_fst 0 xs, map_map, zipIdx_map_fst]
  rfl

theorem mem_leaves :
    (path, d) ∈ leaves step declare xs ↔
      ∃ i x, xs[i]? = some x ∧ path = [step i] ∧ d = declare x := by
  constructor
  · intro h
    obtain ⟨⟨x, i⟩, hx, heq⟩ := mem_map.mp h
    cases heq
    exact ⟨i, x, mem_zipIdx_iff_getElem?.mp hx, rfl, rfl⟩
  · rintro ⟨i, x, hx, rfl, rfl⟩
    exact mem_map.mpr ⟨(x, i), mem_zipIdx_iff_getElem?.mpr hx, rfl⟩

theorem nodup_leaves (hstep : ∀ i j, step i = step j → i = j) :
    ((leaves step declare xs).map Prod.fst).Nodup := by
  have hpaths : (leaves step declare xs).map Prod.fst =
      (xs.zipIdx.map Prod.snd).map fun i => [step i] := by
    rw [leaves, map_map, map_map]
    rfl
  rw [hpaths, zipIdx_map_snd]
  refine List.Nodup.map ?_ nodup_range'
  intro i j heq
  exact hstep i j (List.cons.inj heq).1

end Placed

namespace Message

mutual

theorem placed_map_snd (scope : String) :
    ∀ m : Message, (placed scope m).map Prod.snd = declared scope m
  | ⟨name, _, _, nested, enums, _, _, _, _, _⟩ => by
    simp only [placed, declared, map_cons, map_append, Placed.leaves_map_snd,
      placedIn_map_snd (qualify scope name) 0 nested]

theorem placedIn_map_snd (scope : String) (first : Nat) :
    ∀ ms : List Message, (placedIn scope first ms).map Prod.snd = declaredIn scope ms
  | [] => rfl
  | m :: ms => by
    simp only [placedIn, declaredIn, map_append, Placed.map_snd_behind,
      placed_map_snd scope m, placedIn_map_snd scope (first + 1) ms]

end

def HoldsIn (scope : String) (first : Nat) (ms : List Message) (path : List Step) (d : Declared) :
    Prop :=
  ∃ i m rest, ms[i]? = some m ∧ path = .message (first + i) :: rest ∧ m.Holds scope rest d

theorem holdsIn_cons {scope : String} {first : Nat} {ms : List Message} :
    HoldsIn scope first (m :: ms) path d ↔
      (∃ rest, path = .message first :: rest ∧ m.Holds scope rest d) ∨
        HoldsIn scope (first + 1) ms path d := by
  constructor
  · rintro ⟨i, n, rest, hn, hp, h⟩
    cases i with
    | zero =>
      cases hn
      exact .inl ⟨rest, hp, h⟩
    | succ i => exact .inr ⟨i, n, rest, hn, by rw [hp, Nat.add_right_comm, Nat.add_assoc], h⟩
  · rintro (⟨rest, hp, h⟩ | ⟨i, n, rest, hn, hp, h⟩)
    · exact ⟨0, m, rest, rfl, hp, h⟩
    · exact ⟨i + 1, n, rest, hn, by rw [hp, Nat.add_right_comm, Nat.add_assoc], h⟩

theorem holds_iff {scope : String} :
    m.Holds scope path d ↔
      (path = [] ∧ d = ⟨qualify scope m.name, .message m⟩) ∨
        HoldsIn (qualify scope m.name) 0 m.nested path d ∨
        ∃ i e, m.enums[i]? = some e ∧ path = [.enum i] ∧
          d = Enum.declared (qualify scope m.name) e := by
  constructor
  · intro h
    cases h with
    | self => exact .inl ⟨rfl, rfl⟩
    | nested hn h => exact .inr (.inl ⟨_, _, _, hn, by rw [Nat.zero_add], h⟩)
    | enum he => exact .inr (.inr ⟨_, _, he, rfl, rfl⟩)
  · rintro (⟨rfl, rfl⟩ | ⟨i, n, rest, hn, rfl, h⟩ | ⟨i, e, he, rfl, rfl⟩)
    · exact .self scope m
    · rw [Nat.zero_add]
      exact .nested hn h
    · exact .enum he

/-- A nested message is held one step further on. -/
theorem Holds.snoc {place fullName : String} {n k : Message} {i : Nat}
    (h : m.Holds place path ⟨fullName, .message n⟩) (hk : n.nested[i]? = some k) :
    m.Holds place (path ++ [.message i]) ⟨qualify fullName k.name, .message k⟩ := by
  generalize hd : (⟨fullName, .message n⟩ : ProtoSchema.Declared) = d at h
  induction h with
  | self place m =>
    cases hd
    exact .nested hk (.self _ k)
  | nested hn _ ih => exact .nested hn (ih hd)
  | enum => cases hd

/-- There are no services inside messages. -/
theorem Holds.kind_ne_service {scope : String} (h : m.Holds scope path d) : d.kind ≠ .service := by
  induction h with
  | self => nofun
  | nested _ _ ih => exact ih
  | enum => nofun

mutual

theorem mem_placed (scope : String) (path : List Step) (d : Declared) :
    ∀ m : Message, (path, d) ∈ placed scope m ↔ m.Holds scope path d
  | ⟨name, _, _, nested, _, _, _, _, _, _⟩ => by
    rw [holds_iff, placed, mem_cons, mem_append, Placed.mem_leaves,
      mem_placedIn (qualify scope name) 0 path d nested, Prod.mk.injEq]

theorem mem_placedIn (scope : String) (first : Nat) (path : List Step) (d : Declared) :
    ∀ ms : List Message, (path, d) ∈ placedIn scope first ms ↔ HoldsIn scope first ms path d
  | [] => by simp [placedIn, HoldsIn]
  | m :: ms => by
    rw [holdsIn_cons, placedIn, mem_append, Placed.mem_map_behind,
      mem_placedIn scope (first + 1) path d ms]
    simp only [mem_placed scope _ d m]

end

private theorem nodup_append_of_paths {xs ys : List Placed} (hx : (xs.map Prod.fst).Nodup)
    (hy : (ys.map Prod.fst).Nodup)
    (h : ∀ p d e, (p, d) ∈ xs → (p, e) ∈ ys → False) : ((xs ++ ys).map Prod.fst).Nodup := by
  rw [map_append]
  refine hx.append hy ?_
  intro p hp hq
  obtain ⟨⟨_, d⟩, hd, rfl⟩ := mem_map.mp hp
  obtain ⟨⟨_, e⟩, he, heq⟩ := mem_map.mp hq
  cases heq
  exact h _ d e hd he

mutual

/-- No two declarations have the same path. -/
theorem placed_paths_nodup (scope : String) :
    ∀ m : Message, ((placed scope m).map Prod.fst).Nodup
  | ⟨name, _, _, nested, _, _, _, _, _, _⟩ => by
    rw [placed, map_cons, nodup_cons]
    constructor
    · intro hnil
      obtain ⟨⟨_, d⟩, hd, heq⟩ := mem_map.mp hnil
      cases heq
      rcases mem_append.mp hd with hd | hd
      · obtain ⟨i, n, rest, _, heq, _⟩ := (mem_placedIn _ _ _ _ _).mp hd
        cases heq
      · obtain ⟨j, x, _, heq, _⟩ := Placed.mem_leaves.mp hd
        cases heq
    · refine nodup_append_of_paths (placedIn_paths_nodup (qualify scope name) 0 nested)
        (Placed.nodup_leaves fun i j h => by cases h; rfl) ?_
      intro p d e hd he
      obtain ⟨i, n, rest, _, rfl, _⟩ := (mem_placedIn _ _ _ _ _).mp hd
      obtain ⟨j, x, _, heq, _⟩ := Placed.mem_leaves.mp he
      cases heq

theorem placedIn_paths_nodup (scope : String) (first : Nat) :
    ∀ ms : List Message, ((placedIn scope first ms).map Prod.fst).Nodup
  | [] => nodup_nil
  | m :: ms => by
    refine nodup_append_of_paths (Placed.nodup_map_behind (placed_paths_nodup scope m))
      (placedIn_paths_nodup scope (first + 1) ms) ?_
    intro p d e hd he
    obtain ⟨rest, rfl, _⟩ := Placed.mem_map_behind.mp hd
    obtain ⟨i, n, rest', _, heq, _⟩ := (mem_placedIn _ _ _ _ _).mp he
    have hfirst : first = first + 1 + i := by
      injection (List.cons.inj heq).1
    omega

end

end Message

namespace File

theorem placed_map_snd (file : File) : file.placed.map Prod.snd = file.declared := by
  simp only [placed, declared, map_append, placedIn_map_snd, Placed.leaves_map_snd, append_assoc]

theorem mem_placed : (path, d) ∈ file.placed ↔ file.Holds path d := by
  simp only [placed, mem_append, mem_placedIn, Placed.mem_leaves]
  constructor
  · rintro (⟨i, m, rest, hm, rfl, h⟩ | ⟨i, e, he, rfl, rfl⟩ | ⟨i, s, hs, rfl, rfl⟩)
    · rw [Nat.zero_add]
      exact .message hm h
    · exact .enum he
    · exact .service hs
  · intro h
    cases h with
    | message hm h => exact .inl ⟨_, _, _, hm, by rw [Nat.zero_add], h⟩
    | enum he => exact .inr (.inl ⟨_, _, he, rfl, rfl⟩)
    | service hs => exact .inr (.inr ⟨_, _, hs, rfl, rfl⟩)

/-- What is nested in a message that a file holds is held too. -/
theorem Holds.snoc {fullName : String} {n : Message} {i : Nat}
    (h : file.Holds path ⟨fullName, .message m⟩) (hn : m.nested[i]? = some n) :
    file.Holds (path ++ [.message i]) ⟨qualify fullName n.name, .message n⟩ := by
  cases h with
  | message hm h => exact .message hm (h.snoc hn)

theorem placed_paths_nodup (file : File) : (file.placed.map Prod.fst).Nodup := by
  refine nodup_append_of_paths (placedIn_paths_nodup _ _ _)
    (nodup_append_of_paths (Placed.nodup_leaves fun i j h => by cases h; rfl)
      (Placed.nodup_leaves fun i j h => by cases h; rfl) ?_) ?_
  · intro p d e hd he
    obtain ⟨i, x, _, rfl, _⟩ := Placed.mem_leaves.mp hd
    obtain ⟨j, y, _, heq, _⟩ := Placed.mem_leaves.mp he
    cases heq
  · intro p d e hd he
    obtain ⟨i, m, rest, _, rfl, _⟩ := (mem_placedIn _ _ _ _ _).mp hd
    rcases mem_append.mp he with he | he
    · obtain ⟨j, y, _, heq, _⟩ := Placed.mem_leaves.mp he
      cases heq
    · obtain ⟨j, y, _, heq, _⟩ := Placed.mem_leaves.mp he
      cases heq

theorem mem_declared_iff : d ∈ file.declared ↔ ∃ path, file.Holds path d := by
  rw [← placed_map_snd, mem_map]
  constructor
  · rintro ⟨⟨path, _⟩, h, rfl⟩
    exact ⟨path, mem_placed.mp h⟩
  · rintro ⟨path, h⟩
    exact ⟨(path, d), mem_placed.mpr h, rfl⟩

/-- The full names of a file's declarations differ if no name stands at two places. -/
theorem nodup_fullName_iff :
    (file.declared.map Declared.fullName).Nodup ↔
      ∀ p q d e, file.Holds p d → file.Holds q e → d.fullName = e.fullName → p = q := by
  have hnodup : file.placed.Nodup := file.placed_paths_nodup.of_map
  rw [← placed_map_snd, map_map, nodup_map_iff_inj_on hnodup]
  constructor
  · intro h p q d e hp hq heq
    have hpair := h (p, d) (mem_placed.mpr hp) (q, e) (mem_placed.mpr hq) heq
    exact congrArg Prod.fst hpair
  · rintro h ⟨p, d⟩ hp ⟨q, e⟩ hq heq
    have hpq := h p q d e (mem_placed.mp hp) (mem_placed.mp hq) heq
    exact inj_on_of_nodup_map file.placed_paths_nodup hp hq hpq

end File

/-! ## Look-ups in the index -/

theorem bind_findIdx?_getElem? {α β : Type} (p : α → Bool) (f : α → Option β) (xs : List α) :
    ((xs.findIdx? p).bind fun i => xs[i]?.bind f) = (xs.find? p).bind f := by
  induction xs with
  | nil => rfl
  | cons x xs ih =>
    cases h : p x with
    | true => simp [findIdx?_cons, h]
    | false => simp [findIdx?_cons, h, ← ih, Option.bind_map, Function.comp_def]

/-- What is looked up in the index is the first declaration with the name. -/
theorem LinkedFile.get?_eq_find? (l : LinkedFile) (name : String) :
    l.get? name = Declared.find? l.declared (bare name) := by
  rw [get?, position?, bind_findIdx?_getElem?, Declared.find?, declared, ← File.placed_map_snd,
    File.index, find?_map, find?_map, Option.bind_map]
  simp only [Function.comp_def]
  cases hx : l.file.placed.find? _ with
  | none => rfl
  | some x =>
    have hat := (File.mem_placed.mp (mem_of_find?_eq_some hx)).at?_eq
    simp [hat]

end ProtoSchema
