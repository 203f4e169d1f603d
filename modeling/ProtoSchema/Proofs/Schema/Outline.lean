import ProtoSchema.Location
import ProtoSchema.Proofs.Schema.CrossIndex

/-!
The declarations of a file by the paths that lead to them, and tables that list them. `Covers` says
that a table has an entry for each declaration on a set of paths, but for the pair types made for
map fields and what is in them. A table is put together as the declarations are: `Noted.grow` is the
step from a declaration to the same one with more in it.
-/

namespace ProtoSchema

open List Location

variable {p : List Edge} {a : Entry} {more : Int → List Item} {gs : List FieldGroup}

/-- One step of a path: the tag of a kind of declaration, and an index. -/
abbrev Edge := Int × Nat

/-- A path as it is recorded: tags and indexes by turns. -/
def Edge.encode (path : List Edge) : List Int :=
  path.flatMap fun e => [e.1, Int.ofNat e.2]

/-- A file or something declared in it. A field is taken without its place in a oneof, which is
known only when its message is complete. -/
inductive Item where
  | file (f : File)
  | message (m : Message)
  | enum (e : Enum)
  | service (v : Service)
  | method (m : Method)
  | value (v : EnumValue)
  | field (f : Field)
  | extension (f : Field)
  | oneof (o : Oneof) (made : Bool)

/-- Whether the oneof with the given index was made for a field that is marked optional. -/
def Message.isMade (m : Message) (index : Nat) : Bool :=
  m.fields.any fun f => f.proto3Optional && f.oneofIndex = some index

namespace Item

def children : Item → Int → List Item
  | file f, tag =>
    if tag = fileMessage then f.messages.map message
    else if tag = fileEnum then f.enums.map enum
    else if tag = fileService then f.services.map service
    else if tag = fileExtension then f.extensions.map extension
    else []
  | message m, tag =>
    if tag = messageField then m.fields.map fun f => field f.unplaced
    else if tag = messageNested then m.nested.map message
    else if tag = messageEnum then m.enums.map enum
    else if tag = messageExtension then m.extensions.map extension
    else if tag = messageOneof then m.oneofs.mapIdx fun i o => oneof o (m.isMade i)
    else []
  | enum e, tag => if tag = enumValue then e.values.map value else []
  | service v, tag => if tag = serviceMethod then v.methods.map method else []
  | _, _ => []

def walk (x : Item) : List Edge → Option Item
  | [] => some x
  | e :: path => (x.children e.1)[e.2]?.bind fun y => y.walk path

/-- Whether it was written as a declaration, and not made for one. -/
def IsDeclared : Item → Prop
  | oneof _ made => made = false
  | _ => True

variable {x y z : Item} {e : Edge} {path : List Edge}

@[simp]
theorem walk_nil : x.walk [] = some x :=
  rfl

theorem walk_cons : x.walk (e :: path) = (x.children e.1)[e.2]?.bind fun y => y.walk path :=
  rfl

theorem walk_cons_of_eq (h : (x.children e.1)[e.2]? = some y) :
    x.walk (e :: path) = y.walk path := by
  rw [walk_cons, h, Option.bind_some]

theorem lt_of_walk (h : x.walk (e :: path) = some z) : e.2 < (x.children e.1).length := by
  obtain ⟨y, hy, _⟩ := Option.bind_eq_some_iff.mp h
  exact (List.getElem?_eq_some_iff.mp hy).1

def Grows (x y : Item) : Prop :=
  ∀ tag, x.children tag <+: y.children tag

theorem Grows.walk_cons (h : x.Grows y) (hlt : e.2 < (x.children e.1).length) :
    y.walk (e :: path) = x.walk (e :: path) := by
  obtain ⟨more, hmore⟩ := h e.1
  rw [Item.walk_cons, Item.walk_cons, ← hmore, getElem?_append_left hlt]

end Item

/-- An entry of a table: a path, the span recorded for it, the tokens from `first` up to `past` that
the span covers, and the path of the pair type that was made for it. -/
structure Entry where
  path : List Edge
  span : Span
  first : Nat
  past : Nat
  made : Option (List Edge)

namespace Entry

def behind (e : Edge) (a : Entry) : Entry :=
  { a with path := e :: a.path, made := a.made.map (e :: ·) }

def location (base : List Int) (a : Entry) : Location :=
  ⟨base ++ Edge.encode a.path, a.span⟩

/-- The pair type of a map field stands in the same message as the field. -/
def HasPairType (a : Entry) (x : Item) (pair : Option Message) : Prop :=
  (a.made = none ∧ pair = none) ∨
    ∃ q i j n, a.path = q ++ [(messageField, i)] ∧
      a.made = some (q ++ [(messageNested, j)]) ∧ pair = some n ∧
      x.walk (q ++ [(messageNested, j)]) = some (.message n)

/-- If both are map fields of one message, their pair types come in the same order. -/
def InOrder (a b : Entry) : Prop :=
  ∀ q i j i' j', a.path = q ++ [(messageField, i)] →
    a.made = some (q ++ [(messageNested, j)]) →
    b.path = q ++ [(messageField, i')] →
    b.made = some (q ++ [(messageNested, j')]) → i < i' → j < j'

end Entry

/-- How a declaration is read: `R z pair span first past` says that the tokens from `first` up to
`past` are those of the declaration `z`, with the pair type `pair` if it is a map field, and that
`span` is the stretch of text they cover. -/
abbrev Readings := Item → Option Message → Span → Nat → Nat → Prop

/-- The entry leads to a declaration that was read from the tokens between `i` and `j`. -/
def Entry.Stands (R : Readings) (x : Item) (i j : Nat) (a : Entry) : Prop :=
  ∃ z pair, x.walk a.path = some z ∧ z.IsDeclared ∧ i ≤ a.first ∧ a.past ≤ j ∧
    R z pair a.span a.first a.past ∧ a.HasPairType x pair

def madePaths (es : List Entry) : List (List Edge) :=
  es.filterMap Entry.made

/-- On the paths in `D` the entries are those of the declarations in `x`, each once. -/
structure Covers (R : Readings) (x : Item) (D : List Edge → Prop) (i j : Nat) (es : List Entry) :
    Prop where
  domain : ∀ a ∈ es, D a.path
  made_domain : ∀ p ∈ madePaths es, D p
  nodup : (es.map Entry.path).Nodup
  made_nodup : (madePaths es).Nodup
  complete : ∀ p z, D p → x.walk p = some z → z.IsDeclared →
    p ∈ es.map Entry.path ∨ ∃ q ∈ madePaths es, q <+: p
  apart : ∀ a ∈ es, ∀ q ∈ madePaths es, ¬q <+: a.path
  stands : ∀ a ∈ es, a.Stands R x i j
  within : ∀ a ∈ es, ∀ b ∈ es, b.path <+: a.path → b.first ≤ a.first ∧ a.past ≤ b.past
  ordered : ∀ a ∈ es, ∀ b ∈ es, a.InOrder b

abbrev Noted (R : Readings) (x : Item) (i j : Nat) (es : List Entry) : Prop :=
  Covers R x (· ≠ []) i j es

section Tables

variable {R : Readings} {x y : Item} {D D' : List Edge → Prop} {i i' j j' : Nat}
  {es es' : List Entry}

theorem mem_madePaths : p ∈ madePaths es ↔ ∃ a ∈ es, a.made = some p := by
  simp [madePaths]

private theorem madePaths_append : madePaths (es ++ es') = madePaths es ++ madePaths es' := by
  simp [madePaths]

theorem Entry.Stands.mono (h : a.Stands R x i j) (hi : i' ≤ i) (hj : j ≤ j') :
    a.Stands R x i' j' := by
  obtain ⟨z, pair, hwalk, hdeclared, hfirst, hpast, hread, hpair⟩ := h
  exact ⟨z, pair, hwalk, hdeclared, Nat.le_trans hi hfirst, Nat.le_trans hpast hj, hread, hpair⟩

/-- The path of a pair type leads to it. -/
theorem Entry.Stands.exists_made (h : a.Stands R x i j) (hp : a.made = some p) :
    p ≠ [] ∧ ∃ z, x.walk p = some z := by
  obtain ⟨z, pair, _, _, _, _, _, hnone | ⟨q, _, _, n, _, hmade, _, hwalk⟩⟩ := h
  · rw [hnone.1] at hp
    cases hp
  · rw [hmade] at hp
    cases hp
    exact ⟨by simp, _, hwalk⟩

namespace Covers

theorem mono (h : Covers R x D i j es) (hi : i' ≤ i) (hj : j ≤ j') : Covers R x D i' j' es :=
  { h with stands := fun a ha => (h.stands a ha).mono hi hj }

/-- Paths that lead nowhere do not matter. -/
theorem widen (h : Covers R x D i j es) (hD : ∀ p, D p → D' p)
    (hwalk : ∀ p z, D' p → x.walk p = some z → D p) : Covers R x D' i j es :=
  { h with
    domain := fun a ha => hD _ (h.domain a ha)
    made_domain := fun p hp => hD _ (h.made_domain p hp)
    complete := fun p z hp hz => h.complete p z (hwalk p z hp hz) hz }

/-- Nothing has to be listed where nothing is declared. -/
theorem nil (h : ∀ p z, D p → x.walk p = some z → ¬z.IsDeclared) : Covers R x D i j [] where
  domain _ ha := by cases ha
  made_domain _ hp := by cases hp
  nodup := nodup_nil
  made_nodup := nodup_nil
  complete p z hp hz hdeclared := absurd hdeclared (h p z hp hz)
  apart _ ha := by cases ha
  stands _ ha := by cases ha
  within _ ha := by cases ha
  ordered _ ha := by cases ha

/-- Two tables for paths none of which begins with one of the other kind. -/
theorem append (h : Covers R x D i j es) (h' : Covers R x D' i j es')
    (hapart : ∀ p q, D p → D' q → ¬p <+: q ∧ ¬q <+: p)
    (horder : ∀ a ∈ es, ∀ b ∈ es', a.InOrder b ∧ b.InOrder a) :
    Covers R x (fun p => D p ∨ D' p) i j (es ++ es') where
  domain := forall_mem_append.mpr
    ⟨fun a ha => .inl (h.domain a ha), fun a ha => .inr (h'.domain a ha)⟩
  made_domain := by
    rw [madePaths_append, forall_mem_append]
    exact ⟨fun p hp => .inl (h.made_domain p hp), fun p hp => .inr (h'.made_domain p hp)⟩
  nodup := by
    rw [map_append]
    refine h.nodup.append h'.nodup fun p hp hp' => ?_
    obtain ⟨a, ha, rfl⟩ := mem_map.mp hp
    obtain ⟨b, hb, heq⟩ := mem_map.mp hp'
    exact (hapart _ _ (h.domain a ha) (h'.domain b hb)).2 (heq ▸ prefix_refl _)
  made_nodup := by
    rw [madePaths_append]
    refine h.made_nodup.append h'.made_nodup fun p hp hp' => ?_
    exact (hapart p p (h.made_domain p hp) (h'.made_domain p hp')).1 (prefix_refl p)
  complete p z hp hz hdeclared := by
    simp only [map_append, madePaths_append, mem_append, or_and_right, exists_or]
    rcases hp with hp | hp
    · exact (h.complete p z hp hz hdeclared).imp .inl .inl
    · exact (h'.complete p z hp hz hdeclared).imp .inr .inr
  apart := by
    simp only [madePaths_append, forall_mem_append]
    exact ⟨fun a ha => ⟨h.apart a ha, fun q hq =>
        (hapart _ _ (h.domain a ha) (h'.made_domain q hq)).2⟩,
      fun a ha => ⟨fun q hq => (hapart _ _ (h.made_domain q hq) (h'.domain a ha)).1, h'.apart a ha⟩⟩
  stands := forall_mem_append.mpr ⟨h.stands, h'.stands⟩
  within := by
    simp only [forall_mem_append]
    exact ⟨fun a ha => ⟨h.within a ha, fun b hb hprefix =>
        absurd hprefix (hapart _ _ (h.domain a ha) (h'.domain b hb)).2⟩,
      fun a ha => ⟨fun b hb hprefix =>
        absurd hprefix (hapart _ _ (h.domain b hb) (h'.domain a ha)).1, h'.within a ha⟩⟩
  ordered := by
    simp only [forall_mem_append]
    exact ⟨fun a ha => ⟨h.ordered a ha, fun b hb => (horder a ha b hb).1⟩,
      fun a ha => ⟨fun b hb => (horder b hb a ha).2, h'.ordered a ha⟩⟩

end Covers

/-! ## One step further -/

private theorem madePaths_behind (e : Edge) (es : List Entry) :
    madePaths (es.map (Entry.behind e)) = (madePaths es).map (e :: ·) := by
  rw [madePaths, madePaths, filterMap_map, map_filterMap]
  rfl

variable {e : Edge} {z w : Item} {tag : Int} {f : Field} {n : Message}

theorem Entry.Stands.behind (h : a.Stands R y i j) (hy : (x.children e.1)[e.2]? = some y) :
    (a.behind e).Stands R x i j := by
  obtain ⟨z, pair, hwalk, hdeclared, hfirst, hpast, hread, hpair⟩ := h
  refine ⟨z, pair, ?_, hdeclared, hfirst, hpast, hread, ?_⟩
  · rw [Entry.behind, Item.walk_cons_of_eq hy]
    exact hwalk
  · rcases hpair with ⟨hmade, hnone⟩ | ⟨q, k, l, n, hpath, hmade, hsome, hwalk⟩
    · exact .inl ⟨by rw [Entry.behind, hmade]; rfl, hnone⟩
    · refine .inr ⟨e :: q, k, l, n, ?_, ?_, hsome, ?_⟩
      · rw [Entry.behind, hpath]
        rfl
      · rw [Entry.behind, hmade]
        rfl
      · rw [cons_append, Item.walk_cons_of_eq hy]
        exact hwalk

theorem Entry.InOrder.behind {b : Entry} (h : a.InOrder b) (e : Edge) (hpath : a.path ≠ []) :
    (a.behind e).InOrder (b.behind e) := by
  intro q i j i' j' ha hma hb hmb hlt
  cases q with
  | nil => exact absurd (List.cons.inj ha).2 hpath
  | cons e' q =>
    have hmade : ∀ {c : Entry} {k : Nat},
        (c.behind e).made = some (e' :: q ++ [(messageNested, k)]) →
          c.made = some (q ++ [(messageNested, k)]) := by
      intro c k hc
      obtain ⟨p, hp, heq⟩ := Option.map_eq_some_iff.mp hc
      rw [hp, (List.cons.inj heq).2]
      rfl
    exact h q i j i' j' (List.cons.inj ha).2 (hmade hma) (List.cons.inj hb).2 (hmade hmb) hlt

/-- The table of what is in a declaration one step away. -/
theorem Noted.further (h : Noted R y i j es) (hy : (x.children e.1)[e.2]? = some y) :
    Covers R x (fun p => ∃ r, r ≠ [] ∧ p = e :: r) i j (es.map (Entry.behind e)) := by
  have hinj : Function.Injective fun p : List Edge => e :: p := fun p q h => (List.cons.inj h).2
  have hpaths : (es.map (Entry.behind e)).map Entry.path = (es.map Entry.path).map (e :: ·) := by
    rw [map_map, map_map]
    rfl
  constructor
  case domain =>
    rw [forall_mem_map]
    exact fun b hb => ⟨b.path, h.domain b hb, rfl⟩
  case made_domain =>
    rw [madePaths_behind, forall_mem_map]
    exact fun q hq => ⟨q, h.made_domain q hq, rfl⟩
  case nodup =>
    rw [hpaths]
    exact h.nodup.map hinj
  case made_nodup =>
    rw [madePaths_behind]
    exact h.made_nodup.map hinj
  case complete =>
    rintro _ z ⟨r, hr, rfl⟩ hz hdeclared
    rw [Item.walk_cons_of_eq hy] at hz
    rw [hpaths, madePaths_behind]
    rcases h.complete r z hr hz hdeclared with hin | ⟨q, hq, hprefix⟩
    · exact .inl (mem_map_of_mem hin)
    · exact .inr ⟨e :: q, mem_map_of_mem hq, cons_prefix_cons.mpr ⟨rfl, hprefix⟩⟩
  case apart =>
    simp only [madePaths_behind, forall_mem_map]
    exact fun b hb q hq hprefix => h.apart b hb q hq (cons_prefix_cons.mp hprefix).2
  case stands =>
    rw [forall_mem_map]
    exact fun b hb => (h.stands b hb).behind hy
  case within =>
    simp only [forall_mem_map]
    exact fun b hb c hc hprefix => h.within b hb c hc (cons_prefix_cons.mp hprefix).2
  case ordered =>
    simp only [forall_mem_map]
    exact fun b hb c hc => (h.ordered b hb c hc).behind e (h.domain b hb)

/-- The table of what is in a declaration, with the declaration itself at its end. -/
theorem Covers.own (h : Covers R x D a.first a.past es) (hD : ∀ p, D p → a.path <+: p ∧ p ≠ a.path)
    (hmade : a.made = none) (ha : a.Stands R x i j) :
    Covers R x (fun p => p = a.path ∨ D p) i j (es ++ [a]) := by
  have hmades : madePaths (es ++ [a]) = madePaths es := by simp [madePaths, hmade]
  have hnot : ∀ p, D p → ¬p <+: a.path := by
    intro p hp hbefore
    exact (hD p hp).2 (hbefore.eq_of_length_le (hD p hp).1.length_le)
  constructor
  case domain =>
    rw [forall_mem_append, forall_mem_singleton]
    exact ⟨fun b hb => .inr (h.domain b hb), .inl rfl⟩
  case made_domain =>
    rw [hmades]
    exact fun p hp => .inr (h.made_domain p hp)
  case nodup =>
    rw [map_append, map_singleton]
    refine h.nodup.append (nodup_singleton _) ?_
    rw [disjoint_singleton]
    intro hself
    obtain ⟨b, hb, heq⟩ := mem_map.mp hself
    exact (hD _ (h.domain b hb)).2 heq
  case made_nodup =>
    rw [hmades]
    exact h.made_nodup
  case complete =>
    rintro p z (rfl | hp) hz hdeclared
    · exact .inl (by simp)
    · rw [map_append, hmades]
      exact (h.complete p z hp hz hdeclared).imp_left (mem_append_left _)
  case apart =>
    rw [hmades, forall_mem_append, forall_mem_singleton]
    exact ⟨h.apart, fun q hq => hnot q (h.made_domain q hq)⟩
  case stands =>
    obtain ⟨_, _, _, _, hi, hj, _⟩ := id ha
    rw [forall_mem_append, forall_mem_singleton]
    exact ⟨fun b hb => (h.stands b hb).mono hi hj, ha⟩
  case within =>
    simp only [forall_mem_append, forall_mem_singleton]
    refine ⟨fun b hb => ⟨h.within b hb, fun _ => ?_⟩, fun c hc hprefix => ?_, fun _ => ?_⟩
    · obtain ⟨_, _, _, _, hfirst, hpast, _⟩ := h.stands b hb
      exact ⟨hfirst, hpast⟩
    · exact absurd hprefix (hnot _ (h.domain c hc))
    · exact ⟨Nat.le_refl _, Nat.le_refl _⟩
  case ordered =>
    -- nothing was made for the declaration itself
    have hlast : ∀ b, b.InOrder a ∧ a.InOrder b := by
      intro b
      constructor
      · intro q k l k' l' _ _ _ hsome
        cases hmade.symm.trans hsome
      · intro q k l k' l' _ hsome
        cases hmade.symm.trans hsome
    simp only [forall_mem_append, forall_mem_singleton]
    exact ⟨fun b hb => ⟨h.ordered b hb, (hlast b).1⟩, fun b _ => (hlast b).2, (hlast a).1⟩

/-- The table of a declaration one step away, with the declaration itself at its end. -/
theorem Noted.behind (h : Noted R y a.first a.past es) (hy : (x.children e.1)[e.2]? = some y)
    (hpath : a.path = [e]) (hmade : a.made = none) (ha : a.Stands R x i j) :
    Covers R x (fun p => ∃ r, p = e :: r) i j (es.map (Entry.behind e) ++ [a]) := by
  refine ((h.further hy).own ?_ hmade ha).widen ?_ ?_
  · rintro _ ⟨r, hr, rfl⟩
    rw [hpath]
    exact ⟨cons_prefix_cons.mpr ⟨rfl, nil_prefix⟩, fun heq => hr (List.cons.inj heq).2⟩
  · rintro p (rfl | ⟨r, _, rfl⟩)
    · exact ⟨[], hpath⟩
    · exact ⟨r, rfl⟩
  · rintro _ _ ⟨r, rfl⟩ _
    rcases eq_or_ne r [] with rfl | hr
    · exact .inl hpath.symm
    · exact .inr ⟨r, hr, rfl⟩

/-! ## More in a declaration -/

def Old (x : Item) (p : List Edge) : Prop :=
  ∃ e r, p = e :: r ∧ e.2 < (x.children e.1).length

def New (x : Item) (p : List Edge) : Prop :=
  ∃ e r, p = e :: r ∧ (x.children e.1).length ≤ e.2

theorem old_of_walk (hp : p ≠ []) (h : x.walk p = some z) : Old x p := by
  obtain ⟨e, r, rfl⟩ := exists_cons_of_ne_nil hp
  exact ⟨e, r, rfl, Item.lt_of_walk h⟩

theorem Item.Grows.walk_of_old (h : x.Grows y) (hp : Old x p) : y.walk p = x.walk p := by
  obtain ⟨e, r, rfl, hlt⟩ := hp
  exact h.walk_cons hlt

theorem Entry.Stands.grow (h : a.Stands R x i j) (hgrows : x.Grows y) (hpath : a.path ≠ []) :
    a.Stands R y i j := by
  obtain ⟨z, pair, hwalk, hdeclared, hfirst, hpast, hread, hpair⟩ := h
  refine ⟨z, pair, ?_, hdeclared, hfirst, hpast, hread, ?_⟩
  · rw [hgrows.walk_of_old (old_of_walk hpath hwalk), hwalk]
  · rcases hpair with hnone | ⟨q, k, l, n, hpath, hmade, hsome, hwalk⟩
    · exact .inl hnone
    · refine .inr ⟨q, k, l, n, hpath, hmade, hsome, ?_⟩
      rw [hgrows.walk_of_old (old_of_walk (by simp) hwalk), hwalk]

/-- What was declared first keeps its entries when more is declared. -/
theorem Noted.old (h : Noted R x i j es) (hgrows : x.Grows y) : Covers R y (Old x) i j es where
  domain a ha := by
    obtain ⟨z, _, hwalk, _⟩ := h.stands a ha
    exact old_of_walk (h.domain a ha) hwalk
  made_domain p hp := by
    obtain ⟨a, ha, hmade⟩ := mem_madePaths.mp hp
    obtain ⟨hne, z, hwalk⟩ := (h.stands a ha).exists_made hmade
    exact old_of_walk hne hwalk
  nodup := h.nodup
  made_nodup := h.made_nodup
  complete p z hp hz := by
    rw [hgrows.walk_of_old hp] at hz
    obtain ⟨e, r, rfl, _⟩ := hp
    exact h.complete _ z (by simp) hz
  apart := h.apart
  stands a ha := (h.stands a ha).grow hgrows (h.domain a ha)
  within := h.within
  ordered := h.ordered

/-- What is new comes after what is old. -/
theorem lt_of_old_of_new {q : List Edge} {k l : Nat} (h : Old x (q ++ [(tag, k)]))
    (h' : New x (q ++ [(tag, l)])) : k < l := by
  obtain ⟨e, r, he, hlt⟩ := h
  obtain ⟨e', r', he', hle⟩ := h'
  cases q with
  | nil =>
    rw [← (List.cons.inj he).1] at hlt
    rw [← (List.cons.inj he').1] at hle
    exact Nat.lt_of_lt_of_le hlt hle
  | cons d q =>
    rw [← (List.cons.inj he).1] at hlt
    rw [← (List.cons.inj he').1] at hle
    omega

/-- A table goes on with the entries of what is new. -/
theorem Noted.grow (h : Noted R x i j es) (hgrows : x.Grows y) (h' : Covers R y (New x) i j es') :
    Noted R y i j (es ++ es') := by
  have hapart : ∀ p q, Old x p → New x q → ¬p <+: q ∧ ¬q <+: p := by
    rintro _ _ ⟨e, r, rfl, hlt⟩ ⟨e', r', rfl, hle⟩
    have hne : e ≠ e' := by
      rintro rfl
      omega
    exact ⟨fun hprefix => hne (cons_prefix_cons.mp hprefix).1,
      fun hprefix => hne (cons_prefix_cons.mp hprefix).1.symm⟩
  have hold := h.old hgrows
  have horder : ∀ a ∈ es, ∀ b ∈ es', a.InOrder b ∧ b.InOrder a := by
    intro a ha b hb
    constructor
    · intro q i j i' j' _ hma _ hmb _
      exact lt_of_old_of_new (hold.made_domain _ (mem_madePaths.mpr ⟨a, ha, hma⟩))
        (h'.made_domain _ (mem_madePaths.mpr ⟨b, hb, hmb⟩))
    · intro q i j i' j' hpb _ hpa _ hlt
      have hgt : i' < i := lt_of_old_of_new (hpa ▸ hold.domain a ha) (hpb ▸ h'.domain b hb)
      omega
  refine (hold.append h' hapart horder).widen ?_ ?_
  · rintro _ (⟨e, r, rfl, _⟩ | ⟨e, r, rfl, _⟩)
    · simp
    · simp
  · intro p z hp _
    obtain ⟨e, r, rfl⟩ := exists_cons_of_ne_nil hp
    rcases Nat.lt_or_ge e.2 (x.children e.1).length with hlt | hge
    · exact .inl ⟨e, r, rfl, hlt⟩
    · exact .inr ⟨e, r, rfl, hge⟩

def Item.Adds (x y : Item) (more : Int → List Item) : Prop :=
  ∀ tag, y.children tag = x.children tag ++ more tag

theorem Item.Adds.grows (h : x.Adds y more) : x.Grows y :=
  fun tag => ⟨more tag, (h tag).symm⟩

/-- One more declaration under a tag. -/
theorem Item.adds_of (h : y.children tag = x.children tag ++ [z])
    (hother : ∀ t, t ≠ tag → y.children t = x.children t) :
    x.Adds y fun t => if t = tag then [z] else [] := by
  intro t
  by_cases ht : t = tag
  · simp [ht, h]
  · simp [ht, hother t ht]

/-- Only what was added is new, and what is in it. -/
theorem Item.Adds.exists_of_new (h : x.Adds y more) {w : Item} (hp : New x p)
    (hw : y.walk p = some w) : ∃ tag k r z, p = (tag, (x.children tag).length + k) :: r ∧
      (more tag)[k]? = some z ∧ z.walk r = some w := by
  obtain ⟨⟨tag, n⟩, r, rfl, hle⟩ := hp
  obtain ⟨z, hz, hw⟩ := Option.bind_eq_some_iff.mp hw
  rw [h, getElem?_append_right hle] at hz
  exact ⟨tag, _, r, z, by rw [Nat.add_sub_cancel' hle], hz, hw⟩

/-- Nothing is behind what has nothing in it. -/
theorem Item.eq_nil_of_walk (h : ∀ tag, x.children tag = []) (hw : x.walk p = some w) : p = [] := by
  cases p with
  | nil => rfl
  | cons e p => simp [walk_cons, h] at hw

theorem Noted.nil (h : ∀ tag, x.children tag = []) : Noted R x i j [] := by
  exact Covers.nil fun p z hp hz => absurd (Item.eq_nil_of_walk h hz) hp

/-- With a map field, what is new is the field, and its pair type with all that is in it. -/
theorem Item.Adds.eq_or_isPrefix
    (hadds : x.Adds y fun t => if t = messageField then [.field f]
      else if t = messageNested then [.message n] else []) (hp : New x p)
    (hw : y.walk p = some w) :
    p = [(messageField, (x.children messageField).length)] ∨
      [(messageNested, (x.children messageNested).length)] <+: p := by
  obtain ⟨t, k, r, z, rfl, hz, hw⟩ := hadds.exists_of_new hp hw
  split at hz
  · next ht =>
    subst ht
    rw [getElem?_singleton, Option.ite_none_right_eq_some] at hz
    obtain ⟨rfl, ⟨⟩⟩ := hz
    -- nothing is declared in a field
    rw [Item.eq_nil_of_walk (fun _ => rfl) hw]
    exact .inl rfl
  split at hz
  · next ht =>
    subst ht
    rw [getElem?_singleton, Option.ite_none_right_eq_some] at hz
    obtain ⟨rfl, _⟩ := hz
    exact .inr (cons_prefix_cons.mpr ⟨rfl, nil_prefix⟩)
  · cases hz

variable (h : Noted R x i j es)
include h

/-- One more declaration, with all that is in it. -/
theorem Noted.add (hadds : x.Adds y fun t => if t = tag then [z] else [])
    (hz : Noted R z a.first a.past es') (hi : i ≤ a.first) (hj : a.past ≤ j)
    (hpath : a.path = [(tag, (x.children tag).length)]) (hmade : a.made = none)
    (hdeclared : z.IsDeclared) (hread : R z none a.span a.first a.past) :
    Noted R y i j (es ++ (es'.map (Entry.behind (tag, (x.children tag).length)) ++ [a])) := by
  have hchild : (y.children tag)[(x.children tag).length]? = some z := by
    rw [hadds tag]
    simp
  have hstands : a.Stands R y i j :=
    ⟨z, none, by rw [hpath, Item.walk_cons_of_eq hchild]; rfl, hdeclared, hi, hj, hread,
      .inl ⟨hmade, rfl⟩⟩
  refine h.grow hadds.grows ((hz.behind hchild hpath hmade hstands).widen ?_ ?_)
  · rintro _ ⟨r, rfl⟩
    exact ⟨_, r, rfl, Nat.le_refl _⟩
  · intro p w hp hw
    obtain ⟨t, k, r, _, rfl, hz, _⟩ := hadds.exists_of_new hp hw
    split at hz
    · next ht =>
      subst ht
      rw [getElem?_singleton, Option.ite_none_right_eq_some] at hz
      obtain ⟨rfl, _⟩ := hz
      exact ⟨r, rfl⟩
    · cases hz

/-- One more map field, and the pair type made for it. -/
theorem Noted.addMap
    (hadds : x.Adds y fun t => if t = messageField then [.field f]
      else if t = messageNested then [.message n] else []) (hi : i ≤ a.first)
    (hj : a.past ≤ j)
    (hpath : a.path = [(messageField, (x.children messageField).length)])
    (hmade : a.made = some [(messageNested, (x.children messageNested).length)])
    (hread : R (.field f) (some n) a.span a.first a.past) : Noted R y i j (es ++ [a]) := by
  have hmades : madePaths [a] = [[(messageNested, (x.children messageNested).length)]] := by
    simp [madePaths, hmade]
  have hfield : y.walk a.path = some (.field f) := by
    rw [hpath, Item.walk_cons_of_eq (y := .field f) (by rw [hadds]; simp)]
    rfl
  have hpair : y.walk [(messageNested, (x.children messageNested).length)] = some (.message n) := by
    have hchild : (y.children messageNested)[(x.children messageNested).length]? =
          some (.message n) := by
      rw [hadds]
      simp [messageNested, messageField]
    rw [Item.walk_cons_of_eq hchild]
    rfl
  refine h.grow hadds.grows ?_
  constructor
  case domain =>
    rw [forall_mem_singleton, hpath]
    exact ⟨_, [], rfl, Nat.le_refl _⟩
  case made_domain =>
    rw [hmades, forall_mem_singleton]
    exact ⟨_, [], rfl, Nat.le_refl _⟩
  case nodup => simp
  case made_nodup => simp [hmades]
  case complete =>
    intro p w hp hw _
    rw [map_singleton, hmades, hpath]
    rcases hadds.eq_or_isPrefix hp hw with rfl | hprefix
    · exact .inl (mem_singleton_self _)
    · exact .inr ⟨_, mem_singleton_self _, hprefix⟩
  case apart =>
    rw [forall_mem_singleton, hmades, forall_mem_singleton, hpath]
    intro hprefix
    have heq := congrArg Prod.fst (cons_prefix_cons.mp hprefix).1
    simp [messageNested, messageField] at heq
  case stands =>
    rw [forall_mem_singleton]
    exact ⟨.field f, some n, hfield, trivial, hi, hj, hread,
      .inr ⟨[], _, _, n, hpath, hmade, rfl, hpair⟩⟩
  case within =>
    simp only [forall_mem_singleton]
    exact fun _ => ⟨Nat.le_refl _, Nat.le_refl _⟩
  case ordered =>
    simp only [forall_mem_singleton]
    intro q k l k' l' hpath _ hpath' _ hlt
    rw [hpath] at hpath'
    have heq : k = k' := by simpa using hpath'
    omega

/-- What is made and not declared has no entries. -/
theorem Noted.pad (hadds : x.Adds y more)
    (hmore : ∀ tag, ∀ z ∈ more tag, ¬z.IsDeclared ∧ ∀ t, z.children t = []) : Noted R y i j es := by
  have hnew : Covers R y (New x) i j [] := by
    refine .nil fun p w hp hw => ?_
    obtain ⟨tag, k, r, z, rfl, hz, hw⟩ := hadds.exists_of_new hp hw
    obtain ⟨hmade, hempty⟩ := hmore tag z (mem_of_getElem? hz)
    rw [Item.eq_nil_of_walk hempty hw] at hw
    cases hw
    exact hmade
  simpa using h.grow hadds.grows hnew

theorem Noted.congr (hsame : ∀ tag, y.children tag = x.children tag) : Noted R y i j es := by
  have hadds : x.Adds y fun _ => [] := fun tag => by rw [hsame, append_nil]
  exact h.pad hadds (by simp)

end Tables

/-! ## Messages -/

namespace Message

variable {m m' : Message}

/-- No field that is marked optional has got its oneof yet. -/
def Unfurnished (m : Message) : Prop :=
  ∀ f ∈ m.fields, f.proto3Optional = true → f.oneofIndex = none

theorem Unfurnished.isMade (h : m.Unfurnished) (index : Nat) : m.isMade index = false := by
  simp only [Message.isMade, any_eq_false, Bool.and_eq_true, decide_eq_true_eq]
  rintro f hf ⟨hmarked, hindex⟩
  rw [h f hf hmarked] at hindex
  cases hindex

theorem FromGroups.unfurnished (h : m.FromGroups gs) : m.Unfurnished := by
  intro f hf hmarked
  have hfields : m.fields = (FieldGroup.placeAll gs).1 := congrArg Prod.fst h.1
  exact FieldGroup.oneofIndex_placeAll h.2 (hfields ▸ hf) hmarked

/-- Before the optional fields get theirs, all oneofs are declared. -/
theorem Unfurnished.children_oneof (h : m.Unfurnished) :
    (Item.message m).children messageOneof = m.oneofs.map (Item.oneof · false) := by
  have hchildren : (Item.message m).children messageOneof =
      m.oneofs.mapIdx fun i o => Item.oneof o (m.isMade i) := rfl
  rw [hchildren]
  refine ext_getElem? fun k => ?_
  rw [List.getElem?_mapIdx, getElem?_map, h.isMade]

/-- What a field adds to a message, with its pair type if it is a map. -/
theorem adds_field {f : Field} {entry : Option Message} (hfields : m'.fields = m.fields ++ [f])
    (hnested : m'.nested = m.nested ++ entry.toList) (henums : m'.enums = m.enums)
    (hextensions : m'.extensions = m.extensions) (honeofs : m'.oneofs = m.oneofs)
    (hm : m.Unfurnished) (hm' : m'.Unfurnished) :
    (Item.message m).Adds (.message m') fun t =>
      if t = messageField then [.field f.unplaced]
      else if t = messageNested then entry.toList.map .message else [] := by
  intro tag
  by_cases honeof : tag = messageOneof
  · subst honeof
    rw [hm.children_oneof, hm'.children_oneof, honeofs]
    exact (append_nil _).symm
  · simp only [Item.children, if_neg honeof]
    split
    · rw [hfields, map_append, map_singleton]
    · split
      · rw [hnested, map_append]
      · rw [henums, hextensions, append_nil]

/-- The oneofs made for optional fields are told from the declared ones. -/
theorem isMade_withSyntheticOneofs (h : m.FromGroups gs) {index : Nat}
    (hlt : index < m.withSyntheticOneofs.oneofs.length) :
    m.withSyntheticOneofs.isMade index = decide (m.oneofs.length ≤ index) := by
  obtain ⟨hcross, made, hmade⟩ := crossIndexed_withSyntheticOneofs h
  generalize m.withSyntheticOneofs = m' at hlt hcross hmade
  have hat : ∀ k, m.oneofs.length ≤ k → m'.oneofs[k]? = made[k - m.oneofs.length]? := by
    intro k hk
    rw [hmade.oneofs, getElem?_append_right hk]
  rw [Bool.eq_iff_iff, decide_eq_true_eq]
  simp only [isMade, any_eq_true, Bool.and_eq_true, decide_eq_true_eq]
  constructor
  · rintro ⟨f, hf, hmarked, hindex⟩
    obtain ⟨i, hi⟩ := mem_iff_getElem?.mp hf
    obtain ⟨o, ho, hmem⟩ := (hmade.optional_iff i f hi).mp hmarked
    obtain ⟨k, hk⟩ := mem_iff_getElem?.mp ho
    have hplace : f.oneofIndex = some (m.oneofs.length + k) := by
      refine (hcross.paired.mem_iff i f hi _).mpr ⟨o, ?_, hmem⟩
      rw [hat _ (by omega), Nat.add_sub_cancel_left, hk]
    rw [hindex] at hplace
    cases hplace
    omega
  · intro hle
    have ho : m'.oneofs[index]? = some m'.oneofs[index] := getElem?_eq_getElem hlt
    have hin : m'.oneofs[index] ∈ made := by
      rw [hat index hle] at ho
      exact mem_of_getElem? ho
    obtain ⟨i, hi⟩ := hmade.single _ hin
    have hmem : i ∈ m'.oneofs[index].fields := by simp [hi]
    have hrange := hcross.paired.lt_length (mem_of_getElem? ho) hmem
    have hf := getElem?_eq_getElem hrange
    refine ⟨m'.fields[i], getElem_mem hrange, ?_, ?_⟩
    · exact (hmade.optional_iff i _ hf).mpr ⟨_, hin, hmem⟩
    · exact (hcross.paired.mem_iff i _ hf index).mpr ⟨_, ho, hmem⟩

/-- All that is made for the optional fields of a message is oneofs. -/
theorem adds_withSyntheticOneofs (h : m.FromGroups gs) :
    ∃ made : List Oneof, (Item.message m).Adds (.message m.withSyntheticOneofs) fun t =>
      if t = messageOneof then made.map (Item.oneof · true) else [] := by
  obtain ⟨hcross, made, hmade⟩ := crossIndexed_withSyntheticOneofs h
  refine ⟨made, fun tag => ?_⟩
  by_cases honeof : tag = messageOneof
  · subst honeof
    rw [h.unfurnished.children_oneof]
    have hchildren : (Item.message m.withSyntheticOneofs).children messageOneof =
        m.withSyntheticOneofs.oneofs.mapIdx fun i o =>
          Item.oneof o (m.withSyntheticOneofs.isMade i) := rfl
    rw [hchildren]
    refine ext_getElem? fun k => ?_
    have hflag : ∀ o, m.withSyntheticOneofs.oneofs[k]? = some o →
        m.withSyntheticOneofs.isMade k = decide (m.oneofs.length ≤ k) := fun o ho =>
      isMade_withSyntheticOneofs h (List.getElem?_eq_some_iff.mp ho).1
    rw [List.getElem?_mapIdx]
    simp only [if_true]
    rw [hmade.oneofs] at hflag ⊢
    rcases Nat.lt_or_ge k m.oneofs.length with hlt | hge
    · rw [getElem?_append_left hlt, getElem?_append_left (by simpa using hlt), getElem?_map]
      refine Option.map_congr fun o ho => ?_
      rw [hflag o (by rw [getElem?_append_left hlt]; exact ho), decide_eq_false (by omega)]
    · rw [getElem?_append_right hge, getElem?_append_right (by simpa using hge),
        getElem?_map, length_map]
      refine Option.map_congr fun o ho => ?_
      rw [hflag o (by rw [getElem?_append_right hge]; exact ho), decide_eq_true hge]
  · have hunplaced : m.withSyntheticOneofs.fields.map (fun f => Item.field f.unplaced) =
        m.fields.map fun f => Item.field f.unplaced := by
      have hmapped := congrArg (List.map Item.field) m.furnished_withSyntheticOneofs.unplaced
      rwa [map_map, map_map] at hmapped
    simp only [Item.children, if_neg honeof, append_nil, nested_withSyntheticOneofs,
      enums_withSyntheticOneofs, extensions_withSyntheticOneofs, hunplaced]

end Message

end ProtoSchema
