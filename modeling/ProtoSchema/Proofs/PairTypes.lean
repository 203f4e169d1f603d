import ProtoSchema.Proofs.Link.MapShape
import ProtoSchema.Proofs.Locations

/-!
The pair types of a file that was read. A message that is declared in the text has a location, and a
pair type that is made for a map field has none. So where no declared message is marked as a pair
type, the messages that are marked are those of the map fields, in the order of the fields.
-/

namespace ProtoSchema

open List Option Item Location

variable {m : Message}

/-- No message that is declared in the text is marked as a pair type. -/
def File.NoneMarked (file : File) (locations : List Location) : Prop :=
  ∀ x ∈ locations, ∀ path m, x.path = Edge.encode path →
    (Item.file file).walk path = some (.message m) → m.isMapEntry = false

/-- Members of a list that are found for the members of another one, in the same order. -/
theorem exists_sublist_forall₂ {α β : Type} {r : α → β → Prop} {p : β → Bool} {xs : List α}
    {owner : Nat → Nat → Prop}
    (hmono : ∀ i j i' j', owner i j → owner i' j' → j < j' → i < i') (ys : List β) :
    ∀ start bound : Nat,
      (∀ j y, ys[j]? = some y → p y = true →
        ∃ i x, owner i (start + j) ∧ xs[i]? = some x ∧ r x y) →
      (∀ i j, start ≤ j → owner i j → bound ≤ i) →
      ∃ zs, List.Sublist zs (xs.drop bound) ∧ List.Forall₂ r zs (ys.filter p) := by
  -- what is found for the members from `start` on has an index from `bound` on
  induction ys with
  | nil => exact fun _ _ _ _ => ⟨[], nil_sublist _, .nil⟩
  | cons y ys ih =>
    intro start bound howner hbound
    have hrest : ∀ j y', ys[j]? = some y' → p y' = true →
        ∃ i x, owner i (start + 1 + j) ∧ xs[i]? = some x ∧ r x y' := by
      intro j y' hj hp
      obtain ⟨i, x, hi, hx⟩ := howner (j + 1) y' hj hp
      exact ⟨i, x, by rwa [Nat.add_assoc, Nat.add_comm 1], hx⟩
    by_cases hy : p y = true
    · obtain ⟨i, x, hi, hx, hxy⟩ := howner 0 y rfl hy
      have hle : bound ≤ i := hbound i _ (Nat.le_refl start) hi
      obtain ⟨zs, hsub, hall⟩ := ih (start + 1) (i + 1) hrest
        fun i' j' hj' hi' => hmono i start i' j' hi hi' (by omega)
      refine ⟨x :: zs, ?_, ?_⟩
      · obtain ⟨hlt, hget⟩ := List.getElem?_eq_some_iff.mp hx
        have hdrop : xs.drop i = x :: xs.drop (i + 1) := by
          rw [List.drop_eq_getElem_cons hlt, hget]
        exact (hdrop ▸ hsub.cons_cons x).trans (drop_sublist_drop_left xs hle)
      · rw [filter_cons_of_pos hy]
        exact .cons hxy hall
    · rw [filter_cons_of_neg hy]
      exact ih (start + 1) bound hrest fun i j hj => hbound i j (by omega)

namespace Item

variable {path : List Edge}

theorem walk_append (x : Item) (p q : List Edge) :
    x.walk (p ++ q) = (x.walk p).bind fun y => y.walk q := by
  induction p generalizing x with
  | nil => rfl
  | cons e p ih =>
    rw [cons_append, walk_cons, walk_cons, bind_assoc]
    congr 1
    funext y
    exact ih y

def IsScope : Item → Prop
  | file _ => True
  | message _ => True
  | _ => False

variable {y x : Item} {k : Message}

theorem not_isScope_of_mem_map {α : Type} {g : α → Item} {xs : List α} (hy : y ∈ xs.map g)
    (hg : ∀ a, ¬(g a).IsScope) : ¬y.IsScope := by
  obtain ⟨a, _, rfl⟩ := mem_map.mp hy
  exact hg a

theorem isScope_of_mem_children {tag : Int} (hy : y ∈ x.children tag) (h : y.IsScope) :
    x.IsScope := by
  cases x with
  | file f => trivial
  | message m => trivial
  | enum e =>
    simp only [children] at hy
    split at hy
    · exact absurd h (not_isScope_of_mem_map hy fun _ => id)
    · cases hy
  | service v =>
    simp only [children] at hy
    split at hy
    · exact absurd h (not_isScope_of_mem_map hy fun _ => id)
    · cases hy
  | _ => cases hy

/-- The way to a message leads through files and messages only. -/
theorem isScope_of_walk (h : x.walk path = some (.message m)) : x.IsScope := by
  induction path generalizing x with
  | nil =>
    cases h
    trivial
  | cons e path ih =>
    obtain ⟨y, hy, hwalk⟩ := bind_eq_some_iff.mp h
    exact isScope_of_mem_children (mem_of_getElem? hy) (ih hwalk)

theorem exists_nested_of_walk {e : Edge}
    (h : (Item.message m).walk (e :: path) = some (.message k)) :
    ∃ n, e.1 = messageNested ∧ m.nested[e.2]? = some n ∧
      (Item.message n).walk path = some (.message k) := by
  obtain ⟨y, hy, hwalk⟩ := bind_eq_some_iff.mp h
  have hscope := isScope_of_walk hwalk
  simp only [children] at hy
  split_ifs at hy with hfield hnested
  · exact absurd hscope (not_isScope_of_mem_map (mem_of_getElem? hy) fun _ => id)
  · rw [getElem?_map] at hy
    obtain ⟨n, hn, rfl⟩ := map_eq_some_iff.mp hy
    exact ⟨n, hnested, hn, hwalk⟩
  iterate 2 exact absurd hscope (not_isScope_of_mem_map (mem_of_getElem? hy) fun _ => id)
  · rw [getElem?_mapIdx] at hy
    obtain ⟨o, _, rfl⟩ := map_eq_some_iff.mp hy
    cases hscope
  · cases hy

theorem exists_message_of_walk {file : File} (h : (Item.file file).walk path = some (.message k)) :
    ∃ i m rest, path = (fileMessage, i) :: rest ∧ file.messages[i]? = some m ∧
      (Item.message m).walk rest = some (.message k) := by
  cases path with
  | nil => cases h
  | cons e rest =>
    obtain ⟨y, hy, hwalk⟩ := bind_eq_some_iff.mp h
    have hscope := isScope_of_walk hwalk
    simp only [children] at hy
    split_ifs at hy with hmessage
    · rw [getElem?_map] at hy
      obtain ⟨m, hm, rfl⟩ := map_eq_some_iff.mp hy
      exact ⟨e.2, m, rest, by rw [← hmessage], hm, hwalk⟩
    iterate 3 exact absurd hscope (not_isScope_of_mem_map (mem_of_getElem? hy) fun _ => id)
    · cases hy

/-- No message stands in a pair type. -/
theorem eq_nil_of_walk_mapEntry {name : String} {key value : TypeRef}
    (h : (Item.message (mapEntry name key value)).walk path = some (.message m)) : path = [] := by
  cases path with
  | nil => rfl
  | cons e path =>
    obtain ⟨n, _, hn, _⟩ := exists_nested_of_walk h
    cases hn

end Item

/-- The entries have a map field with the index `k` and its pair type with the index `l`, both in
the message at the path `q`. -/
def MadeFor (es : List Entry) (q : List Edge) (k l : Nat) : Prop :=
  ∃ a ∈ es, a.path = q ++ [(messageField, k)] ∧
    a.made = some (q ++ [(messageNested, l)])

section Table

variable {source : String} {file : File} {i j : Nat} {es : List Entry}
  (h : Noted (ReadAt (tokensOf source) file.dialect) (.file file) i j es)
include h

/-- A pair type was made for a map field that stands in the same message. -/
theorem Covers.declaresMap {a : Entry} (ha : a ∈ es) {p : List Edge} (hmade : a.made = some p) :
    ∃ q k l f n, a.path = q ++ [(messageField, k)] ∧
      p = q ++ [(messageNested, l)] ∧ (Item.file file).walk a.path = some (.field f) ∧
      (Item.file file).walk p = some (.message n) ∧ f.DeclaresMap n ∧
      ∃ name, some n = (mapWritten? (behindLabel ((tokensOf source).drop a.first))).map
        fun types => mapEntry name types.1 types.2 := by
  obtain ⟨z, pair, hz, _, _, _, ⟨_, _, _, c, d, hc, _, hreads⟩, hpair⟩ := h.stands a ha
  rcases hpair with ⟨hnone, _⟩ | ⟨q, k, l, n, hpath, hsome, rfl, hn⟩
  · rw [hmade] at hnone
    cases hnone
  · obtain rfl : p = _ := Option.some.inj (hmade.symm.trans hsome)
    cases hreads with
    | field hrun =>
      have hread := Production.fieldRead_of_run hrun
      have hmap := (Production.ends_field_map (bounded_of_tokens_eq_drop hc)).of_run hrun
      exact ⟨q, k, l, _, n, hpath, rfl, hz, hn, (hread.pairType n rfl).congr rfl, hc ▸ hmap⟩

/-- Pair types come in the order of the map fields they were made for. -/
theorem Covers.lt_of_madeFor {q : List Edge} {k l k' l' : Nat} (hk : MadeFor es q k l)
    (hk' : MadeFor es q k' l') (hlt : l < l') : k < k' := by
  obtain ⟨a, ha, hpa, hma⟩ := hk
  obtain ⟨b, hb, hpb, hmb⟩ := hk'
  rcases Nat.lt_trichotomy k k' with hk | rfl | hk
  · exact hk
  · obtain rfl := inj_on_of_nodup_map h.nodup ha hb (hpa.trans hpb.symm)
    have heq : l = l' := by simpa [hma] using hmb
    omega
  · have hgt := h.ordered b hb a ha q k' l' k l hpb hmb hpa hma hk
    omega

variable (hmarked : ∀ a ∈ es, ∀ m, (Item.file file).walk a.path = some (.message m) →
  m.isMapEntry = false) {q : List Edge} (hq : (Item.file file).walk q = some (.message m))
include hmarked hq

/-- What is nested in a declared message and marked as a pair type was made for a field. -/
theorem Covers.exists_madeFor (hdeclared : ¬∃ p ∈ madePaths es, p <+: q) {l : Nat} {n : Message}
    (hl : m.nested[l]? = some n) (hn : n.isMapEntry = true) :
    ∃ k f, MadeFor es q k l ∧ m.fields[k]? = some f ∧ f.DeclaresMap n := by
  have hwalk : (Item.file file).walk (q ++ [(messageNested, l)]) = some (.message n) := by
    rw [walk_append, hq, bind_some, walk_cons]
    simp [Item.children, messageNested, messageField, hl]
  rcases h.complete _ _ (by simp) hwalk trivial with hmem | ⟨p, hp, hprefix⟩
  · -- a message with a location is not marked
    obtain ⟨a, ha, hpath⟩ := mem_map.mp hmem
    have hunmarked := hmarked a ha n (hpath ▸ hwalk)
    rw [hn] at hunmarked
    cases hunmarked
  · obtain ⟨a, ha, hmade⟩ := mem_madePaths.mp hp
    obtain ⟨q', k, l', f, n', hpath, rfl, hf, hn', hmap, _⟩ := h.declaresMap ha hmade
    rcases prefix_concat_iff.mp hprefix with heq | hprefix
    · obtain ⟨rfl, hlast⟩ := append_inj' heq rfl
      obtain rfl : l' = l := by simpa using hlast
      obtain rfl : n = n' := by simpa [hwalk] using hn'
      rw [hpath, walk_append, hq, bind_some, walk_cons] at hf
      obtain ⟨g, hg, rfl⟩ : ∃ g, m.fields[k]? = some g ∧ g.unplaced = f := by
        simpa [Item.children, messageField] using hf
      exact ⟨k, g, ⟨a, ha, hpath, hmade⟩, hg, hmap.congr rfl⟩
    · exact absurd ⟨_, hp, hprefix⟩ hdeclared

/-- The pair types of a message are those made for its map fields. -/
theorem Covers.exists_owners :
    ∃ owners, List.Sublist owners m.fields ∧
      List.Forall₂ Field.DeclaresMap owners m.pairTypes := by
  by_cases hmade : ∃ p ∈ madePaths es, p <+: q
  · -- nothing is nested in a pair type
    obtain ⟨p, hp, r, rfl⟩ := hmade
    obtain ⟨a, ha, hmade⟩ := mem_madePaths.mp hp
    obtain ⟨_, _, _, _, n, _, _, _, hn, hmap, _⟩ := h.declaresMap ha hmade
    obtain ⟨key, value, rfl⟩ := hmap.entry
    rw [walk_append, hn, bind_some] at hq
    obtain rfl := eq_nil_of_walk_mapEntry hq
    cases hq
    exact ⟨[], nil_sublist _, .nil⟩
  · have hmono : ∀ k l k' l', MadeFor es q k l → MadeFor es q k' l' → l < l' → k < k' :=
      fun _ _ _ _ hk hk' => h.lt_of_madeFor hk hk'
    refine exists_sublist_forall₂ hmono m.nested 0 0 ?_ fun _ _ _ _ => Nat.zero_le _
    intro l n hl hn
    rw [Nat.zero_add]
    exact h.exists_madeFor hmarked hq hmade hl hn

end Table

/-! ## Files that were read -/

section File

variable {path source : String} {file : File} {locations : List Location}
  {dependencies : List LinkedFile} {l : LinkedFile}

theorem File.exists_walk_of_mem_allMessages (h : m ∈ file.allMessages) :
    ∃ q, (Item.file file).walk q = some (.message m) := by
  obtain ⟨n, hn, hm⟩ := mem_flatMap.mp h
  refine Message.forall_mem_within
    (P := fun m => ∃ q, (Item.file file).walk q = some (.message m)) ?_ n ?_ m hm
  · rintro m ⟨q, hq⟩ k hk
    obtain ⟨i, hi⟩ := mem_iff_getElem?.mp hk
    refine ⟨q ++ [(messageNested, i)], ?_⟩
    rw [walk_append, hq, bind_some, walk_cons]
    simp [Item.children, messageNested, messageField, hi]
  · obtain ⟨i, hi⟩ := mem_iff_getElem?.mp hn
    refine ⟨[(fileMessage, i)], ?_⟩
    simp [walk_cons, Item.children, hi]

def messagePath : List Nat → List Edge
  | [] => []
  | i :: is => (fileMessage, i) :: is.map fun j => (messageNested, j)

theorem Message.exists_holds_of_walk {k : Message} {q : List Edge}
    (h : (Item.message m).walk q = some (.message k)) (scope : String) :
    ∃ is : List Nat, q = is.map (fun j => (messageNested, j)) ∧
      ∃ fullName, m.Holds scope (is.map Step.message) ⟨fullName, .message k⟩ := by
  induction q generalizing m scope with
  | nil =>
    cases h
    exact ⟨[], rfl, _, .self _ _⟩
  | cons e q ih =>
    obtain ⟨n, htag, hn, hwalk⟩ := exists_nested_of_walk h
    obtain ⟨is, rfl, fullName, hholds⟩ := ih hwalk (Name.qualify scope m.name)
    exact ⟨e.2 :: is, by rw [map_cons, ← htag], fullName, .nested hn hholds⟩

theorem File.exists_holds_of_walk {q : List Edge}
    (h : (Item.file file).walk q = some (.message m)) :
    ∃ is fullName, q = messagePath is ∧
      file.Holds (is.map Step.message) ⟨fullName, .message m⟩ := by
  obtain ⟨i, n, q, rfl, hn, hwalk⟩ := exists_message_of_walk h
  obtain ⟨is, rfl, fullName, hholds⟩ := Message.exists_holds_of_walk hwalk file.scope
  exact ⟨i :: is, fullName, rfl, .message hn hholds⟩

theorem File.exists_holds_of_mem_allMessages (h : m ∈ file.allMessages) :
    ∃ place fullName, file.Holds place ⟨fullName, .message m⟩ := by
  obtain ⟨q, hq⟩ := exists_walk_of_mem_allMessages h
  obtain ⟨is, fullName, _, hholds⟩ := exists_holds_of_walk hq
  exact ⟨_, fullName, hholds⟩

/-- Messages that are nested next to each other have different names. -/
theorem nodup_nested_of_link (hlink : link file dependencies = .ok l) (hm : m ∈ file.allMessages) :
    (m.nested.map Message.name).Nodup := by
  obtain ⟨place, fullName, hholds⟩ := File.exists_holds_of_mem_allMessages hm
  have hlinkable := linkable_of_link hlink
  rw [nodup_iff_getElem?_ne_getElem?]
  intro i j hij hj hsame
  rw [length_map] at hj
  have hi : i < m.nested.length := Nat.lt_trans hij hj
  have hname : m.nested[i].name = m.nested[j].name := by
    simpa [getElem?_eq_getElem hi, getElem?_eq_getElem hj] using hsame
  have hpath := hlinkable.distinct _ _ _ _ (hholds.snoc (getElem?_eq_getElem hi))
    (hholds.snoc (getElem?_eq_getElem hj)) (congrArg (Name.qualify fullName) hname)
  have heq : i = j := by simpa using hpath
  omega

/-- Where no declared message is marked as a pair type, the pair types are those of map fields. -/
theorem ownMaps_of_noneMarked (hparse : parse path source = .ok (file, locations))
    (hmarked : file.NoneMarked locations)
    (hdistinct : ∀ m ∈ file.allMessages, (m.pairTypes.map Message.name).Nodup)
    (hunshared : ∀ m ∈ file.allMessages, ∀ e ∈ m.pairTypes,
      m.fields.countP (fun f => f.ownsEntry e) ≤ 1) : ∀ m ∈ file.allMessages, m.OwnMaps := by
  intro m hm
  obtain ⟨rfl, rfl⟩ := readFile_of_parse hparse
  obtain ⟨i, j, es, hlocations, hnoted⟩ := exists_noted_readFile path source
  obtain ⟨q, hq⟩ := File.exists_walk_of_mem_allMessages hm
  refine ⟨hnoted.exists_owners (fun a ha n hn => ?_) hq, hdistinct m hm, hunshared m hm⟩
  exact hmarked (a.location []) (hlocations ▸ mem_map_of_mem ha) a.path n rfl hn

/-- Printing undoes reading where no declared message is marked as a pair type. -/
theorem parse_print_of_noneMarked (hparse : parse path source = .ok (file, locations))
    (hmarked : file.NoneMarked locations)
    (hdistinct : ∀ m ∈ file.allMessages, (m.pairTypes.map Message.name).Nodup)
    (hunshared : ∀ m ∈ file.allMessages, ∀ e ∈ m.pairTypes,
      m.fields.countP (fun f => f.ownsEntry e) ≤ 1) (hsigned : Options.Signed file.settings) :
    ∃ locations', parse path file.print = .ok (file, locations') :=
  exists_parse_print (written_of_parse hparse)
    (ownMaps_of_noneMarked hparse hmarked hdistinct hunshared) hsigned

end File

end ProtoSchema
