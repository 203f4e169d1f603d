import ProtoSchema.Proofs.Link.Place

/-!
Which files can be linked. `File.Linkable` states the rules without saying in which order they are
checked or how the declarations are visited, and linking succeeds for the files that keep them and
for no others.
-/

namespace ProtoSchema

open List

variable {file : File} {dependencies : List LinkedFile} {place : String} {dialect : Dialect}
  {scope : Scope}

/-! ## The rules -/

def Scope.MeansMessage (scope : Scope) (place name : String) : Prop :=
  ∃ d, scope.resolve? place name = some d ∧ d.kind = .message

namespace Field

def LegalNumber (f : Field) : Prop :=
  1 ≤ f.number.toInt ∧ f.number.toInt ≤ 536870911 ∧
    ¬(19000 ≤ f.number.toInt ∧ f.number.toInt ≤ 19999)

def Means (f : Field) (scope : Scope) (place : String) (kind : Kind) : Prop :=
  ∃ name d, f.typeName = some name ∧ scope.resolve? place name = some d ∧ d.kind = kind

/-- A field whose type is not given has a name for it, and a message has no default. -/
structure Typed (f : Field) (scope : Scope) (place : String) : Prop where
  named : f.type = none → f.Means scope place .message ∨ f.Means scope place .enum
  noDefault : f.type = some .message ∨ f.type = none ∧ f.Means scope place .message →
    f.defaultValue = none

structure Extends (f : Field) (scope : Scope) (place : String) : Prop where
  number : f.LegalNumber
  extendee : scope.MeansMessage place (f.extendee.getD "")
  typed : f.Typed scope place

end Field

structure Message.Linkable (m : Message) (scope : Scope) (fullName : String) : Prop where
  names : (m.fields.map Field.name).Nodup
  numbers : (m.fields.map Field.number).Nodup
  legal : ∀ f ∈ m.fields, f.LegalNumber
  typed : ∀ f ∈ m.fields, f.Typed scope fullName
  extensions : ∀ f ∈ m.extensions, f.Extends scope fullName

/-- An enum has a value, and in `proto3` the first one is zero. -/
def Enum.Started (e : Enum) (dialect : Dialect) : Prop :=
  ∃ v vs, e.values = v :: vs ∧ (dialect = .proto3 → v.number = 0)

def Method.Linkable (m : Method) (scope : Scope) (place : String) : Prop :=
  scope.MeansMessage place m.inputType ∧ scope.MeansMessage place m.outputType

def File.names (file : File) (dependencies : List LinkedFile) : Scope :=
  .ofFile file (LinkedFile.visible dependencies)

/-- The rules that a file must keep to be linked against its dependencies. -/
structure File.Linkable (file : File) (dependencies : List LinkedFile) : Prop where
  imports : dependencies.map LinkedFile.name = file.imports
  nesting : ∀ path name m, file.Holds path ⟨name, .message m⟩ → path.length ≤ Message.maxNesting
  distinct : ∀ p q d e, file.Holds p d → file.Holds q e → d.fullName = e.fullName → p = q
  unseen : ∀ p d, file.Holds p d → ∀ g ∈ LinkedFile.visible dependencies,
    ∀ q e, g.file.Holds q e → d.fullName ≠ e.fullName
  messages : ∀ path name m, file.Holds path ⟨name, .message m⟩ →
    m.Linkable (file.names dependencies) name
  enums : ∀ path name e, file.Holds path ⟨name, .enum e⟩ → e.Started file.dialect
  extensions : ∀ f ∈ file.extensions, f.Extends (file.names dependencies) file.scope
  services : ∀ path name s, file.Holds path ⟨name, .service s⟩ →
    ∀ m ∈ s.methods, m.Linkable (file.names dependencies) file.scope

/-! ## Sequences of checks -/

section Checks

variable {ε α β : Type}

variable {f : α → Except ε β} {x : Except ε Unit} {xs : List α}

theorem exists_bind_eq_ok {x : Except ε α} :
    (∃ b, x >>= f = .ok b) ↔ ∃ a, x = .ok a ∧ ∃ b, f a = .ok b := by
  cases x with
  | error e => simp [bind, Except.bind]
  | ok a => simp [bind, Except.bind]

private theorem exists_then_eq_ok {y : Except ε β} :
    (∃ b, (x >>= fun _ => y) = .ok b) ↔ x = .ok () ∧ ∃ b, y = .ok b := by
  cases x <;> simp [bind, Except.bind]

theorem exists_unit_eq_ok : (∃ u, x = .ok u) ↔ x = .ok () :=
  ⟨fun ⟨_, h⟩ => h, fun h => ⟨(), h⟩⟩

theorem exists_pure_eq_ok {a : α} : (∃ b, (pure a : Except ε α) = .ok b) ↔ True :=
  ⟨fun _ => trivial, fun _ => ⟨a, rfl⟩⟩

private theorem exists_mapM_eq_ok : (∃ ys, xs.mapM f = .ok ys) ↔ ∀ x ∈ xs, ∃ y, f x = .ok y := by
  induction xs with
  | nil => simp [pure, Except.pure]
  | cons x xs ih =>
    rw [mapM_cons, exists_bind_eq_ok, forall_mem_cons, ← ih]
    constructor
    · rintro ⟨y, hy, h⟩
      obtain ⟨ys, hys, _⟩ := exists_bind_eq_ok.mp h
      exact ⟨⟨y, hy⟩, ys, hys⟩
    · rintro ⟨⟨y, hy⟩, ys, hys⟩
      exact ⟨y, hy, exists_bind_eq_ok.mpr ⟨ys, hys, y :: ys, rfl⟩⟩

private theorem forM_eq_ok_iff {f : α → Except ε Unit} :
    xs.forM f = .ok () ↔ ∀ x ∈ xs, f x = .ok () := by
  induction xs with
  | nil => simp [pure, Except.pure]
  | cons x xs ih =>
    rw [forall_mem_cons, ← ih]
    change (f x >>= fun _ => xs.forM f) = .ok () ↔ _
    cases f x <;> simp [bind, Except.bind]

end Checks

/-! ## What each check accepts -/

namespace LinkFault

theorem unlinked?_eq_none_iff {paths : List String} {ds : List LinkedFile} :
    unlinked? paths ds = none ↔ paths <+: ds.map LinkedFile.name := by
  fun_induction unlinked? paths ds with
  | case1 => simp
  | case2 => simp
  | case3 paths d ds ih => simpa using ih
  | case4 path paths d ds hne => simp [Ne.symm hne]

theorem checkDependencies_eq_ok_iff :
    checkDependencies file dependencies = .ok () ↔
      dependencies.map LinkedFile.name = file.imports := by
  unfold checkDependencies
  constructor
  · intro h
    split at h
    · cases h
    · next hpre =>
      split at h
      · next hlen =>
        have hpath := unlinked?_eq_none_iff.mp hpre
        exact (hpath.eq_of_length (by rw [length_map, hlen])).symm
      · cases h
  · intro h
    have hpre : unlinked? file.imports dependencies = none :=
      unlinked?_eq_none_iff.mpr (h ▸ prefix_refl _)
    have hlen : dependencies.length = file.imports.length := by rw [← h, length_map]
    simp only [hpre, hlen, if_true]

mutual

theorem tooDeep?_eq_none_iff (scope : String) (levels : Nat) : ∀ m : Message,
    tooDeep? levels m = none ↔
      ∀ path name n, m.Holds scope path ⟨name, .message n⟩ → path.length < levels
  | ⟨name, _, _, nested, _, _, _, _, _, _⟩ => by
    cases levels with
    | zero =>
      simp only [tooDeep?, reduceCtorEq, Nat.not_lt_zero, imp_false, false_iff]
      intro h
      exact h [] _ _ (.self scope _)
    | succ levels =>
      rw [tooDeep?, tooDeepIn?_eq_none_iff (Name.qualify scope name) 0 levels nested]
      constructor
      · intro h path x n hn
        rcases Message.holds_iff.mp hn with ⟨rfl, _⟩ | hin | ⟨i, e, _, _, heq⟩
        · exact Nat.succ_pos levels
        · exact Nat.lt_succ_of_le (h path x n hin)
        · cases heq
      · intro h path x n hn
        exact Nat.le_of_lt_succ (h path x n (Message.holds_iff.mpr (.inr (.inl hn))))

theorem tooDeepIn?_eq_none_iff (scope : String) (first levels : Nat) : ∀ ms : List Message,
    tooDeepIn? levels ms = none ↔
      ∀ path name n, Message.HoldsIn scope first ms path ⟨name, .message n⟩ → path.length ≤ levels
  | [] => by simp [tooDeepIn?, Message.HoldsIn]
  | m :: ms => by
    rw [tooDeepIn?, Option.or_eq_none_iff, tooDeepIn?_eq_none_iff scope (first + 1) levels ms,
      tooDeep?_eq_none_iff scope levels m]
    simp only [Message.holdsIn_cons]
    constructor
    · rintro ⟨htail, hhead⟩ path x n (⟨rest, rfl, hn⟩ | hn)
      · exact hhead rest x n hn
      · exact htail path x n hn
    · intro h
      exact ⟨fun path x n hn => h path x n (.inr hn),
        fun path x n hn => h (.message first :: path) x n (.inl ⟨path, rfl, hn⟩)⟩

end

theorem checkNesting_eq_ok_iff_tooDeepIn? :
    checkNesting file = .ok () ↔ tooDeepIn? Message.maxNesting file.messages = none := by
  unfold checkNesting
  split <;> simp [*]

theorem checkNesting_eq_ok_iff :
    checkNesting file = .ok () ↔ ∀ path name m, file.Holds path ⟨name, .message m⟩ →
      path.length ≤ Message.maxNesting := by
  rw [checkNesting_eq_ok_iff_tooDeepIn?, tooDeepIn?_eq_none_iff file.scope 0]
  constructor
  · intro h path name m hm
    cases hm with
    | message hi hm => exact h _ name m ⟨_, _, _, hi, by rw [Nat.zero_add], hm⟩
  · rintro h path name m ⟨i, n, rest, hi, rfl, hm⟩
    rw [Nat.zero_add]
    exact h _ name m (.message hi hm)

theorem firstRepeated?_eq_none_iff {seen : List String} {ds : List Declared} :
    Declared.firstRepeated? seen ds = none ↔
      (ds.map Declared.fullName).Nodup ∧ ∀ d ∈ ds, d.fullName ∉ seen := by
  fun_induction Declared.firstRepeated? seen ds with
  | case1 => simp
  | case2 seen d ds hd => simp [hd]
  | case3 seen d ds hd ih =>
    rw [ih, map_cons, nodup_cons, forall_mem_cons]
    simp only [mem_cons, not_or, mem_map, not_exists, not_and]
    constructor
    · rintro ⟨hnodup, hseen⟩
      exact ⟨⟨fun e he => (hseen e he).1, hnodup⟩, hd, fun e he => (hseen e he).2⟩
    · rintro ⟨⟨hne, hnodup⟩, _, hseen⟩
      exact ⟨hnodup, fun e he => ⟨hne e he, hseen e he⟩⟩

/-- The names that a file declares must differ from each other and from those that it sees. -/
theorem checkNames_eq_ok_iff_nodup {visible : List LinkedFile} :
    checkNames file visible = .ok () ↔
      (file.declared.map Declared.fullName).Nodup ∧
        ∀ name ∈ file.declared.map Declared.fullName,
          (Declared.find? (visible.flatMap LinkedFile.declared) name).isSome = false := by
  have hcheck : checkNames file visible = .ok () ↔ Declared.firstRepeated? [] file.declared = none ∧
        (file.declared.find? fun d =>
          (Declared.find? (visible.flatMap LinkedFile.declared) d.fullName).isSome) = none := by
    unfold checkNames
    split
    · simp [*]
    · dsimp only
      split <;> simp [*]
  rw [hcheck, firstRepeated?_eq_none_iff]
  simp [find?_eq_none]

theorem checkNames_eq_ok_iff {visible : List LinkedFile} :
    checkNames file visible = .ok () ↔
      (∀ p q d e, file.Holds p d → file.Holds q e → d.fullName = e.fullName → p = q) ∧
        ∀ p d, file.Holds p d → ∀ g ∈ visible, ∀ q e, g.file.Holds q e →
          d.fullName ≠ e.fullName := by
  have hfind : (∀ name ∈ file.declared.map Declared.fullName,
      (Declared.find? (visible.flatMap LinkedFile.declared) name).isSome = false) ↔
      ∀ p d, file.Holds p d → ∀ g ∈ visible, ∀ q e, g.file.Holds q e → d.fullName ≠ e.fullName := by
    simp only [forall_mem_map, Bool.eq_false_iff, ne_eq, Declared.find?, find?_isSome,
      mem_flatMap, decide_eq_true_eq, not_exists, not_and, File.mem_declared_iff,
      LinkedFile.declared]
    constructor
    · intro h p d hp g hg q e he heq
      exact h d ⟨p, hp⟩ e ⟨g, hg, q, he⟩ heq.symm
    · rintro h d ⟨p, hp⟩ e ⟨g, hg, q, he⟩ heq
      exact h p d hp g hg q e he heq.symm
  rw [checkNames_eq_ok_iff_nodup, hfind, File.nodup_fullName_iff]

theorem checkNumber_eq_ok_iff {f : Field} : checkNumber place f = .ok () ↔ f.LegalNumber := by
  have hlow : f.number < 1 ↔ f.number.toInt < 1 := Int32.lt_iff_toInt_lt
  have hhigh : Field.maxNumber < f.number ↔ 536870911 < f.number.toInt := Int32.lt_iff_toInt_lt
  have hfrom : 19000 ≤ f.number ↔ 19000 ≤ f.number.toInt := Int32.le_iff_toInt_le
  have hto : f.number ≤ 19999 ↔ f.number.toInt ≤ 19999 := Int32.le_iff_toInt_le
  simp only [checkNumber, Field.LegalNumber, hlow, hhigh, hfrom, hto]
  split
  · simp only [reduceCtorEq, false_iff]
    omega
  · split
    · simp only [reduceCtorEq, false_iff]
      omega
    · simp only [true_iff]
      omega

def Apart (f g : Field) : Prop :=
  f.name ≠ g.name ∧ f.number ≠ g.number

theorem checkFields_eq_ok_iff {message : String} {seen fields : List Field} :
    checkFields message seen fields = .ok () ↔
      (∀ f ∈ fields, f.LegalNumber) ∧ fields.Pairwise Apart ∧
        ∀ f ∈ fields, ∀ g ∈ seen, Apart g f := by
  induction fields generalizing seen with
  | nil => simp [checkFields]
  | cons f fs ih =>
    have hcheck : checkFields message seen (f :: fs) = .ok () ↔
        checkNumber message f = .ok () ∧ (∀ g ∈ seen, Apart g f) ∧
          checkFields message (f :: seen) fs = .ok () := by
      rw [checkFields]
      cases checkNumber message f with
      | error e => simp [bind, Except.bind]
      | ok _ =>
        by_cases hname : (seen.any fun g => g.name = f.name) = true
        · obtain ⟨g, hg, heq⟩ := any_eq_true.mp hname
          simp only [bind, Except.bind, hname, if_true, throw, throwThe, MonadExceptOf.throw,
            reduceCtorEq, true_and, false_iff, not_and]
          intro hapart
          exact absurd (of_decide_eq_true heq) (hapart g hg).1
        · cases hfind : seen.find? fun g => g.number = f.number with
          | some g =>
            have hg := mem_of_find?_eq_some hfind
            have heq : g.number = f.number := by simpa using find?_some hfind
            simp only [bind, Except.bind, hname, if_false, throw, throwThe, MonadExceptOf.throw,
              reduceCtorEq, true_and, false_iff, not_and]
            intro hapart
            exact absurd heq (hapart g hg).2
          | none =>
            have hapart : ∀ g ∈ seen, Apart g f := by
              intro g hg
              refine ⟨fun heq => hname (any_eq_true.mpr ⟨g, hg, by simpa using heq⟩), ?_⟩
              simpa using find?_eq_none.mp hfind g hg
            simp only [bind, Except.bind, hname, true_and, Bool.false_eq_true, if_false,
              iff_and_self]
            exact fun _ => hapart
    rw [hcheck, ih, checkNumber_eq_ok_iff, forall_mem_cons, pairwise_cons, forall_mem_cons]
    simp only [forall_mem_cons, forall_and]
    constructor
    · rintro ⟨hf, hseen, hfs, hpair, hhead, htail⟩
      exact ⟨⟨hf, hfs⟩, ⟨hhead, hpair⟩, hseen, htail⟩
    · rintro ⟨⟨hf, hfs⟩, ⟨hhead, hpair⟩, hseen, htail⟩
      exact ⟨hf, hseen, hfs, hpair, hhead, htail⟩

theorem pairwise_apart_iff {fields : List Field} :
    fields.Pairwise Apart ↔
      (fields.map Field.name).Nodup ∧ (fields.map Field.number).Nodup := by
  rw [List.Nodup, List.Nodup, pairwise_map, pairwise_map]
  exact pairwise_and_iff

theorem checkEnum_eq_ok_iff {e : Enum} :
    checkEnum dialect place e = .ok () ↔ e.Started dialect := by
  unfold checkEnum Enum.Started
  split
  · next h => simp [h]
  · next v vs h =>
    rw [h]
    split
    · next hz =>
      simp only [reduceCtorEq, List.cons.injEq, false_iff, not_exists, not_and]
      rintro _ _ ⟨rfl, rfl⟩ hzero
      exact hz.2 (hzero hz.1)
    · next hz =>
      simp only [true_iff]
      exact ⟨v, vs, rfl, fun hd => by simpa [hd] using hz⟩

end LinkFault

/-! ## What resolving references accepts -/

theorem Scope.exists_message_eq_ok {name : String} {r : Referrer} :
    (∃ s, scope.message place name r = .ok s) ↔ scope.MeansMessage place name := by
  unfold Scope.message Scope.MeansMessage
  split
  · next d hd =>
    split
    · next hk => simp [hd, hk]
    · next hk => simp [hd, hk]
  · next hd => simp [hd]

def Kind.fieldType? : Kind → Option FieldType
  | message => some .message
  | enum => some .enum
  | service => none

namespace Field

variable {f g : Field}

theorem resolve_eq_ok_iff :
    f.resolve scope place = .ok g ↔
      f.type ≠ none ∧ g = f ∨
        f.type = none ∧ ∃ name d t, f.typeName = some name ∧ scope.resolve? place name = some d ∧
          d.kind.fieldType? = some t ∧
          g = { f with type := some t, typeName := some ("." ++ d.fullName) } := by
  unfold resolve Scope.fieldType
  split
  · next t ht => simp [ht, eq_comm]
  · next ht hn => simp [ht, hn]
  · next name ht hn =>
    cases hd : scope.resolve? place name with
    | none => simp [ht, hn, hd, Except.map]
    | some d =>
      cases hk : d.kind <;> simp [ht, hn, hd, hk, Except.map, Kind.fieldType?, eq_comm]

theorem link_eq_ok_iff :
    f.link scope place = .ok g ↔
      f.resolve scope place = .ok g ∧ (g.type = some .message → g.defaultValue = none) := by
  unfold link
  cases f.resolve scope place with
  | error e => simp [bind, Except.bind]
  | ok h =>
    by_cases hd : h.type = some .message ∧ h.defaultValue.isSome
    · simp only [bind, Except.bind, hd, and_self, if_true, throw, throwThe, MonadExceptOf.throw,
        reduceCtorEq, Except.ok.injEq, false_iff, not_and]
      rintro rfl hnone
      rw [hnone hd.1] at hd
      exact absurd hd.2 Bool.false_ne_true
    · simp only [bind, Except.bind, hd, if_false, pure, Except.pure, Except.ok.injEq, iff_self_and]
      rintro rfl ht
      simpa [ht] using hd

theorem exists_link_eq_ok : (∃ g, f.link scope place = .ok g) ↔ f.Typed scope place := by
  simp only [link_eq_ok_iff, resolve_eq_ok_iff]
  constructor
  · rintro ⟨g, ⟨ht, rfl⟩ | ⟨ht, name, d, t, hn, hd, hk, rfl⟩, hdef⟩
    · refine ⟨fun h => absurd h ht, ?_⟩
      rintro (h | ⟨h, _⟩)
      · exact hdef h
      · exact absurd h ht
    · constructor
      · intro _
        cases hkind : d.kind with
        | message => exact .inl ⟨name, d, hn, hd, hkind⟩
        | enum => exact .inr ⟨name, d, hn, hd, hkind⟩
        | service => simp [hkind, Kind.fieldType?] at hk
      · rintro (h | ⟨_, name', d', hn', hd', hk'⟩)
        · rw [ht] at h
          cases h
        · cases hn.symm.trans hn'
          cases hd.symm.trans hd'
          rw [hk'] at hk
          exact hdef hk.symm
  · rintro ⟨hnamed, hdef⟩
    by_cases ht : f.type = none
    · rcases hnamed ht with ⟨name, d, hn, hd, hk⟩ | ⟨name, d, hn, hd, hk⟩
      · refine ⟨_, .inr ⟨ht, name, d, .message, hn, hd, by rw [hk]; rfl, rfl⟩, fun _ => ?_⟩
        exact hdef (.inr ⟨ht, name, d, hn, hd, hk⟩)
      · exact ⟨_, .inr ⟨ht, name, d, .enum, hn, hd, by rw [hk]; rfl, rfl⟩, nofun⟩
    · exact ⟨f, .inl ⟨ht, rfl⟩, fun h => hdef (.inl h)⟩

theorem exists_linkExtension_eq_ok :
    (∃ g, f.linkExtension scope place = .ok g) ↔ f.Extends scope place := by
  rw [linkExtension, exists_then_eq_ok, LinkFault.checkNumber_eq_ok_iff, exists_bind_eq_ok]
  simp only [exists_link_eq_ok]
  constructor
  · rintro ⟨hn, e, he, ht⟩
    exact ⟨hn, Scope.exists_message_eq_ok.mp ⟨e, he⟩, ⟨ht.named, ht.noDefault⟩⟩
  · rintro ⟨hn, he, ht⟩
    obtain ⟨e, he⟩ := Scope.exists_message_eq_ok.mpr he
    exact ⟨hn, e, he, ⟨ht.named, ht.noDefault⟩⟩

end Field

namespace Message

/-- Every message and enum that a path leads to keeps its rules. -/
def AllLinkable (scope : Scope) (dialect : Dialect) (holds : List Step → Declared → Prop) : Prop :=
  (∀ path name n, holds path ⟨name, .message n⟩ → n.Linkable scope name) ∧
    ∀ path name e, holds path ⟨name, .enum e⟩ → e.Started dialect

theorem allLinkable_holds_iff {m : Message} :
    AllLinkable scope dialect (m.Holds place) ↔
      m.Linkable scope (Name.qualify place m.name) ∧
        AllLinkable scope dialect (HoldsIn (Name.qualify place m.name) 0 m.nested) ∧
        ∀ e ∈ m.enums, e.Started dialect := by
  simp only [AllLinkable, holds_iff]
  constructor
  · rintro ⟨hmessages, henums⟩
    refine ⟨hmessages [] _ m (.inl ⟨rfl, rfl⟩), ⟨?_, ?_⟩, ?_⟩
    · intro path name n hn
      exact hmessages path name n (.inr (.inl hn))
    · intro path name e he
      exact henums path name e (.inr (.inl he))
    · intro e he
      obtain ⟨i, hi⟩ := mem_iff_getElem?.mp he
      exact henums [.enum i] _ e (.inr (.inr ⟨i, e, hi, rfl, rfl⟩))
  · rintro ⟨hm, ⟨hmessages, henums⟩, hown⟩
    constructor
    · rintro path name n (⟨_, heq⟩ | hn | ⟨i, e, _, _, heq⟩)
      · cases heq
        exact hm
      · exact hmessages path name n hn
      · cases heq
    · rintro path name e (⟨_, heq⟩ | he | ⟨i, e, he, _, heq⟩)
      · cases heq
      · exact henums path name e he
      · cases heq
        exact hown e (mem_of_getElem? he)

theorem allLinkable_holdsIn_cons {first : Nat} {m : Message} {ms : List Message} :
    AllLinkable scope dialect (HoldsIn place first (m :: ms)) ↔
      AllLinkable scope dialect (m.Holds place) ∧
        AllLinkable scope dialect (HoldsIn place (first + 1) ms) := by
  simp only [AllLinkable, holdsIn_cons]
  constructor
  · rintro ⟨hmessages, henums⟩
    refine ⟨⟨?_, ?_⟩, ?_, ?_⟩
    · intro path name n hn
      exact hmessages _ name n (.inl ⟨path, rfl, hn⟩)
    · intro path name e he
      exact henums _ name e (.inl ⟨path, rfl, he⟩)
    · intro path name n hn
      exact hmessages path name n (.inr hn)
    · intro path name e he
      exact henums path name e (.inr he)
  · rintro ⟨⟨hmessages, henums⟩, hmessages', henums'⟩
    constructor
    · rintro path name n (⟨rest, _, hn⟩ | hn)
      · exact hmessages rest name n hn
      · exact hmessages' path name n hn
    · rintro path name e (⟨rest, _, he⟩ | he)
      · exact henums rest name e he
      · exact henums' path name e he

theorem checked_iff {fullName : String} {m : Message} :
    (LinkFault.checkFields fullName [] m.fields = .ok () ∧
      (∃ fs, m.fields.mapM (Field.link scope fullName) = .ok fs) ∧
      ∃ fs, m.extensions.mapM (Field.linkExtension scope fullName) = .ok fs) ↔
      m.Linkable scope fullName := by
  rw [LinkFault.checkFields_eq_ok_iff, LinkFault.pairwise_apart_iff, exists_mapM_eq_ok,
    exists_mapM_eq_ok]
  simp only [Field.exists_link_eq_ok, Field.exists_linkExtension_eq_ok]
  constructor
  · rintro ⟨⟨hlegal, ⟨hnames, hnumbers⟩, _⟩, htyped, hextensions⟩
    exact ⟨hnames, hnumbers, hlegal, htyped, hextensions⟩
  · rintro ⟨hnames, hnumbers, hlegal, htyped, hextensions⟩
    exact ⟨⟨hlegal, ⟨hnames, hnumbers⟩, by simp⟩, htyped, hextensions⟩

mutual

theorem exists_link_eq_ok (scope : Scope) (dialect : Dialect) (place : String) : ∀ m : Message,
    (∃ n, m.link scope dialect place = .ok n) ↔ AllLinkable scope dialect (m.Holds place)
  | ⟨name, _, _, nested, _, _, _, _, _, _⟩ => by
    rw [allLinkable_holds_iff, ← checked_iff,
      ← exists_linkAll_eq_ok scope dialect (Name.qualify place name) 0 nested, link]
    simp only [exists_bind_eq_ok, exists_pure_eq_ok, exists_and_right, exists_unit_eq_ok,
      forM_eq_ok_iff, LinkFault.checkEnum_eq_ok_iff, and_true, and_assoc]

theorem exists_linkAll_eq_ok (scope : Scope) (dialect : Dialect) (place : String) (first : Nat) :
    ∀ ms : List Message, (∃ ns, linkAll scope dialect place ms = .ok ns) ↔
      AllLinkable scope dialect (HoldsIn place first ms)
  | [] => by simp [linkAll, AllLinkable, HoldsIn]
  | m :: ms => by
    rw [allLinkable_holdsIn_cons, ← exists_link_eq_ok scope dialect place m,
      ← exists_linkAll_eq_ok scope dialect place (first + 1) ms, linkAll]
    simp only [exists_bind_eq_ok, exists_pure_eq_ok, exists_and_right, and_true]

end

end Message

namespace Service

theorem exists_link_eq_ok {s : Service} :
    (∃ t, s.link scope place = .ok t) ↔ ∀ m ∈ s.methods, m.Linkable scope place := by
  have hmethod : ∀ m : Method, (∃ n, m.link scope place (Name.qualify place s.name) = .ok n) ↔
      m.Linkable scope place := by
    intro m
    rw [Method.link, Method.Linkable]
    simp only [exists_bind_eq_ok, exists_pure_eq_ok, exists_and_right, and_true,
      Scope.exists_message_eq_ok]
  rw [link]
  simp only [exists_bind_eq_ok, exists_pure_eq_ok, and_true, exists_mapM_eq_ok, hmethod]

end Service

namespace File

theorem exists_resolve_eq_ok :
    (∃ g, file.resolve scope = .ok g) ↔
      Message.AllLinkable scope file.dialect file.Holds ∧
        (∀ f ∈ file.extensions, f.Extends scope file.scope) ∧
        ∀ s ∈ file.services, ∀ m ∈ s.methods, m.Linkable scope file.scope := by
  have hall : Message.AllLinkable scope file.dialect file.Holds ↔
      Message.AllLinkable scope file.dialect (Message.HoldsIn file.scope 0 file.messages) ∧
        ∀ e ∈ file.enums, e.Started file.dialect := by
    constructor
    · rintro ⟨hmessages, henums⟩
      refine ⟨⟨?_, ?_⟩, ?_⟩
      · rintro _ name m ⟨i, n, rest, hn, rfl, hm⟩
        exact hmessages _ name m (.message (by simpa using hn) hm)
      · rintro _ name e ⟨i, n, rest, hn, rfl, he⟩
        exact henums _ name e (.message (by simpa using hn) he)
      · intro e he
        obtain ⟨i, hi⟩ := mem_iff_getElem?.mp he
        exact henums _ _ e (.enum hi)
    · rintro ⟨⟨hmessages, henums⟩, hown⟩
      constructor
      · intro path name m hm
        cases hm with
        | message hi hm => exact hmessages _ name m ⟨_, _, _, hi, rfl, hm⟩
      · intro path name e he
        cases he with
        | message hi he => exact henums _ name e ⟨_, _, _, hi, rfl, he⟩
        | enum he => exact hown e (mem_of_getElem? he)
  rw [hall, resolve, ← Message.exists_linkAll_eq_ok]
  simp only [exists_bind_eq_ok, exists_pure_eq_ok, exists_and_right, exists_unit_eq_ok,
    forM_eq_ok_iff, LinkFault.checkEnum_eq_ok_iff, exists_mapM_eq_ok,
    Field.exists_linkExtension_eq_ok, Service.exists_link_eq_ok, and_true, and_assoc]

theorem exists_linked_eq_ok :
    (∃ l, file.linked dependencies = .ok l) ↔ file.Linkable dependencies := by
  rw [linked]
  simp only [exists_then_eq_ok, exists_bind_eq_ok, exists_pure_eq_ok, and_true,
    exists_resolve_eq_ok, LinkFault.checkDependencies_eq_ok_iff,
    LinkFault.checkNesting_eq_ok_iff, LinkFault.checkNames_eq_ok_iff]
  constructor
  · rintro ⟨himports, hnesting, ⟨hdistinct, hunseen⟩, ⟨hmessages, henums⟩, hext, hservices⟩
    refine ⟨himports, hnesting, hdistinct, hunseen, hmessages, henums, hext, ?_⟩
    intro path name s hs
    cases hs with
    | message _ h => exact absurd rfl h.kind_ne_service
    | service h => exact hservices s (mem_of_getElem? h)
  · intro h
    refine ⟨h.imports, h.nesting, ⟨h.distinct, h.unseen⟩, ⟨h.messages, h.enums⟩, h.extensions, ?_⟩
    intro s hs
    obtain ⟨i, hi⟩ := mem_iff_getElem?.mp hs
    exact h.services _ _ s (.service hi)

end File

/-- Linking succeeds exactly for the files that keep the rules. -/
theorem exists_link_eq_ok_iff_linkable (file : File) (dependencies : List LinkedFile) :
    (∃ l, link file dependencies = .ok l) ↔ file.Linkable dependencies := by
  rw [← File.exists_linked_eq_ok, link]
  cases file.linked dependencies <;> simp [Except.mapError]

end ProtoSchema
