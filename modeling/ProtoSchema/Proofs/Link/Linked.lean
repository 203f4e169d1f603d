import ProtoSchema.Proofs.Link.Accepts
import ProtoSchema.Proofs.Schema.Maps

/-!
What linking makes of a file. Every declaration stays at its place and keeps its full name; its
fields, extensions and methods are those of the file, one for one, with their references resolved.
-/

namespace ProtoSchema

open List

variable {scope : Scope} {place : String} {file : File} {dependencies : List LinkedFile}

section Checks

variable {ε α β : Type}

variable {x : Except ε α} {f : α → Except ε β} {a : α}

theorem bind_eq_ok_iff {b : β} : x >>= f = .ok b ↔ ∃ a, x = .ok a ∧ f a = .ok b := by
  cases x <;> simp [bind, Except.bind]

theorem pure_eq_ok_iff {b : α} : (pure a : Except ε α) = .ok b ↔ a = b := by
  simp [pure, Except.pure]

theorem mapM_eq_ok_iff {xs : List α} {ys : List β} :
    xs.mapM f = .ok ys ↔ List.Forall₂ (fun x y => f x = .ok y) xs ys := by
  induction xs generalizing ys with
  | nil => simp [pure, Except.pure, eq_comm]
  | cons x xs ih =>
    simp only [mapM_cons, bind_eq_ok_iff, pure_eq_ok_iff, ih, forall₂_cons_left_iff]
    constructor
    · rintro ⟨y, hy, zs, hzs, rfl⟩
      exact ⟨y, zs, hy, hzs, rfl⟩
    · rintro ⟨y, zs, hy, hzs, rfl⟩
      exact ⟨y, hy, zs, hzs, rfl⟩

theorem toOption_eq_some_iff : x.toOption = some a ↔ x = .ok a := by
  cases x <;> simp [Except.toOption]

end Checks

variable {β : Type} {ys : List β} {l : LinkedFile}

variable {α : Type} {r : α → β → Prop} {xs : List α}

theorem map_eq_of_forall₂ {γ : Type} (h : List.Forall₂ r xs ys) {f : α → γ} {g : β → γ}
    (hsame : ∀ x ∈ xs, ∀ y, r x y → f x = g y) : xs.map f = ys.map g := by
  induction h with
  | nil => rfl
  | @cons x y xs ys hxy _ ih =>
    rw [map_cons, map_cons, hsame x mem_cons_self y hxy,
      ih fun x hx => hsame x (mem_cons_of_mem _ hx)]

theorem exists_getElem?_of_forall₂ (h : List.Forall₂ r xs ys) {i : Nat} {x : α}
    (hx : xs[i]? = some x) : ∃ y, ys[i]? = some y ∧ r x y := by
  induction h generalizing i with
  | nil => cases hx
  | @cons x' y' xs ys hxy _ ih =>
    cases i with
    | zero =>
      cases hx
      exact ⟨y', rfl, hxy⟩
    | succ i => exact ih hx

/-- The rules for the fields of a message look at names and numbers only. -/
theorem LinkFault.checkFields_of_forall₂ {message : String} {fs gs : List Field}
    (hsame : List.Forall₂ (fun f g => f.name = g.name ∧ f.number = g.number) fs gs)
    (h : checkFields message [] fs = .ok ()) : checkFields message [] gs = .ok () := by
  have hnames : fs.map Field.name = gs.map Field.name :=
    map_eq_of_forall₂ hsame fun _ _ _ hfg => hfg.1
  have hnumbers : fs.map Field.number = gs.map Field.number :=
    map_eq_of_forall₂ hsame fun _ _ _ hfg => hfg.2
  rw [checkFields_eq_ok_iff, pairwise_apart_iff] at h ⊢
  obtain ⟨hlegal, hapart, _⟩ := h
  rw [hnames, hnumbers] at hapart
  refine ⟨fun g hg => ?_, hapart, by simp⟩
  obtain ⟨f, hf, _, hnumber⟩ := exists_mem_of_forall₂ hsame hg
  have hf' := hlegal f hf
  rwa [Field.LegalNumber, hnumber] at hf'

/-! ## Fields, extensions and methods -/

theorem Scope.message_eq_ok_iff {name : String} {r : Referrer} {s : String} :
    scope.message place name r = .ok s ↔
      ∃ d, scope.resolve? place name = some d ∧ d.kind = .message ∧ s = "." ++ d.fullName := by
  unfold Scope.message
  split
  · next d hd =>
    split
    · next hk => simp [hd, hk, eq_comm]
    · next hk => simp [hd, hk]
  · next hd => simp [hd]

theorem Field.linkExtension_eq_ok_iff {f g : Field} :
    f.linkExtension scope place = .ok g ↔
      f.LegalNumber ∧ ∃ d, scope.resolve? place (f.extendee.getD "") = some d ∧
        d.kind = .message ∧
        { f with extendee := some ("." ++ d.fullName) }.link scope place = .ok g := by
  rw [linkExtension]
  simp only [bind_eq_ok_iff, Scope.message_eq_ok_iff]
  constructor
  · rintro ⟨_, hnumber, _, ⟨d, hd, hk, rfl⟩, hg⟩
    exact ⟨LinkFault.checkNumber_eq_ok_iff.mp hnumber, d, hd, hk, hg⟩
  · rintro ⟨hnumber, d, hd, hk, hg⟩
    exact ⟨(), LinkFault.checkNumber_eq_ok_iff.mpr hnumber, _, ⟨d, hd, hk, rfl⟩, hg⟩

theorem Method.link_eq_ok_iff {service : String} {m n : Method} :
    m.link scope place service = .ok n ↔
      ∃ d e, scope.resolve? place m.inputType = some d ∧ d.kind = .message ∧
        scope.resolve? place m.outputType = some e ∧ e.kind = .message ∧
        n = { m with inputType := "." ++ d.fullName, outputType := "." ++ e.fullName } := by
  rw [link]
  simp only [bind_eq_ok_iff, pure_eq_ok_iff, Scope.message_eq_ok_iff]
  constructor
  · rintro ⟨_, ⟨d, hd, hkd, rfl⟩, _, ⟨e, he, hke, rfl⟩, rfl⟩
    exact ⟨d, e, hd, hkd, he, hke, rfl⟩
  · rintro ⟨d, e, hd, hkd, he, hke, rfl⟩
    exact ⟨_, ⟨d, hd, hkd, rfl⟩, _, ⟨e, he, hke, rfl⟩, rfl⟩

/-! ## Declarations -/

/-- What linking makes of a message with the given full name. -/
structure Message.LinksTo (scope : Scope) (dialect : Dialect) (fullName : String) (m n : Message) :
    Prop where
  fields : List.Forall₂ (fun f g => f.link scope fullName = .ok g) m.fields n.fields
  extensions :
    List.Forall₂ (fun f g => f.linkExtension scope fullName = .ok g) m.extensions n.extensions
  nested : List.Forall₂ (fun a b => a.link scope dialect fullName = .ok b) m.nested n.nested
  rest : n = { m with fields := n.fields, extensions := n.extensions, nested := n.nested }

structure Service.LinksTo (scope : Scope) (place : String) (s t : Service) : Prop where
  methods : List.Forall₂
    (fun m n => m.link scope place (Name.qualify place s.name) = .ok n) s.methods t.methods
  rest : t = { s with methods := t.methods }

inductive Declared.LinksTo (scope : Scope) (dialect : Dialect) (place : String) :
    Declared → Declared → Prop
  | message {fullName : String} {m n : Message} (h : m.LinksTo scope dialect fullName n) :
      LinksTo scope dialect place ⟨fullName, .message m⟩ ⟨fullName, .message n⟩
  | enum (fullName : String) (e : Enum) :
      LinksTo scope dialect place ⟨fullName, .enum e⟩ ⟨fullName, .enum e⟩
  | service {fullName : String} {s t : Service} (h : s.LinksTo scope place t) :
      LinksTo scope dialect place ⟨fullName, .service s⟩ ⟨fullName, .service t⟩

namespace Declared.LinksTo

variable {dialect : Dialect} {d e : Declared}

theorem fullName_eq (h : d.LinksTo scope dialect place e) : e.fullName = d.fullName := by
  cases h <;> rfl

theorem kind_eq (h : d.LinksTo scope dialect place e) : e.kind = d.kind := by
  cases h <;> rfl

end Declared.LinksTo

namespace Message

variable {dialect : Dialect}

private theorem linkAll_eq_mapM (ms : List Message) :
    linkAll scope dialect place ms = ms.mapM (link scope dialect place) := by
  induction ms with
  | nil => rfl
  | cons m ms ih => rw [linkAll, ih, mapM_cons]

theorem linkAll_eq_ok_iff {ms ns : List Message} :
    linkAll scope dialect place ms = .ok ns ↔
      List.Forall₂ (fun m n => m.link scope dialect place = .ok n) ms ns := by
  rw [linkAll_eq_mapM, mapM_eq_ok_iff]

variable {m n : Message} {fullName : String}

theorem linksTo_of_link (h : m.link scope dialect place = .ok n) :
    m.LinksTo scope dialect (Name.qualify place m.name) n := by
  cases m
  rw [link] at h
  simp only [bind_eq_ok_iff, pure_eq_ok_iff, mapM_eq_ok_iff, linkAll_eq_ok_iff] at h
  obtain ⟨_, _, fields', hfields, extensions', hextensions, nested', hnested, _, _, rfl⟩ := h
  exact ⟨hfields, hextensions, hnested, rfl⟩

/-- What linking makes of a message follows from what it makes of those nested in it. -/
theorem link_induction {R : String → Message → Message → Prop}
    (h : ∀ place m n, m.link scope dialect place = .ok n →
      List.Forall₂ (R (Name.qualify place m.name)) m.nested n.nested → R place m n)
    (hn : m.link scope dialect place = .ok n) : R place m n := by
  induction m using nestedInduction generalizing place n with
  | h m ih =>
    have hnested := (forall₂_and_left _ _).mpr ⟨ih, (linksTo_of_link hn).nested⟩
    exact h place m n hn (hnested.imp fun _ _ hk => hk.1 hk.2)

theorem LinksTo.name_eq (h : m.LinksTo scope dialect fullName n) : n.name = m.name := by
  rw [h.rest]

theorem LinksTo.isMapEntry_eq (h : m.LinksTo scope dialect fullName n) :
    n.isMapEntry = m.isMapEntry := by
  rw [isMapEntry, isMapEntry, h.rest]

end Message

/-! ## Places -/

def Placed.LinksTo (scope : Scope) (dialect : Dialect) (place : String) (x y : Placed) : Prop :=
  x.1 = y.1 ∧ x.2.LinksTo scope dialect place y.2

namespace Placed

variable {dialect : Dialect}

theorem linksTo_behind {step : Step} {xs ys : List Placed}
    (h : List.Forall₂ (Placed.LinksTo scope dialect place) xs ys) :
    List.Forall₂ (Placed.LinksTo scope dialect place) (xs.map (behind step))
      (ys.map (behind step)) := by
  rw [forall₂_map_left_iff, forall₂_map_right_iff]
  refine h.imp ?_
  rintro ⟨p, d⟩ ⟨q, e⟩ ⟨hpath, hlinks⟩
  exact ⟨congrArg (step :: ·) hpath, hlinks⟩

theorem linksTo_leaves {α : Type} {step : Nat → Step} {declare : α → Declared} {xs ys : List α}
    (h : List.Forall₂ (fun x y => (declare x).LinksTo scope dialect place (declare y)) xs ys) :
    List.Forall₂ (Placed.LinksTo scope dialect place) (leaves step declare xs)
      (leaves step declare ys) := by
  have hfrom : ∀ first, List.Forall₂ (Placed.LinksTo scope dialect place)
      ((xs.zipIdx first).map fun x => ([step x.2], declare x.1))
      ((ys.zipIdx first).map fun x => ([step x.2], declare x.1)) := by
    induction h with
    | nil =>
      intro first
      exact .nil
    | cons hxy _ ih =>
      intro first
      rw [zipIdx_cons, zipIdx_cons, map_cons, map_cons]
      exact .cons ⟨rfl, hxy⟩ (ih (first + 1))
  exact hfrom 0

theorem linksTo_enums (scopeName : String) (es : List Enum) :
    List.Forall₂ (Placed.LinksTo scope dialect place)
      (leaves .enum (Enum.declared scopeName) es) (leaves .enum (Enum.declared scopeName) es) :=
  linksTo_leaves (forall₂_same.mpr fun e _ => .enum _ e)

end Placed

namespace Message

variable {dialect : Dialect} {root : String}

theorem linksTo_placedIn {ms ns : List Message}
    (h : List.Forall₂ (fun m n => List.Forall₂ (Placed.LinksTo scope dialect root)
      (placed place m) (placed place n)) ms ns) (first : Nat) :
    List.Forall₂ (Placed.LinksTo scope dialect root) (placedIn place first ms)
      (placedIn place first ns) := by
  induction h generalizing first with
  | nil => exact .nil
  | cons hm _ ih =>
    rw [placedIn, placedIn]
    exact rel_append (Placed.linksTo_behind hm) (ih (first + 1))

theorem linksTo_placed {m n : Message} (h : m.link scope dialect place = .ok n) :
    List.Forall₂ (Placed.LinksTo scope dialect root) (placed place m) (placed place n) := by
  refine link_induction (R := fun place m n => List.Forall₂ (Placed.LinksTo scope dialect root)
    (placed place m) (placed place n)) (fun place m n h hnested => ?_) h
  have hlinks := linksTo_of_link h
  have hrest := hlinks.rest
  cases m
  rw [hrest, placed, placed]
  exact .cons ⟨rfl, .message (hrest ▸ hlinks)⟩
    (rel_append (linksTo_placedIn hnested 0) (Placed.linksTo_enums _ _))

end Message

/-! ## Files -/

structure File.LinksTo (scope : Scope) (file file' : File) : Prop where
  declared : List.Forall₂ (Placed.LinksTo scope file.dialect file.scope) file.placed file'.placed
  extensions : List.Forall₂
    (fun f g => f.linkExtension scope file.scope = .ok g) file.extensions file'.extensions
  rest : file' = { file with messages := file'.messages, services := file'.services,
                             extensions := file'.extensions }

theorem Service.linksTo_of_link {s t : Service} (h : s.link scope place = .ok t) :
    s.LinksTo scope place t := by
  rw [link] at h
  simp only [bind_eq_ok_iff, pure_eq_ok_iff, mapM_eq_ok_iff] at h
  obtain ⟨methods, hmethods, rfl⟩ := h
  exact ⟨hmethods, rfl⟩

namespace File

theorem linksTo_of_resolve {file' : File} (h : file.resolve scope = .ok file') :
    file.LinksTo scope file' := by
  rw [resolve] at h
  simp only [bind_eq_ok_iff, pure_eq_ok_iff, mapM_eq_ok_iff, Message.linkAll_eq_ok_iff] at h
  obtain ⟨messages, hmessages, _, _, extensions, hextensions, services, hservices, rfl⟩ := h
  refine ⟨?_, hextensions, rfl⟩
  apply rel_append (Message.linksTo_placedIn (hmessages.imp fun _ _ => Message.linksTo_placed) 0)
  apply rel_append (Placed.linksTo_enums _ _)
  apply Placed.linksTo_leaves
  refine hservices.imp fun s t hst => ?_
  have hlinks := Service.linksTo_of_link hst
  have hname : t.name = s.name := by rw [hlinks.rest]
  rw [hname]
  exact .service hlinks

variable {file' : File} {path : List Step} {d e : Declared}

/-- What stands in a linked file was made of what stood at its place. -/
theorem LinksTo.exists_holds_left (h : file.LinksTo scope file') (he : file'.Holds path e) :
    ∃ d, file.Holds path d ∧ d.LinksTo scope file.dialect file.scope e := by
  obtain ⟨⟨p, d⟩, hd, hpath, hlinks⟩ := exists_mem_of_forall₂ h.declared (mem_placed.mpr he)
  obtain rfl : p = path := hpath
  exact ⟨d, mem_placed.mp hd, hlinks⟩

theorem LinksTo.exists_holds_right (h : file.LinksTo scope file') (hd : file.Holds path d) :
    ∃ e, file'.Holds path e ∧ d.LinksTo scope file.dialect file.scope e := by
  obtain ⟨⟨q, e⟩, he, hpath, hlinks⟩ :=
    exists_mem_of_forall₂ (List.Forall₂.flip h.declared) (mem_placed.mpr hd)
  obtain rfl : path = q := hpath
  exact ⟨e, mem_placed.mp he, hlinks⟩

end File

theorem link_eq_ok_iff : link file dependencies = .ok l ↔ file.linked dependencies = .ok l := by
  rw [link]
  cases file.linked dependencies <;> simp [Except.mapError]

theorem linkable_of_link (h : link file dependencies = .ok l) : file.Linkable dependencies :=
  File.exists_linked_eq_ok.mp ⟨l, link_eq_ok_iff.mp h⟩

/-- What linking makes of a file and its dependencies. -/
theorem linksTo_of_link (h : link file dependencies = .ok l) :
    file.LinksTo (file.names dependencies) l.file ∧ l.dependencies = dependencies := by
  rw [link_eq_ok_iff, File.linked] at h
  simp only [bind_eq_ok_iff, pure_eq_ok_iff] at h
  obtain ⟨_, _, _, _, _, _, file', hfile, rfl⟩ := h
  exact ⟨File.linksTo_of_resolve hfile, rfl⟩

end ProtoSchema
