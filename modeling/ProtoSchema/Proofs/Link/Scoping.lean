import Mathlib.Data.List.Infix
import ProtoSchema.Proofs.Link.Spelled

/-!
What a type name means. Resolving a name walks outward over the text of a scope, from dot to dot.
`Means` says what is looked for on the components of the scope and of the name: the longest prefix
of the scope that has the name or, for a name in several parts, its first part. Main statement:
both are the same for every file, whatever it sees and wherever the name stands.
-/

namespace ProtoSchema

open List Name

variable {name : String}

/-! ## The parts of a text -/

namespace Split

variable {separator : Char}

theorem chars_ne_nil (separator : Char) (cs : List Char) : chars separator cs ≠ [] := by
  fun_induction chars separator cs <;> simp

theorem chars_of_notMem {cs : List Char} (h : separator ∉ cs) : chars separator cs = [cs] := by
  induction cs with
  | nil => rfl
  | cons c cs ih =>
    rw [mem_cons, not_or] at h
    rw [chars, if_neg (Ne.symm h.1), ih h.2]

theorem chars_append (separator : Char) (xs ys : List Char) :
    chars separator (xs ++ separator :: ys) = chars separator xs ++ chars separator ys := by
  induction xs with
  | nil => simp [chars]
  | cons x xs ih =>
    rw [cons_append, chars, ih, chars]
    split
    · rfl
    · obtain ⟨part, parts, hparts⟩ := exists_cons_of_ne_nil (chars_ne_nil separator xs)
      rw [hparts]
      rfl

theorem intercalate_chars (separator : Char) (cs : List Char) :
    [separator].intercalate (chars separator cs) = cs := by
  induction cs with
  | nil => rfl
  | cons c cs ih =>
    obtain ⟨part, parts, hparts⟩ := exists_cons_of_ne_nil (chars_ne_nil separator cs)
    rw [chars]
    rw [hparts] at ih ⊢
    split
    · next hc => simp [hc, ih]
    · cases parts <;> simp_all

end Split

/-! ## The components of a name -/

namespace Name

def path (scope : String) : List String :=
  if scope = "" then [] else components scope

theorem components_injective : Function.Injective components := by
  intro a b h
  have hchars := map_injective_iff.mpr (fun _ _ => String.ofList_inj.mp) h
  have htext := congrArg ['.'].intercalate hchars
  rw [Split.intercalate_chars, Split.intercalate_chars] at htext
  exact String.toList_inj.mp htext

theorem components_of_notMem (h : '.' ∉ name.toList) : components name = [name] := by
  rw [components, Split.parts, Split.chars_of_notMem h]
  simp

theorem components_append_dot (a b : String) :
    components (a ++ "." ++ b) = components a ++ components b := by
  have htext : (a ++ "." ++ b).toList = a.toList ++ '.' :: b.toList := by simp
  rw [components, Split.parts, htext, Split.chars_append, map_append]
  rfl

theorem components_ne_nil (name : String) : components name ≠ [] := by
  rw [components, Split.parts, ne_eq, map_eq_nil_iff]
  exact Split.chars_ne_nil '.' _

theorem components_dot (name : String) : components ("." ++ name) = "" :: components name := by
  have hempty : components "" = [""] := components_of_notMem (by simp)
  simpa [hempty] using components_append_dot "" name

theorem components_qualify (scope name : String) :
    components (qualify scope name) = path scope ++ components name := by
  unfold qualify path
  split
  · rfl
  · exact components_append_dot scope name

/-- A name with a dot in it stands in the scope before the last dot. -/
theorem exists_eq_append_dot (h : '.' ∈ name.toList) :
    ∃ a b : String, name = a ++ "." ++ b ∧ '.' ∉ b.toList := by
  obtain ⟨xs, ys, hsplit, hxs⟩ := eq_append_cons_of_mem (mem_reverse.mpr h)
  refine ⟨String.ofList ys.reverse, String.ofList xs.reverse, ?_, by simpa using hxs⟩
  rw [← String.toList_inj, ← reverse_inj, hsplit]
  simp

theorem absolute?_eq_none_iff : absolute? name = none ↔ ∀ rest, name ≠ "." ++ rest := by
  constructor
  · rintro h rest rfl
    rw [absolute?_dot] at h
    cases h
  · intro h
    cases habsolute : absolute? name with
    | none => rfl
    | some rest => exact absurd (eq_dot_of_absolute? habsolute) (h rest)

/-- A scope is that around it and one component more. -/
theorem exists_path_eq_concat {scope : String} (hne : scope ≠ "") (h : absolute? scope = none) :
    ∃ x, path scope = path (outer scope) ++ [x] ∧ absolute? (outer scope) = none := by
  rw [path, if_neg hne]
  by_cases hdot : '.' ∈ scope.toList
  · obtain ⟨a, b, rfl, hb⟩ := exists_eq_append_dot hdot
    have ha : a ≠ "" := by
      rintro rfl
      exact absolute?_eq_none_iff.mp h b (by simp)
    rw [outer_append_dot hb, components_append_dot, components_of_notMem hb, path, if_neg ha]
    refine ⟨b, rfl, absolute?_eq_none_iff.mpr ?_⟩
    rintro rest rfl
    exact absolute?_eq_none_iff.mp h (rest ++ "." ++ b) (by simp [String.append_assoc])
  · rw [outer_eq_empty hdot, components_of_notMem hdot]
    exact ⟨scope, rfl, rfl⟩

/-- The walk outward visits the prefixes of a scope, the longest one first. -/
theorem map_path_scopes {scope : String} (h : absolute? scope = none) :
    (scopes scope).map path = (path scope).inits.reverse := by
  fun_induction scopes scope with
  | case1 => rfl
  | case2 scope hne ih =>
    obtain ⟨x, hpath, houter⟩ := exists_path_eq_concat hne h
    rw [map_cons, ih houter, hpath, inits_append]
    simp

/-- The scopes around a name are those whose components begin it. -/
theorem mem_scopes_iff {scope : String} (h : scope ≠ "") :
    scope ∈ scopes name ↔ components scope <+: components name := by
  have hsame : ∀ other, scope = other ↔ components scope = components other := by
    intro other
    exact components_injective.eq_iff.symm
  have hsingle : ∀ other : String, '.' ∉ other.toList →
      (components scope <+: components other ↔ scope = other) := by
    intro other hother
    rw [hsame, components_of_notMem hother]
    constructor
    · intro hpre
      obtain ⟨x, rest, hx⟩ := exists_cons_of_ne_nil (components_ne_nil scope)
      rw [hx, cons_prefix_cons] at hpre
      rw [hx, hpre.1, prefix_nil.mp hpre.2]
    · intro heq
      rw [heq]
  fun_induction scopes name with
  | case1 => rw [hsingle "" (by simp), mem_singleton]
  | case2 name hne ih =>
    refine mem_cons.trans ((or_congr_right ih).trans ?_)
    by_cases hdot : '.' ∈ name.toList
    · obtain ⟨a, b, rfl, hb⟩ := exists_eq_append_dot hdot
      rw [outer_append_dot hb, hsame, components_append_dot, components_of_notMem hb,
        prefix_concat_iff]
    · rw [outer_eq_empty hdot, hsingle "" (by simp), hsingle name hdot]
      simp [h]

private theorem first?_append_dot {a b : String} (h : '.' ∉ a.toList) :
    first? (a ++ "." ++ b) = some a := by
  have htext : (a ++ "." ++ b).toList = a.toList ++ '.' :: b.toList := by simp
  have hall : ∀ c ∈ a.toList, decide (c ≠ '.') = true := by
    intro c hc
    exact decide_eq_true fun heq => h (heq ▸ hc)
  rw [first?, htext, if_pos (by simp), takeWhile_append_of_pos hall]
  simp

/-- A name that is not given in full begins with a component that is not empty. -/
theorem components_relative (hname : name ≠ "") (h : absolute? name = none) :
    ∃ x rest, x ≠ "" ∧ components x = [x] ∧ components name = x :: rest ∧
      (first? name = none ∧ rest = [] ∨ first? name = some x ∧ rest ≠ []) := by
  by_cases hdot : '.' ∈ name.toList
  · obtain ⟨xs, ys, hsplit, hxs⟩ := eq_append_cons_of_mem hdot
    obtain ⟨a, rfl⟩ : ∃ a : String, a.toList = xs := ⟨String.ofList xs, by simp⟩
    obtain rfl : name = a ++ "." ++ String.ofList ys := by
      rw [← String.toList_inj, hsplit]
      simp
    refine ⟨a, components (String.ofList ys), ?_, components_of_notMem hxs, ?_,
      .inr ⟨first?_append_dot hxs, components_ne_nil _⟩⟩
    · rintro rfl
      exact absolute?_eq_none_iff.mp h (String.ofList ys) (by simp)
    · rw [components_append_dot, components_of_notMem hxs]
      rfl
  · have hcomponents := components_of_notMem hdot
    exact ⟨name, [], hname, hcomponents, hcomponents, .inl ⟨if_neg hdot, rfl⟩⟩

end Name

/-! ## Longest prefixes -/

structure IsLongest {α : Type} (P : List α → Prop) (xs p : List α) : Prop where
  isPrefix : p <+: xs
  holds : P p
  longest : ∀ q, q <+: xs → P q → q.length ≤ p.length

section Longest

variable {α β : Type} {xs p : List α}

private theorem find?_inits_eq_some_iff {P : List α → Bool} :
    xs.inits.reverse.find? P = some p ↔ IsLongest (fun q => P q = true) xs p := by
  induction xs using List.reverseRecOn with
  | nil =>
    have hinits : ([] : List α).inits.reverse = [[]] := rfl
    rw [hinits, find?_singleton, Option.ite_none_right_eq_some, Option.some.injEq]
    constructor
    · rintro ⟨hP, rfl⟩
      exact ⟨prefix_refl [], hP, fun q hq _ => hq.length_le⟩
    · rintro ⟨hpre, hP, _⟩
      rw [prefix_nil.mp hpre] at hP ⊢
      exact ⟨hP, rfl⟩
  | append_singleton xs x ih =>
    have hinits : (xs ++ [x]).inits.reverse = (xs ++ [x]) :: xs.inits.reverse := by
      simp [inits_append]
    rw [hinits, find?_cons]
    cases hP : P (xs ++ [x]) with
    | true =>
      simp only [Option.some.injEq]
      constructor
      · rintro rfl
        exact ⟨prefix_refl _, hP, fun q hq _ => hq.length_le⟩
      · rintro ⟨hpre, _, hlongest⟩
        have hle := hlongest _ (prefix_refl _) hP
        exact (hpre.eq_of_length (Nat.le_antisymm hpre.length_le hle)).symm
    | false =>
      -- the whole list is no candidate, so that the candidates are the prefixes of the others
      have hshorter : ∀ q, q <+: xs ++ [x] → P q = true → q <+: xs := by
        intro q hq hPq
        rcases prefix_concat_iff.mp hq with rfl | hq
        · rw [hP] at hPq
          cases hPq
        · exact hq
      refine ih.trans ⟨fun h => ?_, fun h => ?_⟩
      · exact ⟨h.isPrefix.trans (prefix_append _ _), h.holds,
          fun q hq hPq => h.longest q (hshorter q hq hPq) hPq⟩
      · exact ⟨hshorter p h.isPrefix h.holds, h.holds,
          fun q hq => h.longest q (hq.trans (prefix_append _ _))⟩

private theorem findSome?_inits_eq_some_iff {f : List α → Option β} {b : β} :
    xs.inits.reverse.findSome? f = some b ↔
      ∃ p, IsLongest (fun q => (f q).isSome = true) xs p ∧ f p = some b := by
  have hfind : ∀ ys : List (List α), ys.findSome? f = (ys.find? fun q => (f q).isSome).bind f := by
    intro ys
    induction ys with
    | nil => rfl
    | cons y ys ih =>
      rw [findSome?_cons, find?_cons]
      cases hy : f y with
      | none => exact ih
      | some b => simp [hy]
  rw [hfind, Option.bind_eq_some_iff]
  simp only [find?_inits_eq_some_iff]

end Longest

/-! ## What a name means -/

/-- The declaration with the given components of its full name, in a file or in one that it sees. -/
def File.typeAt? (file : File) (visible : List LinkedFile) (components : List String) :
    Option Declared :=
  (file.declared ++ visible.flatMap LinkedFile.declared).find? fun d =>
    Name.components d.fullName = components

/-- A file, or one that it sees, declares a package of these components or inside them. -/
def File.PackageAt (file : File) (visible : List LinkedFile) (components : List String) : Prop :=
  ∃ package, some package ∈ file.package :: visible.map (fun f => f.file.package) ∧
    components <+: Name.components package

/-- What a name means in a scope, both given by their components. A name in full has an empty one
at its front. -/
inductive Means (types : List String → Option Declared) (packages : List String → Prop)
    (place : List String) : List String → Declared → Prop
  | absolute {name : List String} {d : Declared} (h : types name = some d) :
      Means types packages place ("" :: name) d
  | simple {x : String} {p : List String} {d : Declared} (hx : x ≠ "")
      (hp : IsLongest (fun q => (types (q ++ [x])).isSome) place p)
      (h : types (p ++ [x]) = some d) : Means types packages place [x] d
  | compound {x : String} {rest p : List String} {d : Declared} (hx : x ≠ "") (hrest : rest ≠ [])
      (hp : IsLongest (fun q => packages (q ++ [x]) ∨ (types (q ++ [x])).isSome) place p)
      (h : types (p ++ x :: rest) = some d) : Means types packages place (x :: rest) d

section Resolve

variable (file : File) (visible : List LinkedFile)

theorem lookup?_ofFile (name : String) :
    (Scope.ofFile file visible).lookup? name = file.typeAt? visible (components name) := by
  rw [Scope.lookup?, Scope.ofFile, Declared.find?, File.typeAt?]
  congr 1
  funext d
  rw [decide_eq_decide]
  exact components_injective.eq_iff.symm

theorem mem_packages_ofFile (h : name ≠ "") :
    name ∈ (Scope.ofFile file visible).packages ↔
      file.PackageAt visible (components name) := by
  rw [Scope.ofFile, File.PackageAt, mem_flatMap]
  simp only [mem_filter, mem_scopes_iff h, h, ne_eq, not_false_eq_true, decide_true, and_true]
  constructor
  · rintro ⟨package, hpackage, hpre⟩
    cases package with
    | none =>
      have hmem : name ∈ scopes "" := (mem_scopes_iff h).mpr hpre
      rw [scopes, if_pos rfl, mem_singleton] at hmem
      exact absurd hmem h
    | some package => exact ⟨package, hpackage, hpre⟩
  · rintro ⟨package, hpackage, hpre⟩
    exact ⟨some package, hpackage, hpre⟩

theorem isScope_ofFile (h : name ≠ "") :
    (Scope.ofFile file visible).isScope name = true ↔
      file.PackageAt visible (components name) ∨
        (file.typeAt? visible (components name)).isSome := by
  rw [Scope.isScope, Bool.or_eq_true, decide_eq_true_eq, mem_packages_ofFile file visible h,
    lookup?_ofFile]

/-- The first scope on the walk outward is the longest prefix. -/
theorem find?_scopes_bind {β : Type} {place : String} (h : absolute? place = none)
    (P : List String → Bool) (f : List String → Option β) :
    ((scopes place).find? fun s => P (Name.path s)).bind (fun s => f (Name.path s)) =
      ((Name.path place).inits.reverse.find? P).bind f := by
  rw [← map_path_scopes h, find?_map, Option.bind_map]
  rfl

private theorem findSome?_scopes {β : Type} {place : String} (h : absolute? place = none)
    (f : List String → Option β) :
    (scopes place).findSome? (fun s => f (Name.path s)) =
      (Name.path place).inits.reverse.findSome? f := by
  rw [← map_path_scopes h, findSome?_map]
  rfl

/-- A type name means the declaration that the components of the name and of its scope lead to, and
nothing where they lead to none. -/
theorem resolve?_eq_some_iff_means {place name : String} (hplace : absolute? place = none)
    (hname : name ≠ "") (d : Declared) :
    (Scope.ofFile file visible).resolve? place name = some d ↔
      Means (file.typeAt? visible) (file.PackageAt visible) (Name.path place)
        (components name) d := by
  classical
  cases habsolute : absolute? name with
  | some fullName =>
    obtain rfl := eq_dot_of_absolute? habsolute
    simp only [Scope.resolve?, habsolute, lookup?_ofFile, components_dot]
    generalize components fullName = components
    refine ⟨fun h => .absolute h, fun h => ?_⟩
    cases h with
    | absolute h => exact h
    | simple hx => exact absurd rfl hx
    | compound hx => exact absurd rfl hx
  | none =>
    obtain ⟨x, rest, hx, hsingle, hcomponents, hfirst⟩ := components_relative hname habsolute
    rcases hfirst with ⟨hfirst, rfl⟩ | ⟨hfirst, hrest⟩
    · simp only [Scope.resolve?, habsolute, hfirst, lookup?_ofFile, components_qualify,
        hcomponents]
      rw [findSome?_scopes hplace fun q => file.typeAt? visible (q ++ [x]),
        findSome?_inits_eq_some_iff]
      constructor
      · rintro ⟨p, hp, h⟩
        exact .simple hx hp h
      · intro h
        cases h with
        | absolute => exact absurd rfl hx
        | simple _ hp h => exact ⟨_, hp, h⟩
        | compound _ hrest => exact absurd rfl hrest
    · have hopens : ∀ s, (Scope.ofFile file visible).isScope (qualify s x) =
          decide (file.PackageAt visible (Name.path s ++ [x]) ∨
            (file.typeAt? visible (Name.path s ++ [x])).isSome) := by
        intro s
        have hne : qualify s x ≠ "" := qualify_ne_empty hx
        rw [Bool.eq_iff_iff, decide_eq_true_eq, isScope_ofFile file visible hne,
          components_qualify, hsingle]
      simp only [Scope.resolve?, habsolute, hfirst, lookup?_ofFile, components_qualify,
        hcomponents, hopens]
      rw [find?_scopes_bind hplace (fun q => decide (file.PackageAt visible (q ++ [x]) ∨
        (file.typeAt? visible (q ++ [x])).isSome)) fun q => file.typeAt? visible (q ++ x :: rest),
        Option.bind_eq_some_iff]
      simp only [find?_inits_eq_some_iff, decide_eq_true_eq]
      constructor
      · rintro ⟨p, hp, h⟩
        exact .compound hx hrest hp h
      · intro h
        cases h with
        | absolute => exact absurd rfl hx
        | simple => exact absurd rfl hrest
        | compound _ _ hp h => exact ⟨_, hp, h⟩

end Resolve

def shadowingFile : File where
  name := "t"
  messages :=
    [{ name := "M", nested := [{ name := "N", nested := [{ name := "X" }] }] },
      { name := "N", nested := [{ name := "Y" }] }]

/-- The inner message hides the outer one, and what is inside the outer one with it. -/
theorem resolve?_eq_some_iff_means_shadowingFile :
    absolute? "M" = none ∧
      (∃ d, d.fullName = "M.N.X" ∧
        Means (shadowingFile.typeAt? []) (shadowingFile.PackageAt []) ["M"] ["N", "X"] d) ∧
      (shadowingFile.typeAt? [] ["N", "Y"]).isSome ∧
      ∀ d, ¬Means (shadowingFile.typeAt? []) (shadowingFile.PackageAt []) ["M"] ["N", "Y"] d := by
  have hmeans : ∀ name d, name ≠ "" →
      ((Scope.ofFile shadowingFile []).resolve? "M" name = some d ↔
        Means (shadowingFile.typeAt? []) (shadowingFile.PackageAt []) ["M"]
          (components name) d) :=
    fun name d hname => resolve?_eq_some_iff_means shadowingFile [] rfl hname d
  have hfound : ((Scope.ofFile shadowingFile []).resolve? "M" "N.X").map Declared.fullName =
      some "M.N.X" := by
    decide +kernel
  have hhidden : (Scope.ofFile shadowingFile []).resolve? "M" "N.Y" = none := by decide +kernel
  obtain ⟨d, hd, hname⟩ := Option.map_eq_some_iff.mp hfound
  refine ⟨rfl, ⟨d, hname, (hmeans "N.X" d (by decide)).mp hd⟩, by decide +kernel, fun d h => ?_⟩
  have hsome := (hmeans "N.Y" d (by decide)).mpr h
  rw [hhidden] at hsome
  cases hsome

end ProtoSchema
