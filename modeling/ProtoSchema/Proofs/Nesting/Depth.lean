import ProtoSchema.Proofs.Grammar.Building

/-!
How deep messages are nested, told by the paths they are recorded under. What is recorded for a
statement that declares no message is at no depth at all, and what is recorded inside a message is
deeper than the message.
-/

namespace ProtoSchema

open List Option

variable {p q : List Int} {k : Nat} {r : Option Unit}

namespace Location

/-- How many messages below a message a path leads, if it leads to a message. -/
def nesting : List Int → Option Nat
  | [] => some 0
  | [_] => none
  | tag :: _ :: path => if tag = messageNested then (nesting path).map (· + 1) else none

def depth : List Int → Option Nat
  | tag :: _ :: path => if tag = fileMessage then (nesting path).map (· + 1) else none
  | _ => none

theorem nesting_append (h : nesting p = some k) : nesting (p ++ q) = (nesting q).map (k + ·) := by
  fun_induction nesting p generalizing k with
  | case1 =>
    cases h
    simp
  | case2 => cases h
  | case3 i path ih =>
    obtain ⟨j, hj, rfl⟩ := map_eq_some_iff.mp h
    rw [cons_append, cons_append, nesting, if_pos rfl, ih hj, Option.map_map]
    exact congrArg (Option.map · _) (funext fun n => by simp only [Function.comp]; omega)
  | case4 => cases h

/-- Behind a message the depth is counted on. -/
theorem depth_append (h : depth p = some k) : depth (p ++ q) = (nesting q).map (k + ·) := by
  unfold depth at h
  split at h
  · next tag i path =>
    split at h
    · next htag =>
      obtain ⟨j, hj, rfl⟩ := map_eq_some_iff.mp h
      rw [cons_append, cons_append, depth, if_pos htag, nesting_append hj, Option.map_map]
      exact congrArg (Option.map · _) (funext fun n => by simp only [Function.comp]; omega)
    · cases h
  · cases h

theorem depth_child (h : depth p = some k) (i : Nat) :
    depth (child p messageNested i) = some (k + 1) := by
  rw [child, depth_append h]
  rfl

theorem nesting_of_ne {tag : Int} (h : tag ≠ messageNested) (path : List Int) :
    nesting (tag :: path) = none := by
  cases path with
  | nil => rfl
  | cons i path => rw [nesting, if_neg h]

theorem depth_of_ne {tag : Int} (h : tag ≠ fileMessage) (path : List Int) :
    depth (tag :: path) = none := by
  cases path with
  | nil => rfl
  | cons i path => rw [depth, if_neg h]

/-- In a message, what has another tag leads to no message. -/
theorem depth_append_of_ne (h : depth p = some k) {tag : Int} (htag : tag ≠ messageNested)
    (path : List Int) : depth (p ++ tag :: path) = none := by
  rw [depth_append h, nesting_of_ne htag, map_none]

private theorem pos_of_nesting (hq : q ≠ []) (h : nesting q = some k) : 0 < k := by
  cases q with
  | nil => exact absurd rfl hq
  | cons tag q =>
    cases q with
    | nil => cases h
    | cons i q =>
      rw [nesting] at h
      split at h
      · obtain ⟨j, _, rfl⟩ := map_eq_some_iff.mp h
        exact Nat.succ_pos j
      · cases h

theorem depth_append_ne (h : depth p = some k) (hq : q ≠ []) : depth (p ++ q) ≠ some k := by
  intro hsame
  rw [depth_append h] at hsame
  obtain ⟨j, hj, hsum⟩ := map_eq_some_iff.mp hsame
  have hpos := pos_of_nesting hq hj
  omega

/-- Whether what is declared there is a message inside the deepest messages that are allowed. -/
def TooDeep (l : Location) : Prop :=
  depth l.path = some (Message.maxNesting + 1)

instance (l : Location) : Decidable l.TooDeep :=
  inferInstanceAs (Decidable (_ = _))

end Location

namespace Cursor

def tooDeep (c : Cursor) : List Location :=
  c.locations.filter fun l => l.TooDeep

theorem tooDeep_bump (c : Cursor) : c.bump.tooDeep = c.tooDeep := by
  rw [tooDeep, bump_locations, tooDeep]

theorem tooDeep_record {c : Cursor} {path : List Int} {start : Position}
    (h : Location.depth path ≠ some (Message.maxNesting + 1)) :
    (c.record path start).tooDeep = c.tooDeep := by
  have hnone : ¬(⟨path, start, c.lastEnd⟩ : Location).TooDeep := h
  rw [tooDeep, record, filter_append, filter_cons_of_neg (by simpa), filter_nil,
    append_nil, tooDeep]

def tooDeepFrom (b : Cursor) : Invariant Unit where
  Holds _ _ c := c.tooDeep = b.tooDeep
  Covers _ := True
  Records path := Location.depth path ≠ some (Message.maxNesting + 1)
  covers _ := trivial
  bump h _ _ := (tooDeep_bump _).trans h
  enter h _ := (tooDeep_bump _).trans h
  leave h _ := (tooDeep_bump _).trans h
  report h _ := h
  record h hpath := (tooDeep_record hpath).trans h
  finish h _ _ _ := h

end Cursor

namespace Production

variable {dialect : Dialect} {path : List Int} {c d : Cursor}

theorem tooDeep_messageStatement {nested : List Int → Production Message Message} {m t : Message}
    (hpath : Location.depth path = some k) (hword : c.current.isWord "message" = false)
    (hrun : (messageStatement ⟨dialect, .resume⟩ path nested).run m c = (r, t, d)) :
    d.tooDeep = c.tooDeep := by
  have hkeeps : Keeps (c.tooDeepFrom.under () fun _ => True) 0 c.current
      (messageStatement ⟨dialect, .resume⟩ path nested) := by
    refine keeps_messageStatement (Message.kept_name fun _ => True) ?_ (by simp [hword])
    rintro tag htag _ ⟨more, rfl⟩ hdepth
    rw [append_assoc, singleton_append, Location.depth_append_of_ne hpath htag] at hdepth
    cases hdepth
  exact (hkeeps.of_run (k := 0) ⟨rfl, trivial⟩ hrun).1

theorem tooDeep_topLevelStatement {f t : File} (hword : c.current.isWord "message" = false)
    (hrun : (topLevelStatement ⟨dialect, .resume⟩).run f c = (r, t, d)) :
    d.tooDeep = c.tooDeep := by
  have hkeeps : Keeps (c.tooDeepFrom.under () fun _ => True) 0 c.current
      (topLevelStatement ⟨dialect, .resume⟩) := by
    refine keeps_topLevelStatement File.kept_true ?_ (by simp [hword])
    rintro tag htag _ ⟨more, rfl⟩ hdepth
    rw [singleton_append, Location.depth_of_ne htag] at hdepth
    cases hdepth
  exact (hkeeps.of_run (k := 0) ⟨rfl, trivial⟩ hrun).1

/-- Inside a message that is nested too deep all that is declared is deeper. -/
theorem tooDeep_messageBlock {budget : Nat} {m t : Message}
    (hpath : Location.depth path = some (Message.maxNesting + 1))
    (hrun : (block .resume "message" (messageStatement ⟨dialect, .resume⟩ path
      (message ⟨dialect, .resume⟩ budget))).run m c = (r, t, d)) : d.tooDeep = c.tooDeep := by
  have hinside : ∀ tag more, c.tooDeepFrom.RecordsUnder (path ++ tag :: more) := by
    rintro tag more _ ⟨last, rfl⟩
    rw [Cursor.tooDeepFrom, append_assoc]
    exact Location.depth_append_ne hpath (by simp)
  have hkeeps : Keeps (c.tooDeepFrom.under () fun _ => True) 1 c.current
      (block .resume "message" (messageStatement ⟨dialect, .resume⟩ path
        (message ⟨dialect, .resume⟩ budget))) :=
    keeps_block fun _ => keeps_messageStatement (Message.kept_name fun _ => True)
      (fun tag _ => hinside tag []) fun hword _ => ⟨keeps_message (Token.kind_of_isWord hword)
        (hinside _ _), fun _ _ _ _ _ _ => trivial⟩
  have hkept := hkeeps 0 m c ⟨rfl, trivial⟩ rfl
  rw [hrun] at hkept
  exact hkept.1

end Production

end ProtoSchema
