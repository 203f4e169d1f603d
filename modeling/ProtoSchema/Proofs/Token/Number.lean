import ProtoSchema.Grammar.Option

/-!
The texts of numbers. A number that was read without a remark is written by the rules below, and
what is written by them is read whole, whatever follows it, if only that cannot go on with it.
-/

namespace ProtoSchema.Scan

open List

variable {p : Char → Bool} {c : Char} {rest ds m mark : List Char} {kind : TokenKind}

/-! ## Where a stretch of text ends -/

def Stops (p : Char → Bool) (rest : List Char) : Prop :=
  ∀ c ∈ rest.head?, p c = false

theorem stops_nil (p : Char → Bool) : Stops p [] := by
  simp [Stops]

theorem stops_cons : Stops p (c :: rest) ↔ p c = false := by
  simp [Stops]

namespace Stops

variable {q : Char → Bool}

theorem mono (h : Stops p rest) (hpq : ∀ c, q c = true → p c = true) : Stops q rest := by
  intro c hc
  have hp := h c hc
  cases hq : q c with
  | false => rfl
  | true => rw [hpq c hq] at hp; cases hp

theorem takeWhile_append (h : Stops p rest) (hds : ∀ d ∈ ds, p d = true) :
    (ds ++ rest).takeWhile p = ds := by
  rw [takeWhile_append_of_pos hds]
  cases rest with
  | nil => simp
  | cons c rest => simp [stops_cons.mp h]

theorem dropWhile_append (h : Stops p rest) (hds : ∀ d ∈ ds, p d = true) :
    (ds ++ rest).dropWhile p = rest := by
  rw [dropWhile_append_of_pos hds]
  cases rest with
  | nil => rfl
  | cons c rest => simp [stops_cons.mp h]

end Stops

/-! ## Classes of characters -/

theorem char_le_iff (c d : Char) : c ≤ d ↔ c.toNat ≤ d.toNat :=
  Iff.rfl

theorem char_eq_iff (c d : Char) : c = d ↔ c.toNat = d.toNat :=
  Char.toNat_inj.symm

theorem isDigit_iff (c : Char) : isDigit c = true ↔ 48 ≤ c.toNat ∧ c.toNat ≤ 57 := by
  simp [isDigit, char_le_iff]

theorem isLetter_iff (c : Char) :
    isLetter c = true ↔
      (97 ≤ c.toNat ∧ c.toNat ≤ 122) ∨ (65 ≤ c.toNat ∧ c.toNat ≤ 90) ∨ c.toNat = 95 := by
  simp [isLetter, char_le_iff, char_eq_iff, or_assoc]

theorem isHex_iff (c : Char) :
    Escape.isHex c = true ↔
      (48 ≤ c.toNat ∧ c.toNat ≤ 57) ∨ (97 ≤ c.toNat ∧ c.toNat ≤ 102) ∨
        (65 ≤ c.toNat ∧ c.toNat ≤ 70) := by
  unfold Escape.isHex Escape.hexValue?
  simp only [Bool.and_eq_true, decide_eq_true_eq, char_le_iff, Char.reduceToNat]
  split
  · simp_all
  · split
    · simp_all
    · split <;> simp_all

theorem isOctal_iff (c : Char) :
    Escape.isOctal c = true ↔ 48 ≤ c.toNat ∧ c.toNat ≤ 55 := by
  simp [Escape.isOctal, char_le_iff]

theorem isLetter_eq_false_of_isDigit (h : isDigit c = true) : isLetter c = false := by
  rw [isDigit_iff] at h
  rw [← Bool.not_eq_true, isLetter_iff]
  omega

theorem isDigit_of_isOctal (h : Escape.isOctal c = true) : isDigit c = true := by
  rw [isOctal_iff] at h
  rw [isDigit_iff]
  omega

/-- Whether a character right behind a token might be read together with it. -/
def goesOn (c : Char) : Bool :=
  isWordChar c || c = '.' || c = '/' || c = '*'

theorem goesOn_of_isWordChar (c : Char) (h : isWordChar c = true) : goesOn c = true := by
  simp [goesOn, h]

theorem goesOn_of_isDigit (c : Char) (h : isDigit c = true) : goesOn c = true := by
  simp [goesOn, isWordChar, h]

private theorem goesOn_of_isLetter (c : Char) (h : isLetter c = true) : goesOn c = true := by
  simp [goesOn, isWordChar, h]

private theorem goesOn_of_isHex (c : Char) (h : Escape.isHex c = true) : goesOn c = true := by
  rw [isHex_iff] at h
  apply goesOn_of_isWordChar
  rw [isWordChar, Bool.or_eq_true, isLetter_iff, isDigit_iff]
  omega

namespace Numeral

/-! ## How numbers are written -/

def Whole (ds : List Char) : Prop :=
  ds ≠ [] ∧ (∀ d ∈ ds, isDigit d = true) ∧ (ds.head? = some '0' → ds = ['0'])

inductive Mantissa : TokenKind → List Char → Prop
  | decimal {ds : List Char} : Whole ds → Mantissa .integer ds
  | octal {ds : List Char} :
    ds ≠ [] → (∀ d ∈ ds, Escape.isOctal d = true) → Mantissa .integer ('0' :: ds)
  | fraction {ds fs : List Char} :
    Whole ds → (∀ d ∈ fs, isDigit d = true) → Mantissa .float (ds ++ '.' :: fs)
  | point {fs : List Char} :
    fs ≠ [] → (∀ d ∈ fs, isDigit d = true) → Mantissa .float ('.' :: fs)

inductive Exponent : List Char → Prop
  | none : Exponent []
  | some {e : Char} {sign ds : List Char} :
    e = 'e' ∨ e = 'E' → sign ∈ [[], ['+'], ['-']] → ds ≠ [] → (∀ d ∈ ds, isDigit d = true) →
    Exponent (e :: (sign ++ ds))

theorem Mantissa.kind_eq (h : Mantissa kind m) : kind = .integer ∨ kind = .float := by
  cases h <;> simp

inductive Text : TokenKind → List Char → Prop
  | hexadecimal {x : Char} {ds : List Char} :
    x = 'x' ∨ x = 'X' → ds ≠ [] → (∀ d ∈ ds, Escape.isHex d = true) → Text .integer ('0' :: x :: ds)
  | integer {m : List Char} : Mantissa .integer m → Text .integer m
  | float {kind : TokenKind} {m e mark : List Char} :
    Mantissa kind m → Exponent e → kind = .float ∨ e ≠ [] → mark ∈ [[], ['f'], ['F']] →
    Text .float (m ++ e ++ mark)

variable {t e : List Char}

theorem Text.kind_eq (h : Text kind t) : kind = .integer ∨ kind = .float := by
  cases h <;> simp

/-! ## What is written is read -/

theorem decimal_append (hds : ∀ d ∈ ds, isDigit d = true)
    (h : Stops (fun c => isDigit c || c = '.') rest) :
    decimal (ds ++ rest) = ⟨.integer, false, ds, rest, []⟩ := by
  have hd : Stops isDigit rest := h.mono fun c hc => by simp [hc]
  unfold decimal
  rw [hd.takeWhile_append hds, hd.dropWhile_append hds]
  cases rest with
  | nil => rfl
  | cons c rest =>
    have hc : c ≠ '.' := by
      rintro rfl
      simp [stops_cons] at h
    dsimp only
    split
    · next heq => cases heq; contradiction
    · rfl

theorem decimal_append_fraction {fs : List Char} (hds : ∀ d ∈ ds, isDigit d = true)
    (hfs : ∀ d ∈ fs, isDigit d = true) (h : Stops isDigit rest) :
    decimal (ds ++ '.' :: fs ++ rest) = ⟨.float, false, ds ++ '.' :: fs, rest, []⟩ := by
  have hpoint : Stops isDigit ('.' :: (fs ++ rest)) := stops_cons.mpr (by decide)
  unfold decimal
  rw [append_assoc, cons_append, hpoint.takeWhile_append hds, hpoint.dropWhile_append hds]
  simp only [h.takeWhile_append hfs, h.dropWhile_append hfs]

/-- A number that does not look like an octal or hexadecimal one is read as a decimal one. -/
theorem mantissa_eq_decimal (hds : Whole ds)
    (h : Stops (fun c => isDigit c || c = 'x' || c = 'X') rest) :
    mantissa (ds ++ rest) = decimal (ds ++ rest) := by
  obtain ⟨hne, hdigit, hzero⟩ := hds
  obtain ⟨d, ds, rfl⟩ := exists_cons_of_ne_nil hne
  unfold mantissa
  split
  · next tail heq =>
    cases heq
    have hd := hdigit '.' (by simp)
    simp [isDigit] at hd
  · next c tail heq =>
    simp only [cons_append, List.cons.injEq] at heq
    obtain ⟨rfl, htail⟩ := heq
    obtain rfl : ds = [] := by simpa using hzero rfl
    obtain rfl : rest = c :: tail := htail
    simp only [stops_cons, Bool.or_eq_false_iff] at h
    simp [h]
  · rfl

theorem octal_append (hds : ∀ d ∈ ds, Escape.isOctal d = true) (h : Stops isDigit rest) :
    octal (ds ++ rest) = ⟨.integer, false, '0' :: ds, rest, []⟩ := by
  have hdigits : ∀ d ∈ ds, isDigit d = true := fun d hd => isDigit_of_isOctal (hds d hd)
  have hseven : ds.any (fun d => '7' < d) = false := by
    simp only [any_eq_false, decide_eq_true_eq]
    intro d hd
    have hle := ((isOctal_iff d).mp (hds d hd)).2
    simpa [char_le_iff] using hle
  simp only [octal, h.takeWhile_append hdigits, h.dropWhile_append hdigits, hseven]
  rfl

def extendsMantissa (c : Char) : Bool :=
  isDigit c || c = '.' || c = 'x' || c = 'X'

theorem mantissa_append (hm : Mantissa kind m) (h : Stops extendsMantissa rest) :
    mantissa (m ++ rest) = ⟨kind, false, m, rest, []⟩ := by
  have hdigit : Stops isDigit rest := h.mono (by grind [extendsMantissa])
  cases hm with
  | decimal hds =>
    rw [mantissa_eq_decimal hds (h.mono (by grind [extendsMantissa])),
      decimal_append hds.2.1 (h.mono (by grind [extendsMantissa]))]
  | @octal ds hne hds =>
    obtain ⟨d, ds, rfl⟩ := exists_cons_of_ne_nil hne
    have hd : isDigit d = true := isDigit_of_isOctal (hds d (by simp))
    have hx : ¬(d = 'x' ∨ d = 'X') := by
      rintro (rfl | rfl) <;> exact absurd hd (by decide)
    have ho := octal_append hds hdigit
    simp only [cons_append] at ho
    simp [mantissa, hx, hd, ho]
  | @fraction ds fs hds hfs =>
    have hpoint : Stops (fun c => isDigit c || c = 'x' || c = 'X') ('.' :: (fs ++ rest)) :=
      stops_cons.mpr (by decide)
    rw [← decimal_append_fraction hds.2.1 hfs hdigit, append_assoc, cons_append,
      mantissa_eq_decimal hds hpoint]
  | @point fs hne hfs =>
    simp [mantissa, hdigit.takeWhile_append hfs, hdigit.dropWhile_append hfs]

private theorem sign_append_of_mem {s : List Char} (hs : s ∈ [[], ['+'], ['-']]) (hne : ds ≠ [])
    (hds : ∀ d ∈ ds, isDigit d = true) (rest : List Char) :
    sign (s ++ (ds ++ rest)) = (s, ds ++ rest) := by
  obtain ⟨d, ds, rfl⟩ := exists_cons_of_ne_nil hne
  have hd := hds d (by simp)
  have hsign : ¬(d = '+' ∨ d = '-') := by
    rintro (rfl | rfl) <;> exact absurd hd (by decide)
  simp only [mem_cons, not_mem_nil, or_false] at hs
  rcases hs with rfl | rfl | rfl <;> simp [sign, hsign]

theorem withExponent_append (he : Exponent e) (h : Stops isDigit rest)
    (hend : Stops (fun c => c = 'e' || c = 'E') rest) :
    withExponent ⟨kind, false, m, e ++ rest, []⟩ =
      ⟨if e = [] then kind else .float, false, m ++ e, rest, []⟩ := by
  cases he with
  | none =>
    cases rest with
    | nil => simp [withExponent]
    | cons c rest =>
      have hc : ¬(c = 'e' ∨ c = 'E') := by simpa [stops_cons] using hend
      simp [withExponent, hc]
  | @some e s ds he hs hne hds =>
    simp [withExponent, he, sign_append_of_mem hs hne hds, h.takeWhile_append hds,
      h.dropWhile_append hds, hne]

theorem withSuffix_append (hm : mark ∈ [[], ['f'], ['F']])
    (h : Stops (fun c => c = 'f' || c = 'F') rest) :
    withSuffix ⟨.float, false, m, mark ++ rest, []⟩ = ⟨.float, false, m ++ mark, rest, []⟩ := by
  simp only [mem_cons, not_mem_nil, or_false] at hm
  rcases hm with rfl | rfl | rfl
  · cases rest with
    | nil => simp [withSuffix]
    | cons c rest =>
      have hc : ¬(c = 'f' ∨ c = 'F') := by simpa [stops_cons] using h
      simp [withSuffix, hc]
  · simp [withSuffix]
  · simp [withSuffix]

theorem Exponent.stops (he : Exponent e) (hp : p 'e' = false ∧ p 'E' = false) (h : Stops p rest) :
    Stops p (e ++ rest) := by
  cases he with
  | none => exact h
  | some he =>
    rw [cons_append, stops_cons]
    rcases he with rfl | rfl
    · exact hp.1
    · exact hp.2

private theorem stops_mark (hm : mark ∈ [[], ['f'], ['F']]) (hp : p 'f' = false ∧ p 'F' = false)
    (h : Stops p rest) : Stops p (mark ++ rest) := by
  simp only [mem_cons, not_mem_nil, or_false] at hm
  rcases hm with rfl | rfl | rfl
  · exact h
  · exact stops_cons.mpr hp.1
  · exact stops_cons.mpr hp.2

private theorem goesOn_of_extendsMantissa (c : Char) (h : extendsMantissa c = true) :
    goesOn c = true := by
  simp only [extendsMantissa, Bool.or_eq_true, decide_eq_true_eq] at h
  rcases h with ((h | rfl) | rfl) | rfl
  · exact goesOn_of_isDigit c h
  · decide
  · decide
  · decide

private theorem goesOn_of_eq_or_eq {a b : Char} (ha : goesOn a = true) (hb : goesOn b = true)
    (c : Char)
    (h : (decide (c = a) || decide (c = b)) = true) : goesOn c = true := by
  simp only [Bool.or_eq_true, decide_eq_true_eq] at h
  rcases h with rfl | rfl
  · exact ha
  · exact hb

theorem ofChars_append_float (hm : Mantissa kind m) (he : Exponent e)
    (hfloat : kind = .float ∨ e ≠ []) (hmark : mark ∈ [[], ['f'], ['F']]) (h : Stops goesOn rest) :
    ofChars (m ++ e ++ mark ++ rest) = ⟨.float, false, m ++ e ++ mark, rest, []⟩ := by
  have hmantissa : mantissa (m ++ (e ++ (mark ++ rest))) =
      ⟨kind, false, m, e ++ (mark ++ rest), []⟩ :=
    mantissa_append hm (he.stops (by decide) (stops_mark hmark (by decide)
      (h.mono goesOn_of_extendsMantissa)))
  have hexponent : withExponent ⟨kind, false, m, e ++ (mark ++ rest), []⟩ =
      ⟨if e = [] then kind else .float, false, m ++ e, mark ++ rest, []⟩ :=
    withExponent_append he (stops_mark hmark (by decide) (h.mono goesOn_of_isDigit))
      (stops_mark hmark (by decide) (h.mono (goesOn_of_eq_or_eq (by decide) (by decide))))
  have hkind : (if e = [] then kind else TokenKind.float) = .float := by
    split
    · next hnil => exact hfloat.resolve_right (not_not_intro hnil)
    · rfl
  have hsuffix : withSuffix ⟨.float, false, m ++ e, mark ++ rest, []⟩ =
      ⟨.float, false, m ++ e ++ mark, rest, []⟩ :=
    withSuffix_append hmark (h.mono (goesOn_of_eq_or_eq (by decide) (by decide)))
  rw [append_assoc, append_assoc, ofChars]
  simp only [hmantissa, hexponent, hkind, hsuffix]
  rfl

theorem ofChars_append_integer (hm : Mantissa .integer m) (h : Stops goesOn rest) :
    ofChars (m ++ rest) = ⟨.integer, false, m, rest, []⟩ := by
  have hexponent : withExponent ⟨.integer, false, m, [] ++ rest, []⟩ =
      ⟨.integer, false, m ++ [], rest, []⟩ :=
    withExponent_append .none (h.mono goesOn_of_isDigit)
      (h.mono (goesOn_of_eq_or_eq (by decide) (by decide)))
  simp only [nil_append, append_nil] at hexponent
  simp only [ofChars, mantissa_append hm (h.mono goesOn_of_extendsMantissa), hexponent]
  cases rest <;> simp [withSuffix]

theorem ofChars_append_hexadecimal {x : Char} (hx : x = 'x' ∨ x = 'X') (hne : ds ≠ [])
    (hds : ∀ d ∈ ds, Escape.isHex d = true) (h : Stops goesOn rest) :
    ofChars ('0' :: x :: ds ++ rest) = ⟨.integer, true, '0' :: x :: ds, rest, []⟩ := by
  have hhex : Stops Escape.isHex rest := h.mono goesOn_of_isHex
  have hmantissa : mantissa ('0' :: x :: ds ++ rest) =
      ⟨.integer, true, '0' :: x :: ds, rest, []⟩ := by
    simp [mantissa, hx, hexadecimal, hhex.takeWhile_append hds, hhex.dropWhile_append hds, hne]
  rw [ofChars]
  simp only [hmantissa, ↓reduceIte]

theorem exists_ofChars_append (ht : Text kind t) (h : Stops goesOn rest) :
    ∃ hex, ofChars (t ++ rest) = ⟨kind, hex, t, rest, []⟩ := by
  cases ht with
  | hexadecimal hx hne hds => exact ⟨true, ofChars_append_hexadecimal hx hne hds h⟩
  | integer hm => exact ⟨false, ofChars_append_integer hm h⟩
  | float hm he hfloat hmark => exact ⟨false, ofChars_append_float hm he hfloat hmark h⟩

end Numeral

theorem number_append {t : List Char} (ht : Numeral.Text kind t) (h : Stops goesOn rest)
    (p : Position) : number p (t ++ rest) = ⟨kind, t, rest, []⟩ := by
  obtain ⟨hex, hn⟩ := Numeral.exists_ofChars_append ht h
  cases rest with
  | nil => simp only [number, hn]; rfl
  | cons c rest =>
    have hc := stops_cons.mp (h.mono goesOn_of_isLetter)
    simp [number, hn, hc]

namespace Numeral

/-! ## What is read was written so -/

private theorem whole_takeWhile (hc : isDigit c = true) (hzero : c = '0' → Stops isDigit rest) :
    Whole ((c :: rest).takeWhile isDigit) := by
  refine ⟨by simp [hc], all_eq_true.mp all_takeWhile, ?_⟩
  rw [takeWhile_cons_of_pos hc]
  intro hhead
  simp only [head?_cons, Option.some.injEq] at hhead
  subst hhead
  have hnil : ([] ++ rest).takeWhile isDigit = [] :=
    (hzero rfl).takeWhile_append (forall_mem_nil _)
  rw [nil_append] at hnil
  rw [hnil]

theorem mantissa_decimal (hc : isDigit c = true) (hzero : c = '0' → Stops isDigit rest) :
    Mantissa (decimal (c :: rest)).kind (decimal (c :: rest)).text := by
  have hwhole := whole_takeWhile hc hzero
  unfold decimal
  split
  · exact .fraction hwhole (all_eq_true.mp all_takeWhile)
  · exact .decimal hwhole

private theorem octal_cases (hc : isDigit c = true) (hfaults : (octal (c :: rest)).faults = []) :
    Mantissa (octal (c :: rest)).kind (octal (c :: rest)).text := by
  simp only [octal, ite_eq_right_iff, cons_ne_nil, imp_false, Bool.not_eq_true,
    any_eq_false, decide_eq_true_eq] at hfaults
  refine .octal (by simp [hc]) fun d hd => ?_
  have hdigit := (isDigit_iff d).mp (all_eq_true.mp all_takeWhile d hd)
  have hseven : ¬ '7' < d := hfaults d hd
  rw [Char.not_lt, char_le_iff] at hseven
  exact (isOctal_iff d).mpr ⟨hdigit.1, hseven⟩

/-- Up to its exponent a number without faults is hexadecimal or a mantissa. -/
theorem mantissa_cases {n : Numeral} (hstart : startsNumber c rest = true)
    (hn : mantissa (c :: rest) = n) (hfaults : n.faults = []) :
    (n.hex = true ∧ Text n.kind n.text) ∨ (n.hex = false ∧ Mantissa n.kind n.text) := by
  unfold mantissa at hn
  split at hn
  · next ds heq =>
    cases heq
    subst hn
    have hne : rest.takeWhile isDigit ≠ [] := by
      cases rest with
      | nil => simp [startsNumber, isDigit] at hstart
      | cons d rest =>
        have hd : isDigit d = true := by simpa [startsNumber, isDigit] using hstart
        simp [hd]
    exact .inr ⟨rfl, .point hne (all_eq_true.mp all_takeWhile)⟩
  · next d ds heq =>
    cases heq
    split at hn
    · next hx =>
      subst hn
      have hne : ds.takeWhile Escape.isHex ≠ [] := by
        simpa [hexadecimal] using hfaults
      refine .inl ⟨rfl, .hexadecimal ?_ hne (all_eq_true.mp all_takeWhile)⟩
      simpa using hx
    · split at hn
      · next hd =>
        subst hn
        exact .inr ⟨rfl, octal_cases hd hfaults⟩
      · next hd =>
        subst hn
        refine .inr ⟨?_, mantissa_decimal (by decide) fun _ => ?_⟩
        · unfold decimal
          split <;> rfl
        · exact stops_cons.mpr (by simpa using hd)
  · next hpoint hzero =>
    subst hn
    have hc : isDigit c = true := by
      have hne : c ≠ '.' := fun hc => hpoint _ (by rw [hc])
      simpa [startsNumber, hne] using hstart
    refine .inr ⟨?_, mantissa_decimal hc fun h0 => ?_⟩
    · unfold decimal
      split <;> rfl
    · cases rest with
      | nil => exact stops_nil _
      | cons d rest => exact (hzero d rest (by rw [h0])).elim

private theorem sign_mem (cs : List Char) : (sign cs).1 ∈ [[], ['+'], ['-']] := by
  unfold sign
  split
  · split
    · next h =>
      simp only [Bool.or_eq_true, decide_eq_true_eq] at h
      rcases h with rfl | rfl <;> simp
    · simp
  · simp

theorem withExponent_cases {n : Numeral} (h : n.withExponent.faults = []) :
    n.faults = [] ∧ ∃ e, Exponent e ∧ n.withExponent.text = n.text ++ e ∧
      n.withExponent.kind = if e = [] then n.kind else .float := by
  generalize hw : n.withExponent = w at h ⊢
  unfold withExponent at hw
  split at hw
  · next e rest hrest =>
    split at hw
    · next he =>
      subst hw
      simp only [append_eq_nil_iff, ite_eq_right_iff, cons_ne_nil, imp_false, List.isEmpty_iff] at h
      exact ⟨h.1, _, .some (by simpa using he) (sign_mem rest) h.2
        (all_eq_true.mp all_takeWhile), rfl, rfl⟩
    · subst hw
      exact ⟨h, [], .none, by simp, rfl⟩
  · subst hw
    exact ⟨h, [], .none, by simp, rfl⟩

theorem withSuffix_cases (n : Numeral) :
    n.withSuffix.faults = n.faults ∧ n.withSuffix.kind = n.kind ∧
      ∃ mark, mark ∈ [[], ['f'], ['F']] ∧ n.withSuffix.text = n.text ++ mark ∧
        (n.kind ≠ .float → mark = []) := by
  unfold withSuffix
  split
  · next c rest hrest =>
    split
    · next hc =>
      simp only [Bool.and_eq_true, decide_eq_true_eq, Bool.or_eq_true] at hc
      refine ⟨rfl, rfl, [c], ?_, rfl, fun h => absurd hc.1 h⟩
      rcases hc.2 with rfl | rfl <;> simp
    · exact ⟨rfl, rfl, [], by simp, by simp, fun _ => rfl⟩
  · exact ⟨rfl, rfl, [], by simp, by simp, fun _ => rfl⟩

theorem text_ofChars (hstart : startsNumber c rest = true)
    (hfaults : (ofChars (c :: rest)).faults = []) :
    Text (ofChars (c :: rest)).kind (ofChars (c :: rest)).text := by
  generalize hn : mantissa (c :: rest) = n
  simp only [ofChars, hn] at hfaults ⊢
  split at hfaults
  · next hhex =>
    rw [if_pos hhex]
    rcases mantissa_cases hstart hn hfaults with ⟨_, ht⟩ | ⟨hfalse, _⟩
    · exact ht
    · rw [hhex] at hfalse
      cases hfalse
  · next hhex =>
    rw [if_neg hhex]
    obtain ⟨hf, hkind, mark, hmark, htext, hnomark⟩ := withSuffix_cases n.withExponent
    obtain ⟨hfaults, e, he, hetext, hekind⟩ := withExponent_cases (hf ▸ hfaults)
    have hm : Mantissa n.kind n.text := by
      rcases mantissa_cases hstart hn hfaults with ⟨htrue, _⟩ | ⟨_, hm⟩
      · exact absurd htrue hhex
      · exact hm
    rw [hkind, htext, hetext, hekind]
    rw [hekind] at hnomark
    by_cases hint : n.kind = .float ∨ e ≠ []
    · have hfloat : (if e = [] then n.kind else TokenKind.float) = .float := by
        split
        · next hnil => exact hint.resolve_right (not_not_intro hnil)
        · rfl
      rw [hfloat]
      exact .float hm he hint hmark
    · simp only [not_or, ne_eq, Decidable.not_not] at hint
      obtain ⟨hnf, rfl⟩ := hint
      obtain rfl := hnomark (by simpa using hnf)
      have hinteger : n.kind = .integer := hm.kind_eq.resolve_right hnf
      rw [hinteger] at hm
      simpa [hinteger] using Text.integer hm

end Numeral

theorem text_of_number {p : Position} (hstart : startsNumber c rest = true)
    (h : (number p (c :: rest)).remarks = []) :
    Numeral.Text (number p (c :: rest)).kind (number p (c :: rest)).text := by
  simp only [number, append_eq_nil_iff, map_eq_nil_iff] at h
  exact Numeral.text_ofChars hstart h.1

end ProtoSchema.Scan
