import ProtoSchema.Proofs.Token.Number

/-!
The values of numbers. An integer token is never malformed, a number in plain decimal has the value
it was written from, and a float without its mark is still a float.
-/

namespace ProtoSchema

open List

variable {base n : Nat} {ds t : List Char} {c : Char}

namespace IntegerLiteral

open Scan

theorem digitsFrom_append (base n : Nat) (xs ys : List Char) :
    digitsFrom base n (xs ++ ys) = (digitsFrom base n xs).bind fun m => digitsFrom base m ys := by
  induction xs generalizing n with
  | nil => rfl
  | cons c xs ih =>
    simp only [cons_append, digitsFrom]
    split
    · rfl
    · split
      · exact ih _
      · rfl

private theorem digitsFrom_ne_malformed (h : ∀ d ∈ ds, (digitValue? base d).isSome = true)
    (n : Nat) :
    digitsFrom base n ds ≠ .error .malformed := by
  induction ds generalizing n with
  | nil => simp [digitsFrom]
  | cons d ds ih =>
    have hd := h d (by simp)
    simp only [digitsFrom]
    split
    · next hnone => rw [hnone] at hd; cases hd
    · split
      · exact ih (fun d' hd' => h d' (by simp [hd'])) _
      · simp

private theorem digits_ne_malformed (hne : ds ≠ [])
    (h : ∀ d ∈ ds, (digitValue? base d).isSome = true) :
    digits base ds ≠ .error .malformed := by
  rw [digits, if_neg (by simpa using hne)]
  exact digitsFrom_ne_malformed h 0

private theorem hexValue?_of_isDigit (h : isDigit c = true) :
    Escape.hexValue? c = some (c.toNat - 48) := by
  rw [isDigit_iff] at h
  simp [Escape.hexValue?, char_le_iff, h]

theorem hexValue?_lt (h : Escape.hexValue? c = some n) : n < 16 := by
  unfold Escape.hexValue? at h
  simp only [Bool.and_eq_true, decide_eq_true_eq, char_le_iff, Char.reduceToNat] at h
  split at h
  · cases h; omega
  · split at h
    · cases h; omega
    · split at h
      · cases h; omega
      · cases h

theorem isSome_digitValue?_of_isHex (h : Escape.isHex c = true) :
    (digitValue? 16 c).isSome = true := by
  obtain ⟨n, hn⟩ := Option.isSome_iff_exists.mp h
  simp [digitValue?, hn, hexValue?_lt hn]

theorem isSome_digitValue?_of_isOctal (h : Escape.isOctal c = true) :
    (digitValue? 8 c).isSome = true := by
  have hle := ((isOctal_iff c).mp h).2
  have hlt : c.toNat - 48 < 8 := by omega
  simp [digitValue?, hexValue?_of_isDigit (isDigit_of_isOctal h), hlt]

theorem isSome_digitValue?_of_isDigit (h : isDigit c = true) :
    (digitValue? 10 c).isSome = true := by
  have hle := ((isDigit_iff c).mp h).2
  have hlt : c.toNat - 48 < 10 := by omega
  simp [digitValue?, hexValue?_of_isDigit h, hlt]

/-- Digits with no needless zero in front are read as a decimal number. -/
theorem value_whole (h : Numeral.Whole ds) : value ds = digits 10 ds := by
  obtain ⟨_, _, hzero⟩ := h
  unfold value
  split
  · cases hzero rfl
  · cases hzero rfl
  · cases hzero rfl
  · rfl

theorem value_octal {d : Char} (h : Escape.isOctal d = true) :
    value ('0' :: d :: ds) = digits 8 (d :: ds) := by
  unfold value
  split
  · next heq => cases heq; exact absurd h (by decide)
  · next heq => cases heq; exact absurd h (by decide)
  · next heq => cases heq; rfl
  · next hn => exact (hn d ds rfl).elim

theorem value_ne_malformed (ht : Numeral.Text .integer t) : value t ≠ .error .malformed := by
  cases ht with
  | hexadecimal hx hne hds =>
    have h16 := digits_ne_malformed hne fun d hd => isSome_digitValue?_of_isHex (hds d hd)
    rcases hx with rfl | rfl <;> exact h16
  | integer hm =>
    cases hm with
    | decimal hds =>
      rw [value_whole hds]
      exact digits_ne_malformed hds.1 fun d hd => isSome_digitValue?_of_isDigit (hds.2.1 d hd)
    | @octal ds hne hds =>
      have h8 := digits_ne_malformed hne fun d hd => isSome_digitValue?_of_isOctal (hds d hd)
      obtain ⟨d, ds, rfl⟩ := exists_cons_of_ne_nil hne
      rw [value_octal (hds d (by simp))]
      exact h8

private theorem digitsFrom_lt {m : Nat} (hn : n < limit) (h : digitsFrom base n ds = .ok m) :
    m < limit := by
  induction ds generalizing n with
  | nil =>
    cases h
    exact hn
  | cons d ds ih =>
    simp only [digitsFrom] at h
    split at h
    · cases h
    · split at h
      · next hlt => exact ih hlt h
      · cases h

theorem digits_lt (h : digits base ds = .ok n) : n < limit := by
  unfold digits at h
  split at h
  · cases h
  · exact digitsFrom_lt (by decide) h

theorem value_lt (h : value t = .ok n) : n < limit := by
  unfold value at h
  split at h <;> exact digits_lt h

/-! ## Decimal numbers -/

theorem digitValue?_digitChar (h : n < 10) : digitValue? 10 n.digitChar = some n := by
  have hdigit : isDigit n.digitChar = true := by
    rw [isDigit_iff, Nat.toNat_digitChar_of_lt_ten h]
    omega
  simp [digitValue?, hexValue?_of_isDigit hdigit, Nat.toNat_digitChar_sub_48_of_lt_ten h, h]

theorem digitsFrom_toDigits (h : n < limit) : digitsFrom 10 0 (Nat.toDigits 10 n) = .ok n := by
  induction n using Nat.strongRecOn with
  | ind n ih =>
    by_cases hn : n < 10
    · simp [Nat.toDigits_of_lt_base hn, digitsFrom, digitValue?_digitChar hn, h]
    · have hdiv : n / 10 * 10 + n % 10 = n := by omega
      rw [Nat.toDigits_of_base_le (by decide) (by omega), digitsFrom_append,
        ih (n / 10) (by omega) (by omega)]
      simp [Except.bind, digitsFrom, digitValue?_digitChar (Nat.mod_lt n (by decide)), hdiv, h]

theorem isDigit_of_mem_toDigits {d : Char} (h : d ∈ Nat.toDigits 10 n) : isDigit d = true := by
  have hd := Nat.isDigit_of_mem_toDigits (by decide) (by decide) h
  rw [Char.isDigit_iff_toNat] at hd
  exact (isDigit_iff d).mpr hd

theorem head?_toDigits (h : (Nat.toDigits 10 n).head? = some '0') : n = 0 := by
  induction n using Nat.strongRecOn with
  | ind n ih =>
    by_cases hn : n < 10
    · simpa [Nat.toDigits_of_lt_base hn] using h
    · have hne : Nat.toDigits 10 (n / 10) ≠ [] := Nat.toDigits_ne_nil
      obtain ⟨d, ds, hds⟩ := exists_cons_of_ne_nil hne
      rw [Nat.toDigits_of_base_le (by decide) (by omega), hds] at h
      have hzero := ih (n / 10) (by omega) (by rw [hds]; exact h)
      omega

theorem whole_toDigits (n : Nat) : Numeral.Whole (Nat.toDigits 10 n) := by
  refine ⟨Nat.toDigits_ne_nil, fun d hd => isDigit_of_mem_toDigits hd, fun h => ?_⟩
  rw [head?_toDigits h, Nat.toDigits_zero]

theorem value_toDigits (h : n < limit) : value (Nat.toDigits 10 n) = .ok n := by
  rw [value_whole (whole_toDigits n), digits, if_neg (by simp), digitsFrom_toDigits h]

end IntegerLiteral

namespace Scan.Numeral

theorem text_toDigits (n : Nat) : Text .integer (Nat.toDigits 10 n) :=
  .integer (.decimal (IntegerLiteral.whole_toDigits n))

/-! ## Floats without their mark -/

private theorem not_mark_of_isDigit (h : isDigit c = true) : (c = 'f' || c = 'F') = false := by
  rw [isDigit_iff] at h
  simp only [Bool.or_eq_false_iff, decide_eq_false_iff_not, char_eq_iff, Char.reduceToNat]
  omega

theorem Mantissa.not_mark {kind : TokenKind} {m : List Char} (hm : Mantissa kind m) :
    ∀ c ∈ m, (c = 'f' || c = 'F') = false := by
  intro c hc
  cases hm with
  | decimal hds => exact not_mark_of_isDigit (hds.2.1 c hc)
  | octal hne hds =>
    rcases mem_cons.mp hc with rfl | hc
    · decide
    · exact not_mark_of_isDigit (isDigit_of_isOctal (hds c hc))
  | fraction hds hfs =>
    rcases mem_append.mp hc with hc | hc
    · exact not_mark_of_isDigit (hds.2.1 c hc)
    · rcases mem_cons.mp hc with rfl | hc
      · decide
      · exact not_mark_of_isDigit (hfs c hc)
  | point hne hfs =>
    rcases mem_cons.mp hc with rfl | hc
    · decide
    · exact not_mark_of_isDigit (hfs c hc)

theorem Exponent.not_mark {e : List Char} (he : Exponent e) :
    ∀ c ∈ e, (c = 'f' || c = 'F') = false := by
  intro c hc
  cases he with
  | none => cases hc
  | some he hs hne hds =>
    rcases mem_cons.mp hc with rfl | hc
    · rcases he with rfl | rfl <;> decide
    · rcases mem_append.mp hc with hc | hc
      · simp only [mem_cons, not_mem_nil, or_false] at hs
        rcases hs with rfl | rfl | rfl
        · cases hc
        · obtain rfl := mem_singleton.mp hc
          decide
        · obtain rfl := mem_singleton.mp hc
          decide
      · exact not_mark_of_isDigit (hds c hc)

theorem trimFloatMark_append {mark : List Char} (ht : ∀ c ∈ t, (c = 'f' || c = 'F') = false)
    (hmark : mark ∈ [[], ['f'], ['F']]) : trimFloatMark (String.ofList (t ++ mark)) = t := by
  have hkeep : t.reverse.dropWhile (fun c => c = 'f' || c = 'F') = t.reverse := by
    have hstops : Stops (fun c => c = 'f' || c = 'F') t.reverse := fun c hc =>
      ht c (mem_reverse.mp (mem_of_mem_head? hc))
    exact hstops.dropWhile_append (forall_mem_nil _)
  simp only [mem_cons, not_mem_nil, or_false] at hmark
  rcases hmark with rfl | rfl | rfl <;> simp [trimFloatMark, hkeep]

/-- A float without its mark is a float that has none. -/
theorem text_trimFloatMark (ht : Text .float t) :
    Text .float (trimFloatMark (String.ofList t)) ∧
      trimFloatMark (String.ofList (trimFloatMark (String.ofList t))) =
        trimFloatMark (String.ofList t) := by
  cases ht with
  | @float kind m e mark hm he hfloat hmark =>
    have hnot : ∀ c ∈ m ++ e, (c = 'f' || c = 'F') = false := by
      intro c hc
      rcases mem_append.mp hc with hc | hc
      · exact hm.not_mark c hc
      · exact he.not_mark c hc
    rw [trimFloatMark_append hnot hmark]
    have hnone : ([] : List Char) ∈ [[], ['f'], ['F']] := by simp
    refine ⟨?_, ?_⟩
    · simpa using Text.float hm he hfloat hnone
    · simpa using trimFloatMark_append hnot hnone

end Scan.Numeral

end ProtoSchema
