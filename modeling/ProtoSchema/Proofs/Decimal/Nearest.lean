import Mathlib.Tactic.Linarith
import Mathlib.Tactic.Ring
import ProtoSchema.Decimal.Double

/-!
The double nearest to a fraction depends on the value of the fraction only, and a fraction that is
nearer to a double than one part in `2 ^ 54` of it is read as that double.
-/

namespace ProtoSchema.Double

/-! ## Rounding a quotient -/

variable {n d k num den num' den' magnitude : Nat}

/-- A fraction less than one half away from an integer is rounded to it. -/
theorem roundDiv_eq (hup : 2 * n < 2 * (k * d) + d) (hlo : 2 * (k * d) < 2 * n + d) :
    roundDiv n d = k := by
  have hd : 0 < d := by omega
  have hmod := Nat.div_add_mod n d
  rcases Nat.lt_or_ge n (k * d) with hlt | hge
  · obtain ⟨j, rfl⟩ : ∃ j, k = j + 1 := by
      cases k with
      | zero => simp at hlt
      | succ j => exact ⟨j, rfl⟩
    have hk : (j + 1) * d = j * d + d := by ring
    have hq : n / d = j := Nat.div_eq_of_lt_le (by omega) (by omega)
    rw [hq, Nat.mul_comm] at hmod
    simp only [roundDiv, hq]
    rw [if_pos (by omega)]
  · have hk : (k + 1) * d = k * d + d := by ring
    have hq : n / d = k := Nat.div_eq_of_lt_le hge (by omega)
    rw [hq, Nat.mul_comm] at hmod
    simp only [roundDiv, hq]
    rw [if_neg (by omega)]

private theorem roundDiv_mul_right (hk : 0 < k) : roundDiv (n * k) (d * k) = roundDiv n d := by
  have hq : n * k / (d * k) = n / d := Nat.mul_div_mul_right _ _ hk
  have hr : n * k % (d * k) = n % d * k := Nat.mul_mod_mul_right _ _ _
  have hlt : d * k < 2 * (n % d * k) ↔ d < 2 * (n % d) := by
    rw [← Nat.mul_assoc]
    exact Nat.mul_lt_mul_right hk
  have heq : d * k = 2 * (n % d * k) ↔ d = 2 * (n % d) := by
    rw [← Nat.mul_assoc]
    exact Nat.mul_left_inj (by omega)
  simp only [roundDiv, hq, hr, hlt, heq]

/-! ## Scales -/

/-- At the scale `s` the fraction has a 53-bit integer part, or fewer bits at the least scale. -/
def Scales (num den s : Nat) : Prop :=
  num < 2 ^ 53 * (den * 2 ^ s) ∧ (s = 0 ∨ 2 ^ 52 * (den * 2 ^ s) ≤ num)

theorem scales_scaleOf (num den : Nat) (hnum : 0 < num) (hden : 0 < den) :
    Scales num den (scaleOf num den) := by
  have hnum₁ := Nat.log2_self_le (n := num) (by omega)
  have hnum₂ := Nat.lt_log2_self (n := num)
  have hden₁ := Nat.log2_self_le (n := den) (by omega)
  have hden₂ := Nat.lt_log2_self (n := den)
  generalize ha : num.log2 = a at hnum₁ hnum₂
  generalize hb : den.log2 = b at hden₁ hden₂
  simp only [scaleOf, ha, hb, Nat.pow_eq]
  generalize hs : a - b - 53 = s
  have hpos : 0 < den * 2 ^ s := by positivity
  split
  · next hlt =>
    rw [Nat.div_lt_iff_lt_mul hpos] at hlt
    refine ⟨hlt, ?_⟩
    rcases Nat.eq_zero_or_pos s with hzero | hs0
    · exact .inl hzero
    · refine .inr ?_
      calc 2 ^ 52 * (den * 2 ^ s) ≤ 2 ^ 52 * (2 ^ (b + 1) * 2 ^ s) := by gcongr
        _ = 2 ^ (52 + (b + 1) + s) := by ring
        _ = 2 ^ a := by congr 1; omega
        _ ≤ num := hnum₁
  · next hge =>
    rw [Nat.div_lt_iff_lt_mul hpos, Nat.not_lt] at hge
    refine ⟨?_, .inr ?_⟩
    · calc num < 2 ^ (a + 1) := hnum₂
        _ ≤ 2 ^ (53 + b + (s + 1)) := Nat.pow_le_pow_right (by decide) (by omega)
        _ = 2 ^ 53 * (2 ^ b * 2 ^ (s + 1)) := by ring
        _ ≤ 2 ^ 53 * (den * 2 ^ (s + 1)) := by gcongr
    · calc 2 ^ 52 * (den * 2 ^ (s + 1)) = 2 ^ 53 * (den * 2 ^ s) := by ring
        _ ≤ num := hge

theorem Scales.le {s s' : Nat} (h : Scales num den s) (h' : Scales num' den' s') (hden' : 0 < den')
    (heq : num * den' = num' * den) : s' ≤ s := by
  by_contra hlt
  have hpow : 2 * 2 ^ s ≤ 2 ^ s' := by
    rw [← Nat.pow_succ']
    exact Nat.pow_le_pow_right (by decide) (by omega)
  have hup : num * den' < 2 ^ 53 * (den * 2 ^ s) * den' := Nat.mul_lt_mul_of_pos_right h.1 hden'
  have hlo : 2 ^ 52 * (den' * 2 ^ s') ≤ num' := h'.2.resolve_left (by omega)
  have hle : 2 ^ 53 * (den * 2 ^ s) * den' ≤ num' * den := by
    calc 2 ^ 53 * (den * 2 ^ s) * den' = 2 ^ 52 * (den' * (2 * 2 ^ s)) * den := by ring
      _ ≤ 2 ^ 52 * (den' * 2 ^ s') * den := by gcongr
      _ ≤ num' * den := by gcongr
  omega

/-- The magnitude nearest to a fraction of the least positive double. -/
def roundUnits (n den : Nat) : Nat :=
  scaleOf n den * 2 ^ 52 + roundDiv n (den * 2 ^ scaleOf n den)

theorem roundUnits_congr {n' : Nat} (hn : 0 < n) (hden : 0 < den) (hden' : 0 < den')
    (heq : n * den' = n' * den) : roundUnits n den = roundUnits n' den' := by
  have hn' : 0 < n' := by
    rcases Nat.eq_zero_or_pos n' with rfl | h
    · have := Nat.mul_pos hn hden'
      omega
    · exact h
  have h := scales_scaleOf n den hn hden
  have h' := scales_scaleOf n' den' hn' hden'
  have hscale : scaleOf n den = scaleOf n' den' :=
    Nat.le_antisymm (h'.le h hden heq.symm) (h.le h' hden' heq)
  rw [roundUnits, roundUnits, hscale]
  generalize scaleOf n' den' = s
  rw [← roundDiv_mul_right (k := den') hden', ← roundDiv_mul_right (n := n') hden, heq,
    Nat.mul_right_comm den, Nat.mul_right_comm den', Nat.mul_comm den den']

theorem nearest_eq_roundUnits (num den : Nat) :
    nearest num den = roundUnits (num * 2 ^ 1074) den := by
  simp only [nearest, roundUnits, Nat.pow_eq]

/-- The nearest magnitude depends on the value of a fraction only. -/
theorem nearest_congr (hnum : 0 < num) (hden : 0 < den) (hden' : 0 < den')
    (heq : num * den' = num' * den) : nearest num den = nearest num' den' := by
  rw [nearest_eq_roundUnits, nearest_eq_roundUnits]
  have hpos := Nat.two_pow_pos 1074
  generalize 2 ^ 1074 = units at hpos
  refine roundUnits_congr (Nat.mul_pos hnum hpos) hden hden' ?_
  rw [Nat.mul_right_comm, heq, Nat.mul_right_comm]

/-! ## Near a double -/

/-- The factor and the scale of a magnitude: at the scale of the magnitude the factor has 53 bits,
or fewer at the least scale. -/
structure Decomposes (magnitude sig sc : Nat) : Prop where
  magnitude_eq : magnitude = sc * 2 ^ 52 + sig
  pos : 0 < sig
  lt : sig < 2 ^ 53
  normal : sc = 0 ∨ 2 ^ 52 ≤ sig

theorem decomposes (h : 0 < magnitude) :
    Decomposes magnitude (significand magnitude) (scale magnitude) := by
  simp only [significand, scale, Nat.pow_eq]
  split
  · exact ⟨by omega, by omega, by omega, by omega⟩
  · exact ⟨by omega, by omega, by omega, by omega⟩

/-- A fraction of the least positive double that differs from a magnitude by less than one part
in `2 ^ 54` of the magnitude is rounded to the magnitude. -/
theorem roundUnits_eq {sig sc : Nat} (hm : Decomposes magnitude sig sc) (hn : 0 < n)
    (hden : 0 < den) (hup : n * 2 ^ 54 < sig * 2 ^ sc * den * (2 ^ 54 + 1))
    (hlo : sig * 2 ^ sc * den * (2 ^ 54 - 1) < n * 2 ^ 54) : roundUnits n den = magnitude := by
  obtain ⟨hmag, hpos, hlt, hnormal⟩ := hm
  obtain ⟨hless, hleast⟩ := scales_scaleOf n den hn hden
  rw [roundUnits]
  generalize scaleOf n den = s at hless hleast
  have hunit : 0 < den * 2 ^ sc := by positivity
  have hdouble (i : Nat) : den * 2 ^ (i + 1) = 2 * (den * 2 ^ i) := by ring
  have hpow {i j : Nat} (h : i < j) : 2 * (den * 2 ^ i) ≤ den * 2 ^ j := by
    rw [← hdouble]
    exact Nat.mul_le_mul_left _ (Nat.pow_le_pow_right (by decide) h)
  have hfactor : sig * 2 ^ sc * den = sig * (den * 2 ^ sc) := by ring
  rw [hfactor] at hup hlo
  rcases Nat.lt_trichotomy s sc with hlower | rfl | hhigher
  · have hsig : 2 ^ 52 * (den * 2 ^ sc) ≤ sig * (den * 2 ^ sc) := by
      gcongr
      exact hnormal.resolve_left (by omega)
    -- the fraction is too small for the magnitude unless this is the least one of its scale
    obtain rfl : sc = s + 1 := by
      by_contra hne
      have hunits := hpow hlower
      have hmore := hpow (show s + 1 < sc by omega)
      rw [hdouble] at hmore
      omega
    rw [hdouble] at hup hlo hsig
    obtain rfl : sig = 2 ^ 52 := by
      by_contra hne
      have hmore : (2 ^ 52 + 1) * (2 * (den * 2 ^ s)) ≤ sig * (2 * (den * 2 ^ s)) := by
        gcongr
        omega
      omega
    have hround : roundDiv n (den * 2 ^ s) = 2 ^ 53 := roundDiv_eq (by omega) (by omega)
    rw [hround, hmag]
    ring
  · have hsig : sig * (den * 2 ^ s) < 2 ^ 53 * (den * 2 ^ s) :=
      Nat.mul_lt_mul_of_pos_right hlt hunit
    rw [roundDiv_eq (k := sig) (by omega) (by omega), hmag]
  · -- the fraction would be at least `2 ^ 53` at the scale of the magnitude
    exfalso
    have hge : 2 ^ 52 * (den * 2 ^ s) ≤ n := hleast.resolve_left (by omega)
    have hunits := hpow hhigher
    have hsig : sig * (den * 2 ^ sc) ≤ (2 ^ 53 - 1) * (den * 2 ^ sc) := by
      gcongr
      omega
    omega

/-! ## Decimals -/

private theorem digitCount_le_iff (hk : 0 < k) : digitCount n ≤ k ↔ n < 10 ^ k :=
  Nat.length_toDigits_le_iff (by decide) hk

theorem digitCount_pos (n : Nat) : 0 < digitCount n :=
  Nat.length_toDigits_pos

theorem lt_pow_digitCount (n : Nat) : n < 10 ^ digitCount n :=
  (digitCount_le_iff (digitCount_pos n)).mp (Nat.le_refl _)

theorem pow_digitCount_le (hn : 0 < n) : 10 ^ (digitCount n - 1) ≤ n := by
  rcases Nat.eq_zero_or_pos (digitCount n - 1) with h | h
  · rw [h]
    exact hn
  · by_contra hlt
    have := (digitCount_le_iff h).mpr (Nat.not_le.mp hlt)
    omega

private theorem digitCount_mul_pow (hn : 0 < n) (k : Nat) :
    digitCount (n * 10 ^ k) = digitCount n + k := by
  have hpos := digitCount_pos n
  refine Nat.le_antisymm ?_ ?_
  · rw [digitCount_le_iff (by omega), Nat.pow_add]
    exact Nat.mul_lt_mul_of_pos_right (lt_pow_digitCount n) (by positivity)
  · by_contra hlt
    rw [Nat.not_le, Nat.lt_iff_le_pred (by omega)] at hlt
    have hpow := pow_digitCount_le hn
    rcases Nat.eq_zero_or_pos (digitCount n + k - 1) with hzero | hpos'
    · have := digitCount_pos (n * 10 ^ k)
      omega
    · have hup := (digitCount_le_iff hpos').mp hlt
      have hlo : 10 ^ (digitCount n - 1) * 10 ^ k ≤ n * 10 ^ k := Nat.mul_le_mul_right _ hpow
      rw [← Nat.pow_add] at hlo
      have hexp : digitCount n - 1 + k = digitCount n + k - 1 := by omega
      rw [hexp] at hlo
      omega

/-- Zeros may be moved from the digits of a decimal into its exponent. -/
theorem ofDecimal_mul_pow (negative : Bool) (n k : Nat) (exponent : Int) :
    ofDecimal negative (n * 10 ^ k) exponent = ofDecimal negative n (exponent + k) := by
  rcases Nat.eq_zero_or_pos n with rfl | hn
  · simp [ofDecimal]
  · have hne : n * 10 ^ k ≠ 0 := by positivity
    have hsize : (digitCount (n * 10 ^ k) : Int) + exponent = digitCount n + (exponent + k) := by
      rw [digitCount_mul_pow hn]
      omega
    have hexp : k + exponent.toNat + (-(exponent + k)).toNat =
        (exponent + k).toNat + (-exponent).toNat := by
      omega
    have hnearest : nearest (n * 10 ^ k * 10 ^ exponent.toNat) (10 ^ (-exponent).toNat) =
        nearest (n * 10 ^ (exponent + k).toNat) (10 ^ (-(exponent + k)).toNat) := by
      refine nearest_congr (by positivity) (by positivity) (by positivity) ?_
      rw [Nat.mul_assoc, Nat.mul_assoc, Nat.mul_assoc, ← Nat.pow_add, ← Nat.pow_add, ← Nat.pow_add,
        ← hexp, Nat.add_assoc]
    simp only [ofDecimal, if_neg hne, if_neg (Nat.pos_iff_ne_zero.mp hn), hsize, ofRatio,
      Nat.pow_eq, hnearest]

end ProtoSchema.Double
