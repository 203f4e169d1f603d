import ProtoSchema.Decimal.Shortest
import ProtoSchema.Proofs.Decimal.Nearest

/-!
The shortest decimal of a double reads back as that double: seventeen digits always do, and fewer
are taken only when they do.
-/

namespace ProtoSchema

namespace Double

private theorem ratio_lt {magnitude : Nat} (h : magnitude < 2047 * 2 ^ 52) :
    (ratio magnitude).1 < 2 ^ 2098 := by
  have hsig : significand magnitude < 2 ^ 53 := by
    simp only [significand, Nat.pow_eq]
    split <;> omega
  have hscale : scale magnitude ≤ 2045 := by
    simp only [scale, Nat.pow_eq]
    omega
  calc significand magnitude * 2 ^ scale magnitude < 2 ^ 53 * 2 ^ scale magnitude :=
        Nat.mul_lt_mul_of_pos_right hsig (Nat.two_pow_pos _)
    _ ≤ 2 ^ 53 * 2 ^ 2045 := Nat.mul_le_mul_left _ (Nat.pow_le_pow_right (by decide) hscale)
    _ = 2 ^ 2098 := by rw [← Nat.pow_add]

/-- A decimal that is at most twice or half a fraction has about as many digits before its point as
the fraction. -/
theorem size_of_near {c t value units p : Nat} {power : Int} (hct : 2 * c < 10 ^ t)
    (hunits : 0 < units) (hvalue : 0 < value) (hle : value ≤ c * units) (hge : units ≤ c * value)
    (hup : p * (units * 10 ^ power.toNat) ≤ 2 * (value * 10 ^ (-power).toNat))
    (hlo : value * 10 ^ (-power).toNat ≤ 2 * (p * (units * 10 ^ power.toNat))) :
    -(t : Int) ≤ (digitCount p : Int) + power ∧ (digitCount p : Int) + power ≤ t := by
  have hp : 0 < p := by
    rcases Nat.eq_zero_or_pos p with rfl | h
    · have : 0 < value * 10 ^ (-power).toNat := by positivity
      omega
    · exact h
  refine ⟨?_, ?_⟩
  · by_contra hsmall
    generalize hm : (-power).toNat = m at hlo
    have hchain : value * 10 ^ m < value * 10 ^ m := by
      calc value * 10 ^ m ≤ 2 * (p * (units * 10 ^ power.toNat)) := hlo
        _ ≤ 2 * (10 ^ digitCount p * (c * value * 10 ^ power.toNat)) := by
          gcongr
          exact (lt_pow_digitCount p).le
        _ = 2 * c * (value * 10 ^ (digitCount p + power.toNat)) := by ring
        _ < 10 ^ t * (value * 10 ^ (digitCount p + power.toNat)) :=
          Nat.mul_lt_mul_of_pos_right hct (by positivity)
        _ = value * 10 ^ (t + (digitCount p + power.toNat)) := by ring
        _ ≤ value * 10 ^ m :=
          Nat.mul_le_mul_left _ (Nat.pow_le_pow_right (by decide) (by omega))
    exact Nat.lt_irrefl _ hchain
  · by_contra hlarge
    generalize hm : (-power).toNat = m at hup
    have hchain : units * 10 ^ (t + m) < units * 10 ^ (t + m) := by
      calc units * 10 ^ (t + m) ≤ units * 10 ^ (digitCount p - 1 + power.toNat) :=
            Nat.mul_le_mul_left _ (Nat.pow_le_pow_right (by decide) (by omega))
        _ = 10 ^ (digitCount p - 1) * (units * 10 ^ power.toNat) := by ring
        _ ≤ p * (units * 10 ^ power.toNat) := Nat.mul_le_mul_right _ (pow_digitCount_le hp)
        _ ≤ 2 * (value * 10 ^ m) := hup
        _ ≤ 2 * (c * units * 10 ^ m) := by gcongr
        _ = 2 * c * (units * 10 ^ m) := by ring
        _ < 10 ^ t * (units * 10 ^ m) := Nat.mul_lt_mul_of_pos_right hct (by positivity)
        _ = units * 10 ^ (t + m) := by ring
    exact Nat.lt_irrefl _ hchain

private theorem two_mul_two_pow_lt : 2 * 2 ^ 1074 < 10 ^ 400 := by
  have h : (2 ^ 13) ^ 100 ≤ (10 ^ 4) ^ 100 := Nat.pow_le_pow_left (by decide) 100
  rw [← Nat.pow_mul, ← Nat.pow_mul] at h
  refine Nat.lt_of_lt_of_le ?_ h
  rw [← Nat.pow_succ']
  exact Nat.pow_lt_pow_right (by decide) (by decide)

/-- A decimal that differs from a double by at most one part in twice `10 ^ 16` of it is read as
the double. -/
theorem ofDecimal_near {magnitude : Fin (2047 * 2 ^ 52)} (hm : 0 < magnitude.val) {p : Nat}
    {power : Int} {n d : Nat} (hn : n = (ratio magnitude).1 * 10 ^ (-power).toNat)
    (hd : d = (ratio magnitude).2 * 10 ^ power.toNat)
    (hup : 2 * 10 ^ 16 * (p * d) ≤ (2 * 10 ^ 16 + 1) * n)
    (hlo : (2 * 10 ^ 16 - 1) * n ≤ 2 * 10 ^ 16 * (p * d)) :
    ofDecimal false p power = .finite false magnitude := by
  have hdec := decomposes hm
  have hvalue : 0 < (ratio magnitude).1 := Nat.mul_pos hdec.pos (Nat.two_pow_pos _)
  have hnpos : 0 < n := hn ▸ Nat.mul_pos hvalue (Nat.pow_pos (by decide))
  have hp : p ≠ 0 := by
    rintro rfl
    omega
  have hsize : -400 ≤ (digitCount p : Int) + power ∧ (digitCount p : Int) + power ≤ 400 := by
    refine size_of_near two_mul_two_pow_lt (Nat.two_pow_pos 1074) hvalue ?_ ?_ ?_ ?_
    · refine (ratio_lt magnitude.isLt).le.trans ?_
      rw [← Nat.pow_add]
      exact Nat.pow_le_pow_right (by decide) (by decide)
    · exact Nat.le_mul_of_pos_right _ hvalue
    · change p * ((ratio magnitude).2 * 10 ^ power.toNat) ≤ _
      rw [← hd, ← hn]
      omega
    · change _ ≤ 2 * (p * ((ratio magnitude).2 * 10 ^ power.toNat))
      rw [← hd, ← hn]
      omega
  have hnearest : nearest (p * 10 ^ power.toNat) (10 ^ (-power).toNat) = magnitude.val := by
    have hpd : p * 10 ^ power.toNat * 2 ^ 1074 = p * d := by
      rw [hd, Nat.mul_comm (ratio _).2, Nat.mul_assoc]
      rfl
    rw [nearest_eq_roundUnits, hpd]
    refine roundUnits_eq hdec ?_ (by positivity) ?_ ?_
    · omega
    · change _ < (ratio magnitude).1 * 10 ^ (-power).toNat * _
      rw [← hn]
      omega
    · change (ratio magnitude).1 * 10 ^ (-power).toNat * _ < _
      rw [← hn]
      omega
  simp only [ofDecimal, if_neg hp, ofRatio, Nat.pow_eq, hnearest, ofMagnitude]
  rw [if_neg (by omega), if_neg (by omega), dif_pos magnitude.isLt]

end Double

namespace Shortest

open Double

/-! ## Seventeen digits -/

private theorem exponentOf_le {num : Nat} (den : Nat) (hnum : 0 < num) :
    den * 10 ^ (exponentOf num den).toNat ≤ num * 10 ^ (-exponentOf num den).toNat := by
  simp only [exponentOf, Nat.pow_eq]
  split
  · next h => exact h
  · have hnum₁ := pow_digitCount_le hnum
    have hden₁ := (lt_pow_digitCount den).le
    have hpos := digitCount_pos num
    generalize digitCount num = a at *
    generalize digitCount den = b at *
    generalize hP : ((a : Int) - b - 1).toNat = P
    generalize hM : (-((a : Int) - b - 1)).toNat = M
    calc den * 10 ^ P ≤ 10 ^ b * 10 ^ P := Nat.mul_le_mul_right _ hden₁
      _ = 10 ^ (a - 1) * 10 ^ M := by
        rw [← Nat.pow_add, ← Nat.pow_add]
        congr 1
        omega
      _ ≤ num * 10 ^ M := Nat.mul_le_mul_right _ hnum₁

variable {magnitude : Fin (2047 * 2 ^ 52)} {power : Int} {n den lower left : Nat} {tie : Tie}
  {lowerFits upperFits : Bool}

/-- With seventeen digits a grid is fine enough for a point of it to be read as the double. -/
theorem fits_seventeen (hm : 0 < magnitude.val) {d : Nat}
    (hpower : power = exponentOf (ratio magnitude).1 (ratio magnitude).2 - 16)
    (hn : n = (ratio magnitude).1 * 10 ^ (-power).toNat)
    (hd : d = (ratio magnitude).2 * 10 ^ power.toNat) :
    ofDecimal false (n / d) power = .finite false magnitude ∨
      ofDecimal false (n / d + 1) power = .finite false magnitude := by
  have hvalue : 0 < (ratio magnitude).1 := Nat.mul_pos (decomposes hm).pos (Nat.two_pow_pos _)
  have hfine : d * 10 ^ 16 ≤ n := by
    have hle := exponentOf_le (ratio magnitude).2 hvalue
    generalize exponentOf (ratio magnitude).1 (ratio magnitude).2 = e at hle hpower
    have hexp : power.toNat + 16 + (-e).toNat = e.toNat + (-power).toNat := by omega
    refine Nat.le_of_mul_le_mul_right ?_ (Nat.pow_pos (n := (-e).toNat) (show 0 < 10 by decide))
    calc d * 10 ^ 16 * 10 ^ (-e).toNat
        = (ratio magnitude).2 * 10 ^ (power.toNat + 16 + (-e).toNat) := by rw [hd]; ring
      _ = (ratio magnitude).2 * 10 ^ e.toNat * 10 ^ (-power).toNat := by rw [hexp]; ring
      _ ≤ (ratio magnitude).1 * 10 ^ (-e).toNat * 10 ^ (-power).toNat :=
        Nat.mul_le_mul_right _ hle
      _ = n * 10 ^ (-e).toNat := by rw [hn]; ring
  have hdpos : 0 < d := by
    rw [hd]
    exact Nat.mul_pos (Nat.two_pow_pos 1074) (Nat.pow_pos (by decide))
  have hmod := Nat.div_add_mod n d
  have hlt := Nat.mod_lt n hdpos
  have hsucc : (n / d + 1) * d = d * (n / d) + d := by ring
  rcases Nat.le_total (2 * (n % d)) d with hlower | hupper
  · refine .inl (ofDecimal_near hm hn hd ?_ ?_)
    · rw [Nat.mul_comm (n / d)]
      omega
    · rw [Nat.mul_comm (n / d)]
      omega
  · refine .inr (ofDecimal_near hm hn hd ?_ ?_)
    · omega
    · omega

private theorem choose_eq_some (h : choose tie lower left den lowerFits upperFits = some n) :
    n = lower ∧ lowerFits = true ∨ n = lower + 1 ∧ upperFits = true := by
  unfold choose at h
  cases lowerFits <;> cases upperFits
  · cases h
  · cases h; simp
  · cases h; simp
  · simp only [and_true]
    dsimp only at h
    split at h
    · cases h; simp
    · split at h
      · cases h; simp
      · cases tie
        · cases h; simp
        · simp only [Option.some.injEq] at h
          split at h <;> omega

private theorem isSome_choose (h : lowerFits = true ∨ upperFits = true) :
    (choose tie lower left den lowerFits upperFits).isSome = true := by
  unfold choose
  cases lowerFits <;> cases upperFits
  · simp at h
  · rfl
  · rfl
  · dsimp only
    split
    · rfl
    · split
      · rfl
      · cases tie <;> rfl

theorem ofDecimal_of_withDigits {count : Nat}
    (h : withDigits tie magnitude count = some (n, power)) :
    ofDecimal false n power = .finite false magnitude := by
  simp only [withDigits] at h
  obtain ⟨k, hk, heq⟩ := Option.map_eq_some_iff.mp h
  cases heq
  rcases choose_eq_some hk with ⟨rfl, hfits⟩ | ⟨rfl, hfits⟩
  · simpa using hfits
  · simpa using hfits

theorem isSome_withDigits (tie : Tie) (hm : 0 < magnitude.val) :
    (withDigits tie magnitude 17).isSome = true := by
  simp only [withDigits, Option.isSome_map]
  refine isSome_choose ?_
  generalize hpower : exponentOf _ _ - ((17 : Nat) : Int) + 1 = power
  rw [decide_eq_true_iff, decide_eq_true_iff]
  have hsixteen : power = exponentOf (ratio magnitude).1 (ratio magnitude).2 - 16 := by omega
  exact fits_seventeen hm hsixteen rfl rfl

/-- The shortest decimal of a double reads back as the double. -/
theorem exists_ofMagnitude (tie : Tie) (hm : 0 < magnitude.val) :
    ∃ n power, ofMagnitude tie magnitude = scientific n power ∧
      ofDecimal false n power = .finite false magnitude := by
  simp only [ofMagnitude, if_neg (Nat.pos_iff_ne_zero.mp hm)]
  split
  · next n power h =>
    obtain ⟨i, _, hi⟩ := List.exists_of_findSome?_eq_some h
    exact ⟨n, power, rfl, ofDecimal_of_withDigits hi⟩
  · next h =>
    have hnone := List.findSome?_eq_none_iff.mp h 16 (by simp)
    have hsome := isSome_withDigits tie hm
    rw [hnone] at hsome
    cases hsome

end Shortest

end ProtoSchema
