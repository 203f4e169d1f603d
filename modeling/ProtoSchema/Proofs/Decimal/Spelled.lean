import ProtoSchema.Proofs.Decimal.Shortest
import ProtoSchema.Proofs.Token.Integer

/-!
Spelled doubles: the spelling of a finite double is a float literal that reads back as the double.
-/

namespace ProtoSchema

open List

open Scan (isDigit Stops stops_cons stops_nil)

variable {ds rest : List Char} {f : DoubleFormat}

/-! ## Digits as numbers -/

namespace Double

private theorem natOfDigits_append (xs ys : List Char) :
    natOfDigits (xs ++ ys) = natOfDigits xs * 10 ^ ys.length + natOfDigits ys := by
  have hfrom : ∀ (zs : List Char) (n : Nat),
      zs.foldl (fun n d => n * 10 + digitValue d) n = n * 10 ^ zs.length + natOfDigits zs := by
    intro zs
    induction zs with
    | nil => intro n; simp [natOfDigits]
    | cons d zs ih =>
      intro n
      simp only [natOfDigits, foldl_cons, length_cons, ih (n * 10 + digitValue d),
        ih (0 * 10 + digitValue d)]
      ring
  rw [natOfDigits, foldl_append, hfrom ys]
  rfl

private theorem natOfDigits_zeros (k : Nat) : natOfDigits (List.replicate k '0') = 0 := by
  induction k with
  | zero => rfl
  | succ k ih =>
    rw [replicate_succ, ← singleton_append, natOfDigits_append, ih]
    simp [natOfDigits, digitValue]

private theorem natOfDigits_append_zeros (ds : List Char) (k : Nat) :
    natOfDigits (ds ++ List.replicate k '0') = natOfDigits ds * 10 ^ k := by
  rw [natOfDigits_append, natOfDigits_zeros, length_replicate, Nat.add_zero]

private theorem natOfDigits_zeros_append (k : Nat) (ds : List Char) :
    natOfDigits (List.replicate k '0' ++ ds) = natOfDigits ds := by
  rw [natOfDigits_append, natOfDigits_zeros, Nat.zero_mul, Nat.zero_add]

theorem natOfDigits_toDigits (n : Nat) : natOfDigits (Nat.toDigits 10 n) = n := by
  induction n using Nat.strongRecOn with
  | ind n ih =>
    by_cases hn : n < 10
    · simp [Nat.toDigits_of_lt_base hn, natOfDigits, digitValue,
        Nat.toNat_digitChar_sub_48_of_lt_ten hn]
    · have hdigit := Nat.toNat_digitChar_sub_48_of_lt_ten (Nat.mod_lt n (show 10 > 0 by decide))
      rw [Nat.toDigits_of_base_le (by decide) (by omega), natOfDigits_append, ih _ (by omega)]
      simp [natOfDigits, digitValue, hdigit]
      omega

end Double

namespace Shortest

open Double

structure Leading (ds : List Char) : Prop where
  ne_nil : ds ≠ []
  digit : ∀ d ∈ ds, isDigit d = true
  head : ds.head? ≠ some '0'

theorem Leading.append (h : Leading ds) (hrest : ∀ d ∈ rest, isDigit d = true) :
    Leading (ds ++ rest) := by
  obtain ⟨d, tail, rfl⟩ := exists_cons_of_ne_nil h.ne_nil
  refine ⟨by simp, fun c hc => ?_, by simpa using h.head⟩
  rcases mem_append.mp hc with hc | hc
  · exact h.digit c hc
  · exact hrest c hc

theorem Leading.take (h : Leading ds) {k : Nat} (hk : 0 < k) : Leading (ds.take k) := by
  obtain ⟨d, tail, rfl⟩ := exists_cons_of_ne_nil h.ne_nil
  obtain ⟨j, rfl⟩ := Nat.exists_eq_succ_of_ne_zero (Nat.pos_iff_ne_zero.mp hk)
  exact ⟨by simp, fun c hc => h.digit c (mem_of_mem_take hc), by simpa using h.head⟩

theorem Leading.whole (h : Leading ds) : Scan.Numeral.Whole ds :=
  ⟨h.ne_nil, h.digit, fun hzero => absurd hzero h.head⟩

/-- Digits are what is left without the zeros at their end, and those zeros. -/
theorem exists_trimZeros_append (ds : List Char) :
    ∃ k, trimZeros ds ++ List.replicate k '0' = ds := by
  have hzeros : ds.reverse.takeWhile (· = '0') =
      List.replicate (ds.reverse.takeWhile (· = '0')).length '0' := by
    refine eq_replicate_iff.mpr ⟨rfl, fun c hc => ?_⟩
    simpa using all_eq_true.mp all_takeWhile c hc
  refine ⟨(ds.reverse.takeWhile (· = '0')).length, ?_⟩
  have hsplit := takeWhile_append_dropWhile (p := (· = '0')) (l := ds.reverse)
  rw [hzeros] at hsplit
  rw [trimZeros, ← reverse_replicate, ← reverse_append, hsplit, reverse_reverse]

theorem exists_scientific {n : Nat} (hn : 0 < n) (power : Int) :
    Leading (scientific n power).digits ∧ ∃ k : Nat,
      n = natOfDigits (scientific n power).digits * 10 ^ k ∧
      power + k = (scientific n power).exponent + 1 - (scientific n power).digits.length := by
  obtain ⟨k, hk⟩ := exists_trimZeros_append (Nat.toDigits 10 n)
  have hvalue : n = natOfDigits (trimZeros (Nat.toDigits 10 n)) * 10 ^ k := by
    rw [← natOfDigits_append_zeros, hk, natOfDigits_toDigits]
  have hlength := congrArg List.length hk
  rw [length_append, length_replicate] at hlength
  simp only [scientific]
  generalize trimZeros (Nat.toDigits 10 n) = ds at hk hvalue hlength
  have hne : ds ≠ [] := by
    rintro rfl
    simp [natOfDigits] at hvalue
    omega
  refine ⟨⟨hne, fun d hd => ?_, fun hhead => ?_⟩, k, hvalue, by omega⟩
  · exact IntegerLiteral.isDigit_of_mem_toDigits (hk ▸ mem_append_left _ hd)
  · have hzero : (Nat.toDigits 10 n).head? = some '0' := by
      rw [← hk, head?_append, hhead]
      rfl
    have := IntegerLiteral.head?_toDigits hzero
    omega

end Shortest

/-! ## Reading literals -/

namespace Double

def fractionOf : List Char → List Char × List Char
  | '.' :: ds => (ds.takeWhile isDigit, ds.dropWhile isDigit)
  | ds => ([], ds)

theorem ofLiteral?_eq (cs : List Char) :
    ofLiteral? cs =
      (exponent? (fractionOf (cs.dropWhile isDigit)).2).map fun e =>
        ofDecimal false
          (natOfDigits (cs.takeWhile isDigit ++ (fractionOf (cs.dropWhile isDigit)).1))
          (e - (fractionOf (cs.dropWhile isDigit)).1.length) :=
  rfl

theorem ofLiteral?_point {whole fraction : List Char} (hw : ∀ d ∈ whole, isDigit d = true)
    (hf : ∀ d ∈ fraction, isDigit d = true) (hrest : Stops isDigit rest) :
    ofLiteral? (whole ++ '.' :: fraction ++ rest) =
      (exponent? rest).map fun e =>
        ofDecimal false (natOfDigits (whole ++ fraction)) (e - fraction.length) := by
  have hpoint : Stops isDigit ('.' :: (fraction ++ rest)) := stops_cons.mpr (by decide)
  rw [append_assoc, cons_append, ofLiteral?_eq, hpoint.takeWhile_append hw,
    hpoint.dropWhile_append hw, fractionOf, hrest.takeWhile_append hf, hrest.dropWhile_append hf]

theorem ofLiteral?_exponent {whole : List Char} {e : Char} (hw : ∀ d ∈ whole, isDigit d = true)
    (he : e = 'e') :
    ofLiteral? (whole ++ e :: rest) =
      (exponent? (e :: rest)).map fun x => ofDecimal false (natOfDigits whole) x := by
  subst he
  have hstop : Stops isDigit ('e' :: rest) := stops_cons.mpr (by decide)
  rw [ofLiteral?_eq, hstop.takeWhile_append hw, hstop.dropWhile_append hw]
  simp [fractionOf]

private theorem exponent?_plain (hne : ds ≠ []) (hds : ∀ d ∈ ds, isDigit d = true) :
    exponent? ('e' :: ds) = some (natOfDigits ds : Int) := by
  obtain ⟨d, ds, rfl⟩ := exists_cons_of_ne_nil hne
  have hd := hds d (by simp)
  unfold exponent?
  split
  · next heq => cases heq
  · next heq => cases heq; exact absurd hd (by decide)
  · next heq => cases heq; exact absurd hd (by decide)
  · next heq => cases heq; simp

private theorem exponent?_sign {sign : List Char} (hs : sign ∈ [[], ['+']]) (hne : ds ≠ [])
    (hds : ∀ d ∈ ds, isDigit d = true) :
    exponent? ('e' :: (sign ++ ds)) = some (natOfDigits ds : Int) := by
  simp only [mem_cons, not_mem_nil, or_false] at hs
  rcases hs with rfl | rfl
  · exact exponent?_plain hne hds
  · simp [exponent?, hne]

private theorem exponent?_minus (hne : ds ≠ []) :
    exponent? ('e' :: '-' :: ds) = some (-(natOfDigits ds : Int)) := by
  simp [exponent?, hne]

structure Literal (text : List Char) (value : Double) : Prop where
  written : ∃ kind m e, text = m ++ e ∧ Scan.Numeral.Mantissa kind m ∧ Scan.Numeral.Exponent e ∧
    (kind = .float ∨ e ≠ [])
  value_eq : ofLiteral? text = some value

theorem Literal.text {text : List Char} {value : Double} (h : Literal text value) :
    Scan.Numeral.Text .float text := by
  obtain ⟨kind, m, e, rfl, hm, he, hfloat⟩ := h.written
  have hnone : ([] : List Char) ∈ [[], ['f'], ['F']] := by simp
  simpa using Scan.Numeral.Text.float hm he hfloat hnone

theorem Literal.floatValue_eq {text : List Char} {value : Double} (h : Literal text value) :
    floatValue (String.ofList text) = value := by
  obtain ⟨kind, m, e, rfl, hm, he, hfloat⟩ := h.written
  have hmark : ∀ c ∈ m ++ e, (c = 'f' || c = 'F') = false := by
    intro c hc
    rcases mem_append.mp hc with hc | hc
    · exact hm.not_mark c hc
    · exact he.not_mark c hc
  have hnone : ([] : List Char) ∈ [[], ['f'], ['F']] := by simp
  have htrim := Scan.Numeral.trimFloatMark_append hmark hnone
  rw [append_nil] at htrim
  rw [floatValue, htrim, h.value_eq, Option.getD_some]

end Double

namespace DoubleFormat

open Double Shortest Scan

theorem literal_point {whole fraction : List Char} (hw : Numeral.Whole whole)
    (hf : ∀ d ∈ fraction, isDigit d = true) :
    Literal (whole ++ '.' :: fraction)
      (ofDecimal false (natOfDigits (whole ++ fraction)) (-(fraction.length : Int))) := by
  refine ⟨⟨_, _, [], (append_nil _).symm, .fraction hw hf, .none, .inl rfl⟩, ?_⟩
  have hread := ofLiteral?_point hw.2.1 hf (stops_nil _)
  rw [append_nil] at hread
  rw [hread, exponent?, Option.map_some, Int.zero_sub]

private theorem isDigit_of_mem_zeros {k : Nat} {d : Char} (h : d ∈ List.replicate k '0') :
    isDigit d = true := by
  rw [eq_of_mem_replicate h]
  decide

theorem literal_plain (hds : Leading ds) (exponent : Int) :
    Literal (plain ds exponent) (ofDecimal false (natOfDigits ds) (exponent + 1 - ds.length)) := by
  simp only [plain]
  split
  · next hneg =>
    generalize hk : (-exponent).toNat - 1 = k
    have hzero : Numeral.Whole ['0'] := ⟨by simp, all_eq_true.mp rfl, fun _ => rfl⟩
    have hfraction : ∀ d ∈ List.replicate k '0' ++ ds, isDigit d = true := by
      intro d hd
      rcases mem_append.mp hd with hd | hd
      · exact isDigit_of_mem_zeros hd
      · exact hds.digit d hd
    have hvalue : natOfDigits (['0'] ++ (List.replicate k '0' ++ ds)) = natOfDigits ds := by
      rw [← append_assoc, singleton_append, ← replicate_succ, natOfDigits_zeros_append]
    have hexp : -((List.replicate k '0' ++ ds).length : Int) = exponent + 1 - ds.length := by
      rw [length_append, length_replicate]
      omega
    have h := literal_point hzero hfraction
    rwa [hvalue, hexp] at h
  · next hnonneg =>
    split
    · next hle =>
      generalize hk : exponent.toNat + 1 - ds.length = k
      have hwhole : Leading (ds ++ List.replicate k '0') :=
        hds.append fun d hd => isDigit_of_mem_zeros hd
      have hfraction : ∀ d ∈ ['0'], isDigit d = true := all_eq_true.mp rfl
      have hvalue : natOfDigits (ds ++ List.replicate k '0' ++ ['0']) =
          natOfDigits ds * 10 ^ (k + 1) := by
        rw [append_assoc, ← replicate_succ', natOfDigits_append_zeros]
      have hexp : -((['0'] : List Char).length : Int) + (k + 1 : Nat) =
          exponent + 1 - ds.length := by
        rw [length_singleton]
        omega
      have h := literal_point hwhole.whole hfraction
      rwa [hvalue, ofDecimal_mul_pow, hexp] at h
    · next hlt =>
      have hexp : -((ds.drop (exponent.toNat + 1)).length : Int) = exponent + 1 - ds.length := by
        rw [length_drop]
        omega
      have hfraction : ∀ d ∈ ds.drop (exponent.toNat + 1), isDigit d = true :=
        fun d hd => hds.digit d (mem_of_mem_drop hd)
      have h := literal_point (hds.take (Nat.succ_pos exponent.toNat)).whole hfraction
      rwa [take_append_drop, hexp] at h

theorem exponent?_spelled (hf : f.plus ∈ [[], ['+']]) (exponent : Int) :
    Numeral.Exponent
        ('e' :: ((if exponent < 0 then ['-'] else f.plus) ++ Nat.toDigits 10 exponent.natAbs)) ∧
      exponent? ('e' :: ((if exponent < 0 then ['-'] else f.plus) ++
        Nat.toDigits 10 exponent.natAbs)) = some exponent := by
  have hdigits : ∀ d ∈ Nat.toDigits 10 exponent.natAbs, isDigit d = true :=
    fun d hd => IntegerLiteral.isDigit_of_mem_toDigits hd
  split
  · next hneg =>
    refine ⟨.some (.inl rfl) (by simp) Nat.toDigits_ne_nil hdigits, ?_⟩
    rw [singleton_append, exponent?_minus Nat.toDigits_ne_nil, natOfDigits_toDigits]
    congr 1
    omega
  · next hnonneg =>
    refine ⟨.some (.inl rfl) ?_ Nat.toDigits_ne_nil hdigits, ?_⟩
    · simp only [mem_cons, not_mem_nil, or_false] at hf ⊢
      rcases hf with h | h <;> simp [h]
    · rw [exponent?_sign hf Nat.toDigits_ne_nil hdigits, natOfDigits_toDigits,
        Int.natAbs_of_nonneg (by omega)]

theorem literal_withExponent (hf : f.plus ∈ [[], ['+']]) (hds : Leading ds) (exponent : Int) :
    Literal (f.withExponent ds exponent)
      (ofDecimal false (natOfDigits ds) (exponent + 1 - ds.length)) := by
  obtain ⟨hwritten, hvalue⟩ := exponent?_spelled hf exponent
  have hfirst := (hds.take Nat.one_pos).whole
  have hfraction : ∀ d ∈ ds.drop 1, isDigit d = true :=
    fun d hd => hds.digit d (mem_of_mem_drop hd)
  have hlength : 0 < ds.length := length_pos_iff.mpr hds.ne_nil
  have hdrop := ds.length_drop (i := 1)
  simp only [withExponent, append_assoc, cons_append]
  generalize (if exponent < 0 then ['-'] else f.plus) ++ Nat.toDigits 10 exponent.natAbs = x
    at hwritten hvalue
  split
  · next hempty =>
    have hnil := isEmpty_iff.mp hempty
    have hds' : ds.take 1 = ds := by
      have happend := take_append_drop 1 ds
      rwa [hnil, append_nil] at happend
    refine ⟨⟨_, _, _, rfl, .decimal hfirst, hwritten, .inr (by simp)⟩, ?_⟩
    rw [nil_append, ofLiteral?_exponent hfirst.2.1 rfl, hvalue, Option.map_some, hds']
    rw [hnil, length_nil] at hdrop
    congr 2
    omega
  · refine ⟨⟨_, ds.take 1 ++ '.' :: ds.drop 1, _, (append_assoc _ _ _).symm,
      .fraction hfirst hfraction, hwritten, .inr (by simp)⟩, ?_⟩
    have hstop : Stops isDigit ('e' :: x) := stops_cons.mpr (by decide)
    have hread := ofLiteral?_point hfirst.2.1 hfraction hstop
    rw [append_assoc] at hread
    rw [hread, hvalue, Option.map_some, take_append_drop]
    congr 2
    omega

/-- The spelling of a finite double without its sign is a literal of the double. -/
theorem exists_spell (hf : f.plus ∈ [[], ['+']]) (hplain : f.leastPlain ≤ 0)
    (hplain' : 0 ≤ f.mostPlain) (negative : Bool) (magnitude : Fin (2047 * 2 ^ 52)) :
    ∃ body, Literal body (.finite false magnitude) ∧
      f.spell (.finite negative magnitude) = if negative then '-' :: body else body := by
  refine ⟨_, ?_, rfl⟩
  rcases Nat.eq_zero_or_pos magnitude.val with hzero | hpos
  · have hspelled : Shortest.ofMagnitude f.tie magnitude = ⟨['0'], 0⟩ := by
      simp [Shortest.ofMagnitude, hzero]
    have hdigit : ∀ d ∈ ['0'], isDigit d = true := all_eq_true.mp rfl
    have hread : ofDecimal false (natOfDigits (['0'] ++ ['0']))
        (-((['0'] : List Char).length : Int)) = .finite false magnitude := by
      change Double.finite false _ = _
      congr 1
      exact Fin.ext hzero.symm
    rw [hspelled, if_pos ⟨hplain, hplain'⟩, ← hread]
    exact literal_point ⟨by simp, hdigit, fun _ => rfl⟩ hdigit
  · obtain ⟨n, power, hspelled, hread⟩ := exists_ofMagnitude f.tie hpos
    have hn : 0 < n := by
      rcases Nat.eq_zero_or_pos n with rfl | h
      · rw [ofDecimal, if_pos rfl, Double.zero, Double.finite.injEq] at hread
        exact absurd (congrArg Fin.val hread.2).symm (Nat.ne_of_gt hpos)
      · exact h
    obtain ⟨hds, k, hvalue, hexp⟩ := exists_scientific hn power
    rw [hspelled]
    generalize scientific n power = s at hds hvalue hexp
    rw [hvalue, ofDecimal_mul_pow, hexp] at hread
    rw [← hread]
    split
    · exact literal_plain hds s.exponent
    · exact literal_withExponent hf hds s.exponent

end DoubleFormat

end ProtoSchema
