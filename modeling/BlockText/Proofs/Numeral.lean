import BlockText.Proofs.Rounding
import BlockText.Proofs.Texts

/-!
# Numerals

A finite number is written as digits, perhaps with a point and more digits after them. What is
written so is read back as the number.
-/

namespace BlockText

namespace Decimal

open Double

/-! ## A decimal is read as the number it lies at -/

theorem coefficient_pos {d : Decimal} {rank : Nat} (hr : 0 < rank) (h : d.LiesAt rank) :
    0 < d.coefficient := by
  refine Nat.pos_of_ne_zero fun h0 => ?_
  have hn : d.numerator = 0 := by rw [numerator, h0, Nat.zero_mul]
  obtain ⟨hlow, -, -, -⟩ := Contains.bounds hr h
  rw [hn, Nat.zero_mul] at hlow
  have hm := significand_pos hr
  have he : 0 < d.denominator * Nat.pow 2 (scale rank) :=
    Nat.mul_pos d.denominator_pos (Nat.pow_pos Nat.two_pos)
  have := Nat.mul_le_mul_right (d.denominator * Nat.pow 2 (scale rank)) (Nat.succ_le_of_lt hm)
  omega

/-- A decimal that lies at a rank is below `2^1024`. -/
theorem numerator_le {d : Decimal} {rank : Nat} (hr : 0 < rank) (hlt : rank < ranks)
    (h : d.LiesAt rank) : d.numerator ≤ Nat.pow 2 1024 * d.denominator := by
  obtain ⟨-, hhigh, -, -⟩ := Contains.bounds hr h
  have hm := significand_lt rank
  have hs := scale_lt hlt
  have hscale (k : Nat) (hk : scale rank ≤ k) : Nat.pow 2 (scale rank) ≤ Nat.pow 2 k :=
    pow_mono (by decide) hk
  have he := Nat.mul_le_mul_left d.denominator (hscale 2045 (by omega))
  have hme := Nat.mul_le_mul (Nat.succ_le_of_lt hm) he
  rw [Nat.succ_mul] at hme
  have hbound : d.numerator * one ≤ 2 * binade * (d.denominator * Nat.pow 2 2045) := by omega
  refine Nat.le_of_mul_le_mul_right (Nat.le_trans hbound (Nat.le_of_eq ?_))
    (show 0 < one by decide +kernel)
  have hpow : 2 * binade * Nat.pow 2 2045 = Nat.pow 2 1024 * one := by decide +kernel
  calc
    _ = 2 * binade * Nat.pow 2 2045 * d.denominator := by
      rw [Nat.mul_comm d.denominator, ← Nat.mul_assoc]
    _ = _ := by rw [hpow, Nat.mul_right_comm]

/-- A decimal that lies at a positive rank is at least `2^-1076`. -/
theorem denominator_le {d : Decimal} {rank : Nat} (hr : 0 < rank) (h : d.LiesAt rank) :
    d.denominator ≤ 2 * (d.numerator * one) := by
  obtain ⟨hlow, -, -, -⟩ := Contains.bounds hr h
  have hm := significand_pos hr
  have hle : d.denominator ≤ d.denominator * Nat.pow 2 (scale rank) :=
    Nat.le_mul_of_pos_right _ (Nat.pow_pos Nat.two_pos)
  have := Nat.mul_le_mul_right (d.denominator * Nat.pow 2 (scale rank)) (Nat.succ_le_of_lt hm)
  omega

theorem length_digits {n : Nat} (hn : 0 < n) :
    Nat.pow 10 ((digits n).length - 1) ≤ n ∧ n < Nat.pow 10 (digits n).length := by
  have hpos : 0 < (digits n).length := Nat.length_toDigits_pos
  refine ⟨Nat.le_of_not_lt fun hlt => ?_, ?_⟩
  · by_cases h1 : (digits n).length - 1 = 0
    · rw [h1] at hlt
      exact absurd hlt (Nat.not_lt.mpr hn)
    · have := (Nat.length_toDigits_le_iff (b := 10) (by decide)
        (Nat.pos_of_ne_zero h1)).mpr hlt
      have : (digits n).length ≤ (digits n).length - 1 := this
      omega
  · exact (Nat.length_toDigits_le_iff (b := 10) (by decide) hpos).mp (Nat.le_refl _)

/-- A decimal that lies at a rank is read as the number with that rank. -/
theorem toDouble_eq {d : Decimal} {rank : Nat} (negative : Bool) (hr : 0 < rank)
    (hlt : rank < ranks) (h : d.LiesAt rank) :
    d.toDouble negative = .finite negative ⟨rank, hlt⟩ := by
  have hc := coefficient_pos hr h
  obtain ⟨hdlow, hdhigh⟩ := length_digits hc
  have hnum := numerator_le hr hlt h
  have hden := denominator_le hr h
  have hlen : 0 < (digits d.coefficient).length := Nat.length_toDigits_pos
  -- the cuts for exponents out of range are not taken: such a quotient lies beyond every rank
  have htop : ¬ 310 < d.exponent + (digits d.coefficient).length := by
    intro htop
    have hexp (k : Nat) (hk : k + (-d.exponent).toNat ≤
        (digits d.coefficient).length - 1 + d.exponent.toNat) :
        Nat.pow 10 k * d.denominator ≤ d.numerator := by
      rw [denominator, numerator, ← Double.pow_add]
      refine Nat.le_trans (pow_mono (by decide) hk) ?_
      rw [Double.pow_add]
      exact Nat.mul_le_mul_right _ hdlow
    have hge := hexp 310 (by omega)
    have hsmall : Nat.pow 2 1024 < Nat.pow 10 310 := by decide +kernel
    exact absurd (Nat.le_of_mul_le_mul_right (Nat.le_trans hge hnum) d.denominator_pos)
      (Nat.not_le.mpr hsmall)
  have hbottom : ¬ d.exponent + (digits d.coefficient).length < -330 := by
    intro hbottom
    have hz : d.exponent.toNat = 0 := by omega
    have hn : d.numerator = d.coefficient := by rw [numerator, hz]; exact Nat.mul_one _
    have hge : Nat.pow 10 330 * d.coefficient < d.denominator := by
      refine Nat.lt_of_lt_of_le (Nat.mul_lt_mul_of_pos_left hdhigh (Nat.pow_pos (by decide))) ?_
      rw [← Double.pow_add]
      exact pow_mono (by decide) (by omega)
    have hsmall : 2 * one < Nat.pow 10 330 := by decide +kernel
    rw [hn, Nat.mul_comm d.coefficient, ← Nat.mul_assoc] at hden
    exact absurd (Nat.lt_of_mul_lt_mul_right (Nat.lt_of_lt_of_le hge hden))
      (Nat.lt_asymm hsmall)
  have hratio : ofRatio negative d.numerator d.denominator = .finite negative ⟨rank, hlt⟩ := by
    rw [ofRatio, nearestRank_eq d.denominator_pos hr h, ofRank, dif_pos hlt]
  rw [toDouble, if_neg (Nat.ne_of_gt hc), if_neg htop, if_neg hbottom]
  -- one of the two powers of ten is 1, by the sign of the exponent
  split
  · next he =>
    have hd : d.denominator = 1 := by
      rw [denominator, show (-d.exponent).toNat = 0 by omega]
    rw [← hratio, hd, numerator]
  · next he =>
    have hn : d.numerator = d.coefficient := by
      rw [numerator, show d.exponent.toNat = 0 by omega]
      exact Nat.mul_one _
    rw [← hratio, hn, denominator]

/-! ## Digits -/

/-- Digits before a point and digits after it; the point is written only where there are some. -/
structure IsNumeral (whole fraction : List Char) : Prop where
  whole_ne : whole ≠ []
  whole_digits : ∀ c ∈ whole, c.isDigit = true
  fraction_digits : ∀ c ∈ fraction, c.isDigit = true

/-- A numeral as it is written. -/
def numeral (whole fraction : List Char) : List Char :=
  whole ++ if fraction.isEmpty then [] else '.' :: fraction

/-- The decimal that a numeral stands for. -/
def ofNumeral (whole fraction : List Char) : Decimal :=
  ⟨ofDigits (whole ++ fraction), -fraction.length⟩

theorem ofDigits_append (xs ys : List Char) :
    ofDigits (xs ++ ys) = ys.foldl (fun n c => 10 * n + digitValue c) (ofDigits xs) :=
  List.foldl_append

theorem ofDigits_digits (n : Nat) : ofDigits (digits n) = n :=
  Nat.ofDigitChars_toDigits (b := 10) (by decide) (by decide)

theorem isDigit_digits {n : Nat} {c : Char} (h : c ∈ digits n) : c.isDigit = true :=
  Nat.isDigit_of_mem_toDigits (b := 10) (by decide) (by decide) h

theorem ofDigits_zeros_append (k : Nat) (ds : List Char) :
    ofDigits (List.replicate k '0' ++ ds) = ofDigits ds := by
  induction k with
  | zero => rfl
  | succ k ih => exact ih

theorem ofDigits_append_zeros (ds : List Char) (k : Nat) :
    ofDigits (ds ++ List.replicate k '0') = ofDigits ds * Nat.pow 10 k := by
  induction k with
  | zero => simp
  | succ k ih =>
    rw [List.replicate_succ', ← List.append_assoc, ofDigits_append, ih]
    show 10 * (ofDigits ds * Nat.pow 10 k) + 0 = ofDigits ds * (Nat.pow 10 k * 10)
    ring

/-- The positional layout of a decimal is a numeral that stands for the decimal. -/
theorem positional_eq {d : Decimal} (hd : 0 < d.coefficient) :
    ∃ whole fraction, d.positional = numeral whole fraction ∧ IsNumeral whole fraction ∧
      ofNumeral whole fraction =
        if 0 ≤ d.exponent then ⟨d.numerator, 0⟩ else d := by
  have hdigit (c : Char) (h : c ∈ digits d.coefficient) : c.isDigit = true := isDigit_digits h
  have hzero (k : Nat) (c : Char) (h : c ∈ List.replicate k '0') : c.isDigit = true := by
    rw [(List.mem_replicate.mp h).2]
    decide
  have hlen : 0 < (digits d.coefficient).length := Nat.length_toDigits_pos
  unfold positional
  simp only
  split
  · next he =>
    -- a whole number
    rw [if_neg (Nat.ne_of_gt hd)]
    refine ⟨_, [], (List.append_nil _).symm, ⟨?_, ?_, by simp⟩, ?_⟩
    · intro h
      rw [List.append_eq_nil_iff] at h
      simp [h.1] at hlen
    · intro c hc
      rcases List.mem_append.mp hc with hc | hc
      · exact hdigit c hc
      · exact hzero _ c hc
    · rw [ofNumeral, List.append_nil, ofDigits_append_zeros, ofDigits_digits]
      rfl
  · next he =>
    split
    · next hp =>
      -- only zeros before the first digit
      refine ⟨['0'], List.replicate (-((digits d.coefficient).length + d.exponent)).toNat '0' ++
        digits d.coefficient, ?_, ⟨by simp, by simp, ?_⟩, ?_⟩
      · have : (List.replicate (-((digits d.coefficient).length + d.exponent)).toNat '0' ++
            digits d.coefficient).isEmpty = false := by
          rw [List.isEmpty_eq_false_iff, ← List.length_pos_iff, List.length_append]
          omega
        rw [numeral, this]
        rfl
      · intro c hc
        rcases List.mem_append.mp hc with hc | hc
        · exact hzero _ c hc
        · exact hdigit c hc
      · have hvalue : ofDigits (['0'] ++ (List.replicate
            (-((digits d.coefficient).length + d.exponent)).toNat '0' ++ digits d.coefficient)) =
              d.coefficient := by
          rw [show ['0'] = List.replicate 1 '0' from rfl, ofDigits_zeros_append,
            ofDigits_zeros_append, ofDigits_digits]
        rw [ofNumeral, hvalue, List.length_append, List.length_replicate]
        refine congrArg (Decimal.mk d.coefficient) ?_
        omega
    · next hp =>
      -- the point stands among the digits
      refine ⟨(digits d.coefficient).take ((digits d.coefficient).length + d.exponent).toNat,
        (digits d.coefficient).drop ((digits d.coefficient).length + d.exponent).toNat,
        ?_, ⟨?_, ?_, ?_⟩, ?_⟩
      · have : ((digits d.coefficient).drop
            ((digits d.coefficient).length + d.exponent).toNat).isEmpty = false := by
          rw [List.isEmpty_eq_false_iff, ← List.length_pos_iff, List.length_drop]
          omega
        rw [numeral, this]
        rfl
      · rw [← List.length_pos_iff, List.length_take]
        omega
      · intro c hc
        exact hdigit c (List.mem_of_mem_take hc)
      · intro c hc
        exact hdigit c (List.mem_of_mem_drop hc)
      · rw [ofNumeral, List.take_append_drop, ofDigits_digits, List.length_drop]
        refine congrArg (Decimal.mk d.coefficient) ?_
        omega

/-- Where a whole number is written out, the decimal lies where it lay. -/
theorem liesAt_ofNumeral {d : Decimal} {rank : Nat} {whole fraction : List Char}
    (h : d.LiesAt rank)
    (he : ofNumeral whole fraction = if 0 ≤ d.exponent then ⟨d.numerator, 0⟩ else d) :
    (ofNumeral whole fraction).LiesAt rank := by
  rw [he]
  split
  · next hd =>
    have hden : d.denominator = 1 := by
      rw [denominator, show (-d.exponent).toNat = 0 by omega]
    have hnum : numerator ⟨d.numerator, 0⟩ = d.numerator := Nat.mul_one _
    have hone : denominator ⟨d.numerator, 0⟩ = 1 := rfl
    rw [LiesAt, hden] at h
    rw [LiesAt, hnum, hone]
    exact h
  · exact h

end Decimal

namespace Double

open Decimal Text

/-! ## Texts of numbers -/

variable {whole fraction : List Char}

theorem stops_numeral_tail (fraction rest : List Char) (h : Stops Char.isDigit rest) :
    Stops Char.isDigit ((if fraction.isEmpty then [] else '.' :: fraction) ++ rest) := by
  split
  · exact h
  · exact stops_cons (by decide)

theorem isDigit_head (h : IsNumeral whole fraction) :
    ∃ c cs, numeral whole fraction = c :: cs ∧ c.isDigit = true := by
  obtain ⟨c, cs, rfl⟩ := List.exists_cons_of_ne_nil h.whole_ne
  exact ⟨c, _, rfl, h.whole_digits c List.mem_cons_self⟩

theorem toLower_of_isDigit {c : Char} (hc : c.isDigit = true) : c.toLower = c := by
  simp only [Char.isDigit, Bool.and_eq_true, decide_eq_true_eq] at hc
  delta Char.toLower
  rw [dif_neg]
  rintro ⟨hle, -⟩
  exact absurd (UInt32.le_trans hle hc.2) (by decide)

/-- A numeral is read as the decimal that it stands for. -/
theorem ofUnsigned?_numeral (negative : Bool) (h : IsNumeral whole fraction) :
    ofUnsigned? negative (numeral whole fraction) =
      some ((ofNumeral whole fraction).toDouble negative) := by
  obtain ⟨c, cs, hcs, hc⟩ := isDigit_head h
  have hword (d : Char) (ds : List Char) (hd : d.isDigit = false) :
      (numeral whole fraction).map Char.toLower ≠ d :: ds := by
    rw [hcs, List.map_cons, toLower_of_isDigit hc]
    intro he
    rw [(List.cons.inj he).1, hd] at hc
    cases hc
  have hspan : spanDigits (numeral whole fraction) =
      (whole, if fraction.isEmpty then [] else '.' :: fraction) := by
    have hstops := stops_numeral_tail fraction [] stops_nil
    rw [List.append_nil] at hstops
    rw [spanDigits, numeral, takeWhile_run h.whole_digits hstops,
      dropWhile_run h.whole_digits hstops]
  have hne : whole.isEmpty = false := by simpa using h.whole_ne
  unfold ofUnsigned?
  simp only [hspan]
  rw [if_neg (by simp [hword]), if_neg (by simp [hword])]
  cases fraction with
  | nil =>
    simp only [List.isEmpty_nil, if_true, hne, Bool.false_and]
    rfl
  | cons d ds =>
    have hfraction : spanDigits (d :: ds) = (d :: ds, []) := by
      have := takeWhile_run h.fraction_digits stops_nil
      have := dropWhile_run h.fraction_digits stops_nil
      simp_all [spanDigits]
    simp only [List.isEmpty_cons, Bool.false_eq_true, if_false, hfraction, Bool.and_false]
    rw [exponentOf?, Option.map_some, Int.zero_sub]
    rfl

/-- A finite number is written as a numeral, with a sign if it is negative. -/
theorem text_finite (negative : Bool) (rank : Fin ranks) :
    ∃ whole fraction, (finite negative rank).text = signed negative (numeral whole fraction) ∧
      IsNumeral whole fraction ∧
      (ofNumeral whole fraction).toDouble negative = finite negative rank := by
  have htext : (finite negative rank).text = signed negative (shortest .up rank).positional := rfl
  rw [htext]
  by_cases h0 : rank.val = 0
  · refine ⟨['0'], [], ?_, ⟨by simp, by simp, by simp⟩, ?_⟩
    · rw [h0]
      rfl
    · have : rank = ⟨0, by decide⟩ := Fin.ext h0
      rw [this]
      rfl
  · have hr := Nat.pos_of_ne_zero h0
    have hlies := shortest_liesAt .up hr
    obtain ⟨whole, fraction, htext, hnum, he⟩ := positional_eq (coefficient_pos hr hlies)
    refine ⟨whole, fraction, by rw [htext], hnum, ?_⟩
    exact toDouble_eq negative hr rank.isLt (liesAt_ofNumeral hlies he)

/-- What is written for a finite number is read back as the number. -/
theorem ofText?_text {x : Double} (h : x.isFinite = true) : ofText? x.text = some x := by
  cases x with
  | finite negative rank =>
    obtain ⟨whole, fraction, htext, hnum, hvalue⟩ := text_finite negative rank
    rw [htext]
    cases negative with
    | true =>
      rw [← hvalue]
      exact ofUnsigned?_numeral true hnum
    | false =>
      obtain ⟨c, cs, hcs, hc⟩ := isDigit_head hnum
      have hsign : ofText? (numeral whole fraction) =
          ofUnsigned? false (numeral whole fraction) := by
        rw [hcs]
        unfold ofText?
        split
        · next he =>
          rw [(List.cons.inj he).1] at hc
          cases hc
        · next he =>
          rw [(List.cons.inj he).1] at hc
          cases hc
        · rfl
      rw [signed, if_neg Bool.false_ne_true, hsign, ofUnsigned?_numeral false hnum, hvalue]
  | infinite negative => cases h
  | nan => cases h

end Double

end BlockText
