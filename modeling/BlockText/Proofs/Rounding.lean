import BlockText.Number.Decimal
import Mathlib.Tactic.Ring

/-!
# Rounding

A number with a rank is the nearest to every quotient that lies in its interval. The interval of a
number is wider than the distance of two neighbours on the decimal grid with seventeen digits, so
one of the two grid points around the number lies in it, and the search for the shortest digits
ends with a decimal that is read back as the number.
-/

namespace BlockText

namespace Double

/-! ## Ranks -/

theorem binade_pos : 0 < binade := by decide

theorem pow_add (b m n : Nat) : Nat.pow b (m + n) = Nat.pow b m * Nat.pow b n := Nat.pow_add b m n

theorem pow_mono {b m n : Nat} (hb : 0 < b) (h : m ≤ n) : Nat.pow b m ≤ Nat.pow b n :=
  Nat.pow_le_pow_right hb h

/-- A rank is made up of its significand and its scale. -/
theorem significand_add_scale (rank : Nat) : significand rank + scale rank * binade = rank := by
  have hpos := binade_pos
  unfold significand scale
  split
  · next h => simp [Nat.div_eq_of_lt h]
  · next h =>
    have hq : 1 ≤ rank / binade := (Nat.one_le_div_iff hpos).mpr (Nat.le_of_not_lt h)
    have hsub : (rank / binade - 1) * binade + binade = rank / binade * binade := by
      rw [← Nat.succ_mul, Nat.succ_eq_add_one, Nat.sub_add_cancel hq]
    have hdiv : rank / binade * binade + rank % binade = rank := Nat.div_add_mod' rank binade
    omega

theorem significand_lt (rank : Nat) : significand rank < 2 * binade := by
  have hpos := binade_pos
  have hmod := Nat.mod_lt rank hpos
  unfold significand
  split <;> omega

theorem significand_pos {rank : Nat} (h : 0 < rank) : 0 < significand rank := by
  have hpos := binade_pos
  unfold significand
  split <;> omega

/-- Only below the first power of two the significand has fewer bits. -/
theorem scale_eq_zero_or (rank : Nat) : scale rank = 0 ∨ binade ≤ significand rank := by
  unfold scale significand
  split
  · next h => exact .inl (by simp [Nat.div_eq_of_lt h])
  · exact .inr (Nat.le_add_right _ _)

theorem scale_lt {rank : Nat} (h : rank < ranks) : scale rank < 2046 := by
  have hq : rank / binade < 2047 := (Nat.div_lt_iff_lt_mul binade_pos).mpr h
  unfold scale
  omega

/-! ## The nearest number -/

/-- A quotient within half a unit of a whole number is rounded to it. At exactly half a unit the
whole number has to be even. -/
theorem divHalfEven_eq {u d m : Nat} (hd : 0 < d) (hlow : 2 * (m * d) ≤ 2 * u + d)
    (hhigh : 2 * u ≤ 2 * (m * d) + d)
    (htie : m % 2 = 1 → 2 * (m * d) < 2 * u + d ∧ 2 * u < 2 * (m * d) + d) :
    divHalfEven u d = m := by
  have hu : u / d * d + u % d = u := Nat.div_add_mod' u d
  have hr : u % d < d := Nat.mod_lt u hd
  -- the quotient is the result or one less, and the remainder decides
  have hq : u / d = m ∨ u / d + 1 = m := by
    have hge : m < u / d + 2 := by
      refine Nat.lt_of_not_le fun h => ?_
      have := Nat.mul_le_mul_right d h
      rw [Nat.add_mul] at this
      omega
    have hle : u / d < m + 1 := by
      refine Nat.lt_of_not_le fun h => ?_
      have := Nat.mul_le_mul_right d h
      rw [Nat.add_mul] at this
      omega
    omega
  unfold divHalfEven
  simp only
  rcases hq with hq | hq
  · rw [hq] at hu ⊢
    split
    · rfl
    · split <;> omega
  · have hmd : m * d = u / d * d + d := by rw [← hq, Nat.add_mul, Nat.one_mul]
    split
    · omega
    · split <;> omega

end Double

namespace Decimal

open Double

/-- The quotient `n / d` lies in an interval. -/
def Interval.Contains (i : Interval) (n d : Nat) : Prop :=
  if i.closed then i.low * d ≤ n ∧ n ≤ i.high * d else i.low * d < n ∧ n < i.high * d

theorem Interval.holds_iff {i : Interval} {up unit c : Nat} :
    i.holds up unit c = true ↔ i.Contains (c * unit) up := by
  unfold holds Contains
  split <;> simp

/-- What an interval contains does not depend on how a quotient is written. -/
theorem Interval.Contains.congr {i : Interval} {n d n' d' : Nat} (h : i.Contains n d) (hd : 0 < d)
    (hd' : 0 < d') (he : n' * d = n * d') : i.Contains n' d' := by
  have hle {a : Nat} (h : a * d ≤ n) : a * d' ≤ n' := by
    refine Nat.le_of_mul_le_mul_right ?_ hd
    rw [he, Nat.mul_right_comm]
    exact Nat.mul_le_mul_right d' h
  have hge {a : Nat} (h : n ≤ a * d) : n' ≤ a * d' := by
    refine Nat.le_of_mul_le_mul_right ?_ hd
    rw [he, Nat.mul_right_comm]
    exact Nat.mul_le_mul_right d' h
  have hlt {a : Nat} (h : a * d < n) : a * d' < n' := by
    refine Nat.lt_of_mul_lt_mul_right (a := d) ?_
    rw [he, Nat.mul_right_comm]
    exact Nat.mul_lt_mul_of_pos_right h hd'
  have hgt {a : Nat} (h : n < a * d) : n' < a * d' := by
    refine Nat.lt_of_mul_lt_mul_right (a := d) ?_
    rw [he, Nat.mul_right_comm]
    exact Nat.mul_lt_mul_of_pos_right h hd'
  unfold Contains at h ⊢
  by_cases hc : i.closed = true
  · rw [if_pos hc] at h ⊢
    exact ⟨hle h.1, hge h.2⟩
  · rw [if_neg hc] at h ⊢
    exact ⟨hlt h.1, hgt h.2⟩

/-- Above a number its interval reaches half a unit. -/
theorem high_mul (rank d : Nat) : (interval rank).high * d =
    4 * (significand rank * (d * Nat.pow 2 (scale rank))) + 2 * (d * Nat.pow 2 (scale rank)) := by
  show (4 * significand rank + 2) * Nat.pow 2 (scale rank) * d = _
  ring

/-- Below a number its interval reaches half a unit too, or a quarter below a power of two, where the
numbers are twice as dense. -/
theorem low_mul {rank : Nat} (hr : 0 < rank) (d : Nat) : (interval rank).low * d +
    (if significand rank = binade ∧ 2 * binade ≤ rank then 1 else 2) *
      (d * Nat.pow 2 (scale rank)) =
    4 * (significand rank * (d * Nat.pow 2 (scale rank))) := by
  have hm := significand_pos hr
  have hsub : (4 * significand rank -
      if significand rank = binade ∧ 2 * binade ≤ rank then 1 else 2) +
        (if significand rank = binade ∧ 2 * binade ≤ rank then 1 else 2) = 4 * significand rank :=
    Nat.sub_add_cancel (by split <;> omega)
  show (4 * significand rank - if significand rank = binade ∧ 2 * binade ≤ rank then 1 else 2) *
    Nat.pow 2 (scale rank) * d + _ = _
  calc
    _ = ((4 * significand rank -
        if significand rank = binade ∧ 2 * binade ≤ rank then 1 else 2) +
          (if significand rank = binade ∧ 2 * binade ≤ rank then 1 else 2)) *
            (d * Nat.pow 2 (scale rank)) := by ring
    _ = _ := by rw [hsub]; ring

/-- What the interval of a rank says in terms of significand and scale: the quotient is at most half
a unit away, or a quarter below a power of two. -/
theorem Contains.bounds {rank n d : Nat} (hr : 0 < rank) (h : (interval rank).Contains (4 * n) d) :
    let m := significand rank
    let e := d * Nat.pow 2 (scale rank)
    2 * (m * e) ≤ 2 * n + e ∧ 2 * n ≤ 2 * (m * e) + e ∧
      (m % 2 = 1 → 2 * (m * e) < 2 * n + e ∧ 2 * n < 2 * (m * e) + e) ∧
      (m = binade → scale rank ≠ 0 → 4 * (m * e) ≤ 4 * n + e) := by
  intro m e
  have hrank : m + scale rank * binade = rank := significand_add_scale rank
  have hhigh : (interval rank).high * d = 4 * (m * e) + 2 * e := high_mul rank d
  have hlow : (interval rank).low * d +
      (if m = binade ∧ 2 * binade ≤ rank then 1 else 2) * e = 4 * (m * e) := low_mul hr d
  -- at a power of two the numbers below are twice as dense, so the interval is cut on that side
  have hpower : m = binade → scale rank ≠ 0 → m = binade ∧ 2 * binade ≤ rank := by
    intro hmb hs
    have := Nat.mul_le_mul_right binade (Nat.one_le_iff_ne_zero.mpr hs)
    exact ⟨hmb, by omega⟩
  unfold Interval.Contains at h
  have hclosed : (interval rank).closed = (m % 2 == 0) := rfl
  rw [hclosed, hhigh] at h
  generalize (interval rank).low * d = low at *
  refine ⟨?_, ?_, ?_, ?_⟩
  · split at hlow <;> split at h <;> omega
  · split at h <;> omega
  · intro hodd
    have : (m % 2 == 0) = false := by simp [hodd]
    rw [this, if_neg Bool.false_ne_true] at h
    split at hlow <;> omega
  · intro hmb hs
    rw [if_pos (hpower hmb hs)] at hlow
    split at h <;> omega

/-- The leading bit of a quotient between two powers of two. -/
theorem log2_div_sub {u d k : Nat} (hd : 0 < d) (hlow : binade * (d * Nat.pow 2 k) ≤ u)
    (hhigh : u < 2 * binade * (d * Nat.pow 2 k)) : (u / d).log2 - 52 = k := by
  have hle : Nat.pow 2 (52 + k) ≤ u / d := by
    refine (Nat.le_div_iff_mul_le hd).mpr (Nat.le_trans (Nat.le_of_eq ?_) hlow)
    show 2 ^ (52 + k) * d = 2 ^ 52 * (d * 2 ^ k)
    ring
  have hlt : u / d < Nat.pow 2 (52 + k + 1) := by
    refine (Nat.div_lt_iff_lt_mul hd).mpr (Nat.lt_of_lt_of_eq hhigh ?_)
    show 2 * 2 ^ 52 * (d * 2 ^ k) = 2 ^ (52 + k + 1) * d
    ring
  have h0 : u / d ≠ 0 := Nat.ne_of_gt (Nat.lt_of_lt_of_le (Nat.pow_pos Nat.two_pos) hle)
  rw [(Nat.log2_eq_iff h0).mpr ⟨hle, hlt⟩, Nat.add_sub_cancel_left]

/-- The number with a rank is the nearest to each quotient in its interval. -/
theorem nearestRank_eq {rank n d : Nat} (hd : 0 < d) (hr : 0 < rank)
    (h : (interval rank).Contains (4 * (n * one)) d) : nearestRank n d = rank := by
  obtain ⟨hlow, hhigh, htie, hpower⟩ := Contains.bounds hr h
  have hrank := significand_add_scale rank
  have hmlt := significand_lt rank
  have hscale := scale_eq_zero_or rank
  unfold nearestRank
  simp only
  generalize n * one = u at *
  generalize significand rank = m at *
  generalize scale rank = k at *
  have hb : Nat.pow 2 52 = binade := rfl
  have he : 0 < d * Nat.pow 2 k := Nat.mul_pos hd (Nat.pow_pos Nat.two_pos)
  -- the quotient stays below the next power of two
  have htop : u < 2 * binade * (d * Nat.pow 2 k) := by
    have := Nat.mul_le_mul_right (d * Nat.pow 2 k) (Nat.succ_le_of_lt hmlt)
    rw [Nat.succ_mul] at this
    omega
  by_cases hin : k = 0 ∨ binade * (d * Nat.pow 2 k) ≤ u
  · -- in the binade of the number
    have hs : (u / d).log2 - 52 = k := by
      rcases hin with rfl | hin
      · rw [Nat.sub_eq_zero_iff_le]
        by_cases h0 : u / d = 0
        · simp [h0]
        · refine Nat.le_of_lt_succ ((Nat.log2_lt h0).mpr ?_)
          refine (Nat.div_lt_iff_lt_mul hd).mpr (Nat.lt_of_lt_of_eq htop ?_)
          show 2 * 2 ^ 52 * (d * 1) = 2 ^ 53 * d
          ring
      · exact log2_div_sub hd hin htop
    rw [hs, divHalfEven_eq he hlow hhigh htie, hrank]
  · -- just below a power of two, where the numbers lie twice as dense
    rw [not_or, Nat.not_le] at hin
    obtain ⟨hk, hin⟩ := hin
    obtain ⟨j, rfl⟩ := Nat.exists_eq_add_one_of_ne_zero hk
    have hj : d * Nat.pow 2 (j + 1) = 2 * (d * Nat.pow 2 j) := by
      show d * 2 ^ (j + 1) = 2 * (d * 2 ^ j)
      ring
    have hm : m = binade := by
      refine Nat.le_antisymm ?_ (hscale.resolve_left hk)
      refine Nat.le_of_lt_succ (Nat.lt_of_not_le fun hle => ?_)
      have := Nat.mul_le_mul_right (d * Nat.pow 2 (j + 1)) hle
      rw [Nat.succ_mul] at this
      omega
    have hlow' := hpower hm hk
    subst hm
    have hassoc : binade * (d * Nat.pow 2 (j + 1)) = 2 * binade * (d * Nat.pow 2 j) := by
      rw [hj]
      ring
    rw [hassoc, hj] at hlow'
    rw [hassoc] at hin
    have hj0 : 0 < d * Nat.pow 2 j := Nat.mul_pos hd (Nat.pow_pos Nat.two_pos)
    have hs : (u / d).log2 - 52 = j := by
      refine log2_div_sub hd ?_ hin
      have htwo : 2 * binade * (d * Nat.pow 2 j) = 2 * (binade * (d * Nat.pow 2 j)) := by ring
      have hone := Nat.mul_le_mul_right (d * Nat.pow 2 j) (Nat.succ_le_of_lt binade_pos)
      omega
    have hdiv : divHalfEven u (d * Nat.pow 2 j) = 2 * binade :=
      divHalfEven_eq hj0 (by omega) (by omega) (by omega)
    rw [hs, hdiv]
    rw [Nat.add_mul] at hrank
    omega

/-! ## The search for digits -/

/-- The numerator of a decimal as a quotient of naturals. -/
def numerator (d : Decimal) : Nat := d.coefficient * Nat.pow 10 d.exponent.toNat

/-- The denominator of a decimal as a quotient of naturals. -/
def denominator (d : Decimal) : Nat := Nat.pow 10 (-d.exponent).toNat

theorem denominator_pos (d : Decimal) : 0 < d.denominator := Nat.pow_pos (by decide)

/-- A decimal lies in the interval of a rank. -/
def LiesAt (d : Decimal) (rank : Nat) : Prop :=
  (interval rank).Contains (4 * (d.numerator * one)) d.denominator

theorem Interval.contains_of_onGrid {i : Interval} {tie : Tie} {up unit c : Nat}
    (h : i.onGrid tie up unit = some c) : i.Contains (c * unit) up := by
  rw [← holds_iff]
  unfold onGrid at h
  simp only at h
  split at h
  · next hc hc' =>
    have htie : tie.decide (i.value * up / unit) = i.value * up / unit ∨
        tie.decide (i.value * up / unit) = i.value * up / unit + 1 := by
      cases tie with
      | up => exact .inr rfl
      | even =>
        have := Nat.mod_two_eq_zero_or_one (i.value * up / unit)
        unfold Tie.decide
        simp only
        omega
    simp only [Option.some.injEq] at h
    subst h
    split
    · exact hc
    · split
      · exact hc'
      · rcases htie with he | he <;> rw [he]
        · exact hc
        · exact hc'
  · next hc _ =>
    cases h
    exact hc
  · next hc =>
    cases h
    exact hc
  · cases h

/-- What the value is scaled by on the grid of an exponent. -/
def gridUp (e : Int) : Nat := Nat.pow 10 (-e).toNat

/-- The distance of neighbours on the grid of an exponent, in quarters of `2^-1074`. -/
def gridUnit (e : Int) : Nat := 4 * one * Nat.pow 10 e.toNat

theorem search_succ (i : Interval) (tie : Tie) (k : Int) (places fuel : Nat) :
    search i tie k places (fuel + 1) =
      match i.onGrid tie (gridUp (k - places)) (gridUnit (k - places)) with
      | some c => ⟨c, k - places⟩
      | none => search i tie k (places + 1) fuel := by
  have hup : (if k - places < 0 then Nat.pow 10 (-(k - places)).toNat else 1) =
      gridUp (k - places) := by
    unfold gridUp
    split
    · rfl
    · rw [show (-(k - places)).toNat = 0 by omega]
  have hunit : (4 * one * if 0 ≤ k - places then Nat.pow 10 (k - places).toNat else 1) =
      gridUnit (k - places) := by
    unfold gridUnit
    split
    · rfl
    · rw [show (k - places).toNat = 0 by omega]
  have hstep := search.eq_2 i tie k places fuel
  rw [hup, hunit] at hstep
  exact hstep

/-- The search ends in the interval, if one of the grids that it goes through has a point there. -/
theorem search_liesAt {rank : Nat} {tie : Tie} {k : Int} (fuel : Nat) {places j : Nat}
    (hj : places ≤ j) (hfuel : j < places + fuel)
    (h : ((interval rank).onGrid tie (gridUp (k - j)) (gridUnit (k - j))).isSome = true) :
    (search (interval rank) tie k places fuel).LiesAt rank := by
  induction fuel generalizing places with
  | zero => omega
  | succ fuel ih =>
    rw [search_succ]
    split
    · next c hc =>
      have hn : 4 * (numerator ⟨c, k - places⟩ * one) = c * gridUnit (k - places) := by
        unfold numerator gridUnit
        ring
      rw [LiesAt, hn]
      exact Interval.contains_of_onGrid hc
    · next hnone =>
      refine ih (Nat.lt_of_le_of_ne hj ?_) (by omega)
      rintro rfl
      rw [hnone] at h
      cases h

/-- On a grid on which the number has seventeen digits, one of its two neighbours lies in its
interval: they are at most `10^-16` of it apart, and the interval reaches `2^-54` of it to
each side. -/
theorem onGrid_isSome {rank up unit : Nat} (tie : Tie) (hr : 0 < rank) (hunit : 0 < unit)
    (h : Nat.pow 10 16 * unit ≤ (interval rank).value * up) :
    ((interval rank).onGrid tie up unit).isSome = true := by
  have hb : binade = 4503599627370496 := rfl
  have hten : Nat.pow 10 16 = 10000000000000000 := rfl
  rw [hten] at h
  have hmlt := significand_lt rank
  have hvalue : (interval rank).value * up =
      4 * (significand rank * (up * Nat.pow 2 (scale rank))) := by
    show 4 * significand rank * Nat.pow 2 (scale rank) * up = _
    ring
  have hlow : ∃ b, (b = 2 ∨ b = 1 ∧ significand rank = binade) ∧
      (interval rank).low * up + b * (up * Nat.pow 2 (scale rank)) =
        4 * (significand rank * (up * Nat.pow 2 (scale rank))) := by
    refine ⟨_, ?_, low_mul hr up⟩
    split
    · next hc => exact .inr ⟨rfl, hc.1⟩
    · exact .inl rfl
  have hdiv : (interval rank).value * up / unit * unit + (interval rank).value * up % unit =
      (interval rank).value * up := Nat.div_add_mod' _ _
  have hmod := Nat.mod_lt ((interval rank).value * up) hunit
  have hsucc : ((interval rank).value * up / unit + 1) * unit =
      (interval rank).value * up / unit * unit + unit := by ring
  have hclose : (interval rank).holds up unit ((interval rank).value * up / unit) = true ∨
      (interval rank).holds up unit ((interval rank).value * up / unit + 1) = true := by
    rw [Interval.holds_iff, Interval.holds_iff, hsucc]
    unfold Interval.Contains
    rw [high_mul]
    obtain ⟨b, hbcase, hlow⟩ := hlow
    generalize (interval rank).low * up = low at *
    generalize (interval rank).value * up = value at *
    generalize value / unit * unit = floor at *
    generalize up * Nat.pow 2 (scale rank) = g at *
    -- half a grid distance is less than the interval reaches to each side
    have hhalf : unit < 2 * b * g := by
      rcases hbcase with rfl | ⟨rfl, hpower⟩
      · have := Nat.mul_le_mul_right g (Nat.le_of_lt hmlt)
        rw [hb] at this
        omega
      · rw [hpower, hb] at hvalue
        omega
    have hg : b * g ≤ 2 * g := Nat.mul_le_mul_right g (by omega)
    have hassoc : 2 * b * g = 2 * (b * g) := by ring
    rcases Nat.lt_or_ge (2 * (value % unit)) unit with hr | hr
    · left
      split <;> omega
    · right
      split <;> omega
  unfold Interval.onGrid
  simp only
  rcases hclose with hc | hc <;> rw [hc]
  · cases (interval rank).holds up unit ((interval rank).value * up / unit + 1) <;> rfl
  · cases (interval rank).holds up unit ((interval rank).value * up / unit) <;> rfl

theorem leadingPlace_spec {n d : Nat} (fuel places : Nat)
    (h : d ≤ n * Nat.pow 10 (places + fuel)) :
    places ≤ leadingPlace n d places fuel ∧ d ≤ n * Nat.pow 10 (leadingPlace n d places fuel) := by
  induction fuel generalizing places with
  | zero => exact ⟨Nat.le_refl _, h⟩
  | succ fuel ih =>
    rw [leadingPlace]
    split
    · next hle => exact ⟨Nat.le_refl _, hle⟩
    · obtain ⟨hp, hle⟩ := ih (places + 1) (by rw [Nat.add_right_comm]; exact h)
      exact ⟨by omega, hle⟩

/-- On the grid with seventeen digits a quotient is at least `10^16` grid distances. -/
theorem pow_le_of_magnitude {n d : Nat} (hd : 0 < d) (h : d ≤ n * Nat.pow 10 (1 + 340)) :
    Nat.pow 10 16 * (d * Nat.pow 10 (magnitude n d - 17).toNat) ≤
      n * Nat.pow 10 (-(magnitude n d - 17)).toNat := by
  unfold magnitude
  split
  · next hle =>
    -- a whole part of `p + 1` digits
    obtain ⟨p, hp⟩ := Nat.exists_eq_add_one_of_ne_zero
      (Nat.ne_of_gt (Nat.length_toDigits_pos (b := 10) (n := n / d)))
    have hpn : Nat.pow 10 p * d ≤ n := by
      rw [← Nat.le_div_iff_mul_le hd]
      refine Nat.le_of_not_lt fun hlt => ?_
      by_cases h0 : p = 0
      · subst h0
        have : 1 ≤ n / d := (Nat.one_le_div_iff hd).mpr hle
        have : n / d < 1 := hlt
        omega
      · have := (Nat.length_toDigits_le_iff (b := 10) (by decide) (by omega)).mpr hlt
        omega
    rw [digits, hp]
    rcases Nat.le_total 16 p with h16 | h16
    · obtain ⟨q, rfl⟩ := Nat.exists_eq_add_of_le h16
      rw [show ((16 + q + 1 : Nat) - 17 : Int).toNat = q by omega,
        show (-((16 + q + 1 : Nat) - 17 : Int)).toNat = 0 by omega]
      calc
        _ = Nat.pow 10 16 * Nat.pow 10 q * d := by ring
        _ ≤ n := by rw [← Double.pow_add]; exact hpn
        _ = _ := (Nat.mul_one n).symm
    · obtain ⟨q, hq⟩ := Nat.exists_eq_add_of_le h16
      rw [show ((p + 1 : Nat) - 17 : Int).toNat = 0 by omega,
        show (-((p + 1 : Nat) - 17 : Int)).toNat = q by omega, hq, Double.pow_add]
      calc
        _ = Nat.pow 10 p * d * Nat.pow 10 q := by
          show Nat.pow 10 p * Nat.pow 10 q * (d * 1) = _
          ring
        _ ≤ _ := Nat.mul_le_mul_right _ hpn
  · -- the first digit at a place after the point
    obtain ⟨hp, hle⟩ := leadingPlace_spec 340 1 h
    generalize leadingPlace n d 1 340 = p at *
    rw [show (1 - (p : Int) - 17).toNat = 0 by omega,
      show (-(1 - (p : Int) - 17)).toNat = 16 + p by omega, Double.pow_add]
    calc
      _ = Nat.pow 10 16 * d := by
        show Nat.pow 10 16 * (d * 1) = _
        ring
      _ ≤ Nat.pow 10 16 * (n * Nat.pow 10 p) := Nat.mul_le_mul_left _ hle
      _ = _ := by ring

/-- Zeros that are moved to the exponent do not change where a decimal lies. -/
theorem stripZeros_liesAt {rank : Nat} (fuel : Nat) {d : Decimal} (h : d.LiesAt rank) :
    (stripZeros fuel d).LiesAt rank := by
  induction fuel generalizing d with
  | zero => exact h
  | succ fuel ih =>
    rw [stripZeros]
    split
    · next hc =>
      refine ih (h.congr d.denominator_pos (denominator_pos _) ?_)
      have hcoef : d.coefficient = d.coefficient / 10 * 10 := by omega
      have hpow (a : Nat) : Nat.pow 10 (a + 1) = Nat.pow 10 a * 10 := rfl
      unfold numerator denominator
      simp only
      rcases Int.lt_or_le d.exponent 0 with he | he
      · obtain ⟨a, ha⟩ := Nat.exists_eq_add_one_of_ne_zero
          (show (-d.exponent).toNat ≠ 0 by omega)
        rw [ha, show (-(d.exponent + 1)).toNat = a by omega,
          show (d.exponent + 1).toNat = 0 by omega, show d.exponent.toNat = 0 by omega, hpow]
        show 4 * (d.coefficient / 10 * 1 * one) * (Nat.pow 10 a * 10) =
          4 * (d.coefficient * 1 * one) * Nat.pow 10 a
        nth_rewrite 2 [hcoef]
        ring
      · rw [show (d.exponent + 1).toNat = d.exponent.toNat + 1 by omega,
          show (-(d.exponent + 1)).toNat = 0 by omega, show (-d.exponent).toNat = 0 by omega, hpow]
        nth_rewrite 2 [hcoef]
        ring
    · exact h

/-- The shortest digits of a number lie in its interval. -/
theorem shortest_liesAt (tie : Tie) {rank : Nat} (hr : 0 < rank) :
    (shortest tie rank).LiesAt rank := by
  have hunits : 1 ≤ units rank :=
    Nat.mul_pos (significand_pos hr) (Nat.pow_pos Nat.two_pos)
  have hone : one ≤ units rank * Nat.pow 10 (1 + 340) := by
    refine Nat.le_trans ?_ (Nat.mul_le_mul_right _ hunits)
    decide +kernel
  rw [shortest, if_neg (Nat.ne_of_gt hr)]
  refine stripZeros_liesAt 20 (search_liesAt 17 (j := 17) (by decide) (by decide) ?_)
  have hpos : 0 < one := by decide +kernel
  refine onGrid_isSome tie hr (Nat.mul_pos (Nat.mul_pos (by decide) hpos)
    (Nat.pow_pos (by decide))) ?_
  have hvalue : (interval rank).value = 4 * units rank := Nat.mul_assoc _ _ _
  rw [hvalue]
  unfold gridUnit gridUp
  calc
    _ = 4 * (Nat.pow 10 16 *
        (one * Nat.pow 10 (magnitude (units rank) one - 17).toNat)) := by
      rw [Nat.mul_assoc 4, Nat.mul_left_comm]
      rfl
    _ ≤ 4 * (units rank * Nat.pow 10 (-(magnitude (units rank) one - 17)).toNat) :=
      Nat.mul_le_mul_left _ (pow_le_of_magnitude hpos hone)
    _ = _ := (Nat.mul_assoc _ _ _).symm

end Decimal

end BlockText
