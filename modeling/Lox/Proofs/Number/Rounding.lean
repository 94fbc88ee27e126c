import Mathlib.Tactic.Linarith
import Mathlib.Tactic.Ring
import Lox.Number.Rounding
import Lox.Number.Shortest

/-!
# Rounding to a double

A finite double is a significand shifted to the left. All fractions of units between the midpoints
to its two neighbours are rounded to it (`Number.ofRatio_of_rounds`), and a midpoint itself if the
significand is even. The neighbour below may be closer than the one above: where the significand has
just gained a place, the fractions below the double are rounded with the shift of that neighbour,
and the carry of the rounded significand gives the double nevertheless.
-/

namespace Lox

/-! ### Division -/

/-- The quotient is within a half of `r`, and it is not halfway between `r` and another number
unless `r` is even. -/
structure Nearest (a c r : Nat) : Prop where
  lower : 2 * r * c ≤ 2 * a + c
  upper : 2 * a ≤ 2 * r * c + c
  tie : 2 * r * c = 2 * a + c ∨ 2 * a = 2 * r * c + c → r % 2 = 0

theorem Nearest.roundDiv_eq {a c r : Nat} (h : Nearest a c r) (hc : 0 < c) : roundDiv a c = r := by
  obtain ⟨hlower, hupper, htie⟩ := h
  have hdiv : c * (a / c) + a % c = a := Nat.div_add_mod a c
  have hmod : a % c < c := Nat.mod_lt a hc
  unfold roundDiv
  generalize a / c = q, a % c = s at hdiv hmod
  subst hdiv
  -- the quotient lies between `q` and `q + 1`, so these are the only candidates
  have hcandidates : r = q ∨ r = q + 1 := by
    have hge : q ≤ r := by
      by_contra hlt
      have : (r + 1) * c ≤ q * c := Nat.mul_le_mul_right c (by omega)
      nlinarith
    have hle : r ≤ q + 1 := by
      by_contra hgt
      have : (q + 2) * c ≤ r * c := Nat.mul_le_mul_right c (by omega)
      nlinarith
    omega
  dsimp only
  rcases hcandidates with rfl | rfl
  · have hs : 2 * s ≤ c := by nlinarith
    rcases Nat.lt_or_eq_of_le hs with hlt | heq
    · rw [if_pos hlt]
    · have heven := htie (.inr (by nlinarith))
      rw [if_neg (by omega), if_neg (by omega), heven, Nat.add_zero]
  · have hs : c ≤ 2 * s := by nlinarith
    rw [if_neg (by omega)]
    rcases Nat.lt_or_eq_of_le hs with hlt | heq
    · rw [if_pos hlt]
    · have heven := htie (.inl (by nlinarith))
      rw [if_neg (by omega)]
      omega

namespace Number

/-! ### Significand and shift -/

variable (n : Number)

theorem magnitude_eq : n.magnitude = n.shift * shiftWeight + n.significand := by
  have hle : n.shift * shiftWeight ≤ n.magnitude :=
    le_trans (Nat.mul_le_mul_right _ (Nat.sub_le _ _)) (Nat.div_mul_le_self _ _)
  rw [significand]
  omega

theorem significand_lt : n.significand < 2 * shiftWeight := by
  have hdiv := Nat.div_add_mod n.magnitude shiftWeight
  have hmod := Nat.mod_lt n.magnitude (show 0 < shiftWeight by decide)
  rw [significand, shift]
  generalize n.magnitude / shiftWeight = e, n.magnitude % shiftWeight = s at hdiv hmod
  rcases e with _ | e
  · omega
  · rw [← hdiv, Nat.add_sub_cancel]
    have : shiftWeight * (e + 1) = e * shiftWeight + shiftWeight := by ring
    omega

theorem shiftWeight_le_significand (h : 0 < n.shift) : shiftWeight ≤ n.significand := by
  have hdiv := Nat.div_add_mod n.magnitude shiftWeight
  rw [significand]
  rw [shift] at h ⊢
  generalize n.magnitude / shiftWeight = e, n.magnitude % shiftWeight = s at hdiv h ⊢
  obtain ⟨e, rfl⟩ : ∃ e', e = e' + 1 := ⟨e - 1, by omega⟩
  rw [← hdiv, Nat.add_sub_cancel]
  have : shiftWeight * (e + 1) = e * shiftWeight + shiftWeight := by ring
  omega

variable {n}

theorem bits_of_not_negative (h : n.isNegative = false) : n.bits.toNat = n.magnitude := by
  have hlt : n.bits.toNat < signWeight := Nat.lt_of_not_le (of_decide_eq_false h)
  rw [magnitude, Nat.mod_eq_of_lt hlt]

/-! ### The shift of a fraction -/

theorem shiftLeft_div_le {a b k q : Nat} (hb : 0 < b) (h : q * (b <<< k) ≤ a) :
    q <<< k ≤ a / b := by
  rw [Nat.le_div_iff_mul_le hb, Nat.shiftLeft_eq]
  calc q * 2 ^ k * b = q * (b <<< k) := by rw [Nat.shiftLeft_eq]; ring
    _ ≤ a := h

theorem div_lt_shiftLeft {a b k q : Nat} (hb : 0 < b) (h : a < q * (b <<< k)) :
    a / b < q <<< k := by
  rw [Nat.div_lt_iff_lt_mul hb, Nat.shiftLeft_eq]
  calc a < q * (b <<< k) := h
    _ = q * 2 ^ k * b := by rw [Nat.shiftLeft_eq]; ring

theorem ratioShift_eq {a b k : Nat} (hb : 0 < b) (hlower : 0 < k → shiftWeight * (b <<< k) ≤ a)
    (hupper : a < 2 * shiftWeight * (b <<< k)) : ratioShift a b = k := by
  have hlt := div_lt_shiftLeft hb hupper
  have hweight : (2 * shiftWeight) <<< k = 2 ^ (53 + k) := by
    rw [Nat.shiftLeft_eq, Nat.pow_add]
    rfl
  rw [hweight] at hlt
  rw [ratioShift]
  rcases Nat.eq_zero_or_pos k with rfl | hk
  · by_cases hzero : a / b = 0
    · rw [hzero, Nat.log2_zero]
    · have := (Nat.log2_lt hzero).mpr hlt
      omega
  · have hle := shiftLeft_div_le hb (hlower hk)
    have hweight : shiftWeight <<< k = 2 ^ (52 + k) := by
      rw [Nat.shiftLeft_eq, Nat.pow_add]
      rfl
    rw [hweight] at hle
    have hne : a / b ≠ 0 := Nat.ne_of_gt (lt_of_lt_of_le (Nat.two_pow_pos _) hle)
    have h₁ := (Nat.log2_lt hne).mpr hlt
    have h₂ := (Nat.le_log2 hne).mpr hle
    omega

/-! ### What is rounded to a double -/

/-- Half the distance to the next double towards zero, in quarters of the place value of the
significand. -/
def lowerQuarters (n : Number) : Nat :=
  if n.significand = shiftWeight ∧ 0 < n.shift then 1 else 2

/-- The fraction `a / b`, in units, lies between the midpoints to the neighbours of `n`. -/
structure Rounds (n : Number) (a b : Nat) : Prop where
  lower : 4 * n.significand * (b <<< n.shift) ≤ 4 * a + n.lowerQuarters * (b <<< n.shift)
  upper : 4 * a ≤ 4 * n.significand * (b <<< n.shift) + 2 * (b <<< n.shift)
  tie : 4 * n.significand * (b <<< n.shift) = 4 * a + n.lowerQuarters * (b <<< n.shift) ∨
    4 * a = 4 * n.significand * (b <<< n.shift) + 2 * (b <<< n.shift) → n.significand % 2 = 0

theorem Rounds.nearest {a b : Nat} (h : n.Rounds a b)
    (hwide : n.lowerQuarters = 1 → shiftWeight * (b <<< n.shift) ≤ a) :
    Nearest a (b <<< n.shift) n.significand := by
  obtain ⟨hlower, hupper, htie⟩ := h
  by_cases hquarters : n.significand = shiftWeight ∧ 0 < n.shift
  · have hle := hwide (if_pos hquarters)
    rw [hquarters.1] at hupper ⊢
    exact ⟨by nlinarith, by nlinarith, fun _ => rfl⟩
  · rw [lowerQuarters, if_neg hquarters] at hlower htie
    refine ⟨by nlinarith, by nlinarith, fun hends => htie ?_⟩
    rcases hends with heq | heq
    · exact .inl (by nlinarith)
    · exact .inr (by nlinarith)

/-- With the shift of the double itself the fraction is rounded to its significand. -/
theorem Rounds.of_wide {a b : Nat} (h : n.Rounds a b) (hb : 0 < b)
    (hwide : n.lowerQuarters = 1 → shiftWeight * (b <<< n.shift) ≤ a) :
    ratioShift a b = n.shift ∧ roundDiv a (b <<< n.shift) = n.significand := by
  have hc : 0 < b <<< n.shift := by
    rw [Nat.shiftLeft_eq]
    exact Nat.mul_pos hb (Nat.two_pow_pos _)
  have hnear := h.nearest hwide
  refine ⟨ratioShift_eq hb (fun hshift => ?_) ?_, hnear.roundDiv_eq hc⟩
  · by_cases hfirst : n.significand = shiftWeight
    · exact hwide (if_pos ⟨hfirst, hshift⟩)
    · have hmore : shiftWeight + 1 ≤ n.significand :=
        lt_of_le_of_ne (n.shiftWeight_le_significand hshift) (Ne.symm hfirst)
      have := Nat.mul_le_mul_right (b <<< n.shift) hmore
      have := hnear.lower
      nlinarith
  · have hless : n.significand + 1 ≤ 2 * shiftWeight := n.significand_lt
    have := Nat.mul_le_mul_right (b <<< n.shift) hless
    have := hnear.upper
    nlinarith

/-- Below a double whose significand has just gained a place, fractions are rounded with the shift
of the neighbour below, and the significand is carried. -/
theorem Rounds.of_narrow {a b : Nat} (h : n.Rounds a b) (hb : 0 < b)
    (hfirst : n.significand = shiftWeight) (hshift : 0 < n.shift)
    (hbelow : a < shiftWeight * (b <<< n.shift)) :
    ratioShift a b = n.shift - 1 ∧ roundDiv a (b <<< (n.shift - 1)) = 2 * shiftWeight := by
  obtain ⟨k, hk⟩ : ∃ k, n.shift = k + 1 := ⟨n.shift - 1, by omega⟩
  have hlower := h.lower
  rw [lowerQuarters, if_pos ⟨hfirst, hshift⟩, hfirst] at hlower
  have hdouble : b <<< (k + 1) = 2 * (b <<< k) := by
    rw [Nat.shiftLeft_eq, Nat.shiftLeft_eq]
    ring
  rw [hk, hdouble] at hlower hbelow
  rw [hk, Nat.add_sub_cancel]
  have hc : 0 < b <<< k := by
    rw [Nat.shiftLeft_eq]
    exact Nat.mul_pos hb (Nat.two_pow_pos _)
  have hnear : Nearest a (b <<< k) (2 * shiftWeight) :=
    ⟨by nlinarith, by nlinarith, fun _ => rfl⟩
  refine ⟨ratioShift_eq hb (fun _ => ?_) (by nlinarith), hnear.roundDiv_eq hc⟩
  have hweight : 2 ≤ shiftWeight := by decide
  have := Nat.mul_le_mul_right (b <<< k) hweight
  nlinarith

/-- What lies between the midpoints to the neighbours of a double is rounded to this double. -/
theorem ofRatio_of_rounds {num den : Nat} (hfinite : n.isFinite = true)
    (hsign : n.isNegative = false) (hden : 0 < den) (h : n.Rounds (num * unitsPerOne) den) :
    ofRatio num den = n := by
  have hbits : ratioShift (num * unitsPerOne) den * shiftWeight +
      roundDiv (num * unitsPerOne) (den <<< ratioShift (num * unitsPerOne) den) =
      n.magnitude := by
    rw [n.magnitude_eq]
    by_cases hwide : n.lowerQuarters = 1 → shiftWeight * (den <<< n.shift) ≤ num * unitsPerOne
    · obtain ⟨hshift, hround⟩ := h.of_wide hden hwide
      rw [hshift, hround]
    · obtain ⟨hquarters, hbelow⟩ := Classical.not_imp.mp hwide
      obtain ⟨hfirst, hpos⟩ : n.significand = shiftWeight ∧ 0 < n.shift := by
        by_contra hnot
        rw [lowerQuarters, if_neg hnot] at hquarters
        cases hquarters
      obtain ⟨hshift, hround⟩ := h.of_narrow hden hfirst hpos (Nat.lt_of_not_le hbelow)
      rw [hshift, hround, hfirst]
      obtain ⟨k, hk⟩ : ∃ k, n.shift = k + 1 := ⟨n.shift - 1, by omega⟩
      rw [hk, Nat.add_sub_cancel]
      ring
  have hless : n.magnitude < infiniteMagnitude := of_decide_eq_true hfinite
  have hvalue : ofRatio num den = ⟨UInt64.ofNat n.magnitude⟩ := by
    rw [ofRatio, hbits, Nat.min_eq_left (le_of_lt hless)]
  rw [hvalue, ← bits_of_not_negative hsign, UInt64.ofNat_toNat]

end Number

end Lox
