import Lox.Proofs.Number.Rounding
import Lox.Proofs.Token.Composition

/-!
# Numbers that are read back

The shortest decimal of a finite double lies in the interval of the reals that are rounded to it
(`Number.shortest_within`), and reading rounds. So this decimal, with all its digits in place, is
read as the double it was found for. Integral doubles below `2 ^ 63` are written digit by digit and
not by their shortest decimal; their text has the value of the double itself.

Both forms are texts of the lexical grammar: digits, a point only between two digits, no sign and no
exponent. `literals_are_read_back` puts this together.
-/

namespace Lox

/-! ### The coarsest grid -/

namespace Interval

variable {i : Interval} {tie : Tie} {point : Nat}

theorem contains_of_gridPoint? {step digits : Nat}
    (h : i.gridPoint? tie point step = some digits) : i.contains (digits * step) = true := by
  have hround : ∀ below, i.contains (below * step) = true →
      i.contains ((below + 1) * step) = true →
      i.contains ((below + below % 2) * step) = true := by
    intro below hbelow habove
    rcases Nat.mod_two_eq_zero_or_one below with heven | hodd
    · rwa [heven]
    · rwa [hodd]
  unfold gridPoint? at h
  dsimp only at h
  split at h
  · rename_i hbelow habove
    split_ifs at h
    · cases h
      exact hbelow
    · cases h
      exact habove
    · cases tie with
      | up =>
        cases h
        exact habove
      | even =>
        cases h
        exact hround _ hbelow habove
  · cases h
    assumption
  · cases h
    assumption
  · cases h

/-- The search ends with a point of the interval: at the latest on the finest grid. -/
theorem contains_coarsest (h : i.contains point = true) (j : Nat) :
    i.contains ((i.coarsest tie point j).1 * 10 ^ (i.coarsest tie point j).2) = true := by
  induction j with
  | zero => rwa [coarsest, Nat.pow_zero, Nat.mul_one]
  | succ j ih =>
    rw [coarsest]
    split
    · exact contains_of_gridPoint? ‹_›
    · exact ih

end Interval

namespace Number

variable {n : Number}

theorem quarterUnit_pos : 0 < quarterUnit := by
  have hpos : ∀ k, 0 < Nat.pow 5 k := fun _ => Nat.pow_pos (by decide)
  unfold quarterUnit
  exact hpos decimalPlaces

theorem units_eq (n : Number) : n.units = n.significand * 2 ^ n.shift := Nat.shiftLeft_eq _ _

theorem gapBelow_eq (n : Number) : n.gapBelow = n.lowerQuarters * 2 ^ n.shift * quarterUnit := by
  rw [gapBelow, lowerQuarters, gapAbove]
  split_ifs
  · rw [Nat.shiftLeft_eq]
  · rw [Nat.shiftLeft_eq]

theorem gapAbove_eq (n : Number) : n.gapAbove = 2 * 2 ^ n.shift * quarterUnit := by
  rw [gapAbove, Nat.shiftLeft_eq]

theorem lowerQuarters_pos (n : Number) : 0 < n.lowerQuarters := by
  rw [lowerQuarters]
  split_ifs <;> decide

theorem contains_point (h : n.units ≠ 0) : n.roundingInterval.contains n.point = true := by
  have hpoint : 0 < n.point :=
    Nat.mul_pos (Nat.mul_pos (by decide) (Nat.pos_of_ne_zero h)) quarterUnit_pos
  have hbelow : 0 < n.gapBelow := by
    rw [gapBelow_eq]
    exact Nat.mul_pos (Nat.mul_pos n.lowerQuarters_pos (Nat.two_pow_pos _)) quarterUnit_pos
  have habove : 0 < n.gapAbove := by
    rw [gapAbove_eq]
    exact Nat.mul_pos (Nat.mul_pos (by decide) (Nat.two_pow_pos _)) quarterUnit_pos
  rw [Interval.contains, roundingInterval]
  split_ifs
  · simp
  · simp only [Bool.and_eq_true, decide_eq_true_eq]
    omega

end Number

/-! ### Decimals in the interval -/

/-- On some grid of step `10 ^ j` the decimal is a point of the interval. -/
def Decimal.Within (d : Decimal) (i : Interval) : Prop :=
  ∃ j : Nat, d.exponent = (j : Int) - Number.decimalPlaces ∧ i.contains (d.digits * 10 ^ j) = true

-- For any pair, because the one that the search finds must never be computed.
theorem Decimal.within_of_found {i : Interval} {found : Nat × Nat}
    (h : i.contains (found.1 * 10 ^ found.2) = true) :
    Decimal.Within ⟨found.1, (found.2 : Int) - Number.decimalPlaces⟩ i :=
  ⟨found.2, rfl, h⟩

namespace Number

variable {n : Number}

/-- The shortest decimal lies between the midpoints to the neighbours of the double. -/
theorem shortest_within (tie : Tie) (h : n.units ≠ 0) :
    (n.shortest tie).Within n.roundingInterval := by
  rw [shortest, if_neg h]
  exact Decimal.within_of_found (Interval.contains_coarsest (contains_point h) _)

theorem rounds_of_contains {x a b : Nat} (hb : 0 < b)
    (h : n.roundingInterval.contains x = true) (hx : x * b = 4 * a * quarterUnit) :
    n.Rounds a b := by
  have hpoint : n.point * b = 4 * n.significand * (b <<< n.shift) * quarterUnit := by
    rw [point, units_eq, Nat.shiftLeft_eq]
    ring
  have hbelow : n.gapBelow * b = n.lowerQuarters * (b <<< n.shift) * quarterUnit := by
    rw [gapBelow_eq, Nat.shiftLeft_eq]
    ring
  have habove : n.gapAbove * b = 2 * (b <<< n.shift) * quarterUnit := by
    rw [gapAbove_eq, Nat.shiftLeft_eq]
    ring
  have hends : n.point ≤ x + n.gapBelow ∧ x ≤ n.point + n.gapAbove ∧
      (n.point = x + n.gapBelow ∨ x = n.point + n.gapAbove → n.significand % 2 = 0) := by
    rw [Interval.contains, roundingInterval] at h
    split_ifs at h with hclosed
    · simp only [Bool.and_eq_true, decide_eq_true_eq] at h hclosed
      exact ⟨by omega, h.2, fun _ => hclosed⟩
    · simp only [Bool.and_eq_true, decide_eq_true_eq] at h
      exact ⟨by omega, by omega, by omega⟩
  obtain ⟨hlower, hupper, htie⟩ := hends
  refine ⟨?_, ?_, fun heq => htie (heq.imp (fun heq => ?_) fun heq => ?_)⟩
  · refine Nat.le_of_mul_le_mul_right ?_ quarterUnit_pos
    rw [Nat.add_mul, ← hpoint, ← hbelow, ← hx, ← Nat.add_mul]
    exact Nat.mul_le_mul_right b hlower
  · refine Nat.le_of_mul_le_mul_right ?_ quarterUnit_pos
    rw [Nat.add_mul, ← hpoint, ← habove, ← hx, ← Nat.add_mul]
    exact Nat.mul_le_mul_right b hupper
  · refine Nat.eq_of_mul_eq_mul_right hb ?_
    rw [Nat.add_mul, hpoint, hbelow, hx, ← Nat.add_mul, heq]
  · refine Nat.eq_of_mul_eq_mul_right hb ?_
    rw [Nat.add_mul, hpoint, habove, hx, ← Nat.add_mul, heq]

theorem rounds_of_exact {a b : Nat} (hb : 0 < b) (h : a = n.units * b) : n.Rounds a b := by
  have ha : a = n.significand * (b <<< n.shift) := by
    rw [h, units_eq, Nat.shiftLeft_eq]
    ring
  have hc : 0 < b <<< n.shift := by
    rw [Nat.shiftLeft_eq]
    exact Nat.mul_pos hb (Nat.two_pow_pos _)
  have hquarters := Nat.mul_pos n.lowerQuarters_pos hc
  refine ⟨?_, ?_, fun heq => ?_⟩
  · rw [ha]
    nlinarith
  · rw [ha]
    nlinarith
  · rw [ha] at heq
    rcases heq with heq | heq
    · nlinarith
    · nlinarith

end Number

/-! ### The text of a decimal -/

namespace Decimal

variable (d : Decimal)

/-- The number that a decimal is read as. -/
def rounded : Number := .ofRatio (d.digits * 10 ^ d.exponent.toNat) (10 ^ (-d.exponent).toNat)

theorem isDigit_digitChars : ∀ c ∈ d.digitChars, c.isDigit = true :=
  fun _ => Nat.isDigit_of_mem_toDigits (by decide) (by decide)

theorem isDigit_zeros (k : Nat) : ∀ c ∈ List.replicate k '0', c.isDigit = true := by
  intro c hc
  rw [List.eq_of_mem_replicate hc]
  rfl

theorem ofDigitChars_zeros (k : Nat) (cs : List Char) :
    Nat.ofDigitChars 10 (List.replicate k '0' ++ cs) 0 = Nat.ofDigitChars 10 cs 0 := by
  rw [Nat.ofDigitChars_append, Nat.ofDigitChars_replicate_zero, Nat.mul_zero]

theorem spelled_whole {zeros : Nat} (h : d.exponent = zeros) :
    TokenKind.Spelled (.number d.rounded) (d.digitChars ++ List.replicate zeros '0') := by
  have hvalue : d.rounded = .ofDigits (d.digitChars ++ List.replicate zeros '0') [] := by
    rw [rounded, h, Number.ofDigits, List.append_nil, Nat.ofDigitChars_append, digitChars,
      Nat.ofDigitChars_ten_toDigits, Nat.ofDigitChars_replicate_zero, Nat.mul_comm]
    simp
  rw [hvalue]
  refine .number (by simp [digitChars, Nat.toDigits_ne_nil]) ?_
  exact List.forall_mem_append.mpr ⟨d.isDigit_digitChars, isDigit_zeros zeros⟩

/-- Digits on both sides of the decimal point, with zeros in front where digits are missing. -/
theorem spelled_fraction {places : Nat} {padded : List Char} (h : d.exponent = -(places : Int))
    (hplaces : 0 < places)
    (hpadded : padded = List.replicate (places + 1 - d.digitChars.length) '0' ++ d.digitChars) :
    TokenKind.Spelled (.number d.rounded)
      (padded.take (padded.length - places) ++ '.' :: padded.drop (padded.length - places)) := by
  have hlength : places < padded.length := by
    simp only [hpadded, List.length_append, List.length_replicate]
    omega
  have hdigits : ∀ c ∈ padded, c.isDigit = true := by
    rw [hpadded]
    exact List.forall_mem_append.mpr ⟨isDigit_zeros _, d.isDigit_digitChars⟩
  have hvalue : d.rounded =
      .ofDigits (padded.take (padded.length - places)) (padded.drop (padded.length - places)) := by
    have hdrop : (padded.drop (padded.length - places)).length = places := by
      rw [List.length_drop]
      omega
    rw [rounded, h, Number.ofDigits, List.take_append_drop, hdrop, hpadded, ofDigitChars_zeros,
      digitChars, Nat.ofDigitChars_ten_toDigits]
    simp
  rw [hvalue]
  refine .decimal ?_ (fun c hc => hdigits c (List.mem_of_mem_take hc)) ?_
    fun c hc => hdigits c (List.mem_of_mem_drop hc)
  · rw [← List.length_pos_iff, List.length_take]
    omega
  · rw [← List.length_pos_iff, List.length_drop]
    omega

theorem spelled_positional : TokenKind.Spelled (.number d.rounded) d.positional := by
  unfold positional
  split
  · exact d.spelled_whole ‹_›
  · exact d.spelled_fraction ‹_› (Nat.succ_pos _) rfl

end Decimal

namespace Number

variable {n : Number}

theorem pow_decimalPlaces : (10 : Nat) ^ decimalPlaces = 4 * unitsPerOne * quarterUnit := by
  have hsplit : ∀ places k, places = k + 2 →
      (10 : Nat) ^ places = 4 * (1 <<< k) * Nat.pow 5 places := by
    rintro _ k rfl
    rw [Nat.pow_eq, show 10 = 2 * 5 from rfl, Nat.mul_pow, Nat.shiftLeft_eq]
    ring
  unfold unitsPerOne quarterUnit
  exact hsplit decimalPlaces 1074 rfl

theorem rounded_of_within {d : Decimal} (hfinite : n.isFinite = true) (hsign : n.isNegative = false)
    (h : d.Within n.roundingInterval) : d.rounded = n := by
  obtain ⟨j, hexponent, hcontains⟩ := h
  have hden : 0 < 10 ^ (-d.exponent).toNat := Nat.pow_pos (by decide)
  refine ofRatio_of_rounds hfinite hsign hden (rounds_of_contains hden hcontains ?_)
  -- both sides are the digits times the powers of two and of five that the places add up to
  have hplaces : j + (-d.exponent).toNat = d.exponent.toNat + decimalPlaces := by omega
  calc d.digits * 10 ^ j * 10 ^ (-d.exponent).toNat
      = d.digits * 10 ^ (j + (-d.exponent).toNat) := by rw [Nat.mul_assoc, Nat.pow_add]
    _ = d.digits * 10 ^ d.exponent.toNat * 10 ^ decimalPlaces := by
        rw [hplaces, Nat.pow_add, Nat.mul_assoc]
    _ = 4 * (d.digits * 10 ^ d.exponent.toNat * unitsPerOne) * quarterUnit := by
        rw [pow_decimalPlaces]
        ring

theorem spelled_integral (hfinite : n.isFinite = true) (hsign : n.isNegative = false)
    (h : n.units % unitsPerOne = 0) :
    TokenKind.Spelled (.number n) (Nat.toDigits 10 n.wholePart ++ ['.', '0']) := by
  have hunits : n.wholePart * unitsPerOne = n.units := Nat.div_mul_cancel (Nat.dvd_of_mod_eq_zero h)
  have hvalue : n = .ofDigits (Nat.toDigits 10 n.wholePart) ['0'] := by
    have hdigits : ∀ k, Nat.ofDigitChars 10 (Nat.toDigits 10 k ++ ['0']) 0 = 10 * k := by
      intro k
      rw [Nat.ofDigitChars_append, Nat.ofDigitChars_ten_toDigits]
      rfl
    rw [ofDigits, hdigits]
    refine (ofRatio_of_rounds hfinite hsign (by decide) (rounds_of_exact (by decide) ?_)).symm
    rw [← hunits, List.length_singleton, Nat.pow_eq]
    ring
  have hspelled : TokenKind.Spelled (.number (.ofDigits (Nat.toDigits 10 n.wholePart) ['0']))
      (Nat.toDigits 10 n.wholePart ++ '.' :: ['0']) :=
    .decimal Nat.toDigits_ne_nil
      (fun _ => Nat.isDigit_of_mem_toDigits (by decide) (by decide)) (by decide)
      (List.all_eq_true.mp (by decide))
  rwa [← hvalue] at hspelled

/-- How tokens and trees show a number is a text that is read as this number. -/
theorem spelled_literalChars (hfinite : n.isFinite = true) (hsign : n.isNegative = false) :
    TokenKind.Spelled (.number n) n.literalChars := by
  have hless : n.magnitude < infiniteMagnitude := of_decide_eq_true hfinite
  have hnan : n.isNaN = false := decide_eq_false (by omega)
  have hinfinite : n.isInfinite = false := decide_eq_false (by omega)
  have hplain : n.signChars = [] := by rw [signChars, hsign, if_neg (by decide)]
  rw [literalChars, hnan, hinfinite, if_neg (by decide), if_neg (by decide), hplain, ite_self,
    List.nil_append, List.nil_append]
  by_cases hintegral : n.units % unitsPerOne = 0 ∧ n.wholePart < signWeight
  · rw [if_pos (by simp [isIntegral, hfinite, hintegral])]
    exact spelled_integral hfinite hsign hintegral.1
  · have hunits : n.units ≠ 0 := by
      intro hzero
      exact hintegral (by simp [wholePart, hzero, signWeight])
    rw [if_neg (by simpa [isIntegral, hfinite] using hintegral)]
    have hspelled := (n.shortest .up).spelled_positional
    rwa [rounded_of_within hfinite hsign (shortest_within .up hunits)] at hspelled

theorem of_spelled {text : List Char} (h : TokenKind.Spelled (.number n) text) :
    n.isNegative = false ∧ n.magnitude ≤ infiniteMagnitude := by
  have hcapped : ∀ m : Nat, (Number.mk (UInt64.ofNat (min m infiniteMagnitude))).bits.toNat =
      min m infiniteMagnitude := by
    intro m
    have hle : min m infiniteMagnitude ≤ infiniteMagnitude := Nat.min_le_right _ _
    exact UInt64.toNat_ofNat_of_lt' (lt_of_le_of_lt hle (by decide))
  have hratio : ∀ num den, (ofRatio num den).bits.toNat ≤ infiniteMagnitude := by
    intro num den
    rw [ofRatio, hcapped]
    exact Nat.min_le_right _ _
  have hbits : n.bits.toNat ≤ infiniteMagnitude := by
    cases h with
    | number => exact hratio _ _
    | decimal => exact hratio _ _
  have hsign : n.isNegative = false :=
    decide_eq_false (Nat.not_le.mpr (lt_of_le_of_lt hbits (by decide)))
  exact ⟨hsign, bits_of_not_negative hsign ▸ hbits⟩

end Number

/-! ### Scanning -/

theorem TokenKind.Spelled.chars_of_number {n : Number} {text : List Char}
    (h : TokenKind.Spelled (.number n) text) : ∀ c ∈ text, c.isDigit = true ∨ c = '.' := by
  intro c hc
  cases h with
  | number _ hwhole => exact .inl (hwhole c hc)
  | decimal _ hwhole _ hfraction =>
    rcases List.mem_append.mp hc with hc | hc
    · exact .inl (hwhole c hc)
    · exact (List.mem_cons.mp hc).symm.imp_left (hfraction c)

theorem newlines_of_number {n : Number} {text : List Char}
    (h : TokenKind.Spelled (.number n) text) : newlines text = 0 := by
  rw [newlines, List.count_eq_zero]
  intro hmem
  rcases h.chars_of_number '\n' hmem with hdigit | hpoint
  · cases hdigit
  · cases hpoint

theorem scan_number {n : Number} {text : List Char} (h : TokenKind.Spelled (.number n) text) :
    scan (String.ofList text) =
      [.token ⟨.number n, String.ofList text, 1⟩, .token ⟨.eof, "", 1⟩] := by
  have hpieces := h.pieces .nil
  rw [List.append_nil, pieces] at hpieces
  rw [scan, String.toList_ofList, hpieces, locate, Piece.item?, locate, Piece.text,
    newlines_of_number h]
  rfl

/-- The literal form of a finite number without a sign is a text of the lexical grammar that stands
for this number, bit by bit, and it is scanned as this number and nothing else. -/
theorem literals_are_read_back (n : Number) (hfinite : n.isFinite = true)
    (hsign : n.isNegative = false) :
    Lexeme.Valid (.number n, n.literal) ∧
      scan n.literal = [.token ⟨.number n, n.literal, 1⟩, .token ⟨.eof, "", 1⟩] := by
  have hspelled := Number.spelled_literalChars hfinite hsign
  refine ⟨?_, scan_number hspelled⟩
  rwa [Lexeme.Valid, Number.literal, String.toList_ofList]

/-- The greatest double below `2 ^ 63` is written digit by digit, `2 ^ 63` itself by its shortest
decimal, which is another number. -/
theorem doubles_around_two_pow_63_are_read_back :
    let below : Number := ⟨0x43DFFFFFFFFFFFFF⟩
    let next : Number := ⟨0x43E0000000000000⟩
    (below.isFinite = true ∧ below.isNegative = false ∧
      scan "9223372036854774784.0" =
        [.token ⟨.number below, "9223372036854774784.0", 1⟩, .token ⟨.eof, "", 1⟩]) ∧
      next.isFinite = true ∧ next.isNegative = false ∧
      scan "9223372036854776000" =
        [.token ⟨.number next, "9223372036854776000", 1⟩, .token ⟨.eof, "", 1⟩] := by
  intro below next
  have hbelow : below.literal = "9223372036854774784.0" := by decide +kernel
  have hnext : next.literal = "9223372036854776000" := by decide +kernel
  have hscanBelow := (literals_are_read_back below (by decide +kernel) (by decide +kernel)).2
  have hscanNext := (literals_are_read_back next (by decide +kernel) (by decide +kernel)).2
  rw [hbelow] at hscanBelow
  rw [hnext] at hscanNext
  exact ⟨⟨by decide +kernel, by decide +kernel, hscanBelow⟩, by decide +kernel, by decide +kernel,
    hscanNext⟩

end Lox
