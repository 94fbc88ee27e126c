import Mathlib.Algebra.Order.Field.Rat
import Lox.Proofs.Number.Literals

/-!
# Printed numbers

What a program prints for a number tells which number it is, NaNs apart. Behind the sign there are
three forms of text: a word for infinity, the exponent form, and all digits in place. A text is of
one form only, and in each form it stands for one number (`Denotes.unique`): the exponent form shows
all of a decimal (`Decimal.scientific_injective`), digits in place are the text of a number of the
source, and the shortest decimal of a number is read as this number (`Number.rounded_shortest`).

From `1e-4` up to `2 ^ 53`, and for zero, the text has all digits in place, and so it is scanned as
the number it was printed for. `prints_tell_numbers_apart` puts this together.

Integral numbers of that range have no form of their own: all their digits are in the shortest
decimal (`Number.displayChars_of_integral`).
-/

namespace Lox

/-! ### Signs -/

namespace Number

variable {n a b : Number}

theorem bits_eq (n : Number) :
    n.bits.toNat = n.magnitude + if n.isNegative then signWeight else 0 := by
  have hlt : n.bits.toNat < 2 * signWeight := n.bits.toNat_lt
  rw [magnitude, isNegative]
  by_cases hsign : signWeight ≤ n.bits.toNat
  · rw [if_pos (decide_eq_true hsign), Nat.mod_eq_sub_mod hsign, Nat.mod_eq_of_lt (by omega)]
    omega
  · rw [if_neg (by simpa using hsign), Nat.mod_eq_of_lt (by omega), Nat.add_zero]

theorem eq_of_magnitude (hsign : a.isNegative = b.isNegative) (h : a.magnitude = b.magnitude) :
    a = b := by
  have hbits : a.bits = b.bits := by
    rw [← UInt64.toNat_inj, bits_eq, bits_eq, hsign, h]
  exact congrArg Number.mk hbits

/-- The number with the same bits but for the sign, which is positive. -/
def unsigned (n : Number) : Number := ⟨UInt64.ofNat n.magnitude⟩

theorem bits_unsigned (n : Number) : n.unsigned.bits.toNat = n.magnitude := by
  have hlt : n.magnitude < signWeight := Nat.mod_lt _ (by decide)
  exact UInt64.toNat_ofNat_of_lt' (lt_trans hlt (by decide))

theorem isNegative_unsigned (n : Number) : n.unsigned.isNegative = false := by
  rw [isNegative, bits_unsigned]
  exact decide_eq_false (Nat.not_le.mpr (Nat.mod_lt _ (by decide)))

theorem magnitude_unsigned (n : Number) : n.unsigned.magnitude = n.magnitude := by
  rw [← bits_of_not_negative n.isNegative_unsigned, bits_unsigned]

theorem unsigned_of_not_negative (h : n.isNegative = false) : n.unsigned = n :=
  eq_of_magnitude (n.isNegative_unsigned.trans h.symm) n.magnitude_unsigned

theorem shift_unsigned (n : Number) : n.unsigned.shift = n.shift := by
  rw [shift, shift, magnitude_unsigned]

theorem significand_unsigned (n : Number) : n.unsigned.significand = n.significand := by
  rw [significand, significand, shift_unsigned, magnitude_unsigned]

theorem units_unsigned (n : Number) : n.unsigned.units = n.units := by
  rw [units, units, significand_unsigned, shift_unsigned]

theorem roundingInterval_unsigned (n : Number) :
    n.unsigned.roundingInterval = n.roundingInterval := by
  simp only [roundingInterval, point, gapBelow, gapAbove, units_unsigned, significand_unsigned,
    shift_unsigned]

/-- The shortest decimal of a number is read as this number, but for the sign. -/
theorem rounded_shortest (tie : Tie) (hfinite : n.isFinite = true) :
    (n.shortest tie).rounded = n.unsigned := by
  have hfinite' : n.unsigned.isFinite = true := by rwa [isFinite, magnitude_unsigned]
  by_cases hzero : n.units = 0
  · rw [shortest, if_pos hzero]
    refine ofRatio_of_rounds hfinite' n.isNegative_unsigned (by decide)
      (rounds_of_exact (by decide) ?_)
    rw [units_unsigned, hzero, Nat.zero_mul, Nat.zero_mul, Nat.zero_mul]
  · refine rounded_of_within hfinite' n.isNegative_unsigned ?_
    rw [roundingInterval_unsigned]
    exact shortest_within tie hzero

theorem isFinite_iff : n.isFinite = true ↔ n.isNaN = false ∧ n.isInfinite = false := by
  rw [isFinite, isNaN, isInfinite, decide_eq_true_eq, decide_eq_false_iff_not,
    decide_eq_false_iff_not]
  omega

end Number

/-! ### The exponent form -/

def startsWithDigit (text : List Char) : Bool := text.head?.any Char.isDigit

namespace Decimal

theorem exponentChars_injective (width : Nat) : Function.Injective (exponentChars width) := by
  intro e e' h
  obtain ⟨hsign, hdigits⟩ := List.cons.inj h
  have hsize : e.natAbs = e'.natAbs := by
    have hvalue := congrArg (Nat.ofDigitChars 10 · 0) hdigits
    rwa [ofDigitChars_zeros, ofDigitChars_zeros, Nat.ofDigitChars_ten_toDigits,
      Nat.ofDigitChars_ten_toDigits] at hvalue
  split_ifs at hsign with hneg hneg' hneg'
  · omega
  · cases hsign
  · cases hsign
  · omega

/-- Before the exponent stand the digits of the decimal, with at most a point among them. -/
theorem scientific_eq (width : Nat) (d : Decimal) : ∃ c cs,
    d.scientific width = c :: cs ++ 'e' :: exponentChars width d.leadingExponent ∧
      c.isDigit = true ∧ 'e' ∉ c :: cs ∧ (c :: cs).filter Char.isDigit = d.digitChars := by
  have hdigits := d.isDigit_digitChars
  have hletter : ∀ {cs : List Char}, (∀ c ∈ cs, c.isDigit = true) → 'e' ∉ cs :=
    fun hcs hmem => absurd (hcs _ hmem) (by decide)
  unfold scientific
  dsimp only
  split
  · rename_i first second rest heq
    rw [heq] at hdigits ⊢
    obtain ⟨hfirst, hrest⟩ := List.forall_mem_cons.mp hdigits
    refine ⟨first, '.' :: second :: rest, rfl, hfirst, ?_, ?_⟩
    · have hnone := hletter hdigits
      rw [List.mem_cons, not_or] at hnone ⊢
      exact ⟨hnone.1, List.not_mem_cons_of_ne_of_not_mem (by decide) hnone.2⟩
    · rw [List.filter_cons_of_pos hfirst, List.filter_cons_of_neg (by decide),
        List.filter_eq_self.mpr hrest]
  · obtain ⟨c, cs, heq⟩ : ∃ c cs, d.digitChars = c :: cs :=
      List.exists_cons_of_ne_nil Nat.toDigits_ne_nil
    rw [heq] at hdigits ⊢
    exact ⟨c, cs, rfl, hdigits c List.mem_cons_self, hletter hdigits,
      List.filter_eq_self.mpr hdigits⟩

theorem startsWithDigit_scientific (width : Nat) (d : Decimal) :
    startsWithDigit (d.scientific width) = true := by
  obtain ⟨c, cs, htext, hc, -, -⟩ := d.scientific_eq width
  rwa [htext]

theorem mem_scientific (width : Nat) (d : Decimal) : 'e' ∈ d.scientific width :=
  List.mem_append_right _ List.mem_cons_self

theorem takeWhile_exponent {text : List Char} (h : 'e' ∉ text) (rest : List Char) :
    (text ++ 'e' :: rest).takeWhile (· != 'e') = text := by
  have hpass : ∀ c ∈ text, (c != 'e') = true := by
    intro c hc
    rw [bne_iff_ne]
    rintro rfl
    exact h hc
  rw [List.takeWhile_append_of_pos hpass, List.takeWhile_cons_of_neg (by decide), List.append_nil]

/-- The exponent form shows all of a decimal. -/
theorem scientific_injective (width : Nat) : Function.Injective (scientific width) := by
  intro d d' h
  obtain ⟨c, cs, htext, -, hletter, hdigits⟩ := d.scientific_eq width
  obtain ⟨c', cs', htext', -, hletter', hdigits'⟩ := d'.scientific_eq width
  rw [htext, htext'] at h
  -- the first `e` tells where the exponent starts
  have hmantissa : c :: cs = c' :: cs' := by
    rw [← takeWhile_exponent hletter, h, takeWhile_exponent hletter']
  rw [hmantissa] at h hdigits
  have hchars : d.digitChars = d'.digitChars := hdigits.symm.trans hdigits'
  have hvalue : d.digits = d'.digits := by
    have hvalue := congrArg (Nat.ofDigitChars 10 · 0) hchars
    rwa [digitChars, digitChars, Nat.ofDigitChars_ten_toDigits,
      Nat.ofDigitChars_ten_toDigits] at hvalue
  have hleading : d.leadingExponent = d'.leadingExponent :=
    exponentChars_injective width (List.cons.inj (List.append_cancel_left h)).2
  -- equally many digits, so the last ones are of the same place, too
  have hexponent : d.exponent = d'.exponent := by
    rw [leadingExponent, leadingExponent, hchars] at hleading
    omega
  obtain ⟨digits, exponent⟩ := d
  obtain ⟨digits', exponent'⟩ := d'
  rw [Decimal.mk.injEq]
  exact ⟨hvalue, hexponent⟩

end Decimal

/-! ### What a text stands for -/

theorem TokenKind.Spelled.startsWithDigit {n : Number} {text : List Char}
    (h : TokenKind.Spelled (.number n) text) : Lox.startsWithDigit text = true := by
  have hstart : ∀ {cs : List Char} (rest : List Char), cs ≠ [] → (∀ c ∈ cs, c.isDigit = true) →
      Lox.startsWithDigit (cs ++ rest) = true := by
    intro cs rest hne hcs
    obtain ⟨c, cs, rfl⟩ := List.exists_cons_of_ne_nil hne
    exact hcs c List.mem_cons_self
  cases h with
  | number hne hwhole =>
    rw [← List.append_nil text]
    exact hstart [] hne hwhole
  | decimal hne hwhole _ _ => exact hstart _ hne hwhole

/-- A printed text without a sign, and the number that it stands for. -/
inductive Denotes : List Char → Number → Prop where
  | infinite {n : Number} (hinfinite : n.isInfinite = true) (hsign : n.isNegative = false) :
    Denotes ['i', 'n', 'f'] n
  | scientific {text : List Char} {d : Decimal} (h : text = d.scientific 2) :
    Denotes text d.rounded
  | positional {text : List Char} {n : Number} (h : TokenKind.Spelled (.number n) text) :
    Denotes text n

namespace Denotes

variable {n n' a b : Number} {text text' : List Char}

theorem head_ne_minus (h : Denotes text n) : text.head? ≠ some '-' := by
  have hdigit : startsWithDigit text = true → text.head? ≠ some '-' := by
    intro hdigit hminus
    rw [startsWithDigit, hminus] at hdigit
    cases hdigit
  cases h with
  | infinite _ _ => decide
  | scientific h => exact hdigit (h ▸ Decimal.startsWithDigit_scientific 2 _)
  | positional h => exact hdigit h.startsWithDigit

/-- A text stands for one number only. A word is told by its first letter, and the exponent form by
the letter in front of the exponent. -/
theorem unique (h : Denotes text n) (h' : Denotes text n') : n = n' := by
  have hword : ∀ d : Decimal, ['i', 'n', 'f'] ≠ d.scientific 2 := fun d heq =>
    absurd (d.startsWithDigit_scientific 2) (heq ▸ by decide)
  have hform : ∀ {m : Number} {d : Decimal}, TokenKind.Spelled (.number m) text →
      text ≠ d.scientific 2 := by
    rintro m d hspelled rfl
    rcases hspelled.chars_of_number 'e' (d.mem_scientific 2) with hdigit | hpoint
    · cases hdigit
    · cases hpoint
  cases h with
  | infinite hinfinite hsign =>
    cases h' with
    | infinite hinfinite' hsign' =>
      refine Number.eq_of_magnitude (hsign.trans hsign'.symm) ?_
      exact (of_decide_eq_true hinfinite).trans (of_decide_eq_true hinfinite').symm
    | scientific h' => exact absurd h' (hword _)
    | positional h' => exact absurd h'.startsWithDigit (by decide)
  | scientific h =>
    cases h' with
    | infinite _ _ => exact absurd h (hword _)
    | scientific h' => rw [Decimal.scientific_injective 2 (h.symm.trans h')]
    | positional h' => exact absurd h (hform h')
  | positional h =>
    cases h' with
    | infinite _ _ => exact absurd h.startsWithDigit (by decide)
    | scientific h' => exact absurd h' (hform h)
    | positional h' => exact TokenKind.number.inj (h.unique h')

/-- Where texts that stand for numbers follow two signs, the signs can be told from them. -/
theorem of_signed (h : Denotes text n) (h' : Denotes text' n')
    (heq : a.signChars ++ text = b.signChars ++ text') :
    a.isNegative = b.isNegative ∧ text = text' := by
  rw [Number.signChars, Number.signChars] at heq
  cases ha : a.isNegative <;> cases hb : b.isNegative <;> rw [ha, hb] at heq
  · exact ⟨rfl, heq⟩
  · exact absurd (congrArg List.head? heq) h.head_ne_minus
  · exact absurd (congrArg List.head? heq).symm h'.head_ne_minus
  · exact ⟨rfl, List.tail_eq_of_cons_eq heq⟩

end Denotes

namespace Number

variable {n a b : Number}

/-- A number prints as its sign and a text that stands for the rest of it. -/
theorem denotes_displayChars (h : n.isNaN = false) :
    ∃ text, n.displayChars = n.signChars ++ text ∧ Denotes text n.unsigned := by
  rw [displayChars, h, if_neg (by decide)]
  cases hinfinite : n.isInfinite with
  | true =>
    refine ⟨_, rfl, .infinite ?_ n.isNegative_unsigned⟩
    rwa [isInfinite, magnitude_unsigned]
  | false =>
    rw [if_neg (by decide), ← rounded_shortest .up (isFinite_iff.mpr ⟨h, hinfinite⟩)]
    split_ifs
    · exact ⟨_, rfl, .scientific rfl⟩
    · exact ⟨_, rfl, .positional (Decimal.spelled_positional _)⟩

theorem eq_of_displayChars (ha : a.isNaN = false) (hb : b.isNaN = false)
    (h : a.displayChars = b.displayChars) : a = b := by
  obtain ⟨text, htext, hdenotes⟩ := denotes_displayChars ha
  obtain ⟨text', htext', hdenotes'⟩ := denotes_displayChars hb
  rw [htext, htext'] at h
  obtain ⟨hsign, rfl⟩ := hdenotes.of_signed hdenotes' h
  refine eq_of_magnitude hsign ?_
  rw [← a.magnitude_unsigned, hdenotes.unique hdenotes', magnitude_unsigned]

/-! ### All digits in place -/

/-- The size of a finite number. -/
def size (n : Number) : Rat := n.units / unitsPerOne

theorem unitsPerOne_pos : 0 < unitsPerOne := by
  have hpos : ∀ k, 0 < 1 <<< k := by
    intro k
    rw [Nat.shiftLeft_eq, Nat.one_mul]
    exact Nat.two_pow_pos k
  exact hpos 1074

theorem units_eq_zero_of_size (h : n.size = 0) : n.units = 0 := by
  have hpos := unitsPerOne_pos
  rw [size] at h
  generalize unitsPerOne = one at hpos h
  have hone : (one : Rat) ≠ 0 := by exact_mod_cast hpos.ne'
  exact_mod_cast (div_eq_zero_iff.mp h).resolve_right hone

theorem unitsPerOne_le_of_size (h : 1e-4 ≤ n.size) : unitsPerOne ≤ n.units * 10000 := by
  have hpos := unitsPerOne_pos
  rw [size] at h
  generalize unitsPerOne = one at hpos h ⊢
  rw [le_div_iff₀ (by exact_mod_cast hpos)] at h
  have hscaled : (one : Rat) ≤ n.units * 10000 := by linarith
  exact_mod_cast hscaled

theorem units_lt_of_size (h : n.size < 2 ^ 53) : n.units < 2 * shiftWeight * unitsPerOne := by
  have hpos := unitsPerOne_pos
  have hweight : ((2 * shiftWeight : Nat) : Rat) = 2 ^ 53 := by norm_num [shiftWeight]
  rw [size] at h
  generalize unitsPerOne = one at hpos h ⊢
  rw [div_lt_iff₀ (by exact_mod_cast hpos), ← hweight] at h
  exact_mod_cast h

theorem shiftLeft_le_units {k : Nat} (h : k < n.shift) :
    2 * shiftWeight * (1 <<< k) ≤ n.units := by
  rw [units_eq, Nat.shiftLeft_eq]
  calc 2 * shiftWeight * (1 * 2 ^ k) = shiftWeight * 2 ^ (k + 1) := by ring
    _ ≤ n.significand * 2 ^ n.shift :=
      Nat.mul_le_mul (n.shiftWeight_le_significand (by omega))
        (Nat.pow_le_pow_right (by decide) h)

theorem shift_le_of_units (h : n.units < 2 * shiftWeight * unitsPerOne) : n.shift ≤ 1074 :=
  Nat.le_of_not_lt fun hlt => absurd (shiftLeft_le_units hlt) (Nat.not_le.mpr h)

theorem isFinite_of_units (h : n.units < 2 * shiftWeight * unitsPerOne) : n.isFinite = true := by
  refine decide_eq_true (Nat.lt_of_not_le fun hle => ?_)
  have hquotient : 2047 ≤ n.magnitude / shiftWeight :=
    (Nat.le_div_iff_mul_le (by decide)).mpr hle
  have hshift := shift_le_of_units h
  rw [shift] at hshift
  omega

theorem displayChars_of_units (hupper : n.units < 2 * shiftWeight * unitsPerOne)
    (hlower : n.units ≠ 0 → unitsPerOne ≤ n.units * 10000) :
    n.displayChars = n.signChars ++ (n.shortest .up).positional := by
  obtain ⟨hnan, hinfinite⟩ := isFinite_iff.mp (isFinite_of_units hupper)
  have hpositional : n.usesExponent = false := by
    rw [usesExponent, decide_eq_false (Nat.not_le.mpr hupper), Bool.false_or,
      Bool.and_eq_false_imp]
    intro hne
    exact decide_eq_false (Nat.not_lt.mpr (hlower (of_decide_eq_true hne)))
  rw [displayChars, hnan, hinfinite, hpositional, if_neg (by decide), if_neg (by decide),
    if_neg (by decide)]

theorem spelled_displayChars (hsign : n.isNegative = false)
    (h : n.size = 0 ∨ 1e-4 ≤ n.size ∧ n.size < 2 ^ 53) :
    TokenKind.Spelled (.number n) n.displayChars := by
  have hunits : n.units < 2 * shiftWeight * unitsPerOne ∧
      (n.units ≠ 0 → unitsPerOne ≤ n.units * 10000) := by
    rcases h with h | ⟨hlower, hupper⟩
    · have hzero := units_eq_zero_of_size h
      refine ⟨?_, fun hne => absurd hzero hne⟩
      rw [hzero]
      exact Nat.mul_pos (by decide) unitsPerOne_pos
    · exact ⟨units_lt_of_size hupper, fun _ => unitsPerOne_le_of_size hlower⟩
  have hplain : n.signChars = [] := by rw [signChars, hsign, if_neg (by decide)]
  have hspelled := (n.shortest .up).spelled_positional
  rw [rounded_shortest .up (isFinite_of_units hunits.1), unsigned_of_not_negative hsign] at hspelled
  rwa [displayChars_of_units hunits.1 hunits.2, hplain, List.nil_append]

end Number

/-! ### Integral numbers -/

namespace Interval

variable {i : Interval} {tie : Tie} {point : Nat}

theorem le_of_contains {x : Nat} (h : i.contains x = true) : i.lo ≤ x ∧ x ≤ i.hi := by
  rw [contains] at h
  split_ifs at h
  · simpa only [Bool.and_eq_true, decide_eq_true_eq] using h
  · simp only [Bool.and_eq_true, decide_eq_true_eq] at h
    exact ⟨le_of_lt h.1, le_of_lt h.2⟩

theorem gridPoint?_ne_none {step : Nat} (h : i.contains (point / step * step) = true) :
    i.gridPoint? tie point step ≠ none := by
  unfold gridPoint?
  dsimp only
  rw [h]
  cases i.contains ((point / step + 1) * step) with
  | false => exact Option.some_ne_none _
  | true =>
    dsimp only
    split_ifs
    · exact Option.some_ne_none _
    · exact Option.some_ne_none _
    · cases tie <;> exact Option.some_ne_none _

/-- The search does not go below a grid that meets the interval just below the point. -/
theorem le_coarsest {j k : Nat} (h : i.contains (point / 10 ^ j * 10 ^ j) = true) (hjk : j ≤ k) :
    j ≤ (i.coarsest tie point k).2 := by
  induction k with
  | zero => exact le_trans hjk (Nat.zero_le _)
  | succ k ih =>
    rw [coarsest]
    split
    · exact hjk
    · rename_i hnone
      refine ih (Nat.lt_succ_iff.mp (lt_of_le_of_ne hjk ?_))
      rintro rfl
      exact absurd hnone (gridPoint?_ne_none h)

end Interval

namespace Decimal

theorem toDigits_mul_pow {digits : Nat} (h : 0 < digits) (zeros : Nat) :
    Nat.toDigits 10 (digits * 10 ^ zeros) =
      Nat.toDigits 10 digits ++ List.replicate zeros '0' := by
  induction zeros with
  | zero => rw [Nat.pow_zero, Nat.mul_one, List.replicate_zero, List.append_nil]
  | succ k ih =>
    have hpos : 0 < digits * 10 ^ k := Nat.mul_pos h (Nat.pow_pos (by decide))
    rw [List.replicate_succ', ← List.append_assoc, ← ih, Nat.pow_succ, ← Nat.mul_assoc,
      Nat.mul_comm _ 10]
    exact (Nat.toDigits_append_toDigits (d := 0) (by decide) hpos (by decide)).symm

-- For any pair, as in `within_of_found`: the one that the search finds must never be computed.
theorem positional_of_found {i : Interval} {found : Nat × Nat} {whole : Nat} (hpos : 0 < whole)
    (hplaces : Number.decimalPlaces ≤ found.2)
    (hcontains : i.contains (found.1 * 10 ^ found.2) = true)
    (honly : ∀ x, i.contains (x * 10 ^ Number.decimalPlaces) = true → x = whole) :
    positional ⟨found.1, (found.2 : Int) - Number.decimalPlaces⟩ = Nat.toDigits 10 whole := by
  obtain ⟨digits, places⟩ := found
  obtain ⟨zeros, rfl⟩ := Nat.exists_eq_add_of_le' hplaces
  have hdigits : digits * 10 ^ zeros = whole := by
    refine honly _ ?_
    rwa [Nat.mul_assoc, ← Nat.pow_add]
  have hexponent : ((zeros + Number.decimalPlaces : Nat) : Int) - Number.decimalPlaces = zeros := by
    omega
  rw [hexponent, ← hdigits, toDigits_mul_pow (Nat.pos_of_mul_pos_right (hdigits ▸ hpos))]
  rfl

end Decimal

namespace Number

variable {n : Number}

theorem gaps_le (h : n.units < 2 * shiftWeight * unitsPerOne) :
    n.gapBelow ≤ n.gapAbove ∧ 2 * n.gapAbove ≤ 10 ^ decimalPlaces := by
  have hpow : ∀ {k}, n.shift ≤ k → 2 ^ n.shift ≤ 1 <<< k := by
    intro k hk
    rw [Nat.shiftLeft_eq, Nat.one_mul]
    exact Nat.pow_le_pow_right (by decide) hk
  have hle : 2 ^ n.shift ≤ unitsPerOne := hpow (shift_le_of_units h)
  constructor
  · rw [gapBelow_eq, gapAbove_eq, lowerQuarters]
    gcongr
    split_ifs <;> decide
  · rw [pow_decimalPlaces, gapAbove_eq]
    calc 2 * (2 * 2 ^ n.shift * quarterUnit) = 4 * 2 ^ n.shift * quarterUnit := by ring
      _ ≤ 4 * unitsPerOne * quarterUnit := by gcongr

/-- No integer but the number itself lies in its interval. -/
theorem eq_wholePart_of_contains {x : Nat} (h : n.units < 2 * shiftWeight * unitsPerOne)
    (hpoint : n.point = n.wholePart * 10 ^ decimalPlaces)
    (hx : n.roundingInterval.contains (x * 10 ^ decimalPlaces) = true) : x = n.wholePart := by
  obtain ⟨hbelow, habove⟩ := gaps_le h
  have hpos : 0 < 10 ^ decimalPlaces := Nat.pow_pos (by decide)
  obtain ⟨hlo, hhi⟩ := Interval.le_of_contains hx
  rw [roundingInterval, hpoint] at hlo hhi
  dsimp only at hlo hhi
  generalize 10 ^ decimalPlaces = one at *
  have hstep : ∀ {y z : Nat}, y < z → y * one + one ≤ z * one := by
    intro y z hlt
    rw [← Nat.succ_mul]
    exact Nat.mul_le_mul_right one hlt
  refine le_antisymm (Nat.le_of_not_lt fun hlt => ?_) (Nat.le_of_not_lt fun hlt => ?_)
  · have := hstep hlt
    omega
  · have := hstep hlt
    omega

theorem two_pow_le_ten_pow {a b : Nat} (m : Nat) (ha : 0 < a) (h : 2 ^ a ≤ 10 ^ b) :
    2 ^ m ≤ 10 ^ (m * b / a + 1) := by
  refine (Nat.pow_le_pow_iff_left ha.ne').mp ?_
  calc (2 ^ m) ^ a = (2 ^ a) ^ m := by rw [← Nat.pow_mul, ← Nat.pow_mul, Nat.mul_comm]
    _ ≤ (10 ^ b) ^ m := Nat.pow_le_pow_left h m
    _ = 10 ^ (m * b) := by rw [← Nat.pow_mul, Nat.mul_comm]
    _ ≤ 10 ^ ((m * b / a + 1) * a) :=
      Nat.pow_le_pow_right (by decide) (le_of_lt (Nat.lt_mul_of_div_lt (Nat.lt_succ_self _) ha))
    _ = (10 ^ (m * b / a + 1)) ^ a := Nat.pow_mul _ _ _

theorem lt_pow_digitBound (p : Nat) : p < 10 ^ digitBound p :=
  lt_of_lt_of_le Nat.lt_log2_self
    (two_pow_le_ten_pow (p.log2 + 1) (a := 100000) (by decide) (by decide +kernel))

theorem positional_of_integral (tie : Tie) (h : n.units < 2 * shiftWeight * unitsPerOne)
    (hintegral : n.wholePart * unitsPerOne = n.units) :
    (n.shortest tie).positional = Nat.toDigits 10 n.wholePart := by
  by_cases hzero : n.units = 0
  · rw [shortest, if_pos hzero, wholePart, hzero, Nat.zero_div]
    rfl
  have hpos : 0 < n.wholePart := by
    refine Nat.pos_of_ne_zero fun hnone => hzero ?_
    rw [← hintegral, hnone, Nat.zero_mul]
  have hpoint : n.point = n.wholePart * 10 ^ decimalPlaces := by
    rw [point, pow_decimalPlaces, ← hintegral]
    ring
  -- the integers are a grid on which the search can end, and it starts above them
  have hgrid : n.roundingInterval.contains
      (n.point / 10 ^ decimalPlaces * 10 ^ decimalPlaces) = true := by
    rw [hpoint, Nat.mul_div_cancel _ (Nat.pow_pos (by decide)), ← hpoint]
    exact contains_point hzero
  have hplaces : decimalPlaces ≤ digitBound n.point := by
    have hle : 10 ^ decimalPlaces ≤ n.point := hpoint ▸ Nat.le_mul_of_pos_left _ hpos
    have hlt := lt_of_le_of_lt hle (lt_pow_digitBound n.point)
    exact le_of_lt ((Nat.pow_lt_pow_iff_right (by decide)).mp hlt)
  rw [shortest, if_neg hzero]
  exact Decimal.positional_of_found hpos (Interval.le_coarsest hgrid hplaces)
    (Interval.contains_coarsest (contains_point hzero) _)
    fun x => eq_wholePart_of_contains h hpoint

/-- Integral numbers below `2 ^ 53` print digit by digit. -/
theorem displayChars_of_integral (hintegral : n.isIntegral = true) (h : n.size < 2 ^ 53) :
    n.displayChars = n.signChars ++ Nat.toDigits 10 n.wholePart := by
  rw [isIntegral, Bool.and_eq_true, decide_eq_true_eq] at hintegral
  have hdvd := Nat.dvd_of_mod_eq_zero hintegral.2
  have hupper := units_lt_of_size h
  have hlower : n.units ≠ 0 → unitsPerOne ≤ n.units * 10000 := fun hne =>
    le_trans (Nat.le_of_dvd (Nat.pos_of_ne_zero hne) hdvd) (Nat.le_mul_of_pos_right _ (by decide))
  rw [displayChars_of_units hupper hlower,
    positional_of_integral .up hupper (Nat.div_mul_cancel hdvd)]

end Number

/-- Two numbers with different bits, neither of them a NaN, print as different texts. And a number
without a sign that is zero or lies between `1e-4` and `2 ^ 53` prints as a text of the lexical
grammar that stands for this number, bit by bit, and that is scanned as this number and nothing
else. -/
theorem prints_tell_numbers_apart :
    (∀ a b : Number, a.isNaN = false → b.isNaN = false → a.bits ≠ b.bits →
      a.display ≠ b.display) ∧
      ∀ n : Number, n.isNegative = false → (n.size = 0 ∨ 1e-4 ≤ n.size ∧ n.size < 2 ^ 53) →
        Lexeme.Valid (.number n, n.display) ∧
          scan n.display = [.token ⟨.number n, n.display, 1⟩, .token ⟨.eof, "", 1⟩] := by
  refine ⟨fun a b ha hb hbits hdisplay => hbits ?_, fun n hsign hrange => ?_⟩
  · rw [Number.eq_of_displayChars ha hb (String.ofList_injective hdisplay)]
  · have hspelled := Number.spelled_displayChars hsign hrange
    refine ⟨?_, scan_number hspelled⟩
    rwa [Lexeme.Valid, Number.display, String.toList_ofList]

/-- The two zeros are told apart by the sign, and the numbers on both sides of `2 ^ 53` by the form.
The least and the greatest number of the range are scanned back. -/
theorem numbers_at_the_bounds_are_told_apart :
    let zero : Number := ⟨0⟩
    let minusZero : Number := ⟨0x8000000000000000⟩
    let least : Number := ⟨0x3F1A36E2EB1C432D⟩
    let greatest : Number := ⟨0x433FFFFFFFFFFFFF⟩
    let next : Number := ⟨0x4340000000000000⟩
    (zero.isNaN = false ∧ minusZero.isNaN = false ∧ zero.bits ≠ minusZero.bits ∧
      zero.display ≠ minusZero.display) ∧
      (greatest.isNaN = false ∧ next.isNaN = false ∧ greatest.bits ≠ next.bits ∧
        "9007199254740991" ≠ next.display) ∧
      (least.isNegative = false ∧ 1e-4 ≤ least.size ∧ least.size < 2 ^ 53 ∧
        scan "0.0001" = [.token ⟨.number least, "0.0001", 1⟩, .token ⟨.eof, "", 1⟩]) ∧
      greatest.isNegative = false ∧ 1e-4 ≤ greatest.size ∧ greatest.size < 2 ^ 53 ∧
        scan "9007199254740991" =
          [.token ⟨.number greatest, "9007199254740991", 1⟩, .token ⟨.eof, "", 1⟩] := by
  intro zero minusZero least greatest next
  obtain ⟨hapart, hscan⟩ := prints_tell_numbers_apart
  have hleast : 1e-4 ≤ least.size ∧ least.size < 2 ^ 53 := by decide +kernel
  have hgreatest : 1e-4 ≤ greatest.size ∧ greatest.size < 2 ^ 53 := by decide +kernel
  have hscanLeast := (hscan least (by decide +kernel) (.inr hleast)).2
  have hscanGreatest := (hscan greatest (by decide +kernel) (.inr hgreatest)).2
  have hzeros := hapart zero minusZero (by decide +kernel) (by decide +kernel) (by decide +kernel)
  have hbound := hapart greatest next (by decide +kernel) (by decide +kernel) (by decide +kernel)
  rw [show least.display = "0.0001" by decide +kernel] at hscanLeast
  rw [show greatest.display = "9007199254740991" by decide +kernel] at hscanGreatest hbound
  exact ⟨⟨by decide +kernel, by decide +kernel, by decide +kernel, hzeros⟩,
    ⟨by decide +kernel, by decide +kernel, by decide +kernel, hbound⟩,
    ⟨by decide +kernel, hleast.1, hleast.2, hscanLeast⟩,
    by decide +kernel, hgreatest.1, hgreatest.2, hscanGreatest⟩

end Lox
