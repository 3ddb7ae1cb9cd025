import Mathlib.Data.Nat.Size
import Mathlib.Tactic.Positivity
import Mathlib.Tactic.Ring

/-! IEEE 754 doubles as 64-bit words. Values are kept as integer multiples of the least
positive double, so comparisons and truncations are exact integer arithmetic. -/

structure Binary64 where
  bits : UInt64
  deriving DecidableEq

namespace Binary64

section Words
variable (d : Binary64)

def word : Nat := d.bits.toNat

def ofWord (n : Nat) : Binary64 := ⟨UInt64.ofNat n⟩

/-- Set for the negative doubles, `-0.0` and the NaNs that carry it included. -/
def signbit : Bool := decide (2 ^ 63 ≤ d.word)

/-- The word without its sign bit; it orders the magnitudes. -/
def low : Nat := d.word % 2 ^ 63

def expo : Nat := d.low / 2 ^ 52

def frac : Nat := d.low % 2 ^ 52

def isNaN : Bool := decide (d.expo = 2047 ∧ d.frac ≠ 0)

/-- Multiples of `2 ^ -1074` in the double 1.0. -/
def unit : Nat := 2 ^ 1074

/-- The magnitude, in units of `2 ^ -1074`, of the double whose low 63 bits are `m`.
The formula gives the infinity `2 ^ 1024`, above every finite magnitude. -/
def magOf (m : Nat) : Nat :=
  if m / 2 ^ 52 = 0 then m % 2 ^ 52 else (2 ^ 52 + m % 2 ^ 52) * 2 ^ (m / 2 ^ 52 - 1)

def mag : Nat := magOf d.low

def scaled : Int := if d.signbit then -(d.mag : Int) else d.mag

/-- The IEEE `<`: false when an operand is a NaN. -/
def lt (a b : Binary64) : Bool := !a.isNaN && !b.isNaN && decide (a.scaled < b.scaled)

/-- The IEEE `==`: false when an operand is a NaN, true of the two zeros. -/
def eq (a b : Binary64) : Bool := !a.isNaN && !b.isNaN && decide (a.scaled = b.scaled)

def neg : Binary64 := ofWord ((d.word + 2 ^ 63) % 2 ^ 64)

/-- Conversion to an unsigned integer: the fraction is dropped. -/
def trunc : Nat := d.mag / unit

/-- Conversion to a signed integer, towards zero. -/
def truncInt : Int := if d.signbit then -(d.trunc : Int) else d.trunc

/-- Conversion from an integer below `2 ^ 64`, to the nearest double, ties to even. A carry
out of the significand moves into the exponent field by itself. -/
def ofNat (n : Nat) : Binary64 :=
  if n = 0 then ofWord 0
  else if n.size ≤ 53 then
    ofWord ((n.size + 1021) * 2 ^ 52 + n * 2 ^ (53 - n.size))
  else
    let s := n.size - 53
    let q := n / 2 ^ s
    let r := n % 2 ^ s
    let up := 2 ^ s < 2 * r ∨ (2 * r = 2 ^ s ∧ q % 2 = 1)
    ofWord ((n.size + 1021) * 2 ^ 52 + if up then q + 1 else q)

def ofInt (n : Int) : Binary64 := if n < 0 then neg (ofNat n.natAbs) else ofNat n.natAbs

theorem word_lt : d.word < 2 ^ 64 := d.bits.toNat_lt

theorem low_lt : d.low < 2 ^ 63 := Nat.mod_lt _ (by decide)

theorem frac_lt : d.frac < 2 ^ 52 := Nat.mod_lt _ (by decide)

theorem low_eq : d.low = d.expo * 2 ^ 52 + d.frac := by
  unfold expo frac
  omega

theorem word_eq : d.word = (if d.signbit then 2 ^ 63 else 0) + d.low := by
  have h := d.word_lt
  unfold low signbit
  by_cases hs : 2 ^ 63 ≤ d.word
  · rw [decide_eq_true hs, if_pos rfl]
    omega
  · rw [decide_eq_false hs, if_neg Bool.false_ne_true]
    omega

@[simp] theorem word_ofWord {n : Nat} (h : n < 2 ^ 64) : (ofWord n).word = n := by
  simpa [ofWord, word, UInt64.toNat_ofNat'] using h

theorem ext_word {a b : Binary64} (h : a.word = b.word) : a = b := by
  cases a
  cases b
  simpa [word, UInt64.toNat_inj] using h

@[simp] theorem ofWord_word : ofWord d.word = d := ext_word (word_ofWord d.word_lt)

theorem signbit_neg : d.neg.signbit = !d.signbit := by
  have h := d.word_lt
  have hw : (d.word + 2 ^ 63) % 2 ^ 64 < 2 ^ 64 := Nat.mod_lt _ (by decide)
  unfold signbit neg
  rw [word_ofWord hw, ← decide_not, decide_eq_decide]
  omega

theorem low_neg : d.neg.low = d.low := by
  have hw : (d.word + 2 ^ 63) % 2 ^ 64 < 2 ^ 64 := Nat.mod_lt _ (by decide)
  unfold low neg
  rw [word_ofWord hw]
  omega

theorem isNaN_neg : d.neg.isNaN = d.isNaN :=
  decide_eq_decide.mpr (by simp only [expo, frac, low_neg])

@[simp] theorem mag_neg : d.neg.mag = d.mag := by
  simp [mag, low_neg]

theorem scaled_of_plus {d : Binary64} (h : d.signbit = false) : d.scaled = d.mag := by
  simp [scaled, h]

theorem scaled_of_minus {d : Binary64} (h : d.signbit = true) : d.scaled = -(d.mag : Int) := by
  simp [scaled, h]

theorem scaled_neg : d.neg.scaled = -d.scaled := by
  simp only [scaled, signbit_neg, mag_neg]
  cases d.signbit <;> simp

end Words

theorem two_pow_eq_mul {a b c : Nat} (h : a = b + c) : (2 : Nat) ^ a = 2 ^ b * 2 ^ c := by
  rw [h, pow_add]

theorem magOf_eq (e f : Nat) (hf : f < 2 ^ 52) :
    magOf (e * 2 ^ 52 + f) = if e = 0 then f else (2 ^ 52 + f) * 2 ^ (e - 1) := by
  have hq : (e * 2 ^ 52 + f) / 2 ^ 52 = e := by omega
  have hr : (e * 2 ^ 52 + f) % 2 ^ 52 = f := by omega
  rw [magOf, hq, hr]

/-- The next word up has the next magnitude up, across a change of exponent too. -/
theorem magOf_lt_succ (m : Nat) : magOf m < magOf (m + 1) := by
  obtain ⟨e, f, hf, rfl⟩ : ∃ e f, f < 2 ^ 52 ∧ m = e * 2 ^ 52 + f :=
    ⟨m / 2 ^ 52, m % 2 ^ 52, Nat.mod_lt _ (by decide), by omega⟩
  rw [magOf_eq e f hf]
  rcases Nat.lt_or_ge (f + 1) (2 ^ 52) with hlt | hge
  · rw [Nat.add_assoc, magOf_eq e (f + 1) hlt]
    by_cases he : e = 0
    · simp [he]
    · simp only [he, if_false]
      exact Nat.mul_lt_mul_of_pos_right (by omega) (by positivity)
  · have hm : e * 2 ^ 52 + f + 1 = (e + 1) * 2 ^ 52 + 0 := by omega
    rw [hm, magOf_eq (e + 1) 0 (by decide)]
    cases e with
    | zero => simp; omega
    | succ e =>
      calc (2 ^ 52 + f) * 2 ^ e < (2 ^ 53) * 2 ^ e :=
            Nat.mul_lt_mul_of_pos_right (by omega) (by positivity)
        _ = (2 ^ 52 + 0) * 2 ^ (e + 1) := by ring

theorem magOf_strictMono : StrictMono magOf := strictMono_nat_of_lt_succ magOf_lt_succ

theorem mag_lt_iff {a b : Binary64} : a.mag < b.mag ↔ a.low < b.low :=
  magOf_strictMono.lt_iff_lt

theorem mag_inj {a b : Binary64} : a.mag = b.mag ↔ a.low = b.low :=
  magOf_strictMono.injective.eq_iff

/-- Two doubles of one sign and one magnitude are one word. -/
theorem ext_scaled {a b : Binary64} (hs : a.signbit = b.signbit) (hm : a.mag = b.mag) : a = b := by
  apply ext_word
  rw [word_eq a, word_eq b, hs, mag_inj.mp hm]

/-! Doubles of magnitude at least one: integer part, and fraction bits below it. -/

section
variable {d : Binary64}

theorem mag_eq_of_expo_pos (h : 0 < d.expo) :
    d.mag = (2 ^ 52 + d.frac) * 2 ^ (d.expo - 1) := by
  have he : d.expo ≠ 0 := by omega
  rw [mag, low_eq, magOf_eq _ _ d.frac_lt, if_neg he]

theorem unit_le_mag_iff : unit ≤ d.mag ↔ 1023 ≤ d.expo := by
  have h : unit = magOf (1023 * 2 ^ 52 + 0) := by
    rw [magOf_eq _ _ (by decide), unit, if_neg (by decide), Nat.add_zero]
    exact two_pow_eq_mul rfl
  have hf := d.frac_lt
  rw [h, mag, magOf_strictMono.le_iff_le, low_eq]
  omega

theorem trunc_of_le (hl : 1023 ≤ d.expo) (hu : d.expo ≤ 1075) :
    d.trunc = (2 ^ 52 + d.frac) / 2 ^ (1075 - d.expo) := by
  have hu' : unit = 2 ^ (1075 - d.expo) * 2 ^ (d.expo - 1) := two_pow_eq_mul (by omega)
  rw [trunc, mag_eq_of_expo_pos (by omega), hu']
  exact Nat.mul_div_mul_right _ _ (by positivity)

theorem mag_of_ge (hl : 1075 ≤ d.expo) :
    d.mag = (2 ^ 52 + d.frac) * 2 ^ (d.expo - 1075) * unit := by
  rw [mag_eq_of_expo_pos (by omega), unit, Nat.mul_assoc, ← two_pow_eq_mul]
  omega

theorem trunc_of_ge (hl : 1075 ≤ d.expo) :
    d.trunc = (2 ^ 52 + d.frac) * 2 ^ (d.expo - 1075) := by
  have hp : 0 < unit := by unfold unit; positivity
  rw [trunc, mag_of_ge hl, Nat.mul_div_cancel _ hp]

/-- The integer part has `expo - 1022` bits. -/
theorem size_trunc (h : 1023 ≤ d.expo) : d.trunc.size = d.expo - 1022 := by
  have hf := d.frac_lt
  obtain ⟨k, hk⟩ : ∃ k, d.expo = 1023 + k := ⟨d.expo - 1023, by omega⟩
  have hb : 2 ^ k ≤ d.trunc ∧ d.trunc < 2 ^ (k + 1) := by
    rcases Nat.le_total d.expo 1075 with hu | hu
    · rw [trunc_of_le h hu]
      have hs : 1075 - d.expo = 52 - k := by omega
      rw [hs, Nat.le_div_iff_mul_le (by positivity), Nat.div_lt_iff_lt_mul (by positivity),
        ← pow_add, ← pow_add]
      have h1 : k + (52 - k) = 52 := by omega
      have h2 : k + 1 + (52 - k) = 53 := by omega
      rw [h1, h2]
      omega
    · rw [trunc_of_ge hu]
      have hs : d.expo - 1075 = k - 52 := by omega
      have h1 : (2 : Nat) ^ k = 2 ^ 52 * 2 ^ (k - 52) := two_pow_eq_mul (by omega)
      have h2 : (2 : Nat) ^ (k + 1) = 2 ^ 53 * 2 ^ (k - 52) := two_pow_eq_mul (by omega)
      rw [hs, h1, h2]
      exact ⟨Nat.mul_le_mul_right _ (by omega), Nat.mul_lt_mul_of_pos_right (by omega) (by positivity)⟩
  have hle : d.trunc.size ≤ k + 1 := Nat.size_le.mpr hb.2
  have hge : k < d.trunc.size := Nat.lt_size.mpr hb.1
  omega

/-- Integer part and fraction bits put the magnitude together again. -/
theorem mag_eq_trunc_add (hl : 1023 ≤ d.expo) (hu : d.expo ≤ 1075) :
    d.mag = (d.trunc * 2 ^ (1075 - d.expo) + d.word % 2 ^ (1075 - d.expo)) * 2 ^ (d.expo - 1) := by
  have hdvd : (2 : Nat) ^ (1075 - d.expo) ∣ 2 ^ 52 := pow_dvd_pow 2 (by omega)
  have hw : d.word % 2 ^ (1075 - d.expo) = (2 ^ 52 + d.frac) % 2 ^ (1075 - d.expo) := by
    have hdvd' : (2 : Nat) ^ (1075 - d.expo) ∣ 2 ^ 63 := hdvd.trans (by decide)
    have hf : d.frac = d.word % 2 ^ 63 % 2 ^ 52 := rfl
    rw [Nat.add_mod, Nat.mod_eq_zero_of_dvd hdvd, Nat.zero_add, Nat.mod_mod, hf,
      Nat.mod_mod_of_dvd _ hdvd, Nat.mod_mod_of_dvd _ hdvd']
  rw [mag_eq_of_expo_pos (by omega), trunc_of_le hl hu, hw, Nat.mul_comm (_ / _), Nat.div_add_mod]

end

/-! Conversions from integers that are exactly representable. -/

theorem fields_ofWord {e f : Nat} (he : e < 2048) (hf : f < 2 ^ 52) :
    (ofWord (e * 2 ^ 52 + f)).signbit = false ∧ (ofWord (e * 2 ^ 52 + f)).low = e * 2 ^ 52 + f := by
  have hw : e * 2 ^ 52 + f < 2 ^ 63 := by omega
  constructor
  · rw [signbit, word_ofWord (by omega)]
    simpa using hw
  · rw [low, word_ofWord (by omega), Nat.mod_eq_of_lt hw]

/-- The word `ofNat` builds from a significand with its leading bit. -/
theorem mag_ofWord {k m : Nat} (hk : 0 < k) (hk' : k ≤ 64) (hl : 2 ^ 52 ≤ m) (hu : m < 2 ^ 53) :
    (ofWord ((k + 1021) * 2 ^ 52 + m)).mag = m * 2 ^ (k + 1021) ∧
      (ofWord ((k + 1021) * 2 ^ 52 + m)).signbit = false := by
  obtain ⟨f, rfl⟩ := Nat.exists_eq_add_of_le hl
  have hf : f < 2 ^ 52 := by omega
  have hm : (k + 1021) * 2 ^ 52 + (2 ^ 52 + f) = (k + 1022) * 2 ^ 52 + f := by ring
  obtain ⟨hs, hlow⟩ := fields_ofWord (show k + 1022 < 2048 by omega) hf
  rw [hm, mag, hlow, magOf_eq _ _ hf, if_neg (Nat.succ_ne_zero _)]
  exact ⟨rfl, hs⟩

theorem pow_size_le {n : Nat} (h : 0 < n) : 2 ^ (n.size - 1) ≤ n :=
  Nat.lt_size.mp (by have := Nat.size_pos.mpr h; omega)

theorem signif_bounds {n : Nat} (h : 0 < n) (hs : n.size ≤ 53) :
    2 ^ 52 ≤ n * 2 ^ (53 - n.size) ∧ n * 2 ^ (53 - n.size) < 2 ^ 53 := by
  have hp := Nat.size_pos.mpr h
  have h1 : (2 : Nat) ^ 52 = 2 ^ (n.size - 1) * 2 ^ (53 - n.size) := two_pow_eq_mul (by omega)
  have h2 : (2 : Nat) ^ 53 = 2 ^ n.size * 2 ^ (53 - n.size) := two_pow_eq_mul (by omega)
  rw [h1, h2]
  exact ⟨Nat.mul_le_mul_right _ (pow_size_le h),
    Nat.mul_lt_mul_of_pos_right (Nat.lt_size_self n) (by positivity)⟩

/-- An integer of at most 53 bits is converted exactly. -/
theorem ofNat_of_size_le {n : Nat} (hs : n.size ≤ 53) :
    (ofNat n).mag = n * unit ∧ (ofNat n).signbit = false := by
  by_cases h0 : n = 0
  · subst h0
    exact ⟨by simp [ofNat]; decide, by decide⟩
  · have hpos : 0 < n := by omega
    have hp := Nat.size_pos.mpr hpos
    obtain ⟨hl, hu⟩ := signif_bounds hpos hs
    obtain ⟨hm, hsg⟩ := mag_ofWord hp (by omega) hl hu
    rw [ofNat, if_neg h0, if_pos hs]
    refine ⟨?_, hsg⟩
    rw [hm, unit, Nat.mul_assoc, ← two_pow_eq_mul]
    omega

/-- An integer whose bits beyond the first 53 are zero is converted exactly. -/
theorem ofNat_of_dvd {m k : Nat} (hl : 2 ^ 52 ≤ m) (hu : m < 2 ^ 53) (hk : 0 < k) (hk' : k ≤ 11) :
    (ofNat (m * 2 ^ k)).mag = m * 2 ^ k * unit ∧ (ofNat (m * 2 ^ k)).signbit = false := by
  have hsize : (m * 2 ^ k).size = 53 + k := by
    have h1 : (m * 2 ^ k).size ≤ 53 + k := by
      rw [Nat.size_le, pow_add]
      exact Nat.mul_lt_mul_of_pos_right hu (by positivity)
    have h2 : 52 + k < (m * 2 ^ k).size := by
      rw [Nat.lt_size, pow_add]
      exact Nat.mul_le_mul_right _ hl
    omega
  have h0 : m * 2 ^ k ≠ 0 := by positivity
  have hq : m * 2 ^ k / 2 ^ k = m := Nat.mul_div_cancel _ (by positivity)
  have hr : m * 2 ^ k % 2 ^ k = 0 := Nat.mul_mod_left _ _
  have hp : (2 : Nat) ^ k ≠ 0 := by positivity
  obtain ⟨hm, hsg⟩ := mag_ofWord (k := 53 + k) (by omega) (by omega) hl hu
  rw [ofNat, if_neg h0, hsize, if_neg (by omega)]
  simp only [Nat.add_sub_cancel_left, hq, hr, Nat.mul_zero, Nat.not_lt_zero, false_or]
  rw [if_neg (by simp [hp.symm])]
  refine ⟨?_, hsg⟩
  rw [hm, unit, Nat.mul_assoc, ← two_pow_eq_mul]
  omega

/-- The integer part of a double below `2 ^ 64` converts back to that integer exactly. -/
theorem ofNat_trunc {d : Binary64} (h : 1023 ≤ d.expo) (hb : d.trunc < 2 ^ 64) :
    (ofNat d.trunc).mag = d.trunc * unit ∧ (ofNat d.trunc).signbit = false := by
  have hsz := size_trunc h
  rcases Nat.le_total d.expo 1075 with hu | hu
  · exact ofNat_of_size_le (by omega)
  · rcases Nat.eq_or_lt_of_le hu with he | hlt
    · exact ofNat_of_size_le (by omega)
    · have hle : d.trunc.size ≤ 64 := Nat.size_le.mpr hb
      have hf := d.frac_lt
      rw [trunc_of_ge hu]
      exact ofNat_of_dvd (by omega) (by omega) (by omega) (by omega)

theorem not_isNaN_of_mag_lt {d : Binary64} (h : d.mag < 2 ^ 64 * unit) : d.isNaN = false := by
  have hlt : d.expo < 1087 := by
    by_contra hge
    have hm := mag_of_ge (d := d) (by omega)
    have hp : (2 : Nat) ^ 12 ≤ 2 ^ (d.expo - 1075) := Nat.pow_le_pow_right (by decide) (by omega)
    have hbig : (2 : Nat) ^ 64 ≤ (2 ^ 52 + d.frac) * 2 ^ (d.expo - 1075) :=
      calc (2 : Nat) ^ 64 = 2 ^ 52 * 2 ^ 12 := by norm_num
        _ ≤ (2 ^ 52 + d.frac) * 2 ^ (d.expo - 1075) := Nat.mul_le_mul (by omega) hp
    have := Nat.mul_le_mul_right unit hbig
    omega
  simp only [isNaN, decide_eq_false_iff_not]
  omega

/-- An integer up to `2 ^ 53` is converted exactly. -/
theorem ofNat_of_le {n : Nat} (h : n ≤ 2 ^ 53) :
    (ofNat n).mag = n * unit ∧ (ofNat n).signbit = false := by
  rcases Nat.lt_or_eq_of_le h with hlt | rfl
  · exact ofNat_of_size_le (Nat.size_le.mpr hlt)
  · rw [two_pow_eq_mul (show 53 = 52 + 1 from rfl)]
    exact ofNat_of_dvd le_rfl (by decide) (by decide) (by decide)

theorem ofNat_two_pow_63 :
    (ofNat (2 ^ 63)).mag = 2 ^ 63 * unit ∧ (ofNat (2 ^ 63)).signbit = false := by
  rw [two_pow_eq_mul (show 63 = 52 + 11 from rfl)]
  exact ofNat_of_dvd le_rfl (by decide) (by decide) (by decide)

theorem unit_pos : 0 < unit := by unfold unit; positivity

section
variable {n : Nat} (h : (ofNat n).mag = n * unit ∧ (ofNat n).signbit = false)
include h

theorem scaled_ofNat : (ofNat n).scaled = n * unit := by
  rw [scaled, h.1, h.2, if_neg Bool.false_ne_true, Nat.cast_mul]

theorem isNaN_ofNat (hn : n < 2 ^ 64) : (ofNat n).isNaN = false := by
  apply not_isNaN_of_mag_lt
  rw [h.1]
  exact Nat.mul_lt_mul_of_pos_right hn unit_pos

end

section
variable {n : Int}
  (h : (ofNat n.natAbs).mag = n.natAbs * unit ∧ (ofNat n.natAbs).signbit = false)
include h

theorem scaled_ofInt : (ofInt n).scaled = n * unit := by
  by_cases hn : n < 0
  · rw [ofInt, if_pos hn, scaled_neg, scaled_ofNat h, ← Int.neg_mul]
    congr 1
    omega
  · rw [ofInt, if_neg hn, scaled_ofNat h]
    congr 1
    omega

theorem isNaN_ofInt (hn : n.natAbs < 2 ^ 64) : (ofInt n).isNaN = false := by
  by_cases hs : n < 0
  · rw [ofInt, if_pos hs, isNaN_neg, isNaN_ofNat h hn]
  · rw [ofInt, if_neg hs, isNaN_ofNat h hn]

end

/-- A double without a fraction is its integer part, converted back. -/
theorem ofInt_truncInt {d : Binary64} (h : 1023 ≤ d.expo) (hb : d.trunc < 2 ^ 64)
    (hm : d.mag = d.trunc * unit) : ofInt d.truncInt = d := by
  obtain ⟨h1, h2⟩ := ofNat_trunc h hb
  have hpos : 0 < d.trunc := by
    have := size_trunc h
    exact Nat.size_pos.mp (by omega)
  cases hs : d.signbit with
  | false =>
    rw [truncInt, if_neg (by simp [hs]), ofInt, if_neg (by omega), Int.natAbs_natCast]
    exact ext_scaled (h2.trans hs.symm) (h1.trans hm.symm)
  | true =>
    rw [truncInt, if_pos hs, ofInt, if_pos (by omega), Int.natAbs_neg, Int.natAbs_natCast]
    refine ext_scaled ?_ ((mag_neg _).trans (h1.trans hm.symm))
    rw [signbit_neg, h2, hs]
    rfl

theorem eq_self {d : Binary64} (h : d.isNaN = false) : d.eq d = true := by
  simp [eq, h]

/-- A double is an integer, or below `2 ^ 53` where fractions exist. -/
theorem mag_eq_or_lt (d : Binary64) : d.mag = d.trunc * unit ∨ d.mag < 2 ^ 53 * unit := by
  rcases Nat.lt_or_ge d.expo 1075 with hlt | hge
  · right
    have hf := d.frac_lt
    rcases Nat.eq_zero_or_pos d.expo with h0 | hpos
    · rw [mag, low_eq, magOf_eq _ _ hf, if_pos h0]
      have := Nat.mul_le_mul_left (2 ^ 53) (show 1 ≤ unit from unit_pos)
      omega
    · rw [mag_eq_of_expo_pos hpos]
      have hp : (2 : Nat) ^ (d.expo - 1) ≤ unit := by
        have hu : unit = 2 ^ (d.expo - 1) * 2 ^ (1075 - d.expo) := two_pow_eq_mul (by omega)
        rw [hu]
        exact Nat.le_mul_of_pos_right _ (by positivity)
      exact Nat.mul_lt_mul_of_lt_of_le (by omega) hp unit_pos
  · left
    rw [trunc_of_ge hge, mag_of_ge hge]

end Binary64
