import MongolDb.Bson.NumericOrder
import MongolDb.KeyString.Encode
import MongolDb.Lib.OrderedCode

/-! The bytes of a number are ordered by its value, for integers and doubles alike. -/
namespace MongolDb.KeyString
open ByteOrder Bson Binary64

/-! Magnitudes from one up to the range of a long, in units of the least positive double. -/

/-- The integer part, shifted to make room for the flag of a fraction. -/
def preshifted (m : Nat) : Nat := m / unit * 2 + if m % unit = 0 then 0 else 1

def bytesNeeded (value : Nat) : Nat := (value.size + 7) / 8

def fractionalBits (m : Nat) : Nat := 53 - (m / unit).size

/-- The bits below the integer part of a double, and nothing for an integer. -/
def fractionBytes (m : Nat) : Bytes :=
  if m % unit = 0 then []
  else be ((fractionalBits m + 7) / 8) (m % unit / 2 ^ (1074 - fractionalBits m))

/-- The fraction, if any, is one of 53 significant bits. -/
def Fits (m : Nat) : Prop := 2 ^ (1074 - fractionalBits m) ∣ m % unit

/-- `MagCode negative m c p`: a number of magnitude `m` and that sign has the positive type byte
`c` and, before any inversion, the bytes `p`. -/
inductive MagCode (negative : Bool) : Nat → Nat → Bytes → Prop
  | small (d : Binary64) (hs : d.signbit = negative) (hpos : 0 < d.mag) (hlt : d.mag < unit) :
      MagCode negative d.mag 42 (be 8 d.word)
  | mid (m : Nat) (hl : unit ≤ m) (hu : m < 2 ^ 63 * unit) (hx : Fits m) :
      MagCode negative m (42 + bytesNeeded (preshifted m))
        (be (bytesNeeded (preshifted m)) (preshifted m) ++ fractionBytes m)
  | large (d : Binary64) (hs : d.signbit = negative) (hl : 2 ^ 63 * unit ≤ d.mag) :
      MagCode negative d.mag 51 (be 8 d.word)

section Magnitudes
variable {negative : Bool} {m m' c c' : Nat} {p p' : Bytes}

theorem lt_pow_bytesNeeded (v : Nat) : v < 256 ^ bytesNeeded v := by
  have h : v.size ≤ 8 * bytesNeeded v := by
    unfold bytesNeeded
    omega
  calc v < 2 ^ v.size := Nat.lt_size_self v
    _ ≤ 2 ^ (8 * bytesNeeded v) := Nat.pow_le_pow_right (by decide) h
    _ = 256 ^ bytesNeeded v := pow_mul 2 8 _

theorem bytesNeeded_mono {v w : Nat} (h : v ≤ w) : bytesNeeded v ≤ bytesNeeded w := by
  have := Nat.size_le_size h
  unfold bytesNeeded
  omega

theorem bytesNeeded_preshifted (hl : unit ≤ m) (hu : m < 2 ^ 63 * unit) :
    1 ≤ bytesNeeded (preshifted m) ∧ bytesNeeded (preshifted m) ≤ 8 := by
  have h1 : 1 ≤ m / unit := (Nat.one_le_div_iff unit_pos).mpr hl
  have h2 : m / unit < 2 ^ 63 := (Nat.div_lt_iff_lt_mul unit_pos).mpr hu
  have h3 : 0 < preshifted m := by unfold preshifted; omega
  have h4 : preshifted m < 2 ^ 64 := by unfold preshifted; split <;> omega
  have h5 := Nat.size_pos.mpr h3
  have h6 := Nat.size_le.mpr h4
  unfold bytesNeeded
  omega

theorem preshifted_mono (h : m ≤ m') : preshifted m ≤ preshifted m' := by
  have hq : m / unit ≤ m' / unit := Nat.div_le_div_right h
  have hm := Nat.div_add_mod m unit
  have hm' := Nat.div_add_mod m' unit
  unfold preshifted
  rcases Nat.lt_or_eq_of_le hq with hlt | heq
  · split <;> split <;> omega
  · rw [heq] at hm ⊢
    split <;> split <;> omega

/-- Two magnitudes with one integer part and one flag differ in their fraction's bytes. -/
theorem below_fractionBytes (h : m < m') (he : preshifted m = preshifted m') (hx : Fits m') :
    Below (fractionBytes m) (fractionBytes m') := by
  have hm := Nat.div_add_mod m unit
  have hm' := Nat.div_add_mod m' unit
  have hq : m / unit = m' / unit := by
    unfold preshifted at he
    split at he <;> split at he <;> omega
  have hr : m % unit < m' % unit := by
    rw [hq] at hm
    omega
  have hz : ¬ m % unit = 0 := by
    unfold preshifted at he
    intro h0
    rw [if_pos h0, if_neg (by omega)] at he
    omega
  have hf : fractionalBits m = fractionalBits m' := by unfold fractionalBits; rw [hq]
  rw [fractionBytes, fractionBytes, if_neg hz, if_neg (by omega), hf]
  refine below_be (Nat.div_lt_div_of_lt_of_dvd hx hr) ?_
  have hf' : fractionalBits m' ≤ 53 := Nat.sub_le _ _
  have hu : unit = 2 ^ fractionalBits m' * 2 ^ (1074 - fractionalBits m') :=
    two_pow_eq_mul (by omega)
  have hb : m' % unit / 2 ^ (1074 - fractionalBits m') < 2 ^ fractionalBits m' := by
    apply (Nat.div_lt_iff_lt_mul (by positivity)).mpr
    rw [← hu]
    exact Nat.mod_lt _ unit_pos
  calc m' % unit / 2 ^ (1074 - fractionalBits m') < 2 ^ fractionalBits m' := hb
    _ ≤ 2 ^ (8 * ((fractionalBits m' + 7) / 8)) := Nat.pow_le_pow_right (by decide) (by omega)
    _ = 256 ^ ((fractionalBits m' + 7) / 8) := pow_mul 2 8 _

theorem below_words {d e : Binary64} (hs : d.signbit = e.signbit) (h : d.mag < e.mag) :
    Below (be 8 d.word) (be 8 e.word) :=
  below_be (by
    rw [d.word_eq, e.word_eq, hs]
    exact Nat.add_lt_add_left (mag_lt_iff.mp h) _) e.word_lt

section
variable (h : MagCode negative m c p)
include h

theorem MagCode.pos : 0 < m := by
  have hu := unit_pos
  cases h with
  | small d hs hpos hlt => exact hpos
  | mid m hl hu' hx => exact hu.trans_le hl
  | large d hs hl => exact (Nat.mul_pos (by decide) hu).trans_le hl

theorem MagCode.bounds : 42 ≤ c ∧ c ≤ 51 := by
  cases h with
  | small d hs hpos hlt => omega
  | mid m hl hu hx =>
    have := bytesNeeded_preshifted hl hu
    omega
  | large d hs hl => omega

theorem MagCode.lt (h' : MagCode negative m' c' p') (hlt : m < m') :
    c < c' ∨ c = c' ∧ Below p p' := by
  cases h with
  | small d hs hpos hd =>
    cases h' with
    | small e hs' => exact .inr ⟨rfl, below_words (hs.trans hs'.symm) hlt⟩
    | mid m' hl' hu' =>
      have := bytesNeeded_preshifted hl' hu'
      omega
    | large => omega
  | mid m hl hm hx =>
    have hb := bytesNeeded_preshifted hl hm
    cases h' with
    | small e => omega
    | mid m' hl' hu' hx' =>
      have hb' := bytesNeeded_mono (preshifted_mono hlt.le)
      rcases Nat.lt_or_eq_of_le hb' with hn | hn
      · omega
      · refine .inr ⟨by omega, ?_⟩
        rw [hn]
        rcases Nat.lt_or_eq_of_le (preshifted_mono hlt.le) with hv | hv
        · exact (below_be hv (lt_pow_bytesNeeded _)).append_right _ _
        · rw [hv]
          exact (below_fractionBytes hlt hv hx').append_left _
    | large => omega
  | large d hs hl =>
    cases h' with
    | small | mid => omega
    | large e hs' => exact .inr ⟨rfl, below_words (hs.trans hs'.symm) hlt⟩

theorem MagCode.unique (h' : MagCode negative m' c' p') (he : m = m') : c = c' ∧ p = p' := by
  cases h with
  | small d hs hpos hd =>
    cases h' with
    | small e hs' => exact ⟨rfl, by rw [ext_scaled (hs.trans hs'.symm) he]⟩
    | mid | large => omega
  | mid m hl hm hx =>
    cases h' with
    | small e => omega
    | mid m' => exact ⟨by rw [he], by rw [he]⟩
    | large => omega
  | large d hs hl =>
    cases h' with
    | small | mid => omega
    | large e hs' => exact ⟨rfl, by rw [ext_scaled (hs.trans hs'.symm) he]⟩

/-- The type bytes decide, or else the bytes that follow. -/
theorem MagCode.compare_eq (h' : MagCode negative m' c' p') :
    ∃ o, compare m m' = (compare c c').then o ∧ (compare c c' = .eq → Ordered o p p') := by
  rcases Nat.lt_trichotomy m m' with hlt | heq | hgt
  · rw [Nat.compare_eq_lt.mpr hlt]
    rcases h.lt h' hlt with hc | ⟨rfl, hp⟩
    · exact ⟨.eq, by rw [Nat.compare_eq_lt.mpr hc]; rfl, by simp [Nat.compare_eq_lt.mpr hc]⟩
    · exact ⟨.lt, by rw [Nat.compare_eq_eq.mpr rfl]; rfl, fun _ => hp⟩
  · obtain ⟨rfl, rfl⟩ := h.unique h' heq
    exact ⟨.eq, by rw [Nat.compare_eq_eq.mpr rfl, Nat.compare_eq_eq.mpr heq]; rfl, fun _ => rfl⟩
  · rw [Nat.compare_eq_gt.mpr hgt]
    rcases h'.lt h hgt with hc | ⟨rfl, hp⟩
    · exact ⟨.eq, by rw [Nat.compare_eq_gt.mpr hc]; rfl, by simp [Nat.compare_eq_gt.mpr hc]⟩
    · exact ⟨.gt, by rw [Nat.compare_eq_eq.mpr rfl]; rfl, fun _ => hp⟩

end

end Magnitudes

/-! Numbers with their sign. -/

/-- The bytes of a number of a given value; those of a negative one are inverted. -/
inductive NumCode : Option Int → Bytes → Prop
  | nan : NumCode none [CType.kNumericNaN]
  | zero : NumCode (some 0) [CType.kNumericZero]
  | pos {m c : Nat} {p : Bytes} (h : MagCode false m c p) :
      NumCode (some m) (UInt8.ofNat c :: p)
  | neg {m c : Nat} {p : Bytes} (h : MagCode true m c p) :
      NumCode (some (-m)) (UInt8.ofNat (82 - c) :: flip p)

section Numbers
variable {k k' : Option Int} {u u' : Bytes}

theorem toNat_ctype {c : Nat} (h : c ≤ 51) : (UInt8.ofNat c).toNat = c := by
  simp [UInt8.toNat_ofNat']
  omega

theorem ordered_pos {m m' c c' : Nat} {p p' : Bytes} (h : MagCode false m c p)
    (h' : MagCode false m' c' p') :
    Ordered (compare m m') (UInt8.ofNat c :: p) (UInt8.ofNat c' :: p') := by
  obtain ⟨o, ho, hp⟩ := h.compare_eq h'
  have hb := ordered_byte (UInt8.ofNat c) (UInt8.ofNat c')
  rw [toNat_ctype h.bounds.2, toNat_ctype h'.bounds.2] at hb
  rw [ho]
  exact hb.then_ordered hp

theorem ordered_neg {m m' c c' : Nat} {p p' : Bytes} (h : MagCode true m c p)
    (h' : MagCode true m' c' p') :
    Ordered (compare m m').swap (UInt8.ofNat (82 - c) :: flip p)
      (UInt8.ofNat (82 - c') :: flip p') := by
  obtain ⟨o, ho, hp⟩ := h.compare_eq h'
  have h1 := h.bounds
  have h2 := h'.bounds
  have hb := ordered_byte (UInt8.ofNat (82 - c)) (UInt8.ofNat (82 - c'))
  have hc : compare (82 - c) (82 - c') = (compare c c').swap := by
    rw [Nat.compare_swap]
    exact ThreeWay.compare_congr (by omega) (by omega)
  rw [toNat_ctype (by omega), toNat_ctype (by omega), hc] at hb
  rw [ho, Ordering.swap_then]
  refine hb.then_ordered fun he => (hp ?_).flip
  simpa using congrArg Ordering.swap he

theorem compareNumericKeys_pos (m m' : Nat) :
    compareNumericKeys (some (m : Int)) (some (m' : Int)) = compare m m' :=
  ThreeWay.compare_congr (by omega) (by omega)

theorem compareNumericKeys_neg (m m' : Nat) :
    compareNumericKeys (some (-(m : Int))) (some (-(m' : Int))) = (compare m m').swap := by
  rw [Nat.compare_swap]
  exact ThreeWay.compare_congr (by omega) (by omega)

/-- NaN, negative, zero, positive. -/
def numericClass : Option Int → Nat
  | none => 0
  | some k => if k < 0 then 1 else if k = 0 then 2 else 3

theorem numericClass_pos {m : Nat} (h : 0 < m) : numericClass (some (m : Int)) = 3 := by
  simp only [numericClass]
  rw [if_neg (by omega), if_neg (by omega)]

theorem numericClass_neg {m : Nat} (h : 0 < m) : numericClass (some (-(m : Int))) = 1 := by
  simp only [numericClass]
  rw [if_pos (by omega)]

theorem compareNumericKeys_of_class_lt (h : numericClass k < numericClass k') :
    compareNumericKeys k k' = .lt := by
  cases k with
  | none =>
    cases k' with
    | none => exact absurd h (lt_irrefl _)
    | some r => rfl
  | some l =>
    cases k' with
    | none => exact absurd h (Nat.not_lt_zero _)
    | some r =>
      apply compare_lt_iff_lt.mpr
      simp only [numericClass] at h
      grind

theorem NumCode.head (h : NumCode k u) :
    ∃ a t, u = a :: t ∧ numericClass k ≤ 3 ∧ 30 ≤ a.toNat ∧ a.toNat ≤ 51 ∧
      (a.toNat = 30 ↔ numericClass k = 0) ∧ (a.toNat ≤ 40 ↔ numericClass k ≤ 1) ∧
      (a.toNat ≤ 41 ↔ numericClass k ≤ 2) := by
  cases h with
  | nan | zero => exact ⟨_, _, rfl, by decide⟩
  | pos h =>
    have hb := h.bounds
    refine ⟨_, _, rfl, ?_⟩
    rw [toNat_ctype hb.2, numericClass_pos h.pos]
    omega
  | neg h =>
    have hb := h.bounds
    refine ⟨_, _, rfl, ?_⟩
    rw [toNat_ctype (by omega), numericClass_neg h.pos]
    omega

/-- The type bytes of the four classes do not overlap. -/
theorem NumCode.below_of_class_lt (h : NumCode k u) (h' : NumCode k' u')
    (hc : numericClass k < numericClass k') : Below u u' := by
  obtain ⟨a, t, rfl, ha⟩ := h.head
  obtain ⟨b, t', rfl, hb⟩ := h'.head
  exact below_cons (by omega)

theorem NumCode.ordered_of_class_eq (h : NumCode k u) (h' : NumCode k' u')
    (hc : numericClass k = numericClass k') : Ordered (compareNumericKeys k k') u u' := by
  have zero : numericClass (some 0) = 2 := rfl
  have nan : numericClass none = 0 := rfl
  cases h <;> cases h'
  case nan.nan | zero.zero => rfl
  case pos.pos =>
    rw [compareNumericKeys_pos]
    exact ordered_pos ‹_› ‹_›
  case neg.neg =>
    rw [compareNumericKeys_neg]
    exact ordered_neg ‹_› ‹_›
  -- the others are of different classes
  all_goals grind [MagCode.pos, numericClass_pos, numericClass_neg]

/-- The bytes of two numbers stand in the order of the numbers. -/
theorem NumCode.ordered (h : NumCode k u) (h' : NumCode k' u') :
    Ordered (compareNumericKeys k k') u u' := by
  rcases Nat.lt_trichotomy (numericClass k) (numericClass k') with hc | hc | hc
  · rw [compareNumericKeys_of_class_lt hc]
    exact h.below_of_class_lt h' hc
  · exact h.ordered_of_class_eq h' hc
  · rw [← compareNumericKeys_swap, compareNumericKeys_of_class_lt hc]
    exact h'.below_of_class_lt h hc

end Numbers

/-! The encoder's bytes are these. -/

theorem bytes_appendPreshiftedIntegerPortion (v : Nat) (negative : Bool) :
    (appendPreshiftedIntegerPortion v negative false).bytes =
      (if negative then CType.kNumericNegative1ByteInt - UInt8.ofNat (bytesNeeded v - 1)
        else CType.kNumericPositive1ByteInt + UInt8.ofNat (bytesNeeded v - 1)) ::
      flipIf negative (be (bytesNeeded v) v) := by
  cases negative <;> rfl

theorem intCType {n : Nat} (h : 1 ≤ n) (h' : n ≤ 8) :
    CType.kNumericPositive1ByteInt + UInt8.ofNat (n - 1) = UInt8.ofNat (42 + n) ∧
      CType.kNumericNegative1ByteInt - UInt8.ofNat (n - 1) = UInt8.ofNat (82 - (42 + n)) := by
  have key : ∀ i : Fin 9, 1 ≤ i.val →
      CType.kNumericPositive1ByteInt + UInt8.ofNat (i.val - 1) = UInt8.ofNat (42 + i.val) ∧
        CType.kNumericNegative1ByteInt - UInt8.ofNat (i.val - 1) =
          UInt8.ofNat (82 - (42 + i.val)) := by
    decide
  exact key ⟨n, by omega⟩ h

/-- A number of middle magnitude, given the bytes of its integer part and of its fraction. -/
theorem numCode_mid {m : Nat} {negative : Bool} {u : Bytes} (hl : unit ≤ m)
    (hu : m < 2 ^ 63 * unit) (hx : Fits m)
    (h : u = (appendPreshiftedIntegerPortion (preshifted m) negative false).bytes ++
      flipIf negative (fractionBytes m)) :
    NumCode (some (if negative then -(m : Int) else m)) u := by
  obtain ⟨h1, h2⟩ := bytesNeeded_preshifted hl hu
  obtain ⟨hpos, hneg⟩ := intCType h1 h2
  rw [h, bytes_appendPreshiftedIntegerPortion, List.cons_append, ← flipIf_append]
  cases negative with
  | false =>
    simp only [if_neg Bool.false_ne_true, hpos]
    exact .pos (.mid m hl hu hx)
  | true =>
    rw [if_pos rfl, if_pos rfl, hneg]
    exact .neg (.mid m hl hu hx)

theorem doubleKey_ofNat {n : Nat} (h : n ≤ 2 ^ 53) :
    doubleKey (Binary64.ofNat n) = some (n * (unit : Int)) := by
  have he := ofNat_of_le h
  rw [doubleKey_of_not_isNaN (isNaN_ofNat he (by omega)), scaled_ofNat he]

theorem zero_lt_eq {d : Binary64} (hn : d.isNaN = false) :
    (Binary64.ofNat 0).lt d = decide (0 < d.scaled) := by
  have h := (lt_eq_doubleKey (doubleKey_ofNat (Nat.zero_le _)) (doubleKey_of_not_isNaN hn)).1
  rwa [Nat.cast_zero, Int.zero_mul] at h

theorem scaled_eq (d : Binary64) :
    d.scaled = if decide (d.scaled < 0) then -(d.mag : Int) else d.mag := by
  cases hs : d.signbit <;> simp [scaled, hs]

/-- The number with its sign removed. -/
theorem magnitude_of_double {d : Binary64} (hn : d.isNaN = false) :
    doubleKey (if decide (d.scaled < 0) then d.neg else d) = some (d.mag : Int) ∧
      (if decide (d.scaled < 0) then d.neg else d).mag = d.mag := by
  have hs := scaled_eq d
  by_cases h : d.scaled < 0
  · rw [if_pos (by simpa using h)] at hs ⊢
    rw [doubleKey_of_not_isNaN ((isNaN_neg d).trans hn), scaled_neg, hs, Int.neg_neg]
    exact ⟨rfl, mag_neg d⟩
  · rw [if_neg (by simpa using h)] at hs ⊢
    rw [doubleKey_of_not_isNaN hn, hs]
    exact ⟨rfl, rfl⟩

/-- A double that is stored as its word, by its sign. -/
theorem numCode_signed {d : Binary64} {c : Nat} {p : Bytes} {x y : Output} (hn : d.isNaN = false)
    (h : MagCode d.signbit d.mag c p) (hx : x.bytes = UInt8.ofNat c :: p)
    (hy : y.bytes = UInt8.ofNat (82 - c) :: flip p) :
    NumCode (some d.scaled) (if (Binary64.ofNat 0).lt d then x else y).bytes := by
  have hpos := h.pos
  rw [zero_lt_eq hn]
  cases hs : d.signbit with
  | false =>
    have hsc : d.scaled = d.mag := by simp [scaled, hs]
    rw [hsc, if_pos (by simpa using hpos), hx]
    exact .pos (hs ▸ h)
  | true =>
    have hsc : d.scaled = -d.mag := by simp [scaled, hs]
    rw [hsc, if_neg (by simp), hy]
    exact .neg (hs ▸ h)

theorem numCode_large {d : Binary64} (hn : d.isNaN = false) (hl : 2 ^ 63 * unit ≤ d.mag) :
    NumCode (some d.scaled) (appendLargeDouble d false).bytes :=
  numCode_signed hn (.large d rfl hl) rfl rfl

theorem preshifted_mul (n : Nat) :
    preshifted (n * unit) = n * 2 ∧ fractionBytes (n * unit) = [] ∧ Fits (n * unit) := by
  have hr : n * unit % unit = 0 := Nat.mul_mod_left n unit
  refine ⟨?_, if_pos hr, ?_⟩
  · rw [preshifted, if_pos hr, Nat.mul_div_cancel _ unit_pos]
    rfl
  · rw [Fits, hr]
    exact dvd_zero _

theorem numCode_appendInteger {n : Int} (hl : -2 ^ 63 ≤ n) (hu : n < 2 ^ 63) :
    NumCode (longKey n) (appendInteger n false).bytes := by
  unfold appendInteger longKey
  by_cases hmin : n = -2 ^ 63
  · rw [if_pos hmin]
    have habs : n.natAbs = 2 ^ 63 := by omega
    have he : (Binary64.ofNat n.natAbs).mag = n.natAbs * unit ∧
        (Binary64.ofNat n.natAbs).signbit = false := by
      rw [habs]
      exact ofNat_two_pow_63
    have hmag : (Binary64.ofInt n).mag = 2 ^ 63 * unit := by
      rw [Binary64.ofInt, if_pos (by omega), mag_neg, he.1, habs]
    rw [← scaled_ofInt he]
    exact numCode_large (isNaN_ofInt he (by omega)) hmag.ge
  · rw [if_neg hmin]
    by_cases h0 : n = 0
    · rw [if_pos h0, h0, Int.zero_mul]
      exact .zero
    · rw [if_neg h0]
      obtain ⟨hp, hf, hx⟩ := preshifted_mul n.natAbs
      have hpos : 1 ≤ n.natAbs := by omega
      have hlt : n.natAbs < 2 ^ 63 := by omega
      have hk : n * (unit : Int) =
          if decide (n < 0) then -((n.natAbs * unit : Nat) : Int) else (n.natAbs * unit : Nat) := by
        by_cases hs : n < 0
        · have habs : (n.natAbs : Int) = -n := by omega
          rw [if_pos (by simpa using hs), Nat.cast_mul, habs, Int.neg_mul, Int.neg_neg]
        · have habs : (n.natAbs : Int) = n := by omega
          rw [if_neg (by simpa using hs), Nat.cast_mul, habs]
      rw [hk]
      refine numCode_mid (Nat.le_mul_of_pos_left _ hpos)
        (Nat.mul_lt_mul_of_pos_right hlt unit_pos) hx ?_
      rw [hp, hf, flipIf_nil, List.append_nil]

/-- The fraction of a double as the encoder cuts it out of the word. -/
theorem fraction_of_double {d : Binary64} (hl : 1023 ≤ d.expo) :
    Fits d.mag ∧ fractionBytes d.mag = if d.mag % unit = 0 then []
      else be ((53 - d.trunc.size + 7) / 8) (d.word % 2 ^ (53 - d.trunc.size)) := by
  have hsz := size_trunc hl
  have hbits : fractionalBits d.mag = 53 - d.trunc.size := rfl
  rcases Nat.lt_or_ge d.expo 1075 with hlt | hge
  · have hf : 53 - d.trunc.size = 1075 - d.expo := by omega
    have hmag := mag_eq_trunc_add hl hlt.le
    have hu : unit = 2 ^ (1075 - d.expo) * 2 ^ (d.expo - 1) := two_pow_eq_mul (by omega)
    have hr : d.mag % unit = d.word % 2 ^ (1075 - d.expo) * 2 ^ (d.expo - 1) := by
      rw [hmag, hu, Nat.mul_mod_mul_right, Nat.add_comm, Nat.add_mul_mod_self_right, Nat.mod_mod]
    have he : 1074 - (1075 - d.expo) = d.expo - 1 := by omega
    refine ⟨?_, ?_⟩
    · rw [Fits, hbits, hf, he, hr]
      exact Nat.dvd_mul_left _ _
    · rw [fractionBytes, hbits, hf, he, hr, Nat.mul_div_cancel _ (by positivity)]
  · have hr : d.mag % unit = 0 := by
      rw [mag_of_ge hge]
      exact Nat.mul_mod_left _ _
    refine ⟨?_, ?_⟩
    · rw [Fits, hr]
      exact dvd_zero _
    · rw [fractionBytes, if_pos hr, if_pos hr]

/-- The branch of the encoder for doubles with an integer part that fits a long. -/
theorem numCode_middle {d e : Binary64} (hl : unit ≤ d.mag) (hu : d.mag < 2 ^ 63 * unit)
    (hkey : doubleKey e = some (d.mag : Int)) :
    NumCode (some d.scaled) (if (Binary64.ofNat d.trunc).eq e then
        appendPreshiftedIntegerPortion (d.trunc * 2) (decide (d.scaled < 0)) false
      else
        appendPreshiftedIntegerPortion (d.trunc * 2 + 1) (decide (d.scaled < 0)) false ++
          appendBytes (be ((53 - d.trunc.size + 7) / 8) (d.word % 2 ^ (53 - d.trunc.size)))
            (if decide (d.scaled < 0) then !false else false)).bytes := by
  have hexp := unit_le_mag_iff.mp hl
  have ht : d.trunc < 2 ^ 63 := (Nat.div_lt_iff_lt_mul unit_pos).mpr hu
  have hex := ofNat_trunc hexp (by omega)
  have hdm : unit * d.trunc + d.mag % unit = d.mag := Nat.div_add_mod d.mag unit
  have hint := (lt_eq_doubleKey (doubleKey_of_not_isNaN (isNaN_ofNat hex (by omega))) hkey).2
  rw [scaled_ofNat hex] at hint
  obtain ⟨hx, hf⟩ := fraction_of_double hexp
  have hs := scaled_eq d
  generalize decide (d.scaled < 0) = negative at hs ⊢
  rw [hs]
  refine numCode_mid hl hu hx ?_
  rw [hint, hf, preshifted]
  by_cases hz : d.mag % unit = 0
  · have he : (d.trunc * unit : Int) = d.mag := by
      rw [hz, Nat.add_zero, Nat.mul_comm] at hdm
      exact_mod_cast hdm
    rw [if_pos (decide_eq_true he), if_pos hz, if_pos hz, flipIf_nil, List.append_nil]
    rfl
  · have he : ¬ (d.trunc * unit : Int) = d.mag := by
      intro he
      have : d.trunc * unit = d.mag := by exact_mod_cast he
      rw [Nat.mul_comm] at this
      omega
    simp only [if_neg (mt of_decide_eq_true he), if_neg hz, Output.bytes_append, bytes_appendBytes]
    cases negative <;> rfl

theorem numCode_appendNumberDouble (d : Binary64) :
    NumCode (doubleKey d) (appendNumberDouble d false).bytes := by
  unfold appendNumberDouble
  simp only [Output.bytes_append, bytes_appendTypeBits, List.nil_append]
  cases hn : d.isNaN with
  | true =>
    simp only [doubleKey, hn, if_true]
    exact .nan
  | false =>
    have hd := doubleKey_of_not_isNaN hn
    have hz := lt_eq_doubleKey hd (doubleKey_ofNat (Nat.zero_le _))
    rw [Nat.cast_zero, Int.zero_mul] at hz
    rw [if_neg Bool.false_ne_true, hz.1, hz.2, hd]
    by_cases h0 : d.scaled = 0
    · rw [h0, if_pos (decide_eq_true rfl)]
      exact .zero
    · rw [if_neg (mt of_decide_eq_true h0)]
      have hpos : 0 < d.mag := by
        unfold scaled at h0
        split at h0 <;> omega
      obtain ⟨hkey, hmag⟩ := magnitude_of_double hn
      -- the magnitude is `e` from here on
      generalize (if decide (d.scaled < 0) then d.neg else d) = e at hkey hmag ⊢
      rw [(lt_eq_doubleKey hkey (doubleKey_ofNat (n := 1) (by decide))).1,
        (lt_eq_doubleKey hkey
          (show doubleKey kMinLargeDouble = _ from doubleKey_kBoundOfLongRange.1)).1]
      by_cases hsmall : d.mag < unit
      · rw [if_pos (decide_eq_true (by omega))]
        exact numCode_signed hn (.small d rfl hpos hsmall) rfl rfl
      · rw [if_neg (by rw [decide_eq_true_eq]; omega)]
        have hl := Nat.le_of_not_lt hsmall
        by_cases hmid : d.mag < 2 ^ 63 * unit
        · rw [if_pos (decide_eq_true (by exact_mod_cast hmid)),
            show e.trunc = d.trunc by rw [trunc, hmag, trunc]]
          exact numCode_middle hl hmid hkey
        · rw [if_neg (mt of_decide_eq_true (by exact_mod_cast hmid))]
          exact numCode_large hn (Nat.le_of_not_lt hmid)

end MongolDb.KeyString
