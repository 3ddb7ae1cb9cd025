import MongolDb.KeyString.Readers

/-! Numbers come back from their bytes and type bits, doubles bit by bit. -/
namespace MongolDb.KeyString
open ByteOrder Bson Binary64 Option TypeBits

section Bits

theorem or_eq_add {b k : Nat} (a : Nat) (h : b < 2 ^ k) : a * 2 ^ k ||| b = a * 2 ^ k + b := by
  rw [Nat.mul_comm, Nat.two_pow_add_eq_or_of_lt h]

theorem foldFraction_eq (u : Bytes) (x : Nat) : foldFraction x u = x ||| ofBe u := by
  induction u generalizing x with
  | nil => simp [foldFraction, ofBe]
  | cons b u ih =>
    have h1 : ofBe [b] = b.toNat := by simp [ofBe]
    have h := ofBe_append [b] u
    have hlt := ofBe_lt u
    rw [show (256 : Nat) ^ u.length = 2 ^ (8 * u.length) from (pow_mul 2 8 _).symm] at h hlt
    rw [List.singleton_append, h1] at h
    rw [foldFraction, ih, h, Nat.shiftLeft_eq, ← or_eq_add _ hlt, Nat.or_assoc]

/-- Clearing bit 52 of a significand takes its leading bit away. -/
theorem clear_leading {x : Nat} (hl : 2 ^ 52 ≤ x) (hu : x < 2 ^ 53) :
    x &&& (2 ^ 64 - 1 - 2 ^ 52) = x - 2 ^ 52 := by
  have hq : (x &&& (2 ^ 64 - 1 - 2 ^ 52)) / 2 ^ 52 = x / 2 ^ 52 &&& ((2 ^ 64 - 1 - 2 ^ 52) / 2 ^ 52) :=
    Nat.and_div_two_pow
  have hr : (x &&& (2 ^ 64 - 1 - 2 ^ 52)) % 2 ^ 52 =
      x % 2 ^ 52 &&& ((2 ^ 64 - 1 - 2 ^ 52) % 2 ^ 52) := Nat.and_mod_two_pow
  have h1 : x / 2 ^ 52 = 1 := by omega
  have h2 : x % 2 ^ 52 &&& ((2 ^ 64 - 1 - 2 ^ 52) % 2 ^ 52) = x % 2 ^ 52 := by
    have hm : (2 ^ 64 - 1 - 2 ^ 52) % 2 ^ 52 = 2 ^ 52 - 1 := by decide
    rw [hm, Nat.and_two_pow_sub_one_eq_mod, Nat.mod_mod]
  have h3 : 1 &&& ((2 ^ 64 - 1 - 2 ^ 52) / 2 ^ 52) = 0 := by decide
  rw [h1, h3] at hq
  omega

variable {d : Binary64}

/-- The double that the decoder builds from the parts of `d`. -/
theorem rebuild_double (hl : 1023 ≤ d.expo) (hu : d.expo < 1075) :
    (((d.trunc <<< (1075 - d.expo)) &&& (2 ^ 64 - 1 - 2 ^ 52)) ||| (d.expo <<< 52)) |||
      (if d.signbit then 1 <<< 63 else 0) ||| d.word % 2 ^ (1075 - d.expo) = d.word := by
  obtain ⟨f, hf⟩ : ∃ f, f = 1075 - d.expo := ⟨_, rfl⟩
  have hfrac := d.frac_lt
  have hlt : d.word % 2 ^ f < 2 ^ f := Nat.mod_lt _ (by positivity)
  -- the significand, from the integer part and the fraction
  have hsplit : d.trunc * 2 ^ f + d.word % 2 ^ f = 2 ^ 52 + d.frac := by
    have h1 := mag_eq_trunc_add hl hu.le
    rw [mag_eq_of_expo_pos (by omega), ← hf] at h1
    exact (Nat.eq_of_mul_eq_mul_right (by positivity) h1).symm
  have hlead : 2 ^ (d.expo - 1023) ≤ d.trunc := by
    apply Nat.lt_size.mp
    rw [size_trunc hl]
    omega
  have h52 : (2 : Nat) ^ 52 = 2 ^ (d.expo - 1023) * 2 ^ f := two_pow_eq_mul (by omega)
  have hx : 2 ^ 52 ≤ d.trunc * 2 ^ f := by
    rw [h52]
    exact Nat.mul_le_mul_right _ hlead
  have hy : d.trunc * 2 ^ f - 2 ^ 52 = (d.trunc - 2 ^ (d.expo - 1023)) * 2 ^ f := by
    rw [h52, Nat.sub_mul]
  have hor : (d.trunc * 2 ^ f - 2 ^ 52) ||| d.word % 2 ^ f = d.frac := by
    rw [hy, or_eq_add _ hlt, ← hy]
    omega
  have hlow : d.expo * 2 ^ 52 ||| d.frac = d.low := by
    rw [or_eq_add _ hfrac, d.low_eq]
  have hword : (if d.signbit then 1 <<< 63 else 0) ||| d.low = d.word := by
    rw [d.word_eq]
    cases d.signbit with
    | false => exact (Nat.zero_or _).trans (Nat.zero_add _).symm
    | true => exact or_eq_add 1 d.low_lt
  have rearrange : ∀ a b c d : Nat, ((a ||| b) ||| c) ||| d = c ||| (b ||| (a ||| d)) := by
    intro a b c d
    ac_rfl
  rw [← hf, Nat.shiftLeft_eq, Nat.shiftLeft_eq, clear_leading hx (by omega), rearrange, hor, hlow,
    hword]

end Bits

/-- The bytes `c :: p` and the type bits `bits` are read back as `v`, whatever follows them. What
is read may depend on whether the field is descending. -/
def Reads (c : UInt8) (p : Bytes) (bits : List Bool) (v : Bool → Value) : Prop :=
  ∀ inverted rest r bs,
    Follows inverted rest → TypeBits.Serves r (bits ++ bs) →
    ∃ r', toBsonScalar c inverted ⟨flipIf inverted p ++ rest, r⟩ =
      some (v inverted, ⟨rest, r'⟩) ∧ TypeBits.Serves r' bs

/-- The value of a number without a fraction, by its original type. -/
def integerValue (originalType : List Bool) (n : Int) : Value :=
  if originalType = TypeBits.kDouble then .numberDouble (Binary64.ofInt n)
  else if originalType = TypeBits.kInt then .numberInt (Int32.ofInt n)
  else .numberLong (Int64.ofInt n)

/-- The reader `f` gives `v` for the bytes `p` and the type bits `bits`. -/
def ReadsBy (f : Bool → Input → Option (Value × Input)) (p : Bytes) (bits : List Bool)
    (v : Value) : Prop :=
  ∀ inverted rest r bs, TypeBits.Serves r (bits ++ bs) →
    ∃ r', f inverted ⟨flipIf inverted p ++ rest, r⟩ = some (v, ⟨rest, r'⟩) ∧
      TypeBits.Serves r' bs

theorem toBsonScalar_integer {n : Nat} (h : 1 ≤ n) (h' : n ≤ 8) (inverted : Bool)
    (input : Input) :
    toBsonScalar (UInt8.ofNat (42 + n)) inverted input = toBsonInteger n false inverted input ∧
      toBsonScalar (UInt8.ofNat (82 - (42 + n))) inverted input =
        toBsonInteger n true (!inverted) input := by
  have hn : n = 1 ∨ n = 2 ∨ n = 3 ∨ n = 4 ∨ n = 5 ∨ n = 6 ∨ n = 7 ∨ n = 8 := by omega
  rcases hn with rfl | rfl | rfl | rfl | rfl | rfl | rfl | rfl <;> exact ⟨rfl, rfl⟩

/-- Either sign: the bytes of a negative number are inverted once more. -/
theorem reads_signed {c : Nat} {p : Bytes} {bits : List Bool} {v : Value} {negative : Bool}
    {f : Bool → Bool → Input → Option (Value × Input)}
    (hc : ∀ inverted input, toBsonScalar (UInt8.ofNat c) inverted input = f false inverted input ∧
      toBsonScalar (UInt8.ofNat (82 - c)) inverted input = f true (!inverted) input)
    (hr : ReadsBy (f negative) p bits v) :
    Reads (if negative then UInt8.ofNat (82 - c) else UInt8.ofNat c) (flipIf negative p) bits
      fun _ => v := by
  intro inverted rest r bs _ hs
  cases negative with
  | false =>
    rw [if_neg Bool.false_ne_true, (hc _ _).1]
    exact hr inverted rest r bs hs
  | true =>
    rw [if_pos rfl, (hc _ _).2, flipIf_true, ← flipIf_not]
    exact hr (!inverted) rest r bs hs

theorem toBsonInteger_even {n : Nat} {negative : Bool} {lo hi : Bool}
    (ht : [lo, hi] ≠ kNegativeZero) :
    ReadsBy (toBsonInteger (bytesNeeded (n * 2)) negative) (be (bytesNeeded (n * 2)) (n * 2))
      [lo, hi] (integerValue [lo, hi] (if negative then -n else n)) := by
  intro inverted rest r bs hs
  obtain ⟨h1, h2⟩ := hs.readNumeric
  refine ⟨_, ?_, h2⟩
  have hval := ofBe_be (lt_pow_bytesNeeded (n * 2))
  simp only [toBsonInteger, readBytes_flipIf, length_be, bind_some, hval, h1, Nat.mul_mod_left, if_true,
    Nat.mul_div_cancel _ (show 0 < 2 by decide), integerValue]
  cases lo <;> cases hi <;> simp_all [kDouble, kInt, kLong,
    kNegativeZero]

theorem toBsonInteger_odd (hl : 1023 ≤ d.expo) (hz : ¬ d.mag % unit = 0) :
    ReadsBy (toBsonInteger (bytesNeeded (preshifted d.mag)) d.signbit)
      (be (bytesNeeded (preshifted d.mag)) (preshifted d.mag) ++ fractionBytes d.mag) kDouble
      (.numberDouble d) := by
  intro inverted rest r bs hs
  obtain ⟨h1, h2⟩ := hs.readNumeric
  refine ⟨_, ?_, h2⟩
  have hu : d.expo < 1075 := by
    by_contra hge
    exact hz (by rw [mag_of_ge (by omega)]; exact Nat.mul_mod_left _ _)
  have hsz := size_trunc hl
  have hpre : preshifted d.mag = d.trunc * 2 + 1 := by
    rw [preshifted, if_neg hz]
    rfl
  have hlt : d.word % 2 ^ (1075 - d.expo) < 2 ^ (1075 - d.expo) := Nat.mod_lt _ (by positivity)
  have hfb : fractionBytes d.mag =
      be ((1075 - d.expo + 7) / 8) (d.word % 2 ^ (1075 - d.expo)) := by
    rw [(fraction_of_double hl).2, if_neg hz, show 53 - d.trunc.size = 1075 - d.expo by omega]
  have hread' : readBytes ((1075 - d.expo + 7) / 8) inverted
      (flipIf inverted (fractionBytes d.mag) ++ rest) = some (fractionBytes d.mag, rest) :=
    readBytes_flipIf (by rw [hfb, length_be])
  have hval := ofBe_be (lt_pow_bytesNeeded (preshifted d.mag))
  have hfval : ofBe (fractionBytes d.mag) = d.word % 2 ^ (1075 - d.expo) := by
    rw [hfb]
    apply ofBe_be
    calc d.word % 2 ^ (1075 - d.expo) < 2 ^ (1075 - d.expo) := hlt
      _ ≤ 2 ^ (8 * ((1075 - d.expo + 7) / 8)) := Nat.pow_le_pow_right (by decide) (by omega)
      _ = 256 ^ ((1075 - d.expo + 7) / 8) := pow_mul 2 8 _
  have hsign : ∀ x : Nat, (if d.signbit then x ||| (1 <<< 63) else x) =
      x ||| (if d.signbit then 1 <<< 63 else 0) := by
    intro x
    cases d.signbit with
    | false => exact (Nat.or_zero x).symm
    | true => rfl
  have hodd : ¬ (d.trunc * 2 + 1) % 2 = 0 := by omega
  have hhalf : (d.trunc * 2 + 1) / 2 = d.trunc := by omega
  have hbits : 52 - (d.trunc.size - 1) = 1075 - d.expo := by omega
  have hexp : d.trunc.size - 1 + 1023 = d.expo := by omega
  have hsz53 : d.trunc.size ≤ 53 := by omega
  simp only [toBsonInteger, flipIf_append, List.append_assoc, readBytes_flipIf, length_be,
    bind_some, hval, h1]
  rw [hpre, if_neg hodd, hhalf, hbits, hexp, if_pos ⟨rfl, hsz53⟩, hread', map_some,
    foldFraction_eq, hfval, hsign, rebuild_double hl hu, ofWord_word]

theorem ofBe_word (d : Binary64) : ofBe (be 8 d.word) = d.word := ofBe_be (n := 8) d.word_lt

/-- The type bytes of the doubles that are stored as they are. -/
theorem toBsonScalar_raw {c : Nat} (h : c = 42 ∨ c = 51) (inverted : Bool) (input : Input) :
    toBsonScalar (UInt8.ofNat c) inverted input = toBsonRawDouble inverted input ∧
      toBsonScalar (UInt8.ofNat (82 - c)) inverted input =
        toBsonRawDouble (!inverted) input := by
  rcases h with rfl | rfl <;> exact ⟨rfl, rfl⟩

theorem toBsonRawDouble_double (d : Binary64) :
    ReadsBy toBsonRawDouble (be 8 d.word) kDouble (.numberDouble d) := by
  intro inverted rest r bs hs
  obtain ⟨h1, h2⟩ := hs.readNumeric
  refine ⟨_, ?_, h2⟩
  simp only [toBsonRawDouble, readBytes_flipIf, length_be, bind_some, h1, ofBe_word,
    ofWord_word]
  exact if_pos rfl

theorem toBsonRawDouble_long :
    ReadsBy toBsonRawDouble (be 8 (Binary64.ofInt (-2 ^ 63)).word) kLong
      (.numberLong (Int64.ofInt (-2 ^ 63))) := by
  intro inverted rest r bs hs
  obtain ⟨h1, h2⟩ := hs.readNumeric
  refine ⟨_, ?_, h2⟩
  obtain ⟨d, hd⟩ : ∃ d, d = Binary64.ofInt (-2 ^ 63) := ⟨_, rfl⟩
  have hnan : d.isNaN = false := by
    rw [hd]
    decide
  simp only [toBsonRawDouble, ← hd, readBytes_flipIf, length_be, bind_some, h1, ofBe_word,
    ofWord_word]
  rw [if_neg (by decide), if_pos ⟨rfl, eq_self hnan⟩]

/-- A double's magnitude, in whichever of the three forms, and its sign give the double back. -/
theorem reads_magCode {m c : Nat} {p : Bytes} (h : MagCode d.signbit m c p) (hm : m = d.mag) :
    Reads (if d.signbit then UInt8.ofNat (82 - c) else UInt8.ofNat c) (flipIf d.signbit p)
      kDouble fun _ => .numberDouble d := by
  cases h with
  | small e hs =>
    obtain rfl := ext_scaled hs hm
    exact reads_signed (f := fun _ => toBsonRawDouble) (toBsonScalar_raw (.inl rfl))
      (toBsonRawDouble_double e)
  | large e hs =>
    obtain rfl := ext_scaled hs hm
    exact reads_signed (f := fun _ => toBsonRawDouble) (toBsonScalar_raw (.inr rfl))
      (toBsonRawDouble_double e)
  | mid m hl hu hx =>
    subst hm
    obtain ⟨h1, h2⟩ := bytesNeeded_preshifted hl hu
    refine reads_signed (toBsonScalar_integer h1 h2) ?_
    have hexp := unit_le_mag_iff.mp hl
    by_cases hz : d.mag % unit = 0
    · have ht : d.trunc < 2 ^ 63 := (Nat.div_lt_iff_lt_mul unit_pos).mpr hu
      have hm : d.mag = d.trunc * unit := by
        have := Nat.div_add_mod d.mag unit
        rw [hz, Nat.add_zero, Nat.mul_comm] at this
        exact this.symm
      have hv : integerValue kDouble (if d.signbit then -(d.trunc : Int) else d.trunc) =
          .numberDouble d :=
        congrArg Value.numberDouble (ofInt_truncInt hexp (by omega) hm)
      rw [hm, (preshifted_mul d.trunc).1, (preshifted_mul d.trunc).2.1, List.append_nil, ← hv]
      exact toBsonInteger_even (by decide)
    · exact toBsonInteger_odd hexp hz

theorem bytes_appendLargeDouble_neg (hn : d.isNaN = false) (h : d.scaled < 0) :
    (appendLargeDouble d false).bytes = UInt8.ofNat (82 - 51) :: flip (be 8 d.word) := by
  rw [appendLargeDouble, zero_lt_eq hn, if_neg (by simp; omega)]
  rfl

theorem bytes_least_long :
    (appendLargeDouble (Binary64.ofInt (-2 ^ 63)) false).bytes =
      UInt8.ofNat (82 - 51) :: flip (be 8 (Binary64.ofInt (-2 ^ 63)).word) := by
  have habs : (-2 ^ 63 : Int).natAbs = 2 ^ 63 := by decide
  have he : (Binary64.ofNat (-2 ^ 63 : Int).natAbs).mag = (-2 ^ 63 : Int).natAbs * unit ∧
      (Binary64.ofNat (-2 ^ 63 : Int).natAbs).signbit = false := by
    rw [habs]
    exact ofNat_two_pow_63
  refine bytes_appendLargeDouble_neg (by decide) ?_
  rw [scaled_ofInt he]
  have hu : (0 : Int) < unit := by exact_mod_cast unit_pos
  exact Int.mul_neg_of_neg_of_pos (by decide) hu

theorem integerValue_zero {lo hi : Bool}
    (ht : [lo, hi] = kInt ∨ [lo, hi] = kLong) :
    Reads CType.kNumericZero [] [lo, hi] fun _ => integerValue [lo, hi] 0 := by
  intro inverted rest r bs _ hs
  obtain ⟨h1, h2⟩ := hs.readNumeric
  refine ⟨_, ?_, h2⟩
  rw [flipIf_nil, List.nil_append]
  change some (toBsonZero _) = _
  simp only [toBsonZero, h1, integerValue]
  rcases ht with ht | ht
  · rw [ht]
    rfl
  · rw [ht]
    rfl

theorem reads_appendInteger {n : Int} (hl : -2 ^ 63 ≤ n) (hu : n < 2 ^ 63) {lo hi : Bool}
    (ht : [lo, hi] = kInt ∧ n ≠ -2 ^ 63 ∨ [lo, hi] = kLong) :
    ∃ c p, (appendInteger n false).bytes = c :: p ∧
      Reads c p [lo, hi] fun _ => integerValue [lo, hi] n := by
  unfold appendInteger
  by_cases hmin : n = -2 ^ 63
  · have hreads := @reads_signed _ _ _ _ true (fun _ => toBsonRawDouble)
      (toBsonScalar_raw (.inr rfl)) toBsonRawDouble_long
    rw [if_pos rfl, flipIf_true] at hreads
    rw [if_pos hmin, hmin, ht.resolve_left fun h => h.2 hmin, integerValue, if_neg (by decide), if_neg (by decide)]
    exact ⟨_, _, bytes_least_long, hreads⟩
  · rw [if_neg hmin]
    by_cases h0 : n = 0
    · rw [if_pos h0, h0]
      exact ⟨_, _, rfl, integerValue_zero (ht.imp_left And.left)⟩
    · rw [if_neg h0]
      obtain ⟨h1, h2⟩ : 1 ≤ bytesNeeded (n.natAbs * 2) ∧ bytesNeeded (n.natAbs * 2) ≤ 8 := by
        rw [← (preshifted_mul n.natAbs).1]
        exact bytesNeeded_preshifted (Nat.le_mul_of_pos_left _ (by omega))
          (Nat.mul_lt_mul_of_pos_right (by omega) unit_pos)
      have hv : n = if decide (n < 0) then -(n.natAbs : Int) else n.natAbs := by
        by_cases hs : n < 0
        · rw [if_pos (by simpa using hs)]
          omega
        · rw [if_neg (by simpa using hs)]
          omega
      refine ⟨_, _, bytes_appendPreshiftedIntegerPortion _ _, ?_⟩
      rw [(intCType h1 h2).1, (intCType h1 h2).2]
      conv in integerValue _ _ => rw [hv]
      refine reads_signed (toBsonScalar_integer h1 h2) (toBsonInteger_even ?_)
      rcases ht with h | h
      · rw [h.1]
        decide
      · rw [h]
        decide

theorem bits_appendPreshiftedIntegerPortion (v : Nat) (negative invert : Bool) :
    (appendPreshiftedIntegerPortion v negative invert).bits = [] := by
  cases negative <;> rfl

theorem bits_appendSmallDouble (d : Binary64) (invert : Bool) :
    (appendSmallDouble d invert).bits = [] := by
  unfold appendSmallDouble
  split <;> rfl

theorem bits_appendLargeDouble (d : Binary64) (invert : Bool) :
    (appendLargeDouble d invert).bits = [] := by
  unfold appendLargeDouble
  split <;> rfl

theorem bits_appendInteger (n : Int) (invert : Bool) : (appendInteger n invert).bits = [] := by
  unfold appendInteger
  split
  · exact bits_appendLargeDouble _ _
  · split
    · rfl
    · exact bits_appendPreshiftedIntegerPortion _ _ _

theorem bits_appendNumberDouble (d : Binary64) (invert : Bool) :
    (appendNumberDouble d invert).bits =
      if d.eq (Binary64.ofNat 0) && d.signbit then kNegativeZero
      else kDouble := by
  unfold appendNumberDouble
  simp [Output.bits_append, bits_appendTypeBits, apply_ite Output.bits, bits_appendBytes, bits_appendSmallDouble, bits_appendLargeDouble, bits_appendPreshiftedIntegerPortion]

/-- The value a double is read back as: a NaN loses its payload. -/
def quieted (d : Binary64) : Binary64 := if d.isNaN then quietNaN else d

theorem reads_nonzero {u : Bytes} (h0 : d.scaled ≠ 0) (h : NumCode (some d.scaled) u) :
    ∃ c p, u = c :: p ∧ Reads c p kDouble fun _ => .numberDouble d := by
  generalize hk : some d.scaled = k at h
  cases h with
  | nan => cases hk
  | zero => exact absurd (some.inj hk) h0
  | @pos m c p h =>
    have hk := some.inj hk
    have hpos := h.pos
    cases hs : d.signbit with
    | true =>
      rw [scaled_of_minus hs] at hk
      omega
    | false =>
      rw [scaled_of_plus hs] at hk
      rw [← hs] at h
      have hr := reads_magCode h (by omega)
      rw [hs] at hr
      exact ⟨_, _, rfl, hr⟩
  | @neg m c p h =>
    have hk := some.inj hk
    have hpos := h.pos
    cases hs : d.signbit with
    | false =>
      rw [scaled_of_plus hs] at hk
      omega
    | true =>
      rw [scaled_of_minus hs] at hk
      rw [← hs] at h
      have hr := reads_magCode h (by omega)
      rw [hs] at hr
      exact ⟨_, _, rfl, hr⟩

theorem reads_zero {u : Bytes} (h0 : d.scaled = 0) (h : NumCode (some 0) u) :
    ∃ c p, u = c :: p ∧ Reads c p (if d.signbit then kNegativeZero else kDouble)
        fun _ => .numberDouble d := by
  obtain rfl : u = [CType.kNumericZero] := by
    generalize hk : some (0 : Int) = k at h
    cases h with
    | nan => cases hk
    | zero => rfl
    | pos h =>
      have := h.pos
      have := some.inj hk
      omega
    | neg h =>
      have := h.pos
      have := some.inj hk
      omega
  refine ⟨_, _, rfl, ?_⟩
  intro inverted rest r bs _ hs
  have hzero : (Binary64.ofNat 0).mag = 0 ∧ (Binary64.ofNat 0).signbit = false := by decide
  rw [flipIf_nil, List.nil_append]
  change ∃ r', some (toBsonZero _) = _ ∧ _
  cases hsg : d.signbit with
  | false =>
    have hd : d = Binary64.ofNat 0 := by
      rw [scaled_of_plus hsg] at h0
      exact ext_scaled (hsg.trans hzero.2.symm) (by omega)
    rw [hsg] at hs
    obtain ⟨h1, h2⟩ := hs.readNumeric
    refine ⟨_, ?_, h2⟩
    simp only [toBsonZero, h1]
    rw [hd]
    rfl
  | true =>
    have hd : d = (Binary64.ofNat 0).neg := by
      rw [scaled_of_minus hsg] at h0
      refine ext_scaled ?_ (by rw [mag_neg]; omega)
      rw [signbit_neg, hzero.2, hsg]
      rfl
    rw [hsg] at hs
    obtain ⟨h1, h2⟩ := hs.readNumeric
    refine ⟨_, ?_, h2⟩
    simp only [toBsonZero, h1]
    rw [hd]
    rfl

theorem reads_numberDouble (d : Binary64) :
    ∃ c p, (appendNumberDouble d false).bytes = c :: p ∧
      Reads c p (appendNumberDouble d false).bits fun _ => .numberDouble (quieted d) := by
  have h := numCode_appendNumberDouble d
  have hbits := bits_appendNumberDouble d false
  generalize (appendNumberDouble d false).bytes = u at h ⊢
  cases hn : d.isNaN with
  | true =>
    have hz : d.eq (Binary64.ofNat 0) = false := by simp [Binary64.eq, hn]
    have hk : doubleKey d = none := by simp [doubleKey, hn]
    rw [hk] at h
    rw [hz] at hbits
    cases h
    rw [hbits, quieted, if_pos hn]
    refine ⟨_, _, rfl, ?_⟩
    intro inverted rest r bs _ hs
    obtain ⟨h1, h2⟩ := hs.readNumeric
    refine ⟨_, ?_, h2⟩
    rw [flipIf_nil, List.nil_append]
    exact if_pos h1
  | false =>
    have hk := doubleKey_of_not_isNaN hn
    have heq : d.eq (Binary64.ofNat 0) = decide (d.scaled = 0) := by
      have := (lt_eq_doubleKey hk (doubleKey_ofNat (Nat.zero_le _))).2
      rwa [Nat.cast_zero, Int.zero_mul] at this
    rw [heq] at hbits
    rw [quieted, if_neg (by simp [hn])]
    rw [hk] at h
    by_cases h0 : d.scaled = 0
    · rw [h0] at h
      rw [decide_eq_true h0, Bool.true_and] at hbits
      rw [hbits]
      exact reads_zero h0 h
    · rw [decide_eq_false h0, Bool.false_and, if_neg Bool.false_ne_true] at hbits
      rw [hbits]
      exact reads_nonzero h0 h

end MongolDb.KeyString
