import MongolDb.KeyString.TypeBits

/-! Type bits in a buffer: what `getBuffer` writes and `fromBuffer` reads back. -/
namespace MongolDb.KeyString.TypeBits
open ByteOrder List

/-- `t` is encoded as `u` is, and has the bits that were appended to `u`. -/
structure ReadBack (t u : TypeBits) : Prop where
  zeros : t.isAllZeros = u.isAllZeros
  buffer : t.getBuffer = u.getBuffer
  bits : ∀ i < u.curBit, (readBit ⟨i, t⟩).1 = (readBit ⟨i, u⟩).1

/-- `t` stands for the bits `bs`, whether they were appended or read from a buffer. -/
structure Encodes (t : TypeBits) (bs : List Bool) : Prop where
  zeros : t.isAllZeros = bs.all (!·)
  length : t.buf.length = kMaxBytesNeeded + 1
  first : t.isAllZeros = true → t.byteAt 1 = 0
  size : t.isAllZeros = false → t.byteAt 0 = 0x80 ||| UInt8.ofNat ((bs.length + 7) / 8)
  bits : t.isAllZeros = false → ∀ i < 8 * ((bs.length + 7) / 8), t.bitAt i = bs.getD i false

/-- The most bits whose number of bytes the size byte can hold. -/
def kMaxStoredBits : Nat := 8 * 63

section Encodes
variable {t u : TypeBits} {bs : List Bool}

theorem byte_ext {a b : UInt8} (h : ∀ k < 8, a.toNat.testBit k = b.toNat.testBit k) : a = b :=
  UInt8.toBitVec_inj.mp (BitVec.eq_of_getLsbD_eq h)

theorem bitAt_mul_add (t : TypeBits) (j : Nat) {k : Nat} (hk : k < 8) :
    t.bitAt (8 * j + k) = (t.byteAt (j + 1)).toNat.testBit k := by
  rw [bitAt, show (8 * j + k) / 8 = j by omega, show (8 * j + k) % 8 = k by omega]

theorem stored_limits : kMaxStoredBits = 504 ∧ kMaxBytesNeeded = 127 := ⟨rfl, rfl⟩

theorem encodes_reset (h : bs.all (!·) = true) : Encodes reset bs where
  zeros := h.symm
  length := rfl
  first _ := rfl
  size h := by cases h
  bits h := by cases h

theorem encodes_appendBits (hlen : bs.length ≤ 8 * kMaxBytesNeeded) :
    Encodes (reset.appendBits bs) bs := by
  cases bs with
  | nil => exact encodes_reset rfl
  | cons b bs =>
    have h := holds_appendBits hlen
    refine ⟨h.zeros, h.length, fun hz => ?_, fun _ => h.sizeByte, fun _ => h.bits⟩
    -- every bit is zero, and the first byte has been started
    have hall : (b :: bs).all (!·) = true := h.zeros.symm.trans hz
    apply byte_ext
    intro k hk
    have hbit := h.bits k (by simp only [length_cons]; omega)
    have hk0 := bitAt_mul_add (reset.appendBits (b :: bs)) 0 hk
    rw [Nat.mul_zero, Nat.zero_add] at hk0
    rw [← hk0, hbit]
    have hmem : ∀ c ∈ b :: bs, c = false := by simpa using hall
    have hget : (b :: bs).getD k false = false := by
      rw [getD_eq_getElem?_getD]
      cases hc : (b :: bs)[k]? with
      | none => rfl
      | some c => exact hmem c (mem_of_getElem? hc)
    rw [hget]
    simp

/-- The data bytes are determined by the bits. -/
theorem Encodes.byteAt_eq (ht : Encodes t bs) (hu : Encodes u bs) (hz : t.isAllZeros = false)
    {j : Nat} (hj : j ≤ (bs.length + 7) / 8) : t.byteAt j = u.byteAt j := by
  have hzu : u.isAllZeros = false := by rw [hu.zeros, ← ht.zeros, hz]
  cases j with
  | zero => rw [ht.size hz, hu.size hzu]
  | succ j =>
    apply byte_ext
    intro k hk
    rw [← bitAt_mul_add t j hk, ← bitAt_mul_add u j hk, ht.bits hz _ (by omega),
      hu.bits hzu _ (by omega)]

theorem sizeByte_and {s : Nat} (h : s < 64) :
    ((0x80 ||| UInt8.ofNat s) &&& 0x3f).toNat = s ∧
      (0x80 ||| UInt8.ofNat s) &&& (0x80 : UInt8) ≠ 0 := by
  have key : ∀ s : Fin 64, ((0x80 ||| UInt8.ofNat s.val) &&& 0x3f).toNat = s.val ∧
      (0x80 ||| UInt8.ofNat s.val) &&& (0x80 : UInt8) ≠ 0 := by decide
  exact key ⟨s, h⟩

theorem Encodes.getSizeByte (h : Encodes t bs) (hz : t.isAllZeros = false)
    (hlen : bs.length ≤ kMaxStoredBits) : t.getSizeByte = (bs.length + 7) / 8 := by
  have hmax : kMaxStoredBits = 504 := rfl
  rw [TypeBits.getSizeByte, h.size hz]
  exact (sizeByte_and (by omega)).1

theorem Encodes.length_pos (h : Encodes t bs) (hz : t.isAllZeros = false) : 0 < bs.length := by
  cases bs with
  | nil =>
    rw [h.zeros] at hz
    cases hz
  | cons b bs => exact Nat.succ_pos _

theorem take_buf (h : t.buf.length = kMaxBytesNeeded + 1) {n : Nat} (hn : n ≤ kMaxBytesNeeded + 1) :
    t.buf.take n = (List.range n).map t.byteAt := by
  apply ext_getElem
  · rw [length_take, length_map, length_range, h]
    omega
  · intro i h1 h2
    have hi : i < n := by simpa using h2
    simp [byteAt, getD_eq_getElem?_getD, List.getElem?_eq_getElem (show i < t.buf.length by omega)]

/-- The one-byte form. -/
theorem getBuffer_short (h : t.buf.length = kMaxBytesNeeded + 1) (hsize : t.getSize = 1) :
    t.getBuffer = [t.byteAt 1] := by
  have htake := take_buf h (show 2 ≤ kMaxBytesNeeded + 1 by decide)
  have hdrop : (t.buf.drop 1).take 1 = (t.buf.take 2).drop 1 := by rw [drop_take]
  rw [getBuffer, if_pos hsize, hsize, hdrop, htake]
  rfl

/-- The form that starts with the size byte. -/
theorem getBuffer_long (h : t.buf.length = kMaxBytesNeeded + 1) (hsize : t.getSize ≠ 1)
    (hle : t.getSize ≤ kMaxBytesNeeded + 1) :
    t.getBuffer = (List.range t.getSize).map t.byteAt := by
  rw [getBuffer, if_neg hsize, take_buf h hle]

/-- When the one data byte needs no size byte in front. -/
def Short (t : TypeBits) (bs : List Bool) : Prop :=
  (bs.length + 7) / 8 = 1 ∧ t.byteAt 1 &&& 0x80 = 0

theorem Encodes.getSize_short (h : Encodes t bs) (hz : t.isAllZeros = false)
    (hlen : bs.length ≤ kMaxStoredBits) (hs : Short t bs) : t.getSize = 1 := by
  rw [getSize, if_neg (by simp [hz]), h.getSizeByte hz hlen]
  exact if_pos hs

theorem Encodes.getSize_long (h : Encodes t bs) (hz : t.isAllZeros = false)
    (hlen : bs.length ≤ kMaxStoredBits) (hs : ¬ Short t bs) :
    t.getSize = (bs.length + 7) / 8 + 1 := by
  rw [getSize, if_neg (by simp [hz]), h.getSizeByte hz hlen]
  exact if_neg hs

theorem Encodes.getBuffer_eq (ht : Encodes t bs) (hu : Encodes u bs)
    (hlen : bs.length ≤ kMaxStoredBits) : t.getBuffer = u.getBuffer := by
  have hzu : u.isAllZeros = t.isAllZeros := by rw [hu.zeros, ht.zeros]
  obtain ⟨hmax, hneeded⟩ := stored_limits
  cases hz : t.isAllZeros with
  | true =>
    rw [hz] at hzu
    rw [getBuffer_short ht.length (if_pos hz), getBuffer_short hu.length (if_pos hzu), ht.first hz,
      hu.first hzu]
  | false =>
    rw [hz] at hzu
    have hpos := ht.length_pos hz
    have hone : t.byteAt 1 = u.byteAt 1 := ht.byteAt_eq hu hz (by omega)
    by_cases hs : Short t bs
    · have hsu : Short u bs := ⟨hs.1, hone ▸ hs.2⟩
      rw [getBuffer_short ht.length (ht.getSize_short hz hlen hs),
        getBuffer_short hu.length (hu.getSize_short hzu hlen hsu), hone]
    · have hsu : ¬ Short u bs := fun hsu => hs ⟨hsu.1, hone ▸ hsu.2⟩
      have hsize := ht.getSize_long hz hlen hs
      have hsizeu := hu.getSize_long hzu hlen hsu
      rw [getBuffer_long ht.length (by omega) (by omega),
        getBuffer_long hu.length (by omega) (by omega), hsize, hsizeu]
      apply map_congr_left
      intro j hj
      exact ht.byteAt_eq hu hz (by have := mem_range.mp hj; omega)

/-- Any instance with the same size byte and data bytes stands for the same bits. -/
theorem Encodes.of_byteAt (ht : Encodes t bs) (hz : t.isAllZeros = false)
    (hzu : u.isAllZeros = false) (hlength : u.buf.length = kMaxBytesNeeded + 1)
    (h : ∀ j ≤ (bs.length + 7) / 8, u.byteAt j = t.byteAt j) : Encodes u bs where
  zeros := by rw [hzu, ← hz, ht.zeros]
  length := hlength
  first hc := by cases hzu.symm.trans hc
  size _ := by rw [h 0 (Nat.zero_le _), ht.size hz]
  bits _ i hi := by
    rw [bitAt, h _ (by omega)]
    exact ht.bits hz i hi

/-- The data byte of a short form is not zero, so that it is not taken for all zeros. -/
theorem Encodes.byteAt_one_ne_zero (h : Encodes t bs) (hz : t.isAllZeros = false)
    (hs : Short t bs) : t.byteAt 1 ≠ 0 := by
  intro h0
  have hall : bs.all (!·) = true := by
    rw [all_eq_true]
    intro b hb
    obtain ⟨i, hi, rfl⟩ := getElem_of_mem hb
    have hlen : i < 8 := by
      have := hs.1
      omega
    have hbit := h.bits hz i (by omega)
    rw [show i = 8 * 0 + i by omega, bitAt_mul_add t 0 hlen, h0] at hbit
    simpa [getD_eq_getElem?_getD, hi] using hbit
  rw [h.zeros, hall] at hz
  cases hz

/-- Reading back what `getBuffer` wrote. -/
theorem Encodes.fromBuffer (h : Encodes t bs) (hlen : bs.length ≤ kMaxStoredBits) (rest : Bytes) :
    ∃ t', TypeBits.fromBuffer (t.getBuffer ++ rest) = some (t', rest) ∧ Encodes t' bs := by
  obtain ⟨hmax, hneeded⟩ := stored_limits
  cases hz : t.isAllZeros with
  | true =>
    refine ⟨reset, ?_, encodes_reset (h.zeros.symm.trans hz)⟩
    rw [getBuffer_short h.length (if_pos hz), h.first hz]
    rfl
  | false =>
    have hpos := h.length_pos hz
    by_cases hs : Short t bs
    · have hne := h.byteAt_one_ne_zero hz hs
      refine ⟨_, ?_, h.of_byteAt (u := ((⟨0, false, reset.buf⟩ : TypeBits).setSizeByte 1).setByte 1
        (t.byteAt 1)) hz rfl rfl ?_⟩
      · rw [getBuffer_short h.length (h.getSize_short hz hlen hs), singleton_append,
          TypeBits.fromBuffer, if_neg (not_not_intro hs.2), if_neg hne]
      · intro j hj
        rw [hs.1] at hj
        have hsize := h.size hz
        rw [hs.1] at hsize
        rcases Nat.le_one_iff_eq_zero_or_eq_one.mp hj with rfl | rfl
        · rw [hsize]
          rfl
        · rfl
    · have hsize := h.getSize_long hz hlen hs
      obtain ⟨hcount, hbit⟩ := sizeByte_and (show (bs.length + 7) / 8 < 64 by omega)
      generalize hn : (bs.length + 7) / 8 = n at hsize hcount hbit
      have hbuf : t.getBuffer = t.byteAt 0 :: (range n).map fun j => t.byteAt (j + 1) := by
        rw [getBuffer_long h.length (by omega) (by omega), hsize, range_succ_eq_map,
          map_cons, map_map]
        rfl
      have hfirst : t.byteAt 0 = 0x80 ||| UInt8.ofNat n := by rw [h.size hz, hn]
      have hdata : ((range n).map fun j => t.byteAt (j + 1)).length = n := by simp
      refine ⟨⟨0, false, t.byteAt 0 :: ((range n).map fun j => t.byteAt (j + 1)) ++
        replicate (kMaxBytesNeeded - n) 0⟩, ?_, h.of_byteAt hz rfl ?_ ?_⟩
      · rw [hbuf, cons_append, TypeBits.fromBuffer, if_pos (hfirst ▸ hbit)]
        simp only [hfirst, hcount]
        rw [if_pos (by simp), take_left' hdata, drop_left' hdata]
      · simp
        omega
      · intro j hj
        rw [hn] at hj
        cases j with
        | zero => rfl
        | succ j =>
          have hj' : j < ((range n).map fun j => t.byteAt (j + 1)).length := by omega
          rw [byteAt, getD_eq_getElem?_getD, cons_append, getElem?_cons_succ,
            getElem?_append_left hj']
          simp [show j < n by omega]

theorem readBit_eq (h : t.isAllZeros = false) {i : Nat} (hi : i < 8 * kMaxBytesNeeded) :
    (readBit ⟨i, t⟩).1 = t.bitAt i := by
  have hneeded : kMaxBytesNeeded = 127 := rfl
  simp only [readBit, h, Bool.false_eq_true, if_false,
    Nat.mod_eq_of_lt (show i / 8 + 1 < 256 by omega)]
  exact testBit_eq _ (Nat.mod_lt _ (by decide))

theorem Encodes.readBack (ht : Encodes t bs) (hlen : bs.length ≤ kMaxStoredBits) :
    ReadBack t (reset.appendBits bs) := by
  obtain ⟨hmax, hneeded⟩ := stored_limits
  have hu := encodes_appendBits (show bs.length ≤ 8 * kMaxBytesNeeded by omega)
  have hcur := (holds_appendBits (show bs.length ≤ 8 * kMaxBytesNeeded by omega)).curBit
  have hzu : t.isAllZeros = (reset.appendBits bs).isAllZeros := by rw [ht.zeros, hu.zeros]
  refine ⟨hzu, ht.getBuffer_eq hu hlen, fun i hi => ?_⟩
  cases hz : t.isAllZeros with
  | true => simp [readBit, ← hzu, hz]
  | false =>
    rw [hz] at hzu
    rw [hcur] at hi
    rw [readBit_eq hz (by omega), readBit_eq hzu.symm (by omega), ht.bits hz i (by omega),
      hu.bits hzu.symm i (by omega)]

end Encodes

end MongolDb.KeyString.TypeBits
