import MongolDb.WiredTiger.Cursor
import MongolDb.WiredTiger.UniqueIndex

/-! The room that type bits have: in the fixed buffer they are appended to, and in the size byte
with which an index stores them. -/
namespace MongolDb.KeyString.TypeBits

/-- Each bit of `bs` goes to a data byte of the buffer. The index is the one that `appendBit`
computes, before it is cut down to a `uint8_t`. -/
def AppendsInside : TypeBits → List Bool → Prop
  | _, [] => True
  | t, b :: bs => t.curBit / 8 + 1 ≤ kMaxBytesNeeded ∧ AppendsInside (t.appendBit b) bs

theorem appendsInside_iff (t : TypeBits) (bs : List Bool) :
    AppendsInside t bs ↔ bs = [] ∨ t.curBit + bs.length ≤ 8 * kMaxBytesNeeded := by
  have hmax : kMaxBytesNeeded = 127 := rfl
  induction bs generalizing t with
  | nil => exact iff_of_true trivial (.inl rfl)
  | cons b bs ih =>
    have hcur : (t.appendBit b).curBit = t.curBit + 1 := rfl
    have hrest := ih (t.appendBit b)
    rw [hcur] at hrest
    simp only [AppendsInside, hrest, List.cons_ne_nil, false_or, List.length_cons]
    cases bs with
    | nil => simp only [true_or, and_true, List.length_nil]; omega
    | cons c bs => simp only [List.length_cons, List.cons_ne_nil, false_or]; omega

/-- An empty buffer has room for as many bits as its data bytes have. -/
theorem appendsInside_reset_iff (bs : List Bool) :
    AppendsInside reset bs ↔ bs.length ≤ 8 * kMaxBytesNeeded := by
  have hcur : reset.curBit = 0 := rfl
  rw [appendsInside_iff, hcur, Nat.zero_add]
  refine or_iff_right_of_imp fun hnil => ?_
  rw [hnil]
  exact Nat.zero_le _

/-- The next `n` bits that a reader hands out. -/
def readBits : Nat → Reader → List Bool
  | 0, _ => []
  | n + 1, r => (readBit r).1 :: readBits n (readBit r).2

variable {bs : List Bool}

theorem Serves.readBits {r : Reader} (h : Serves r bs) : TypeBits.readBits bs.length r = bs := by
  induction bs generalizing r with
  | nil => rfl
  | cons b bs ih =>
    obtain ⟨hb, hrest⟩ := h.readBit
    rw [List.length_cons, TypeBits.readBits, hb, ih hrest]

theorem Encodes.serves {t : TypeBits} (h : Encodes t bs)
    (hlen : bs.length ≤ kMaxStoredBits) : Serves ⟨0, t⟩ bs where
  zeros hz b hb := by
    have hall : bs.all (!·) = true := h.zeros.symm.trans hz
    simpa using List.all_eq_true.mp hall b hb
  bits hz i hi := by
    rw [Nat.zero_add]
    exact h.bits hz i (by omega)
  room _ := by
    have hmax : 8 * kMaxBytesNeeded = kMaxStoredBits + 512 := rfl
    simp only [hmax]
    omega

/-- The bytes that are stored are as many as `getSize` says. -/
theorem Encodes.length_getBuffer {t : TypeBits} (h : Encodes t bs)
    (hlen : bs.length ≤ kMaxStoredBits) : t.getBuffer.length = t.getSize := by
  obtain ⟨hmax, hneeded⟩ := stored_limits
  by_cases hsize : t.getSize = 1
  · rw [getBuffer_short h.length hsize, hsize]
    rfl
  · have hz : t.isAllZeros = false := by
      by_contra hz
      exact hsize (if_pos (by simpa using hz))
    have hs : ¬ Short t bs := fun hs => hsize (h.getSize_short hz hlen hs)
    rw [getBuffer_long h.length hsize (by rw [h.getSize_long hz hlen hs]; omega), List.length_map,
      List.length_range]

/-- Type bits that the size byte can count are stored and read back whole. -/
theorem stored_appendBits (hlen : bs.length ≤ kMaxStoredBits) :
    ((reset.appendBits bs).curBit + 7) / 8 ≤ 63 ∧
      (reset.appendBits bs).getSizeByte = ((reset.appendBits bs).curBit + 7) / 8 ∧
      (reset.appendBits bs).getBuffer.length = (reset.appendBits bs).getSize ∧
      ∀ rest, ∃ t, fromBuffer ((reset.appendBits bs).getBuffer ++ rest) = some (t, rest) ∧
        t.isAllZeros = (reset.appendBits bs).isAllZeros ∧
        readBits (reset.appendBits bs).curBit ⟨0, t⟩ =
          readBits (reset.appendBits bs).curBit ⟨0, reset.appendBits bs⟩ := by
  obtain ⟨hmax, hneeded⟩ := stored_limits
  have hroom : bs.length ≤ 8 * kMaxBytesNeeded := by omega
  have hholds := holds_appendBits hroom
  have henc := encodes_appendBits hroom
  rw [hholds.curBit, getSizeByte, hholds.sizeByte]
  refine ⟨by omega, (sizeByte_and (by omega)).1, henc.length_getBuffer hlen, ?_⟩
  intro rest
  obtain ⟨t, ht, htenc⟩ := henc.fromBuffer hlen rest
  refine ⟨t, ht, htenc.zeros.trans henc.zeros.symm, ?_⟩
  exact (htenc.serves hlen).readBits.trans (henc.serves hlen).readBits.symm

end MongolDb.KeyString.TypeBits

namespace MongolDb.WiredTiger
open Bson KeyString

theorem length_bits_appendAllElements {ord : KeyOrdering} {d : Discriminator} {obj : Obj}
    {i : Nat} {o : Output} (h : appendAllElementsForIndexing ord d i obj = some o) :
    o.bits.length = fieldsTypeBitCount obj := by
  have hvalue : ∀ v i, (appendBsonValue v i).bits.length = typeBitCount v := fun v i => by
    rw [(inverts_appendBsonValue v i).2, length_bits_value]
  fun_induction appendAllElementsForIndexing ord d i obj generalizing o with
  | case1 =>
    cases h
    rfl
  | case2 i v rest ih =>
    obtain ⟨o', ho', rfl⟩ := Option.map_eq_some_iff.mp h
    simp [fieldsTypeBitCount, hvalue, ih ho']
  | case3 i ch name v =>
    obtain ⟨d', -, rfl⟩ := Option.map_eq_some_iff.mp h
    simp [fieldsTypeBitCount, hvalue]
  | case4 => cases h

/-- The type bits of a query object stay inside the buffer exactly when the object has no more of
them than the buffer has data bits. Nothing in `seek` or `setEndPosition` bounds their number. -/
theorem appendsInside_iff_count_le {ord : KeyOrdering} {d : Discriminator} {obj : Obj} {o : Output}
    (h : appendAllElementsForIndexing ord d 0 obj = some o) :
    TypeBits.AppendsInside TypeBits.reset o.bits ↔
      fieldsTypeBitCount obj ≤ 8 * TypeBits.kMaxBytesNeeded := by
  rw [TypeBits.appendsInside_reset_iff, length_bits_appendAllElements h]

/-- The key `{"": ["", "", ...]}`, with `n` empty strings. -/
def emptyStrings (n : Nat) : Obj :=
  [([], .array ((List.range n).map fun i => (numStr i, .string [])))]

theorem count_emptyStrings (n : Nat) : fieldsTypeBitCount (emptyStrings n) = n := by
  have hcount : ∀ l : List Nat,
      fieldsTypeBitCount (l.map fun i => (numStr i, Value.string [])) = l.length := by
    intro l
    induction l with
    | nil => rfl
    | cons i l ih =>
      rw [List.map_cons, fieldsTypeBitCount, ih, typeBitCount, List.length_cons, Nat.add_comm]
  rw [emptyStrings, fieldsTypeBitCount, typeBitCount, hcount, List.length_range]
  rfl

theorem append_emptyStrings (n : Nat) : ∃ o, appendAllElementsForIndexing ⟨0⟩ .exclusiveBefore 0
    (stripFieldNames (emptyStrings n)) = some o ∧ o.bits.length = n :=
  ⟨_, rfl, (length_bits_appendAllElements rfl).trans (count_emptyStrings n)⟩

/-- An array of 1016 strings fills the buffer. -/
theorem appendsInside_emptyStrings : ∃ o,
    appendAllElementsForIndexing ⟨0⟩ .exclusiveBefore 0 (stripFieldNames (emptyStrings 1016)) =
      some o ∧ TypeBits.AppendsInside TypeBits.reset o.bits := by
  obtain ⟨o, ho, -⟩ := append_emptyStrings 1016
  exact ⟨o, ho, (appendsInside_iff_count_le ho).mpr (count_emptyStrings 1016).le⟩

/-- A seek to an array of 1017 strings writes behind the buffer. -/
theorem seek_writes_outside : ∃ o,
    appendAllElementsForIndexing ⟨0⟩ .exclusiveBefore 0 (stripFieldNames (emptyStrings 1017)) =
      some o ∧ ¬ TypeBits.AppendsInside TypeBits.reset o.bits := by
  obtain ⟨o, ho, hlen⟩ := append_emptyStrings 1017
  refine ⟨o, ho, ?_⟩
  rw [TypeBits.appendsInside_reset_iff, hlen]
  decide

/-- What an index stores of the type bits of a key below the size limit: at most 63 bytes of them,
a number that the size byte holds, and a reader of the stored bytes gets the bits back. -/
theorem typeBits_stored (ord : KeyOrdering) {key : Obj} (hnames : ∀ f ∈ key, f.1 = [])
    (hsize : checkKeySize key = .ok) :
    ∃ k, resetToKey key ord .inclusive = some k ∧
      (k.typeBits.curBit + 7) / 8 ≤ 63 ∧ k.typeBits.getSizeByte = (k.typeBits.curBit + 7) / 8 ∧
      k.typeBits.getBuffer.length = k.typeBits.getSize ∧
      ∀ rest, ∃ t, TypeBits.fromBuffer (k.typeBits.getBuffer ++ rest) = some (t, rest) ∧
        t.isAllZeros = k.typeBits.isAllZeros ∧
        TypeBits.readBits k.typeBits.curBit ⟨0, t⟩ =
          TypeBits.readBits k.typeBits.curBit ⟨0, k.typeBits⟩ := by
  refine ⟨ofOutput ⟨keyBytes ord 0 key, keyBits key⟩, ?_, ?_⟩
  · rw [resetToKey, appendAllElementsForIndexing_eq 0 key hnames]
    rfl
  · exact TypeBits.stored_appendBits (length_keyBits_le hsize)

/-- The type bits of a long and a symbol, with a byte behind them. -/
theorem typeBits_stored_long : ∃ k t,
    resetToKey [([], .numberLong 5), ([], .symbol [97])] ⟨0⟩ .inclusive = some k ∧
    (k.typeBits.curBit + 7) / 8 ≤ 63 ∧
    TypeBits.fromBuffer (k.typeBits.getBuffer ++ [7]) = some (t, [7]) ∧
    TypeBits.readBits k.typeBits.curBit ⟨0, t⟩ =
      TypeBits.readBits k.typeBits.curBit ⟨0, k.typeBits⟩ := by
  obtain ⟨k, hk, hcur, -, -, hread⟩ :=
    @typeBits_stored ⟨0⟩ [([], .numberLong 5), ([], .symbol [97])] (by simp) rfl
  obtain ⟨t, ht, -, hbits⟩ := hread [7]
  exact ⟨k, t, hk, hcur, ht, hbits⟩

end MongolDb.WiredTiger
