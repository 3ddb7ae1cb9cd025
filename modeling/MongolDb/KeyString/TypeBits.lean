import Mathlib.Data.Nat.Bitwise
import MongolDb.Lib.ByteOrder

/-! The bits that tell apart values which a KeyString encodes alike (key_string.h, `TypeBits`). -/
namespace MongolDb.KeyString
open ByteOrder List

/-- `buf` holds the size byte and then the data bytes, its length is `1 + kMaxBytesNeeded`. -/
structure TypeBits where
  curBit : Nat
  isAllZeros : Bool
  buf : Bytes
  deriving DecidableEq

namespace TypeBits

def kMaxBytesNeeded : Nat := 127

def kString : List Bool := [false]
def kSymbol : List Bool := [true]

/-! The two bits of a number's type, low bit first. -/

def kInt : List Bool := [false, false]
def kDouble : List Bool := [true, false]
def kLong : List Bool := [false, true]
def kNegativeZero : List Bool := [true, true]

def reset : TypeBits := ⟨0, true, 0x80 :: List.replicate kMaxBytesNeeded 0⟩

section
variable (t : TypeBits)

def byteAt (i : Nat) : UInt8 := t.buf.getD i 0

/-- The number of data bytes; the mask keeps six bits of it. -/
def getSizeByte : Nat := (t.byteAt 0 &&& 0x3f).toNat

def setByte (i : Nat) (b : UInt8) : TypeBits := { t with buf := t.buf.set i b }

def setSizeByte (size : Nat) : TypeBits := t.setByte 0 (0x80 ||| UInt8.ofNat size)

def bit (b : Bool) : UInt8 := if b then 1 else 0

def appendBit (b : Bool) : TypeBits :=
  let byte := (t.curBit / 8 + 1) % 256
  let offsetInByte := t.curBit % 8
  let t' :=
    if offsetInByte = 0 then (t.setSizeByte byte).setByte byte (bit b)
    else t.setByte byte (t.byteAt byte ||| (bit b <<< UInt8.ofNat offsetInByte))
  { t' with curBit := t.curBit + 1, isAllZeros := if b then false else t.isAllZeros }

def appendBits (bs : List Bool) : TypeBits := bs.foldl appendBit t

def getSize : Nat :=
  if t.isAllZeros then 1
  else if t.getSizeByte = 1 ∧ t.byteAt 1 &&& 0x80 = 0 then 1
  else t.getSizeByte + 1

/-- The `getSize` bytes at `getBuffer`: the size byte is left out of the one-byte forms. -/
def getBuffer : Bytes :=
  (if t.getSize = 1 then t.buf.drop 1 else t.buf).take t.getSize

end

/-- Reads the type bits at the front of a buffer; `none` when the buffer is too short. -/
def fromBuffer : Bytes → Option (TypeBits × Bytes)
  | [] => some (reset, [])
  | firstByte :: rest =>
    if firstByte &&& 0x80 ≠ 0 then
      let remainingBytes := (firstByte &&& 0x3f).toNat
      if remainingBytes ≤ rest.length then
        some (⟨0, false, firstByte :: rest.take remainingBytes ++
          List.replicate (kMaxBytesNeeded - remainingBytes) 0⟩, rest.drop remainingBytes)
      else none
    else if firstByte = 0 then some (reset, rest)
    else some ((⟨0, false, reset.buf⟩ : TypeBits).setSizeByte 1 |>.setByte 1 firstByte, rest)

/-- A position in the stream of bits (`TypeBits::Reader`). -/
structure Reader where
  curBit : Nat
  typeBits : TypeBits

def readBit (r : Reader) : Bool × Reader :=
  if r.typeBits.isAllZeros then (false, r)
  else
    let byte := (r.curBit / 8 + 1) % 256
    let offsetInByte := r.curBit % 8
    (r.typeBits.byteAt byte &&& ((1 : UInt8) <<< UInt8.ofNat offsetInByte) ≠ 0,
      { r with curBit := r.curBit + 1 })

def readStringLike (r : Reader) : List Bool × Reader :=
  let (b, r) := readBit r
  ([b], r)

def readNumeric (r : Reader) : List Bool × Reader :=
  let (lowBit, r) := readBit r
  let (highBit, r) := readBit r
  ([lowBit, highBit], r)

/-! What the buffer holds after a sequence of appended bits. -/

section

def bitAt (t : TypeBits) (i : Nat) : Bool := (t.byteAt (i / 8 + 1)).toNat.testBit (i % 8)

/-- `t` is the state after the bits `bs` were appended, one by one. -/
structure Holds (t : TypeBits) (bs : List Bool) : Prop where
  curBit : t.curBit = bs.length
  zeros : t.isAllZeros = bs.all (!·)
  length : t.buf.length = kMaxBytesNeeded + 1
  sizeByte : t.byteAt 0 = 0x80 ||| UInt8.ofNat ((bs.length + 7) / 8)
  bits : ∀ i, i < 8 * ((bs.length + 7) / 8) → t.bitAt i = bs.getD i false

theorem holds_reset : Holds reset [] where
  curBit := rfl
  zeros := rfl
  length := rfl
  sizeByte := rfl
  bits := by simp

theorem toNat_bit (b : Bool) : (bit b).toNat = b.toNat := by cases b <;> rfl

theorem toNat_bit_shift (b : Bool) {k : Nat} (h : k < 8) :
    (bit b <<< UInt8.ofNat k).toNat = b.toNat * 2 ^ k := by
  have key : ∀ b : Bool, ∀ k : Fin 8, (bit b <<< UInt8.ofNat k).toNat = b.toNat * 2 ^ k.val := by
    decide
  exact key b ⟨k, h⟩

theorem testBit_bool (b : Bool) (i k : Nat) :
    (b.toNat * 2 ^ k).testBit i = (b && decide (i = k)) := by
  cases b with
  | false => simp
  | true => simp [Nat.testBit_two_pow, eq_comm]

variable {bs : List Bool} {t : TypeBits}

theorem byteAt_setByte {i j : Nat} {b : UInt8} (h : i < t.buf.length) :
    (t.setByte i b).byteAt j = if i = j then b else t.byteAt j := by
  unfold setByte byteAt
  by_cases hij : i = j
  · subst hij
    simp [getD_eq_getElem?_getD, h]
  · simp [getD_eq_getElem?_getD, getElem?_set_ne hij, hij]

/-- The bytes after one more bit: a new byte is started at every eighth. -/
theorem byteAt_appendBit {n : Nat} (hn : t.curBit = n) (hlen : n / 8 + 1 < 256)
    (hin : n / 8 + 1 < t.buf.length) (b : Bool) (j : Nat) : (t.appendBit b).byteAt j =
      if j = n / 8 + 1 then
        if n % 8 = 0 then bit b else t.byteAt j ||| (bit b <<< UInt8.ofNat (n % 8))
      else if j = 0 ∧ n % 8 = 0 then 0x80 ||| UInt8.ofNat (n / 8 + 1)
      else t.byteAt j := by
  subst hn
  have hset : ∀ size, (t.setSizeByte size).buf.length = t.buf.length := by
    intro size
    simp [setSizeByte, setByte]
  have happ : (t.appendBit b).byteAt j = byteAt (if t.curBit % 8 = 0 then
      (t.setSizeByte (t.curBit / 8 + 1)).setByte (t.curBit / 8 + 1) (bit b)
      else t.setByte (t.curBit / 8 + 1)
        (t.byteAt (t.curBit / 8 + 1) ||| (bit b <<< UInt8.ofNat (t.curBit % 8)))) j := by
    simp only [TypeBits.appendBit, Nat.mod_eq_of_lt hlen]
    rfl
  rw [happ]
  by_cases h0 : t.curBit % 8 = 0
  · rw [if_pos h0, byteAt_setByte (by rw [hset]; exact hin), setSizeByte,
      byteAt_setByte (by omega)]
    grind
  · rw [if_neg h0, byteAt_setByte hin]
    grind

theorem Holds.appendBit (h : Holds t bs) (b : Bool)
    (hlen : bs.length < 8 * kMaxBytesNeeded) : Holds (t.appendBit b) (bs ++ [b]) := by
  have hmax : kMaxBytesNeeded = 127 := rfl
  have hin : bs.length / 8 + 1 < t.buf.length := by
    rw [h.length]
    omega
  have hbytes := byteAt_appendBit h.curBit (by omega) hin b
  refine ⟨?_, ?_, ?_, ?_, ?_⟩
  · simp [TypeBits.appendBit, h.curBit]
  · cases b <;> simp [TypeBits.appendBit, h.zeros]
  · simp only [TypeBits.appendBit]
    split <;> simp [setSizeByte, setByte, h.length]
  · rw [hbytes, length_append, length_singleton, if_neg (by omega)]
    by_cases h0 : bs.length % 8 = 0
    · rw [if_pos ⟨rfl, h0⟩]
      congr 2
      omega
    · rw [if_neg (fun hc => h0 hc.2), h.sizeByte]
      congr 2
      omega
  · intro i hi
    rw [length_append, length_singleton] at hi
    have hold := h.bits i
    have hget : (bs ++ [b]).getD i false = if i = bs.length then b else bs.getD i false := by
      grind
    rw [hget, bitAt, hbytes]
    by_cases hj : i / 8 = bs.length / 8
    · rw [if_pos (by omega)]
      by_cases h0 : bs.length % 8 = 0
      · have ht := testBit_bool b (i % 8) 0
        rw [pow_zero, Nat.mul_one] at ht
        rw [if_pos h0, toNat_bit, ht]
        grind
      · rw [if_neg h0, UInt8.toNat_or, Nat.testBit_or, toNat_bit_shift b (by omega),
          testBit_bool]
        change (t.bitAt i || _) = _
        rw [hold (by omega)]
        grind
    · rw [if_neg (by omega), if_neg (by omega), if_neg (by omega)]
      exact hold (by omega)

theorem holds_appendBits (hlen : bs.length ≤ 8 * kMaxBytesNeeded) :
    Holds (reset.appendBits bs) bs := by
  induction bs using reverseRecOn with
  | nil => exact holds_reset
  | append_singleton bs b ih =>
    rw [length_append, length_singleton] at hlen
    have h := (ih (by omega)).appendBit b (by omega)
    unfold appendBits at h ⊢
    rwa [foldl_append]

/-- The reader will hand out the bits `bs` next. -/
structure Serves (r : Reader) (bs : List Bool) : Prop where
  zeros : r.typeBits.isAllZeros = true → ∀ b ∈ bs, b = false
  bits : r.typeBits.isAllZeros = false → ∀ i, i < bs.length →
    r.typeBits.bitAt (r.curBit + i) = bs.getD i false
  room : r.typeBits.isAllZeros = false → r.curBit + bs.length ≤ 8 * kMaxBytesNeeded

theorem Holds.serves (h : Holds t bs)
    (hlen : bs.length ≤ 8 * kMaxBytesNeeded) : Serves ⟨0, t⟩ bs where
  zeros hz b hb := by
    have hall : bs.all (!·) = true := h.zeros.symm.trans hz
    simpa using all_eq_true.mp hall b hb
  bits _ i hi := by
    rw [Nat.zero_add]
    exact h.bits i (by omega)
  room _ := by simpa using hlen

theorem testBit_eq (a : UInt8) {k : Nat} (h : k < 8) :
    decide (a &&& ((1 : UInt8) <<< UInt8.ofNat k) ≠ 0) = a.toNat.testBit k := by
  have hone : ((1 : UInt8) <<< UInt8.ofNat k).toNat = 2 ^ k := by
    simpa [bit] using toNat_bit_shift true h
  have hand : (a &&& ((1 : UInt8) <<< UInt8.ofNat k)).toNat = (a.toNat.testBit k).toNat * 2 ^ k := by
    rw [UInt8.toNat_and, hone, Nat.and_two_pow]
  have hpos : 0 < 2 ^ k := Nat.two_pow_pos k
  cases hb : a.toNat.testBit k with
  | false =>
    rw [hb, Bool.toNat_false, Nat.zero_mul] at hand
    have h0 : a &&& ((1 : UInt8) <<< UInt8.ofNat k) = 0 := UInt8.toNat_inj.mp hand
    exact decide_eq_false (not_not_intro h0)
  | true =>
    rw [hb, Bool.toNat_true, Nat.one_mul] at hand
    refine decide_eq_true fun h0 => ?_
    rw [h0] at hand
    exact absurd hand hpos.ne

theorem Serves.readBit {r : Reader} {b : Bool} (h : Serves r (b :: bs)) :
    (TypeBits.readBit r).1 = b ∧ Serves (TypeBits.readBit r).2 bs := by
  unfold TypeBits.readBit
  cases hz : r.typeBits.isAllZeros with
  | true =>
    rw [if_pos rfl]
    refine ⟨(h.zeros hz b (by simp)).symm, fun _ c hc => h.zeros hz c (by simp [hc]), ?_, ?_⟩
    · intro hf
      exact absurd (hf.symm.trans hz) Bool.false_ne_true
    · intro hf
      exact absurd (hf.symm.trans hz) Bool.false_ne_true
  | false =>
    have hroom := h.room hz
    have hmax : kMaxBytesNeeded = 127 := rfl
    rw [length_cons] at hroom
    rw [if_neg Bool.false_ne_true]
    refine ⟨?_, ?_, ?_, ?_⟩
    · have h0 := h.bits hz 0 (by simp)
      rw [Nat.add_zero, bitAt] at h0
      simp only [Nat.mod_eq_of_lt (show r.curBit / 8 + 1 < 256 by omega)]
      rw [testBit_eq _ (Nat.mod_lt _ (by decide)), h0]
      rfl
    · intro ht
      exact absurd (hz.symm.trans ht) Bool.false_ne_true
    · intro _ i hi
      have := h.bits hz (i + 1) (by simpa using hi)
      simpa [Nat.add_assoc, Nat.add_comm 1 i] using this
    · intro _
      simp only
      omega

theorem Serves.readStringLike {r : Reader} {b : Bool} (h : Serves r (b :: bs)) :
    (TypeBits.readStringLike r).1 = [b] ∧ Serves (TypeBits.readStringLike r).2 bs :=
  ⟨congrArg (fun c => [c]) h.readBit.1, h.readBit.2⟩

theorem Serves.readNumeric {r : Reader} {b c : Bool} (h : Serves r (b :: c :: bs)) :
    (TypeBits.readNumeric r).1 = [b, c] ∧ Serves (TypeBits.readNumeric r).2 bs := by
  have h1 := h.readBit
  have h2 := h1.2.readBit
  exact ⟨by rw [← h1.1, ← h2.1]; rfl, h2.2⟩

end

end TypeBits

end MongolDb.KeyString
