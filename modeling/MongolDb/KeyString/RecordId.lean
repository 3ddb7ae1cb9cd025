import MongolDb.KeyString.Readers

/-! Record ids and their encoding behind a key (record_id.h, key_string.cpp). -/
namespace MongolDb
open UInt8

structure RecordId where
  repr : Int64
  deriving DecidableEq

namespace RecordId

def null : RecordId := ⟨0⟩
def min : RecordId := ⟨Int64.minValue⟩
def max : RecordId := ⟨Int64.maxValue⟩

/-- Only normal ids stand for records. -/
def isNormal (r : RecordId) : Bool := decide (0 < r.repr) && decide (r.repr < max.repr)

theorem toInt_injective : Function.Injective fun r : RecordId => r.repr.toInt := by
  rintro ⟨a⟩ ⟨b⟩ h
  exact congrArg RecordId.mk (Int64.toInt_inj.mp h)

instance : LinearOrder RecordId := LinearOrder.lift' (fun r => r.repr.toInt) toInt_injective

/-- The unsigned value that is encoded. -/
def value (r : RecordId) : Nat := r.repr.toInt.toNat

section
variable {r s : RecordId}

theorem value_lt (r : RecordId) : r.value < 2 ^ 63 := by
  have := Int64.toInt_lt r.repr
  unfold value
  omega

theorem toInt_pos (h : r.isNormal = true) : 0 < r.repr.toInt := by
  simp only [isNormal, Bool.and_eq_true, decide_eq_true_eq] at h
  exact Int64.lt_iff_toInt_lt.mp h.1

theorem toInt_nonneg (h : 0 ≤ r.repr) : 0 ≤ r.repr.toInt := Int64.le_iff_toInt_le.mp h

theorem repr_nonneg (h : r.isNormal = true) : 0 ≤ r.repr :=
  Int64.le_iff_toInt_le.mpr (toInt_pos h).le

theorem value_cast (h : 0 ≤ r.repr) : (r.value : Int) = r.repr.toInt :=
  Int.toNat_of_nonneg (toInt_nonneg h)

theorem ofNat_value (h : 0 ≤ r.repr) : (⟨Int64.ofNat r.value⟩ : RecordId) = r := by
  rw [← Int64.ofInt_eq_ofNat, value_cast h, Int64.ofInt_toInt]

theorem value_lt_value (h : r < s) (hs : s.isNormal = true) : r.value < s.value := by
  have hlt : r.repr.toInt < s.repr.toInt := h
  have := toInt_pos hs
  unfold value
  omega

theorem compare_value (hr : r.isNormal = true) (hs : s.isNormal = true) :
    compare r.value s.value = compare r s := by
  rcases lt_trichotomy r s with h | rfl | h
  · rw [compare_lt_iff_lt.mpr h, compare_lt_iff_lt.mpr (value_lt_value h hs)]
  · simp
  · rw [compare_gt_iff_gt.mpr h, compare_gt_iff_gt.mpr (value_lt_value h hr)]

end

end RecordId

namespace KeyString
open ByteOrder

/-- How many bytes stand between the first and the last one. -/
def extraBytesNeeded (value : Nat) : Nat :=
  let bitsNeeded := value.size
  if bitsNeeded ≤ 10 then 0 else (bitsNeeded - 10 + 7) / 8

/-- The first byte holds the number of extra bytes and the five highest bits, the last byte the
five lowest bits and that number again. -/
def recordIdBytes (value : Nat) : Bytes :=
  let extraBytesNeeded := extraBytesNeeded value
  let firstByte := UInt8.ofNat (extraBytesNeeded <<< 5 ||| value >>> (5 + extraBytesNeeded * 8))
  let lastByte := UInt8.ofNat (value <<< 3 ||| extraBytesNeeded)
  firstByte :: be extraBytesNeeded (value >>> 5) ++ [lastByte]

/-- `none` where the invariant fails: the only negative id that is encoded is the least one, as
zero. -/
def appendRecordId (loc : RecordId) : Option Bytes :=
  if loc.repr < 0 ∧ loc ≠ RecordId.min then none else some (recordIdBytes loc.value)

/-- The loop over the extra bytes. -/
def foldExtraBytes (repr : Nat) (extra : Bytes) : Nat :=
  extra.foldl (fun repr b => repr <<< 8 ||| b.toNat) repr

def assembleRecordId (firstByte : UInt8) (extra : Bytes) (lastByte : UInt8) : Option RecordId :=
  if lastByte &&& (0x7 : UInt8) = firstByte >>> (5 : UInt8) then
    some ⟨Int64.ofNat
      (foldExtraBytes (firstByte &&& 0x1f).toNat extra <<< 5 ||| (lastByte >>> 3).toNat)⟩
  else none

def decodeRecordId (reader : Bytes) : Option (RecordId × Bytes) :=
  (readByte false reader).bind fun first =>
    (readBytes (first.1 >>> 5).toNat false first.2).bind fun extra =>
      (readByte false extra.2).bind fun last =>
        (assembleRecordId first.1 extra.1 last.1).map fun id => (id, last.2)

/-- The id behind a key, found from its last byte. -/
def decodeRecordIdAtEnd (buffer : Bytes) : Option RecordId :=
  buffer.getLast?.bind fun lastByte =>
    let ridSize := 2 + (lastByte &&& 0x7).toNat
    if 2 ≤ buffer.length ∧ ridSize ≤ buffer.length then
      (decodeRecordId (buffer.drop (buffer.length - ridSize))).map Prod.fst
    else none

section Codec
variable {v w : Nat}

theorem extraBytesNeeded_le (h : v < 2 ^ 63) : extraBytesNeeded v ≤ 7 := by
  have hsize : v.size ≤ 63 := Nat.size_le.mpr h
  simp only [extraBytesNeeded]
  split <;> omega

theorem lt_extraBytesNeeded (v : Nat) : v < 2 ^ (10 + 8 * extraBytesNeeded v) := by
  apply Nat.size_le.mp
  simp only [extraBytesNeeded]
  split <;> omega

theorem extraBytesNeeded_mono (h : v ≤ w) : extraBytesNeeded v ≤ extraBytesNeeded w := by
  have hsize : v.size ≤ w.size := Nat.size_le_size h
  simp only [extraBytesNeeded]
  split
  · exact Nat.zero_le _
  · rw [if_neg (by omega)]
    omega

/-- The number that the bytes of an id with `n` extra bytes spell. -/
def framed (n v : Nat) : Nat := n * 2 ^ (13 + 8 * n) + v * 8 + n

theorem pow_frame (n : Nat) : 2 ^ (13 + 8 * n) = 32 * 256 ^ (n + 1) := by
  rw [show (256 : Nat) = 2 ^ 8 from rfl, ← pow_mul, show (32 : Nat) = 2 ^ 5 from rfl, ← pow_add]
  congr 1
  omega

theorem be_succ_right (n v : Nat) : be (n + 1) v = be n (v / 256) ++ [UInt8.ofNat v] := by
  induction n with
  | zero => simp [be]
  | succ n ih =>
    rw [be, ih, be, List.cons_append, Nat.div_div_eq_div_mul, pow_succ, Nat.mul_comm 256]

/-- The high byte of the frame. -/
theorem framed_div {n : Nat} (hn : n < 8) :
    framed n v / 256 ^ (n + 1) = n * 32 + v / 2 ^ (5 + n * 8) := by
  have hp : 0 < 256 ^ (n + 1) := by positivity
  have hpow : 256 ^ (n + 1) = 8 * 2 ^ (5 + n * 8) := by
    rw [show (256 : Nat) = 2 ^ 8 from rfl, ← pow_mul, show (8 : Nat) = 2 ^ 3 from rfl, ← pow_add]
    congr 1
    omega
  have hlow : (v * 8 + n) / 256 ^ (n + 1) = v / 2 ^ (5 + n * 8) := by
    rw [hpow, ← Nat.div_div_eq_div_mul]
    congr 1
    omega
  rw [framed, pow_frame, Nat.add_assoc, show n * (32 * 256 ^ (n + 1)) = 256 ^ (n + 1) * (n * 32) by
    ring, Nat.mul_add_div hp, hlow]

/-- The encoding is the big-endian form of one number. -/
theorem recordIdBytes_eq (h : v < 2 ^ 63) :
    recordIdBytes v = be (extraBytesNeeded v + 2) (framed (extraBytesNeeded v) v) := by
  have hn := extraBytesNeeded_le h
  have hv := lt_extraBytesNeeded v
  simp only [recordIdBytes]
  generalize extraBytesNeeded v = n at hn hv
  have hdiv := framed_div (v := v) (show n < 8 by omega)
  have hhigh : v / 2 ^ (5 + n * 8) < 2 ^ 5 := by
    apply Nat.div_lt_of_lt_mul
    rwa [← pow_add, show 5 + n * 8 + 5 = 10 + 8 * n by ring]
  have hfirst : n <<< 5 ||| v >>> (5 + n * 8) = framed n v / 256 ^ (n + 1) := by
    rw [Nat.shiftRight_eq_div_pow, ← Nat.shiftLeft_add_eq_or_of_lt hhigh, hdiv,
      Nat.shiftLeft_eq]
  have hframe : framed n v = 256 * (n * 32 * 256 ^ n) + (v * 8 + n) := by
    rw [framed, pow_frame, pow_succ]
    ring
  have hmid : framed n v / 256 = 256 ^ n * (n * 32) + v / 32 := by
    rw [hframe, Nat.mul_add_div (by decide), Nat.mul_comm (n * 32)]
    congr 1
    omega
  have hlast : ofNat (v <<< 3 ||| n) = ofNat (framed n v) := by
    apply UInt8.toNat_inj.mp
    rw [← Nat.shiftLeft_add_eq_or_of_lt (show n < 2 ^ 3 by omega), Nat.shiftLeft_eq, hframe,
      toNat_ofNat', toNat_ofNat']
    omega
  have hextra : be n (v >>> 5) = be n (framed n v / 256) := by
    rw [← be_mod n (framed n v / 256), hmid, Nat.mul_add_mod, be_mod, Nat.shiftRight_eq_div_pow]
  rw [be, be_succ_right, hfirst, hlast, hextra]
  rfl

/-- Ids are encoded in their order, and no encoding starts another. -/
theorem ordered_recordIdBytes (hv : v < 2 ^ 63) (hw : w < 2 ^ 63) :
    Ordered (compare v w) (recordIdBytes v) (recordIdBytes w) := by
  have key : ∀ {v w : Nat}, w < 2 ^ 63 → v < w → Below (recordIdBytes v) (recordIdBytes w) := by
    intro v w hw h
    have hv := h.trans hw
    have hwn := extraBytesNeeded_le hw
    have hvlt := lt_extraBytesNeeded v
    have hwlt := lt_extraBytesNeeded w
    rw [recordIdBytes_eq hv, recordIdBytes_eq hw]
    rcases Nat.lt_or_eq_of_le (extraBytesNeeded_mono h.le) with hn | hn
    · -- the number of extra bytes decides in the first byte
      apply below_cons
      have hbound : ∀ {n u : Nat}, u < 2 ^ (10 + 8 * n) → u / 2 ^ (5 + n * 8) < 32 := by
        intro n u hu
        apply Nat.div_lt_of_lt_mul
        rwa [show (32 : Nat) = 2 ^ 5 from rfl, ← pow_add, show 5 + n * 8 + 5 = 10 + 8 * n by ring]
      have h1 := hbound hvlt
      have h2 := hbound hwlt
      rw [framed_div (by omega), framed_div (by omega)]
      generalize w / 2 ^ (5 + extraBytesNeeded w * 8) = y at h2
      rw [toNat_ofNat', toNat_ofNat', Nat.mod_eq_of_lt (by omega),
        Nat.mod_eq_of_lt (by omega)]
      omega
    · rw [hn]
      rw [hn] at hvlt
      generalize extraBytesNeeded w = n at hwn hwlt
      apply below_be
      · unfold framed
        omega
      · have hpow : 2 ^ (13 + 8 * n) = 8 * 2 ^ (10 + 8 * n) := by
          rw [show (8 : Nat) = 2 ^ 3 from rfl, ← pow_add, ← Nat.add_assoc]
        have hframe := pow_frame n
        have hmul : n * 2 ^ (13 + 8 * n) ≤ 7 * 2 ^ (13 + 8 * n) := Nat.mul_le_mul_right _ hwn
        have hp : 256 ^ (n + 2) = 256 * 256 ^ (n + 1) := by rw [pow_succ, Nat.mul_comm]
        unfold framed
        omega
  exact ordered_compare (key hw) (congrArg recordIdBytes) (key hv)

theorem foldExtraBytes_be (x n u : Nat) :
    foldExtraBytes x (be n u) = x * 256 ^ n + u % 256 ^ n := by
  have hstep : (fun (repr : Nat) (b : UInt8) => repr <<< 8 ||| b.toNat) =
      fun acc b => acc * 256 + b.toNat := by
    funext repr b
    rw [← Nat.shiftLeft_add_eq_or_of_lt b.toNat_lt, Nat.shiftLeft_eq]
  rw [foldExtraBytes, hstep, foldl_be]

/-- The last byte of an encoded id: five bits of the id, and how many bytes there are besides. -/
theorem toNat_lastByte (v : Nat) {n : Nat} (hn : n ≤ 7) :
    (UInt8.ofNat (v <<< 3 ||| n)).toNat = v % 32 * 8 + n := by
  rw [← Nat.shiftLeft_add_eq_or_of_lt (show n < 2 ^ 3 by omega), Nat.shiftLeft_eq,
    toNat_ofNat']
  omega

/-- An encoded id is read back, up to where it ends. -/
theorem decodeRecordId_recordIdBytes (h : v < 2 ^ 63) (rest : Bytes) :
    decodeRecordId (recordIdBytes v ++ rest) = some (⟨Int64.ofNat v⟩, rest) := by
  have hn := extraBytesNeeded_le h
  have hv := lt_extraBytesNeeded v
  simp only [recordIdBytes]
  generalize extraBytesNeeded v = n at hn hv
  generalize hx : v >>> (5 + n * 8) = x
  rw [Nat.shiftRight_eq_div_pow] at hx
  have hx32 : x < 2 ^ 5 := by
    rw [← hx]
    apply Nat.div_lt_of_lt_mul
    rwa [← pow_add, show 5 + n * 8 + 5 = 10 + 8 * n by ring]
  have hfirst : (ofNat (n <<< 5 ||| x)).toNat = n * 32 + x := by
    rw [← Nat.shiftLeft_add_eq_or_of_lt hx32, Nat.shiftLeft_eq, toNat_ofNat']
    exact Nat.mod_eq_of_lt (by omega)
  have hlast := toNat_lastByte v hn
  generalize ofNat (n <<< 5 ||| x) = first at hfirst
  generalize ofNat (v <<< 3 ||| n) = last at hlast
  have hcount : (first >>> 5).toNat = n := by
    simp only [UInt8.toNat_shiftRight, hfirst, reduceToNat, Nat.reduceMod,
      Nat.shiftRight_eq_div_pow]
    omega
  have hhigh : (first &&& 0x1f).toNat = x := by
    rw [UInt8.toNat_and, hfirst, show (0x1f : UInt8).toNat = 2 ^ 5 - 1 from rfl,
      Nat.and_two_pow_sub_one_eq_mod]
    omega
  have hagree : last &&& (0x7 : UInt8) = first >>> (5 : UInt8) := by
    apply UInt8.toNat_inj.mp
    rw [hcount, UInt8.toNat_and, hlast, show (0x7 : UInt8).toNat = 2 ^ 3 - 1 from rfl,
      Nat.and_two_pow_sub_one_eq_mod]
    omega
  have hlow : (last >>> 3).toNat = v % 32 := by
    simp only [UInt8.toNat_shiftRight, hlast, reduceToNat, Nat.reduceMod,
      Nat.shiftRight_eq_div_pow]
    omega
  have hmid : foldExtraBytes x (be n (v >>> 5)) = v / 32 := by
    rw [foldExtraBytes_be, ← hx, Nat.shiftRight_eq_div_pow, pow_add, ← Nat.div_div_eq_div_mul,
      Nat.mul_comm n 8, pow_mul, show (2 : Nat) ^ 8 = 256 from rfl]
    exact Nat.div_add_mod' (v / 2 ^ 5) (256 ^ n)
  have hwhole : (v / 32) <<< 5 ||| v % 32 = v := by
    rw [← Nat.shiftLeft_add_eq_or_of_lt (show v % 32 < 2 ^ 5 by omega), Nat.shiftLeft_eq]
    omega
  simp only [decodeRecordId, readByte, readBytes, List.cons_append, List.append_assoc,
    Option.bind_some, hcount, List.length_append, length_be, Bool.false_eq_true, if_false,
    Nat.le_add_right, if_true, flipIf_false, List.nil_append]
  rw [List.take_left' (length_be _ _), List.drop_left' (length_be _ _)]
  simp only [Option.bind_some, assembleRecordId, hagree, if_true, hhigh, hmid, hlow, hwhole,
    Option.map_some]

/-- The last byte tells how long the encoding is. -/
theorem recordIdBytes_frame (h : v < 2 ^ 63) : ∃ front last, recordIdBytes v = front ++ [last] ∧
    front.length = 1 + (last &&& (0x7 : UInt8)).toNat := by
  have hn := extraBytesNeeded_le h
  refine ⟨_, _, rfl, ?_⟩
  have hlast := toNat_lastByte v hn
  rw [UInt8.toNat_and, hlast, show (0x7 : UInt8).toNat = 2 ^ 3 - 1 from rfl,
    Nat.and_two_pow_sub_one_eq_mod, List.length_cons, length_be]
  omega

theorem decodeRecordIdAtEnd_append (h : v < 2 ^ 63) (key : Bytes) :
    decodeRecordIdAtEnd (key ++ recordIdBytes v) = some ⟨Int64.ofNat v⟩ := by
  obtain ⟨front, last, hbytes, hlen⟩ := recordIdBytes_frame h
  have hlength : (recordIdBytes v).length = 2 + (last &&& (0x7 : UInt8)).toNat := by
    rw [hbytes, List.length_append, hlen, List.length_singleton]
    omega
  have hgetLast : (key ++ recordIdBytes v).getLast? = some last := by
    rw [hbytes, ← List.append_assoc, List.getLast?_concat]
  have hdecode := decodeRecordId_recordIdBytes h []
  rw [List.append_nil] at hdecode
  rw [decodeRecordIdAtEnd, hgetLast, Option.bind_some, List.length_append, hlength]
  rw [if_pos (by omega), Nat.add_sub_cancel, List.drop_left, hdecode]
  rfl

end Codec

section
variable {id id' : RecordId}

theorem appendRecordId_of_nonneg (h : 0 ≤ id.repr) :
    appendRecordId id = some (recordIdBytes id.value) := by
  have hnonneg := RecordId.toInt_nonneg h
  rw [appendRecordId, if_neg]
  rintro ⟨hneg, -⟩
  have : id.repr.toInt < 0 := Int64.lt_iff_toInt_lt.mp hneg
  omega

theorem appendRecordId_of_isNormal (h : id.isNormal = true) :
    appendRecordId id = some (recordIdBytes id.value) :=
  appendRecordId_of_nonneg (RecordId.repr_nonneg h)

theorem decodeRecordId_append (h : 0 ≤ id.repr) (rest : Bytes) :
    decodeRecordId (recordIdBytes id.value ++ rest) = some (id, rest) := by
  rw [decodeRecordId_recordIdBytes id.value_lt, RecordId.ofNat_value h]

theorem decodeRecordIdAtEnd_of_nonneg (h : 0 ≤ id.repr) (key : Bytes) :
    decodeRecordIdAtEnd (key ++ recordIdBytes id.value) = some id := by
  rw [decodeRecordIdAtEnd_append id.value_lt, RecordId.ofNat_value h]

theorem compare_value_of_nonneg (h : 0 ≤ id.repr) (h' : 0 ≤ id'.repr) :
    compare id.value id'.value = compare id.repr.toInt id'.repr.toInt := by
  have hv := RecordId.value_cast h
  have hv' := RecordId.value_cast h'
  exact ThreeWay.compare_congr (by omega) (by omega)

/-- Encoded ids are read back from either end, whatever stands on the other side, and their codes
stand in the order of the ids, whatever follows them. -/
theorem recordId_codec (h : 0 ≤ id.repr) (h' : 0 ≤ id'.repr) :
    ∃ code code', appendRecordId id = some code ∧ appendRecordId id' = some code' ∧
      (∀ rest, decodeRecordId (code ++ rest) = some (id, rest)) ∧
      (∀ front, decodeRecordIdAtEnd (front ++ code) = some id) ∧
      ∀ x y, lex (code ++ x) (code' ++ y) =
        (compare id.repr.toInt id'.repr.toInt).then (lex x y) := by
  refine ⟨_, _, appendRecordId_of_nonneg h, appendRecordId_of_nonneg h', ?_, ?_, ?_⟩
  · exact decodeRecordId_append h
  · exact decodeRecordIdAtEnd_of_nonneg h
  · intro x y
    rw [← compare_value_of_nonneg h h']
    exact (ordered_recordIdBytes id.value_lt id'.value_lt).lex_append x y

theorem recordId_codec_null_max : ∃ code code', appendRecordId RecordId.null = some code ∧
    appendRecordId RecordId.max = some code' ∧ lex (code ++ [255]) (code' ++ [0]) = .lt := by
  obtain ⟨code, code', happend, happend', -, -, hlex⟩ :=
    recordId_codec (show 0 ≤ RecordId.null.repr by decide) (show 0 ≤ RecordId.max.repr by decide)
  refine ⟨code, code', happend, happend', ?_⟩
  rw [hlex]
  decide

end

end KeyString
end MongolDb
