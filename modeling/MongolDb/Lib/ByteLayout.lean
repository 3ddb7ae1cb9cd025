import MongolDb.Lib.ByteOrder

/-! What stands where in a buffer: runs of bytes at positions, little-endian integers and texts that
end with a NUL byte. -/
namespace ByteLayout
open ByteOrder List

section
variable {α : Type*} {b u v : List α} {p n : Nat} {x : α}

/-- The run `u` stands at position `p` of the buffer. -/
def At (b : List α) (p : Nat) (u : List α) : Prop := u <+: b.drop p

@[simp] theorem at_nil : At b p [] := nil_prefix

theorem at_append : At b p (u ++ v) ↔ At b p u ∧ At b (p + u.length) v := by
  constructor
  · rintro ⟨w, hw⟩
    rw [append_assoc] at hw
    refine ⟨⟨v ++ w, hw⟩, w, ?_⟩
    rw [← drop_drop, ← hw, drop_left]
  · rintro ⟨⟨w, hw⟩, ⟨w', hw'⟩⟩
    rw [← drop_drop, ← hw, drop_left] at hw'
    exact ⟨w', by rw [append_assoc, hw', hw]⟩

theorem at_singleton : At b p [x] ↔ b[p]? = some x := by
  constructor
  · rintro ⟨w, hw⟩
    have hget : (b.drop p)[0]? = some x := by rw [← hw]; rfl
    rwa [getElem?_drop, Nat.add_zero] at hget
  · intro h
    obtain ⟨hp, rfl⟩ := List.getElem?_eq_some_iff.mp h
    exact ⟨b.drop (p + 1), (drop_eq_getElem_cons hp).symm⟩

theorem at_cons : At b p (x :: u) ↔ b[p]? = some x ∧ At b (p + 1) u := by
  rw [← singleton_append, at_append, at_singleton]
  rfl

theorem At.bound (h : At b p u) (hu : u ≠ []) : p + u.length ≤ b.length := by
  have hle := h.length_le
  have hpos := length_pos_iff.mpr hu
  rw [length_drop] at hle
  omega

theorem At.take_eq (h : At b p u) : (b.drop p).take u.length = u := (prefix_iff_eq_take.mp h).symm

theorem at_take (b : List α) (p n : Nat) : At b p ((b.drop p).take n) := take_prefix _ _

theorem length_take_drop (h : p + n ≤ b.length) : ((b.drop p).take n).length = n := by
  rw [length_take, length_drop]
  omega

end

/-- The low `n` bytes of `v`, least significant first. -/
def le : Nat → Nat → Bytes
  | 0, _ => []
  | n + 1, v => UInt8.ofNat v :: le n (v / 256)

/-- The number whose little-endian bytes are `u`. -/
def ofLe : Bytes → Nat
  | [] => 0
  | x :: u => x.toNat + 256 * ofLe u

/-- The signed number of 32 bits. -/
def toInt32 (n : Nat) : Int :=
  if n % 2 ^ 32 < 2 ^ 31 then ((n % 2 ^ 32 : Nat) : Int) else ((n % 2 ^ 32 : Nat) : Int) - 2 ^ 32

section
variable {n v : Nat} {u : Bytes}

@[simp] theorem length_le (n v : Nat) : (le n v).length = n := by
  induction n generalizing v with
  | zero => rfl
  | succ n ih => rw [le, length_cons, ih]

theorem ofLe_le (h : v < 256 ^ n) : ofLe (le n v) = v := by
  induction n generalizing v with
  | zero =>
    have hv : v = 0 := by simpa using h
    rw [hv]
    rfl
  | succ n ih =>
    have hdiv : v / 256 < 256 ^ n := by
      apply Nat.div_lt_of_lt_mul
      rwa [pow_succ, Nat.mul_comm] at h
    rw [le, ofLe, ih hdiv, UInt8.toNat_ofNat']
    omega

theorem le_ofLe (u : Bytes) : le u.length (ofLe u) = u := by
  induction u with
  | nil => rfl
  | cons x u ih =>
    have hx := x.toNat_lt
    have hdiv : (x.toNat + 256 * ofLe u) / 256 = ofLe u := by omega
    have hlow : UInt8.ofNat (x.toNat + 256 * ofLe u) = x := by
      apply UInt8.toNat_inj.mp
      rw [UInt8.toNat_ofNat']
      omega
    rw [length_cons, ofLe, le, hdiv, ih, hlow]

theorem toInt32_of_lt (h : n < 2 ^ 31) : toInt32 n = n := by
  rw [toInt32, Nat.mod_eq_of_lt (by omega), if_pos h]

theorem toInt32_le (h : v < 2 ^ 31) : toInt32 (ofLe (le 4 v)) = v := by
  rw [ofLe_le (by omega), toInt32_of_lt h]

/-- The bytes of a signed number that is not negative. -/
theorem eq_le_of_toInt32 (hlen : u.length = 4) (h : toInt32 (ofLe u) = v) : u = le 4 v := by
  have hbytes := le_ofLe u
  have hlow : le 4 (ofLe u % 2 ^ 32) = le 4 (ofLe u) := by
    simp only [le, cons.injEq, and_true]
    refine ⟨?_, ?_, ?_, ?_⟩
    all_goals
      apply UInt8.toNat_inj.mp
      simp only [UInt8.toNat_ofNat']
      omega
  have hv : ofLe u % 2 ^ 32 = v := by
    rw [toInt32] at h
    split at h <;> omega
  rw [hlen] at hbytes
  rw [← hbytes, ← hlow, hv]

end

/-! Texts that end with a NUL byte. -/

/-- The length of the text that starts at `p`, if it ends within the buffer. -/
def strlen (b : Bytes) (p : Nat) : Option Nat := (b.drop p).findIdx? (· = 0)

section
variable {b s : Bytes} {p n : Nat}

theorem strlen_eq (h : At b p (s ++ [0])) (hs : 0 ∉ s) : strlen b p = some s.length := by
  obtain ⟨w, hw⟩ := h
  rw [strlen, ← hw, append_assoc, findIdx?_append]
  have hnone : s.findIdx? (fun c => decide (c = 0)) = none := by
    rw [findIdx?_eq_none_iff]
    intro c hc
    simpa using fun hzero : c = 0 => hs (hzero ▸ hc)
  rw [hnone]
  simp [findIdx?_cons]

theorem exists_of_strlen (h : strlen b p = some n) : ∃ s, s.length = n ∧ 0 ∉ s ∧ At b p (s ++ [0]) := by
  obtain ⟨hn, hzero, hbefore⟩ := findIdx?_eq_some_iff_getElem.mp h
  refine ⟨(b.drop p).take n, ?_, ?_, ?_⟩
  · rw [length_take]
    omega
  · intro hmem
    obtain ⟨i, hi, heq⟩ := getElem_of_mem hmem
    rw [length_take] at hi
    have hnot := hbefore i (by omega)
    rw [getElem_take] at heq
    simp [heq] at hnot
  · have hzero : (b.drop p)[n] = 0 := by simpa using hzero
    refine ⟨(b.drop p).drop (n + 1), ?_⟩
    rw [append_assoc, singleton_append, ← hzero, ← drop_eq_getElem_cons hn,
      take_append_drop]

end

end ByteLayout
