import Mathlib.Tactic.Positivity
import Mathlib.Tactic.Ring

/-! Byte strings under the unsigned lexicographic order, and big-endian integers in it. -/
namespace ByteOrder
open UInt8

abbrev Bytes := List UInt8

/-- Unsigned lexicographic order; a proper prefix comes first. -/
def lex : Bytes → Bytes → Ordering
  | [], [] => .eq
  | [], _ :: _ => .lt
  | _ :: _, [] => .gt
  | a :: u, b :: v => if a < b then .lt else if b < a then .gt else lex u v

/-- The two strings differ at some common position, and `u` has the smaller byte there. -/
inductive Below : Bytes → Bytes → Prop
  | head {a b : UInt8} {u v : Bytes} (h : a < b) : Below (a :: u) (b :: v)
  | tail {a : UInt8} {u v : Bytes} (h : Below u v) : Below (a :: u) (a :: v)

def flip (u : Bytes) : Bytes := u.map (~~~ ·)

def flipIf (invert : Bool) (u : Bytes) : Bytes := if invert then flip u else u

section Lex
variable {u v x y p : Bytes}

theorem lex_self (u : Bytes) : lex u u = .eq := by
  induction u with
  | nil => rfl
  | cons a u ih => simp [lex, ih]

theorem lex_swap (u v : Bytes) : (lex u v).swap = lex v u := by
  induction u generalizing v with
  | nil => cases v <;> rfl
  | cons a u ih =>
    cases v with
    | nil => rfl
    | cons b v =>
      by_cases hab : a < b
      · have hba : ¬ b < a := fun h => by
          rw [lt_iff_toNat_lt] at h hab
          omega
        simp [lex, hab, hba]
      · by_cases hba : b < a
        · simp [lex, hab, hba]
        · simpa [lex, hab, hba] using ih v

theorem lex_eq_iff : lex u v = .eq ↔ u = v := by
  constructor
  · intro h
    induction u generalizing v with
    | nil => cases v <;> simp_all [lex]
    | cons a u ih =>
      cases v with
      | nil => simp [lex] at h
      | cons b v =>
        by_cases hab : a < b
        · simp [lex, hab] at h
        · by_cases hba : b < a
          · simp [lex, hab, hba] at h
          · rw [lt_iff_toNat_lt] at hab hba
            have he : a = b := UInt8.toNat_inj.mp (by omega)
            subst he
            rw [ih (by simpa [lex] using h)]
  · rintro rfl
    exact lex_self u

theorem Below.lex_eq_lt (h : Below u v) : lex u v = .lt := by
  induction h with
  | head h => simp [lex, h]
  | tail _ ih => simpa [lex] using ih

theorem Below.lex_eq_gt (h : Below u v) : lex v u = .gt := by
  rw [← lex_swap, h.lex_eq_lt]
  rfl

theorem Below.append_left (p : Bytes) (h : Below u v) : Below (p ++ u) (p ++ v) := by
  induction p with
  | nil => exact h
  | cons a p ih => exact .tail ih

theorem Below.append_right (h : Below u v) (x y : Bytes) : Below (u ++ x) (v ++ y) := by
  induction h with
  | head h => exact .head h
  | tail _ ih => exact .tail ih

theorem below_cons {a b : UInt8} (h : a.toNat < b.toNat) : Below (a :: u) (b :: v) :=
  .head (lt_iff_toNat_lt.mpr h)

theorem lex_append_left (p u v : Bytes) : lex (p ++ u) (p ++ v) = lex u v := by
  induction p with
  | nil => rfl
  | cons a p ih => simp [lex, ih]

end Lex

@[simp] theorem flip_nil : flip [] = [] := rfl

@[simp] theorem flip_cons (a : UInt8) (u : Bytes) : flip (a :: u) = ~~~a :: flip u := rfl

@[simp] theorem flip_append (u v : Bytes) : flip (u ++ v) = flip u ++ flip v := by
  simp [flip]

@[simp] theorem flip_flip (u : Bytes) : flip (flip u) = u := by
  simp [flip, Function.comp_def]

@[simp] theorem length_flip (u : Bytes) : (flip u).length = u.length := by
  simp [flip]

theorem toNat_complement (a : UInt8) : (~~~a).toNat = 255 - a.toNat := by
  simp

theorem complement_eq_max_iff {a : UInt8} : ~~~a = 0xff ↔ a = 0 := by
  have ha := a.toNat_lt
  have h255 : (0xff : UInt8).toNat = 255 := rfl
  have h0 : (0 : UInt8).toNat = 0 := rfl
  rw [← UInt8.toNat_inj, ← UInt8.toNat_inj, toNat_complement, h255, h0]
  omega

/-- Inverting every byte reverses the order of two strings that differ at a common position. -/
theorem Below.flip {u v : Bytes} (h : Below u v) : Below (flip v) (flip u) := by
  induction h with
  | @head a b u v h =>
    apply below_cons
    rw [lt_iff_toNat_lt] at h
    have hb := b.toNat_lt
    simp only [toNat_complement]
    omega
  | tail _ ih => exact .tail ih

@[simp] theorem flipIf_false (u : Bytes) : flipIf false u = u := rfl

@[simp] theorem flipIf_true (u : Bytes) : flipIf true u = flip u := rfl

@[simp] theorem flipIf_nil (i : Bool) : flipIf i [] = [] := by cases i <;> rfl

@[simp] theorem flipIf_append (i : Bool) (u v : Bytes) :
    flipIf i (u ++ v) = flipIf i u ++ flipIf i v := by
  cases i <;> simp

@[simp] theorem length_flipIf (i : Bool) (u : Bytes) : (flipIf i u).length = u.length := by
  cases i <;> simp

@[simp] theorem flipIf_flipIf (i : Bool) (u : Bytes) : flipIf i (flipIf i u) = u := by
  cases i <;> simp

theorem flipIf_not (i : Bool) (u : Bytes) : flipIf (!i) u = flipIf i (flip u) := by
  cases i <;> simp

/-- The low `n` bytes of `v`, most significant first. -/
def be : Nat → Nat → Bytes
  | 0, _ => []
  | n + 1, v => UInt8.ofNat (v / 256 ^ n) :: be n v

/-- The number whose big-endian bytes are `u`. -/
def ofBe (u : Bytes) : Nat := u.foldl (fun acc b => acc * 256 + b.toNat) 0

section BigEndian
variable {n v w : Nat}

@[simp] theorem length_be (n v : Nat) : (be n v).length = n := by
  induction n with
  | zero => rfl
  | succ n ih => simp [be, ih]

theorem be_mod (n v : Nat) : be n (v % 256 ^ n) = be n v := by
  have key : ∀ k, k ≤ n → be k (v % 256 ^ n) = be k v := by
    intro k
    induction k with
    | zero => intro _; rfl
    | succ k ih =>
      intro hk
      have hdvd : (256 : Nat) ^ (k + 1) ∣ 256 ^ n := pow_dvd_pow 256 hk
      have hq : v % 256 ^ n / 256 ^ k % 256 = v / 256 ^ k % 256 := by
        rw [← Nat.mod_mul_right_div_self, ← Nat.mod_mul_right_div_self, ← pow_succ,
          Nat.mod_mod_of_dvd _ hdvd]
      simp only [be, ih (by omega)]
      congr 1
      apply UInt8.toNat_inj.mp
      simpa [toNat_ofNat'] using hq
  exact key n le_rfl

theorem below_be (h : v < w) (hw : w < 256 ^ n) : Below (be n v) (be n w) := by
  induction n generalizing v w with
  | zero => omega
  | succ n ih =>
    have hp : 0 < 256 ^ n := by positivity
    rw [pow_succ] at hw
    have hqw : w / 256 ^ n < 256 := Nat.div_lt_of_lt_mul hw
    have hqv : v / 256 ^ n ≤ w / 256 ^ n := Nat.div_le_div_right h.le
    simp only [be]
    rcases Nat.lt_or_eq_of_le hqv with hq | hq
    · apply below_cons
      simpa only [toNat_ofNat', Nat.mod_eq_of_lt hqw, Nat.mod_eq_of_lt (hq.trans hqw)] using hq
    · rw [hq]
      apply Below.tail
      have hv := Nat.div_add_mod v (256 ^ n)
      have hw := Nat.div_add_mod w (256 ^ n)
      rw [← be_mod n v, ← be_mod n w]
      apply ih
      · rw [hq] at hv
        omega
      · exact Nat.mod_lt _ hp

theorem foldl_be (n v acc : Nat) :
    (be n v).foldl (fun acc b => acc * 256 + b.toNat) acc = acc * 256 ^ n + v % 256 ^ n := by
  induction n generalizing acc with
  | zero => simp [be, Nat.mod_one]
  | succ n ih =>
    have hsplit : v % 256 ^ (n + 1) = v / 256 ^ n % 256 * 256 ^ n + v % 256 ^ n := by
      rw [pow_succ, Nat.mod_mul]
      ring
    rw [be, List.foldl_cons, ih, hsplit]
    simp only [toNat_ofNat']
    ring

theorem ofBe_be (h : v < 256 ^ n) : ofBe (be n v) = v := by
  rw [ofBe, foldl_be, Nat.mod_eq_of_lt h]
  simp

theorem ofBe_append (u w : Bytes) : ofBe (u ++ w) = ofBe u * 256 ^ w.length + ofBe w := by
  have acc : ∀ (w : Bytes) (a : Nat), w.foldl (fun acc b => acc * 256 + b.toNat) a =
      a * 256 ^ w.length + ofBe w := by
    intro w
    induction w with
    | nil => intro a; simp [ofBe]
    | cons b w ih =>
      intro a
      rw [ofBe, List.foldl_cons, List.foldl_cons, ih, ih (0 * 256 + b.toNat), List.length_cons]
      ring
  rw [ofBe, List.foldl_append, acc]
  rfl

theorem ofBe_lt (u : Bytes) : ofBe u < 256 ^ u.length := by
  induction u with
  | nil => decide
  | cons b u ih =>
    have hb := b.toNat_lt
    have h1 : ofBe [b] = b.toNat := by simp [ofBe]
    have h := ofBe_append [b] u
    rw [List.singleton_append, h1] at h
    rw [h, List.length_cons, pow_succ]
    have := Nat.mul_le_mul_right (256 ^ u.length) (show b.toNat ≤ 255 by omega)
    omega

end BigEndian

end ByteOrder
