import MongolDb.Lib.ByteOrder
import MongolDb.Lib.ThreeWay

/-! Codes whose byte order is the order of what they encode, and how such codes compose. -/
namespace ByteOrder

/-- `u` and `v` stand in the order `o`, and a byte common to both positions decides it. -/
def Ordered (o : Ordering) (u v : Bytes) : Prop :=
  match o with
  | .lt => Below u v
  | .eq => u = v
  | .gt => Below v u

/-- A tail that cannot be taken for the second byte of an escaped NUL. -/
def Stops (x : Bytes) : Prop := ∃ a t, x = a :: t ∧ a ≠ 0xff

/-- `u` and `v` stand in the order `o` once each is followed by a tail that stops. -/
def Codes (o : Ordering) (u v : Bytes) : Prop :=
  match o with
  | .lt => ∀ x y, Stops x → Stops y → Below (u ++ x) (v ++ y)
  | .eq => u = v
  | .gt => ∀ x y, Stops x → Stops y → Below (v ++ y) (u ++ x)

/-- A NUL byte is written `00 FF`, and the end of the string `00`. -/
def escape : Bytes → Bytes
  | [] => [0]
  | c :: u => if c = 0 then 0 :: 0xff :: escape u else c :: escape u

section Composition
variable {o q : Ordering} {u v x y : Bytes}

theorem stops_cons {a : UInt8} (h : a ≠ 0xff) (t : Bytes) : Stops (a :: t) := ⟨a, t, rfl, h⟩

theorem Stops.append (h : Stops x) (y : Bytes) : Stops (x ++ y) := by
  obtain ⟨a, t, rfl, ha⟩ := h
  exact ⟨a, t ++ y, rfl, ha⟩

theorem Ordered.codes (h : Ordered o u v) : Codes o u v := by
  cases o with
  | lt => exact fun x y _ _ => Below.append_right h x y
  | eq => exact h
  | gt => exact fun x y _ _ => Below.append_right h y x

theorem Ordered.lex_eq (h : Ordered o u v) : lex u v = o := by
  cases o with
  | lt => exact Below.lex_eq_lt h
  | eq => exact lex_eq_iff.mpr h
  | gt => exact Below.lex_eq_gt h

/-- What follows the codes is compared only when they are equal. -/
theorem Ordered.lex_append (h : Ordered o u v) (x y : Bytes) :
    lex (u ++ x) (v ++ y) = o.then (lex x y) := by
  cases o with
  | lt => exact (Below.append_right h x y).lex_eq_lt
  | eq =>
    obtain rfl : u = v := h
    exact lex_append_left u x y
  | gt => exact (Below.append_right h y x).lex_eq_gt

theorem Ordered.flip (h : Ordered o u v) : Ordered o.swap (flip u) (flip v) := by
  cases o with
  | lt => exact Below.flip h
  | eq => exact congrArg ByteOrder.flip h
  | gt => exact Below.flip h

/-- A code decided on its own may be followed by any code. -/
theorem Ordered.then (h₁ : Ordered o u v) (h₂ : o = .eq → Codes q x y) :
    Codes (o.then q) (u ++ x) (v ++ y) := by
  cases o with
  | lt => exact fun p q _ _ => by simpa using Below.append_right h₁ (x ++ p) (y ++ q)
  | gt => exact fun p q _ _ => by simpa using Below.append_right h₁ (y ++ q) (x ++ p)
  | eq =>
    obtain rfl : u = v := h₁
    have h := h₂ rfl
    cases q with
    | lt => exact fun p q hp hq => by simpa using (h p q hp hq).append_left u
    | eq => exact congrArg (u ++ ·) h
    | gt => exact fun p q hp hq => by simpa using (h p q hp hq).append_left u

theorem Ordered.then_ordered (h₁ : Ordered o u v) (h₂ : o = .eq → Ordered q x y) :
    Ordered (o.then q) (u ++ x) (v ++ y) := by
  cases o with
  | lt => exact Below.append_right h₁ x y
  | gt => exact Below.append_right h₁ y x
  | eq =>
    obtain rfl : u = v := h₁
    have h := h₂ rfl
    cases q with
    | lt => exact Below.append_left u h
    | eq => exact congrArg (u ++ ·) h
    | gt => exact Below.append_left u h

/-- A code that needs a stopping tail gets it from the code that follows. -/
theorem Codes.then (h₁ : Codes o u v) (h₂ : o = .eq → Codes q x y)
    (hx : Stops x) (hy : Stops y) : Codes (o.then q) (u ++ x) (v ++ y) := by
  cases o with
  | lt | gt => exact fun p q _ _ => by simpa using h₁ _ _ (hx.append p) (hy.append q)
  | eq => exact Ordered.then (o := .eq) h₁ h₂

/-- Tails that stop, and that are ordered themselves, leave no need for a further tail. -/
theorem Codes.ordered_append (h : Codes o u v) (hx : Stops x) (hy : Stops y)
    (hxy : o = .eq → Ordered q x y) : Ordered (o.then q) (u ++ x) (v ++ y) := by
  cases o with
  | lt | gt => exact h x y hx hy
  | eq => exact Ordered.then_ordered (o := .eq) h hxy

/-- With every byte inverted, the order turns around. -/
theorem Codes.ordered_flip_append (h : Codes o u v) (hx : Stops (flip x)) (hy : Stops (flip y))
    (hxy : o = .eq → Ordered q x y) : Ordered (o.swap.then q) (flip u ++ x) (flip v ++ y) := by
  cases o with
  | lt =>
    have := (h _ _ hx hy).flip
    simpa [Ordered] using this
  | gt =>
    have := (h _ _ hx hy).flip
    simpa [Ordered] using this
  | eq => exact Ordered.then_ordered (o := .eq) (congrArg ByteOrder.flip h) hxy

end Composition

section Codes
variable {u v : Bytes}

theorem ordered_compare {α : Type*} [LinearOrder α] {a b : α} (hlt : a < b → Below u v)
    (heq : a = b → u = v) (hgt : b < a → Below v u) : Ordered (compare a b) u v := by
  rcases lt_trichotomy a b with h | h | h
  · rw [compare_lt_iff_lt.mpr h]
    exact hlt h
  · rw [compare_eq_iff_eq.mpr h]
    exact heq h
  · rw [compare_gt_iff_gt.mpr h]
    exact hgt h

theorem ordered_be {n v w : Nat} (hv : v < 256 ^ n) (hw : w < 256 ^ n) :
    Ordered (compare v w) (be n v) (be n w) :=
  ordered_compare (below_be · hw) (congrArg (be n)) (below_be · hv)

theorem ordered_byte (a b : UInt8) : Ordered (compare a.toNat b.toNat) [a] [b] :=
  ordered_compare below_cons (fun h => by rw [UInt8.toNat_inj.mp h]) below_cons

theorem lex_cons (a b : UInt8) (u v : Bytes) :
    lex (a :: u) (b :: v) = (compare a.toNat b.toNat).then (lex u v) := by
  simp only [lex, UInt8.lt_iff_toNat_lt]
  rcases Nat.lt_trichotomy a.toNat b.toNat with h | h | h
  · rw [Nat.compare_eq_lt.mpr h, if_pos h]
    rfl
  · rw [Nat.compare_eq_eq.mpr h, if_neg (by omega), if_neg (by omega)]
    rfl
  · rw [Nat.compare_eq_gt.mpr h, if_neg (by omega), if_pos h]
    rfl

/-- Strings of one length decide their order themselves. -/
theorem ordered_of_length_eq (h : u.length = v.length) : Ordered (lex u v) u v := by
  induction u generalizing v with
  | nil =>
    obtain rfl := List.eq_nil_of_length_eq_zero h.symm
    rfl
  | cons a u ih =>
    cases v with
    | nil => cases h
    | cons b v =>
      rw [lex_cons]
      exact (ordered_byte a b).then_ordered fun _ => ih (Nat.succ.inj h)

theorem lex_append_of_length_eq (h : u.length = v.length) (x y : Bytes) :
    lex (u ++ x) (v ++ y) = (lex u v).then (lex x y) := by
  have ho := ordered_of_length_eq h
  cases hl : lex u v with
  | lt =>
    rw [hl] at ho
    exact (Below.append_right ho x y).lex_eq_lt
  | gt =>
    rw [hl] at ho
    exact (Below.append_right ho y x).lex_eq_gt
  | eq =>
    rw [lex_eq_iff.mp hl]
    exact lex_append_left v x y

/-- Strings without a NUL are delimited by one. -/
theorem ordered_cstring (hu : ∀ c ∈ u, c ≠ 0) (hv : ∀ c ∈ v, c ≠ 0) :
    Ordered (lex u v) (u ++ [0]) (v ++ [0]) := by
  have pos : ∀ c : UInt8, c ≠ 0 → 0 < c.toNat := fun c hc =>
    Nat.pos_of_ne_zero fun h => hc (UInt8.toNat_inj.mp h)
  induction u generalizing v with
  | nil =>
    cases v with
    | nil => rfl
    | cons b v => exact below_cons (pos b (hv b (by simp)))
  | cons a u ih =>
    cases v with
    | nil => exact below_cons (pos a (hu a (by simp)))
    | cons b v =>
      rw [lex_cons]
      exact (ordered_byte a b).then_ordered fun _ =>
        ih (List.forall_mem_cons.mp hu).2 (List.forall_mem_cons.mp hv).2

theorem lex_append_nul (u v : Bytes) : lex (u ++ [0]) (v ++ [0]) = lex u v := by
  induction u generalizing v with
  | nil =>
    cases v with
    | nil => rfl
    | cons b v =>
      rw [List.nil_append, List.cons_append, lex_cons]
      rcases Nat.eq_zero_or_pos b.toNat with h | h
      · rw [h]
        cases v <;> rfl
      · rw [show compare (0 : UInt8).toNat b.toNat = .lt from Nat.compare_eq_lt.mpr h]
        rfl
  | cons a u ih =>
    cases v with
    | nil =>
      rw [List.nil_append, List.cons_append, lex_cons]
      rcases Nat.eq_zero_or_pos a.toNat with h | h
      · rw [h]
        cases u <;> rfl
      · rw [show compare a.toNat (0 : UInt8).toNat = .gt from Nat.compare_eq_gt.mpr h]
        rfl
    | cons b v => simp only [List.cons_append, lex_cons, ih]

/-- The end of an escaped string is below whatever another one goes on with. -/
theorem below_escape_cons (b : UInt8) (v : Bytes) {x : Bytes} (hx : Stops x) (y : Bytes) :
    Below ([0] ++ x) (escape (b :: v) ++ y) := by
  obtain ⟨a, t, rfl, ha⟩ := hx
  by_cases hb : b = 0
  · rw [escape, if_pos hb]
    refine .tail (below_cons ?_)
    have hlt := a.toNat_lt
    have hne : a.toNat ≠ 255 := fun h => ha (UInt8.toNat_inj.mp h)
    change a.toNat < 255
    omega
  · rw [escape, if_neg hb]
    exact below_cons (Nat.pos_of_ne_zero fun h => hb (UInt8.toNat_inj.mp h))

theorem codes_escape (u v : Bytes) : Codes (lex u v) (escape u) (escape v) := by
  induction u generalizing v with
  | nil =>
    cases v with
    | nil => rfl
    | cons b v => exact fun x y hx _ => below_escape_cons b v hx y
  | cons a u ih =>
    cases v with
    | nil => exact fun x y _ hy => below_escape_cons a u hy x
    | cons b v =>
      rw [lex_cons]
      -- the first byte decides, and an escaped NUL adds the same second byte to both
      have pair : ∀ c w, escape (c :: w) = [c] ++ ((if c = 0 then [0xff] else []) ++ escape w) := by
        intro c w
        by_cases hc : c = 0 <;> simp [escape, hc]
      rw [pair, pair]
      refine (ordered_byte a b).then fun h => ?_
      rw [UInt8.toNat_inj.mp (Nat.compare_eq_eq.mp h)]
      exact Ordered.then (o := .eq) rfl fun _ => ih v

end Codes

end ByteOrder
