import MongolDb.KeyString.Decode
import MongolDb.KeyString.Order

/-! What the decoder's readers return on bytes that the encoder wrote. -/
namespace MongolDb.KeyString
open ByteOrder Bson List

/-- The bytes after a value: they cannot be taken for the rest of an escaped NUL. -/
def Follows (inverted : Bool) (rest : Bytes) : Prop := Stops (flipIf inverted rest)

/-- A text as it is read back. A descending field's reader takes the second byte of a leading
NUL for a byte of the text. -/
def decodedText (inverted : Bool) : Bytes → Bytes
  | [] => []
  | c :: s => if inverted ∧ c = 0 then 0xff :: s else c :: s

section
variable {inverted : Bool} {u rest : Bytes}

theorem readByte_flipIf (inverted : Bool) (a : UInt8) (u rest : Bytes) :
    readByte inverted (flipIf inverted (a :: u) ++ rest) =
      some (a, flipIf inverted u ++ rest) := by
  cases inverted <;> simp [readByte]

theorem readBytes_flipIf {n : Nat} (h : u.length = n) :
    readBytes n inverted (flipIf inverted u ++ rest) = some (u, rest) := by
  subst h
  have hlen : (flipIf inverted u).length = u.length := length_flipIf _ _
  rw [readBytes, if_pos (by simp [hlen]), take_left' hlen, drop_left' hlen,
    flipIf_flipIf]

theorem readUntil_append {t : UInt8} (h : ∀ c ∈ u, c ≠ t) (rest : Bytes) :
    readUntil t (u ++ t :: rest) = some (u, rest) := by
  induction u with
  | nil => simp [readUntil]
  | cons c u ih =>
    have hc : c ≠ t := h c (by simp)
    simp [readUntil, hc, ih (forall_mem_cons.mp h).2]

theorem readName_flipIf (h : cstring u) :
    readName inverted (flipIf inverted (u ++ [0]) ++ rest) = some (u, rest) := by
  have hne := cstring_iff.mp h
  cases inverted with
  | false => simpa [readName, readCString] using readUntil_append hne rest
  | true =>
    have hflip : ∀ c ∈ flip u, c ≠ 0xff := by
      intro c hc
      obtain ⟨b, hb, rfl⟩ := mem_map.mp hc
      exact fun he => hne b hb (complement_eq_max_iff.mp he)
    have hread := readUntil_append hflip rest
    rw [readName, if_pos rfl, readInvertedCString, flipIf_true, flip_append, append_assoc]
    change Option.map _ (readUntil 0xff (flip u ++ 0xff :: rest)) = _
    rw [hread]
    simp

theorem readOID_flipIf (o : OID) :
    readOID inverted (flipIf inverted o.bytes ++ rest) = some (o, rest) := by
  rw [readOID, readBytes_flipIf o.size]
  simp [o.size]

end

section Texts
variable {rest : Bytes}

theorem readUntil_cons {t c : UInt8} (h : c ≠ t) (bytes : Bytes) :
    readUntil t (c :: bytes) = (readUntil t bytes).map fun (s, rest) => (c :: s, rest) := by
  rw [readUntil, if_neg h]

/-- From the start of any part of an ascending text. -/
theorem readCStringWithNulsLoop_escape (h : Stops rest) (s scratch : Bytes) {fuel : Nat}
    (hf : s.length < fuel) :
    ((readCString (escape s ++ rest)).bind fun (part, rest) =>
      readCStringWithNulsLoop fuel (scratch ++ part) rest) = some (scratch ++ s, rest) := by
  induction s generalizing scratch fuel with
  | nil =>
    obtain ⟨a, t, rfl, ha⟩ := h
    cases fuel with
    | zero => omega
    | succ fuel => simp [escape, readCString, readUntil, readCStringWithNulsLoop, ha]
  | cons c s ih =>
    rw [length_cons] at hf
    by_cases hc : c = 0
    · subst hc
      cases fuel with
      | zero => omega
      | succ fuel =>
        have := ih (scratch ++ [0]) (show s.length < fuel by omega)
        simpa [escape, readCString, readUntil, readCStringWithNulsLoop] using this
    · have := ih (scratch ++ [c]) (show s.length < fuel by omega)
      rw [escape, if_neg hc, readCString, cons_append, readUntil_cons hc]
      cases hr : readUntil 0 (escape s ++ rest) <;> simp_all [readCString]

theorem length_lt_escape (s : Bytes) : s.length < (escape s).length := by
  induction s with
  | nil => decide
  | cons c s ih => by_cases hc : c = 0 <;> simp [escape, hc] <;> omega

/-- The body of the inverted loop, after the test for the first pass. -/
def invertedPass (fuel : Nat) (out bytes : Bytes) : Option (Bytes × Bytes) :=
  (readUntil 0xff bytes).bind fun (part, rest) =>
    match rest with
    | [] => none
    | b :: _ =>
      if b = 0 then readInvertedCStringWithNulsLoop fuel (out ++ part) rest
      else some (flip (out ++ part), rest)

theorem invertedLoop_nil (fuel : Nat) (bytes : Bytes) :
    readInvertedCStringWithNulsLoop (fuel + 1) [] bytes = invertedPass fuel [] bytes := rfl

theorem invertedLoop_cons {out : Bytes} (h : out ≠ []) (fuel : Nat) (b : UInt8) (bytes : Bytes) :
    readInvertedCStringWithNulsLoop (fuel + 1) out (b :: bytes) =
      invertedPass fuel (out ++ [0xff]) bytes := by
  cases out with
  | nil => exact absurd rfl h
  | cons c out => rfl

theorem invertedPass_cons {c : UInt8} (hc : c ≠ 0xff) (fuel : Nat) (out bytes : Bytes) :
    invertedPass fuel out (c :: bytes) = invertedPass fuel (out ++ [c]) bytes := by
  rw [invertedPass, invertedPass, readUntil_cons hc]
  cases readUntil 0xff bytes with
  | none => rfl
  | some p => simp

theorem invertedPass_max (fuel : Nat) (out : Bytes) (b : UInt8) (bytes : Bytes) :
    invertedPass fuel out (0xff :: b :: bytes) =
      if b = 0 then readInvertedCStringWithNulsLoop fuel out (b :: bytes)
      else some (flip out, b :: bytes) := by
  simp [invertedPass, readUntil]

theorem flip_escape_cons (c : UInt8) (s : Bytes) :
    flip (escape (c :: s)) = if c = 0 then 0xff :: 0 :: flip (escape s)
      else ~~~c :: flip (escape s) := by
  by_cases hc : c = 0
  · rw [escape, if_pos hc, if_pos hc]
    rfl
  · rw [escape, if_neg hc, if_neg hc]
    rfl

theorem Stops.of_flip (h : Stops (flip rest)) : ∃ b t, rest = b :: t ∧ b ≠ 0 := by
  obtain ⟨a, t, ha, hne⟩ := h
  cases rest with
  | nil => exact absurd ha (by simp)
  | cons b rest =>
    refine ⟨b, rest, rfl, fun hb => hne ?_⟩
    rw [← (cons.inj ha).1]
    exact complement_eq_max_iff.mpr hb

/-- Once a byte has been read, every NUL of the text is recognised. -/
theorem invertedPass_escape (h : Stops (flip rest)) (s : Bytes) {o : Bytes} (hout : o ≠ [])
    {fuel : Nat} (hf : s.length < fuel) :
    invertedPass fuel o (flip (escape s) ++ rest) = some (flip o ++ s, rest) := by
  induction s generalizing o fuel with
  | nil =>
    obtain ⟨b, t, rfl, hb⟩ := Stops.of_flip h
    change invertedPass fuel o (0xff :: b :: t) = _
    rw [invertedPass_max, if_neg hb, append_nil]
  | cons c s ih =>
    rw [length_cons] at hf
    rw [flip_escape_cons]
    by_cases hc : c = 0
    · subst hc
      cases fuel with
      | zero => omega
      | succ fuel =>
        have := ih (o := o ++ [0xff]) (by simp) (show s.length < fuel by omega)
        rw [if_pos rfl, cons_append, cons_append, invertedPass_max, if_pos rfl,
          invertedLoop_cons hout, this, flip_append, append_assoc]
        rfl
    · have := ih (o := o ++ [~~~c]) (by simp) (show s.length < fuel by omega)
      rw [if_neg hc, cons_append,
        invertedPass_cons (fun he => hc (complement_eq_max_iff.mp he)), this]
      simp

theorem readInvertedCStringWithNuls_escape (h : Stops (flip rest)) (s : Bytes) :
    readInvertedCStringWithNuls (flip (escape s) ++ rest) =
      some (decodedText true s, rest) := by
  have hlen := length_lt_escape s
  obtain ⟨fuel, hfuel⟩ : ∃ fuel, (flip (escape s) ++ rest).length = fuel + 1 :=
    Nat.exists_eq_add_one.mpr (by rw [length_append, length_flip]; omega)
  have hf : s.length < fuel + 1 := by
    rw [← hfuel, length_append, length_flip]
    omega
  rw [readInvertedCStringWithNuls, hfuel, invertedLoop_nil]
  cases s with
  | nil =>
    obtain ⟨b, t, rfl, hb⟩ := Stops.of_flip h
    change invertedPass _ [] (0xff :: b :: t) = _
    rw [invertedPass_max, if_neg hb]
    rfl
  | cons c s =>
    rw [length_cons] at hf
    rw [flip_escape_cons]
    by_cases hc : c = 0
    · -- nothing has been read yet: the second byte of the escape is taken for text
      have := invertedPass_escape h s (o := [0]) (by simp) (show s.length < fuel by omega)
      rw [if_pos hc, cons_append, cons_append, invertedPass_max, if_pos rfl,
        invertedLoop_nil, invertedPass_cons (by decide), nil_append, this, decodedText,
        if_pos ⟨rfl, hc⟩]
      rfl
    · have := invertedPass_escape h s (o := [~~~c]) (by simp) (show s.length < fuel + 1 by omega)
      rw [if_neg hc, cons_append,
        invertedPass_cons (fun he => hc (complement_eq_max_iff.mp he)), nil_append, this]
      simp [decodedText, hc]

theorem readText_flipIf {inverted : Bool} (h : Follows inverted rest) (s : Bytes) :
    readText inverted (flipIf inverted (escape s) ++ rest) =
      some (decodedText inverted s, rest) := by
  cases inverted with
  | true => exact readInvertedCStringWithNuls_escape h s
  | false =>
    have hid : decodedText false s = s := by cases s <;> simp [decodedText]
    rw [hid]
    have hlen := length_lt_escape s
    exact readCStringWithNulsLoop_escape h s [] (by simp; omega)

end Texts

end MongolDb.KeyString
