import MongolDb.KeyString.Encode

/-! A descending field has the bytes of an ascending one, inverted, and the same type bits. -/
namespace MongolDb.KeyString
open ByteOrder Bson

/-- `f` appends the same whichever way it is asked to, but for the inversion of every byte. -/
def Inverts (f : Bool → Output) : Prop :=
  ∀ i, (f i).bytes = flipIf i (f false).bytes ∧ (f i).bits = (f false).bits

section Inverts
variable {f g : Bool → Output}

theorem inverts_appendBytes (s : Bytes) : Inverts (appendBytes s) := fun _ => ⟨rfl, rfl⟩

theorem inverts_appendBytes_not (s : Bytes) : Inverts fun i => appendBytes s (!i) :=
  fun i => ⟨flipIf_not i s, rfl⟩

theorem inverts_appendTypeBits (bs : List Bool) : Inverts fun _ => appendTypeBits bs :=
  fun i => ⟨(flipIf_nil i).symm, rfl⟩

theorem Inverts.append (hf : Inverts f) (hg : Inverts g) : Inverts fun i => f i ++ g i := by
  intro i
  simp [(hf i).1, (hf i).2, (hg i).1, (hg i).2]

theorem Inverts.ite {c : Prop} [Decidable c] (hf : Inverts f) (hg : Inverts g) :
    Inverts fun i => if c then f i else g i := by
  intro i
  by_cases hc : c
  · simpa [hc] using hf i
  · simpa [hc] using hg i

theorem inverts_appendStringLike (s : Bytes) : Inverts (appendStringLike s) := by
  induction s with
  | nil => exact inverts_appendBytes _
  | cons c s ih =>
    exact ((inverts_appendBytes _).append ih).ite ((inverts_appendBytes _).append ih)

theorem inverts_appendPreshiftedIntegerPortion (v : Nat) (negative : Bool) :
    Inverts (appendPreshiftedIntegerPortion v negative) :=
  ((inverts_appendBytes _).append (inverts_appendBytes_not _)).ite
    ((inverts_appendBytes _).append (inverts_appendBytes _))

theorem inverts_appendSmallDouble (d : Binary64) : Inverts (appendSmallDouble d) :=
  ((inverts_appendBytes _).append (inverts_appendBytes _)).ite
    ((inverts_appendBytes _).append (inverts_appendBytes_not _))

theorem inverts_appendLargeDouble (d : Binary64) : Inverts (appendLargeDouble d) :=
  ((inverts_appendBytes _).append (inverts_appendBytes _)).ite
    ((inverts_appendBytes _).append (inverts_appendBytes_not _))

theorem inverts_appendInteger (n : Int) : Inverts (appendInteger n) :=
  (inverts_appendLargeDouble _).ite
    ((inverts_appendBytes _).ite (inverts_appendPreshiftedIntegerPortion _ _))

theorem inverts_appendNumberDouble (d : Binary64) : Inverts (appendNumberDouble d) := by
  have hfrac : ∀ (s : Bytes) (negative : Bool),
      Inverts fun i => appendBytes s (if negative then !i else i) := by
    intro s negative
    cases negative
    · exact inverts_appendBytes s
    · exact inverts_appendBytes_not s
  refine (inverts_appendTypeBits _).append (.ite (inverts_appendBytes _)
    (.ite (inverts_appendBytes _) (.ite (inverts_appendSmallDouble d) (.ite (.ite ?_ ?_)
      (inverts_appendLargeDouble d)))))
  · exact inverts_appendPreshiftedIntegerPortion _ _
  · exact (inverts_appendPreshiftedIntegerPortion _ _).append (hfrac _ _)

theorem inverts_appendBinData (t : UInt8) (s : Bytes) : Inverts (appendBinData t s) :=
  (((inverts_appendBytes _).append ((inverts_appendBytes _).ite
    ((inverts_appendBytes _).append (inverts_appendBytes _)))).append
    (inverts_appendBytes _)).append (inverts_appendBytes _)

mutual
theorem inverts_appendBsonValue : ∀ v : Value, Inverts (appendBsonValue v)
  | .minKey | .maxKey | .undefined | .null => inverts_appendBytes _
  | .numberDouble d => inverts_appendNumberDouble d
  | .numberInt n | .numberLong n => (inverts_appendTypeBits _).append (inverts_appendInteger n.toInt)
  | .string s | .symbol s =>
    ((inverts_appendTypeBits _).append (inverts_appendBytes _)).append
      (inverts_appendStringLike s)
  | .object fields => (inverts_appendBytes _).append (inverts_appendBson fields)
  | .array fields => (inverts_appendBytes _).append (inverts_appendArray fields)
  | .binData t s => inverts_appendBinData t s
  | .oid _ | .date _ | .timestamp _ => (inverts_appendBytes _).append (inverts_appendBytes _)
  | .bool _ => inverts_appendBytes _
  | .regEx _ _ =>
    ((((inverts_appendBytes _).append (inverts_appendBytes _)).append
      (inverts_appendBytes _)).append (inverts_appendBytes _)).append (inverts_appendBytes _)
  | .dbRef _ _ =>
    (((inverts_appendBytes _).append (inverts_appendBytes _)).append
      (inverts_appendBytes _)).append (inverts_appendBytes _)
  | .code s => (inverts_appendBytes _).append (inverts_appendStringLike s)
  | .codeWScope s scope =>
    ((inverts_appendBytes _).append (inverts_appendStringLike s)).append
      (inverts_appendBson scope)
theorem inverts_appendBson : ∀ fields : List (Bytes × Value), Inverts (appendBson fields)
  | [] => inverts_appendBytes _
  | (_, v) :: rest =>
    (((inverts_appendBytes _).append (inverts_appendBytes _)).append
      (inverts_appendBsonValue v)).append (inverts_appendBson rest)
theorem inverts_appendArray : ∀ fields : List (Bytes × Value), Inverts (appendArray fields)
  | [] => inverts_appendBytes _
  | (_, v) :: rest => (inverts_appendBsonValue v).append (inverts_appendArray rest)
end

end Inverts

end MongolDb.KeyString
