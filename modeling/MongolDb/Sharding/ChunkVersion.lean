import MongolDb.Bson.Value

/-! Versions of chunks (s/chunk_version.h). -/
namespace MongolDb.Sharding
open Bson

structure ChunkVersion where
  major : Int32
  minor : Int32
  epoch : OID
  deriving DecidableEq

/-- The size of the epoch that the examples of this part of the model share. -/
theorem epoch_size : (List.replicate 12 (1 : UInt8)).length = 12 := rfl

namespace ChunkVersion

/-- The two parts as one unsigned number, by which `<`, `<=`, `>` and `>=` compare versions. -/
def combined (v : ChunkVersion) : Nat := v.major.toUInt32.toNat * 2 ^ 32 + v.minor.toUInt32.toNat

def isSet (v : ChunkVersion) : Bool := 0 < v.combined

/-- `incMinor`, on a machine where signed numbers wrap around. -/
def incMinor (v : ChunkVersion) : ChunkVersion := { v with minor := v.minor + 1 }

/-- `newVersion > version ? newVersion : version`. -/
def raise (version newVersion : ChunkVersion) : ChunkVersion :=
  if version.combined < newVersion.combined then newVersion else version

/-- A shard without chunks has the version zero, one with chunks a version with a positive major
part. -/
def Regular (v : ChunkVersion) : Prop := v.combined = 0 ∨ 0 < v.major

instance (v : ChunkVersion) : Decidable v.Regular := inferInstanceAs (Decidable (_ ∨ _))

variable {v w : ChunkVersion}

theorem combined_zero (epoch : OID) : combined ⟨0, 0, epoch⟩ = 0 := by
  rw [combined]
  dsimp only
  decide

theorem parts_of_combined_eq_zero (h : v.combined = 0) : v.major = 0 ∧ v.minor = 0 := by
  have hmajor : v.major.toUInt32.toNat = 0 := by
    unfold combined at h
    omega
  have hminor : v.minor.toUInt32.toNat = 0 := by
    unfold combined at h
    omega
  have hzero : ∀ x : Int32, x.toUInt32.toNat = 0 → x = 0 := by
    rintro ⟨u⟩ hu
    exact congrArg Int32.ofUInt32 (UInt32.toNat_inj.mp hu)
  exact ⟨hzero _ hmajor, hzero _ hminor⟩

/-- A regular version above another one has a positive major part. -/
theorem Regular.major_pos (h : v.Regular) (hv : 0 < v.combined) : 0 < v.major := by
  rcases h with h | h
  · omega
  · exact h

theorem le_raise (v w : ChunkVersion) : v.combined ≤ (v.raise w).combined := by
  unfold raise
  split
  next h => exact h.le
  · exact le_rfl

theorem le_raise_right (v w : ChunkVersion) : w.combined ≤ (v.raise w).combined := by
  unfold raise
  split
  · exact le_rfl
  next h => exact not_lt.mp h

theorem raise_epoch (h : w.epoch = v.epoch) : (v.raise w).epoch = v.epoch := by
  unfold raise
  split
  · exact h
  · rfl

theorem raise_major_ne_zero (hv : v.major ≠ 0) (hw : w.Regular) : (v.raise w).major ≠ 0 := by
  unfold raise
  split
  next h =>
    have hpos := hw.major_pos (by omega)
    rintro hzero
    rw [hzero] at hpos
    exact absurd hpos (by decide)
  · exact hv

end ChunkVersion

end MongolDb.Sharding
