import Mathlib.Algebra.Ring.Nat
import Mathlib.Algebra.Ring.Int.Defs

/-! The `$skip` and `$limit` stages of a pipeline, and what the optimizer makes of them. -/
namespace MongolDb.Pipeline
open List

inductive Stage where
  | skip (n : Int64)
  | limit (n : Int64)

variable {α : Type}

namespace Stage

/-- How many documents a stage counts: a negative argument is passed at once. -/
def size (n : Int64) : Nat := n.toInt.toNat

/-- What `getNext` returns of the documents, fewer than `count` can count. -/
def apply (docs : List α) : Stage → List α
  | skip n => docs.drop (size n)
  | limit n => docs.take (size n)

/-- What the parser lets through. -/
def accepted : Stage → Prop
  | skip n => 0 ≤ n.toInt
  | limit n => 0 < n.toInt

def coalesce : Stage → Stage → Option Stage
  | skip m, skip n => some (skip (m + n))
  | limit m, limit n => some (limit (if n < m then n else m))
  | _, _ => none

def optimize : Stage → Option Stage
  | skip n => if n = 0 then none else some (skip n)
  | limit n => some (limit n)

end Stage
open Stage

def execute (stages : List Stage) (docs : List α) : List α := stages.foldl apply docs

def swap : Stage → List Stage → Option (List Stage)
  | skip m, limit n :: rest => some (limit (n + m) :: skip m :: rest)
  | _, _ => none

/-- Swaps the last `$skip` that stands before a `$limit` with it. -/
def swapLast : List Stage → Option (List Stage)
  | [] => none
  | s :: rest => ((swapLast rest).map (s :: ·)).or (swap s rest)

/-- The sum of the places of the limits. -/
def places : Nat → List Stage → Nat
  | _, [] => 0
  | i, skip _ :: rest => places (i + 1) rest
  | i, limit _ :: rest => i + places (i + 1) rest

variable {l l' l'' : List Stage} {m n : Int64}

theorem swapLast_induction {P : List Stage → List Stage → Prop} (h : swapLast l = some l')
    (hswap : ∀ m n rest, P (skip m :: limit n :: rest) (limit (n + m) :: skip m :: rest))
    (hcons : ∀ s l l', P l l' → P (s :: l) (s :: l')) : P l l' := by
  induction l generalizing l' with
  | nil => cases h
  | cons s rest ih =>
    rcases Option.or_eq_some_iff.mp h with h | ⟨-, h⟩
    · obtain ⟨rest', hrest, rfl⟩ := Option.map_eq_some_iff.mp h
      exact hcons s rest rest' (ih hrest)
    · unfold swap at h
      split at h
      · cases h
        exact hswap _ _ _
      · cases h

theorem places_swapLast (h : swapLast l = some l') : ∀ i, places i l' < places i l := by
  apply swapLast_induction h
  · intro m n rest i
    simp only [places]
    omega
  · intro s l l' ih i
    have := ih (i + 1)
    cases s <;> simp only [places] <;> omega

/-- Starts at the back again after each swap. -/
def moveLimitBeforeSkip (stages : List Stage) : List Stage :=
  match _h : swapLast stages with
  | some stages' => moveLimitBeforeSkip stages'
  | none => stages
termination_by places 0 stages
decreasing_by exact places_swapLast _h 0

/-- The loop of `coalesceAdjacent`, with the last stage of the final list. -/
def coalesceInto (last : Stage) : List Stage → List Stage
  | [] => [last]
  | s :: rest =>
    match last.coalesce s with
    | some last => coalesceInto last rest
    | none => last :: coalesceInto s rest

def coalesceAdjacent : List Stage → List Stage
  | [] => []
  | s :: rest => coalesceInto s rest

/-- The passes that change these stages, up to `optimizeEachDocumentSource`. -/
def optimizeSources (stages : List Stage) : List Stage :=
  (coalesceAdjacent (moveLimitBeforeSkip stages)).filterMap optimize

/-! The skips of a pipeline, and where its limits end when the skips before them are counted in, with
the arguments read by `f`. -/

section Sums
variable {A : Type} [Add A]

def skips (f : Int64 → A) : List Stage → List A
  | [] => []
  | skip n :: rest => f n :: skips f rest
  | limit _ :: rest => skips f rest

def ends (f : Int64 → A) : A → List Stage → List A
  | _, [] => []
  | k, skip n :: rest => ends f (k + f n) rest
  | k, limit n :: rest => (k + f n) :: ends f k rest

end Sums

def takeAll (ns : List Nat) (docs : List α) : List α := ns.foldl (fun docs n => docs.take n) docs

theorem lt_length_takeAll {ns : List Nat} {docs : List α} {k : Nat} :
    k < (takeAll ns docs).length ↔ k < docs.length ∧ ∀ x ∈ ns, k < x := by
  induction ns generalizing docs with
  | nil => simp [takeAll]
  | cons n ns ih =>
    rw [takeAll, foldl_cons, ← takeAll, ih, length_take, forall_mem_cons, Nat.lt_min,
      and_assoc, and_left_comm]

theorem drop_takeAll_eq_nil {ns : List Nat} {docs : List α} {k : Nat} :
    (takeAll ns docs).drop k = [] ↔ docs.length ≤ k ∨ ∃ x ∈ ns, x ≤ k := by
  rw [drop_eq_nil_iff, ← not_lt, lt_length_takeAll]
  simp only [not_and_or, not_lt, not_forall, exists_prop]

/-- The stages as written. -/
theorem execute_drop (l : List Stage) (k : Nat) (docs : List α) : execute l (docs.drop k) =
    (takeAll (ends size k l) docs).drop (k + (skips size l).sum) := by
  induction l generalizing k docs with
  | nil => rfl
  | cons s l ih =>
    cases s with
    | skip n =>
      have h := ih (k + size n) docs
      rw [← drop_drop] at h
      rw [skips, sum_cons, ← Nat.add_assoc]
      exact h
    | limit n =>
      have h := ih k (docs.take (k + size n))
      rw [← take_drop] at h
      exact h

/-! What the optimizer makes of them: the limits with the wrapped sums, and then the skips. -/

theorem ends_swapLast (h : swapLast l = some l') :
    skips id l' = skips id l ∧ ∀ k, ends id k l' = ends id k l := by
  apply swapLast_induction h
  · intro m n rest
    refine ⟨rfl, fun k => ?_⟩
    simp only [ends, id, Int64.add_assoc, Int64.add_comm n]
  · rintro (n | n) l l' ⟨hskips, hends⟩
    · exact ⟨congrArg (n :: ·) hskips, fun k => hends _⟩
    · exact ⟨hskips, fun k => congrArg ((k + n) :: ·) (hends k)⟩

theorem ends_skips (ms : List Int64) (k : Int64) : ends id k (ms.map skip) = [] := by
  induction ms generalizing k with
  | nil => rfl
  | cons m ms ih => exact ih _

theorem eq_of_swapLast (h : swapLast l = none) :
    l = (ends id 0 l).map limit ++ (skips id l).map skip := by
  induction l with
  | nil => rfl
  | cons s rest ih =>
    obtain ⟨hlast, hswap⟩ := Option.or_eq_none_iff.mp h
    have hrest := ih (Option.map_eq_none_iff.mp hlast)
    cases s with
    | limit n => simpa [ends, skips] using hrest
    | skip m =>
      cases hends : ends id 0 rest with
      | cons n ns =>
        -- the skip would be swapped with this limit
        rw [hrest, hends] at hswap
        cases hswap
      | nil =>
        rw [hends, map_nil, nil_append] at hrest
        have hnone : ends id (0 + id m) rest = [] := by
          rw [hrest]
          exact ends_skips _ _
        rw [ends, hnone, skips]
        exact congrArg (skip m :: ·) hrest

theorem moveLimitBeforeSkip_eq (l : List Stage) :
    moveLimitBeforeSkip l = (ends id 0 l).map limit ++ (skips id l).map skip := by
  rw [moveLimitBeforeSkip]
  split
  next stages' hswap =>
    have hlt := places_swapLast hswap 0
    obtain ⟨hskips, hends⟩ := ends_swapLast hswap
    rw [moveLimitBeforeSkip_eq stages', hskips, hends]
  next hnone => exact eq_of_swapLast hnone
termination_by places 0 l
decreasing_by exact hlt

theorem execute_coalesced_skips (ms : List Int64) (m : Int64) (docs : List α) :
    execute (coalesceInto (skip m) (ms.map skip)) docs = docs.drop (size (m + ms.sum)) := by
  induction ms generalizing m with
  | nil => simp [coalesceInto, execute, apply]
  | cons n ms ih =>
    rw [map_cons, coalesceInto, sum_cons, ← Int64.add_assoc]
    exact ih (m + n)

theorem execute_coalesced_limits (ns : List Int64) (n : Int64) (ms : List Int64) (docs : List α) :
    execute (coalesceInto (limit n) (ns.map limit ++ ms.map skip)) docs =
      (takeAll ((n :: ns).map size) docs).drop (size ms.sum) := by
  induction ns generalizing n docs with
  | nil =>
    cases ms with
    | nil => simp [coalesceInto, execute, apply, takeAll, size]
    | cons m ms => exact execute_coalesced_skips ms m (docs.take (size n))
  | cons n' ns ih =>
    have hmin : size (if n' < n then n' else n) = min (size n') (size n) := by
      simp only [Int64.lt_iff_toInt_lt, size]
      split <;> omega
    refine (ih (if n' < n then n' else n) docs).trans ?_
    simp [takeAll, hmin, take_take]

theorem execute_coalesceAdjacent (ns ms : List Int64) (docs : List α) :
    execute (coalesceAdjacent (ns.map limit ++ ms.map skip)) docs =
      (takeAll (ns.map size) docs).drop (size ms.sum) := by
  cases ns with
  | cons n ns => exact execute_coalesced_limits ns n ms docs
  | nil =>
    cases ms with
    | nil => rfl
    | cons m ms => exact execute_coalesced_skips ms m docs

theorem execute_filterMap (l : List Stage) (docs : List α) :
    execute (l.filterMap optimize) docs = execute l docs := by
  induction l generalizing docs with
  | nil => rfl
  | cons s l ih =>
    cases s with
    | limit n => exact ih _
    | skip n =>
      by_cases hn : n = 0
      · subst hn
        exact ih docs
      · have hsome : (skip n).optimize = some (skip n) := if_neg hn
        rw [filterMap_cons_some hsome]
        exact ih _

/-! Arguments that are not negative: sums in a `long long` against the true ones. -/

/-- A true sum as a `long long` holds it. -/
def wrapped (n : Nat) : Nat := size (Int64.ofNat n)

theorem wrapped_of_lt {n : Nat} (h : n < 2 ^ 63) : wrapped n = n := by
  rw [wrapped, size, Int64.toInt_ofNat_of_lt h, Int.toNat_natCast]

theorem wrapped_of_le {n : Nat} (h : 2 ^ 63 ≤ n) (h' : n < 2 ^ 64) : wrapped n = 0 := by
  rw [wrapped, size, Int64.toInt_ofNat', Int.bmod_def]
  have hsize : (Int64.size : Int) = 2 ^ 64 := rfl
  rw [hsize]
  split <;> omega

theorem wrapped_le (n : Nat) : wrapped n ≤ 2 ^ 63 - 1 := by
  have := (Int64.ofNat n).toInt_lt
  rw [wrapped, size]
  omega

theorem ofNat_size {n : Int64} (h : 0 ≤ n.toInt) : Int64.ofNat (size n) = n := by
  rw [← Int64.ofInt_eq_ofNat, size, Int.toNat_of_nonneg h, Int64.ofInt_toInt]

section Accepted
variable (h : ∀ s ∈ l, s.accepted)
include h

theorem skips_id_eq : (skips id l).sum = Int64.ofNat (skips size l).sum := by
  induction l with
  | nil => rfl
  | cons s l ih =>
    obtain ⟨hs, hl⟩ := forall_mem_cons.mp h
    cases s with
    | limit n => exact ih hl
    | skip n =>
      rw [skips, skips, sum_cons, sum_cons, ih hl, Int64.ofNat_add, ofNat_size hs]
      rfl

theorem ends_id_eq (k : Nat) : ends id (Int64.ofNat k) l = (ends size k l).map Int64.ofNat := by
  induction l generalizing k with
  | nil => rfl
  | cons s l ih =>
    obtain ⟨hs, hl⟩ := forall_mem_cons.mp h
    cases s with
    | skip n =>
      have hadd : Int64.ofNat k + id n = Int64.ofNat (k + size n) := by
        rw [Int64.ofNat_add, ofNat_size hs, id]
      rw [ends, ends, hadd, ih hl]
    | limit n =>
      have hadd : Int64.ofNat k + id n = Int64.ofNat (k + size n) := by
        rw [Int64.ofNat_add, ofNat_size (Int.le_of_lt hs), id]
      rw [ends, ends, hadd, ih hl, map_cons]

omit h in
theorem ends_lt {k x : Nat} (hx : x ∈ ends size k l) : x < k + (skips size l).sum + 2 ^ 63 := by
  induction l generalizing k with
  | nil => cases hx
  | cons s l ih =>
    cases s with
    | skip n =>
      have := ih hx
      rw [skips, sum_cons]
      omega
    | limit n =>
      have hn := n.toInt_lt
      rcases mem_cons.mp hx with rfl | hx
      · rw [size]
        omega
      · exact ih hx

theorem execute_optimizeSources_eq (docs : List α) : execute (optimizeSources l) docs =
    (takeAll ((ends size 0 l).map wrapped) docs).drop (wrapped (skips size l).sum) := by
  have hends : ends id 0 l = (ends size 0 l).map Int64.ofNat := ends_id_eq h 0
  rw [optimizeSources, execute_filterMap, moveLimitBeforeSkip_eq, execute_coalesceAdjacent,
    skips_id_eq h, hends, map_map]
  rfl

end Accepted

/-- With the true sums of the skips, and of each limit and the skips before it: either these select
nothing, or no limit leaves the range of a `long long`. Where the skips alone pass over every input,
nothing may be left of it after the wrapped sums either. -/
def Exact (stages : List Stage) : Prop :=
  if (skips size stages).sum < 2 ^ 63 - 1 then
    (∃ x ∈ ends size 0 stages, x ≤ (skips size stages).sum) ∨ ∀ x ∈ ends size 0 stages, x < 2 ^ 63
  else
    wrapped (skips size stages).sum = 2 ^ 63 - 1 ∨
      ∃ x ∈ ends size 0 stages, wrapped x ≤ wrapped (skips size stages).sum

/-- The skips can be counted. -/
theorem takeAll_wrapped_iff [Inhabited α] {xs : List Nat} {k : Nat} (hk : k < 2 ^ 63 - 1)
    (hxs : ∀ x ∈ xs, x < k + 2 ^ 63) :
    (∀ docs : List α, docs.length < 2 ^ 63 →
      (takeAll (xs.map wrapped) docs).drop (wrapped k) = (takeAll xs docs).drop k) ↔
    (∃ x ∈ xs, x ≤ k) ∨ ∀ x ∈ xs, x < 2 ^ 63 := by
  rw [wrapped_of_lt (by omega)]
  constructor
  · intro hall
    by_contra hno
    simp only [not_or, not_exists, not_and, not_le, not_forall] at hno
    obtain ⟨habove, x, hx, hlarge⟩ := hno
    -- the true sums leave one of `k + 1` documents, and the wrapped limit none
    have hone := hall (replicate (k + 1) default) (by rw [length_replicate]; omega)
    have hwrapped : (takeAll (xs.map wrapped) (replicate (k + 1) (default : α))).drop k = [] := by
      refine drop_takeAll_eq_nil.mpr (.inr ⟨_, mem_map_of_mem hx, ?_⟩)
      rw [wrapped_of_le (not_lt.mp hlarge) (by have := hxs x hx; omega)]
      exact Nat.zero_le k
    rcases drop_takeAll_eq_nil.mp (hone.symm.trans hwrapped) with hlen | ⟨y, hy, hle⟩
    · rw [length_replicate] at hlen
      omega
    · exact absurd hle (not_le.mpr (habove y hy))
  · rintro (⟨x, hx, hle⟩ | hsmall) docs -
    · have hwrapped : wrapped x ≤ k := by
        rw [wrapped_of_lt (by omega)]
        exact hle
      rw [drop_takeAll_eq_nil.mpr (.inr ⟨x, hx, hle⟩),
        drop_takeAll_eq_nil.mpr (.inr ⟨_, mem_map_of_mem hx, hwrapped⟩)]
    · rw [map_congr_left fun x hx => wrapped_of_lt (hsmall x hx), map_id']

/-- The skips pass over every input. -/
theorem takeAll_skipped_iff [Inhabited α] {xs : List Nat} {k : Nat} (hk : 2 ^ 63 - 1 ≤ k) :
    (∀ docs : List α, docs.length < 2 ^ 63 →
      (takeAll (xs.map wrapped) docs).drop (wrapped k) = (takeAll xs docs).drop k) ↔
    wrapped k = 2 ^ 63 - 1 ∨ ∃ x ∈ xs, wrapped x ≤ wrapped k := by
  have hle := wrapped_le k
  have htrue : ∀ docs : List α, docs.length < 2 ^ 63 → (takeAll xs docs).drop k = [] :=
    fun docs hdocs => drop_takeAll_eq_nil.mpr (.inl (by omega))
  have hnil : ∀ docs : List α, (takeAll (xs.map wrapped) docs).drop (wrapped k) = [] ↔
      docs.length ≤ wrapped k ∨ ∃ x ∈ xs, wrapped x ≤ wrapped k := by
    intro docs
    rw [drop_takeAll_eq_nil]
    simp only [mem_map, exists_exists_and_eq_and]
  constructor
  · intro hall
    have hlen : (replicate (2 ^ 63 - 1) (default : α)).length < 2 ^ 63 := by
      rw [length_replicate]
      omega
    rcases (hnil _).mp ((hall _ hlen).trans (htrue _ hlen)) with h | h
    · rw [length_replicate] at h
      exact .inl (by omega)
    · exact .inr h
  · intro h docs hdocs
    rw [htrue docs hdocs, hnil]
    exact h.imp_left fun he => by omega

/-- The optimizer keeps the results of all inputs for exactly these pipelines. -/
theorem execute_optimizeSources_iff [Inhabited α] (stages : List Stage)
    (h : ∀ s ∈ stages, s.accepted) :
    (∀ docs : List α, docs.length < 2 ^ 63 →
      execute (optimizeSources stages) docs = execute stages docs) ↔ Exact stages := by
  have hwritten : ∀ docs : List α, execute stages docs =
      (takeAll (ends size 0 stages) docs).drop (skips size stages).sum := by
    intro docs
    have hdrop := execute_drop stages 0 docs
    rwa [Nat.zero_add] at hdrop
  simp only [execute_optimizeSources_eq h, hwritten]
  unfold Exact
  split
  next hk => exact takeAll_wrapped_iff hk fun x hx => by simpa using ends_lt hx
  next hk => exact takeAll_skipped_iff (not_lt.mp hk)

theorem execute_optimizeSources_iff_page :
    execute (optimizeSources [skip 2, limit 2, skip 1]) [1, 2, 3, 4, 5] = [4] := by
  refine (execute_optimizeSources_iff [skip 2, limit 2, skip 1] ?_).mpr ?_ [1, 2, 3, 4, 5] (by simp)
  · simp [accepted]
  · exact .inr (by decide)

/-- The limit is added to the skip and becomes negative. -/
theorem execute_limit_wraps : execute [skip 1, limit 9223372036854775807] [1, 2] = [2] ∧
    execute (optimizeSources [skip 1, limit 9223372036854775807]) [1, 2] = [] := by
  refine ⟨by decide, ?_⟩
  have hmove : moveLimitBeforeSkip [skip 1, limit 9223372036854775807] =
      [limit (9223372036854775807 + 1), skip 1] := by
    simp [moveLimitBeforeSkip, swapLast, swap]
  rw [optimizeSources, hmove]
  decide

end MongolDb.Pipeline
