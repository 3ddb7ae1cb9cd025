import Mathlib.Tactic.Order

/-! Intervals between values that have a position in a linear order, and lists of intervals in that
order. -/
namespace Intervals
open List

structure Interval (α : Type*) where
  start : α
  startInclusive : Bool
  stop : α
  stopInclusive : Bool

section Order
variable {α β : Type*} [LinearOrder β] (pos : α → β)

namespace Interval

/-- The value is not before the interval. -/
def Starts (I : Interval α) (x : α) : Prop :=
  pos I.start < pos x ∨ (pos I.start = pos x ∧ I.startInclusive)

/-- The value is not behind the interval. -/
def Ends (I : Interval α) (x : α) : Prop :=
  pos x < pos I.stop ∨ (pos x = pos I.stop ∧ I.stopInclusive)

def Contains (I : Interval α) (x : α) : Prop := I.Starts pos x ∧ I.Ends pos x

/-- The interval runs forward, or is one point. -/
def Runs (I : Interval α) : Prop :=
  pos I.start < pos I.stop ∨ (pos I.start = pos I.stop ∧ I.startInclusive ∧ I.stopInclusive)

end Interval

/-- Each interval runs forward, and each ends no later than the ones after it start. -/
structure Ordered (l : List (Interval α)) : Prop where
  runs : ∀ I ∈ l, I.Runs pos
  sorted : l.Pairwise fun I J => pos I.stop ≤ pos J.start

/-- Some interval of the list contains the value. -/
def Covers (l : List (Interval α)) (x : α) : Prop := ∃ I ∈ l, I.Contains pos x

variable {pos} {I J : Interval α} {l : List (Interval α)} {x y : α}

theorem Interval.Ends.mono (h : I.Ends pos y) (hxy : pos x ≤ pos y) : I.Ends pos x := by
  rcases h with h | ⟨h, hinc⟩
  · exact .inl (hxy.trans_lt h)
  · rcases hxy.lt_or_eq with hlt | heq
    · exact .inl (hlt.trans_eq h)
    · exact .inr ⟨heq.trans h, hinc⟩

theorem Interval.Runs.le (h : I.Runs pos) : pos I.start ≤ pos I.stop := by
  rcases h with h | ⟨h, -⟩
  · exact h.le
  · exact h.le

/-- What has reached a later interval is not before this one. -/
theorem Interval.Starts.of_later (hI : I.Runs pos) (hIJ : pos I.stop ≤ pos J.start)
    (h : J.Starts pos x) : I.Starts pos x := by
  have hJx : pos J.start ≤ pos x := by
    rcases h with h | ⟨h, -⟩
    · exact h.le
    · exact h.le
  rcases hI with hI | ⟨hI, hinc, -⟩
  · exact .inl (by order)
  · rcases (hI.le.trans (hIJ.trans hJx)).lt_or_eq with hlt | heq
    · exact .inl hlt
    · exact .inr ⟨heq, hinc⟩

/-- What is behind a later interval is behind this one. -/
theorem Interval.not_ends_of_later (hJ : J.Runs pos) (hIJ : pos I.stop ≤ pos J.start)
    (h : ¬ J.Ends pos x) : ¬ I.Ends pos x := by
  have hJx : pos J.stop ≤ pos x := by
    by_contra hlt
    exact h (.inl (not_le.mp hlt))
  intro hI
  have hxI : pos x ≤ pos I.stop := by
    rcases hI with hI | ⟨hI, -⟩
    · exact hI.le
    · exact hI.le
  rcases hJ with hJ | ⟨hJ, -, hinc⟩
  · order
  · exact h (.inr ⟨by order, hinc⟩)

/-- What is behind an interval has reached it. -/
theorem Interval.Runs.starts_of_not_ends (hI : I.Runs pos) (h : ¬ I.Ends pos x) :
    I.Starts pos x := by
  have hx : pos I.stop ≤ pos x := by
    by_contra hlt
    exact h (.inl (not_le.mp hlt))
  rcases hI with hI | ⟨hI, hinc, -⟩
  · exact .inl (hI.trans_le hx)
  · rcases (hI.le.trans hx).lt_or_eq with hlt | heq
    · exact .inl hlt
    · exact .inr ⟨heq, hinc⟩

/-- The intervals that a value is behind come first. -/
theorem Ordered.exists_split (hl : Ordered pos l) (x : α) :
    ∃ before after, l = before ++ after ∧ (∀ J ∈ before, ¬ J.Ends pos x) ∧
      ∀ J ∈ after, J.Ends pos x := by
  induction l with
  | nil => exact ⟨[], [], rfl, by simp, by simp⟩
  | cons I l ih =>
    obtain ⟨hfirst, hsorted⟩ := pairwise_cons.mp hl.sorted
    have hruns : ∀ J ∈ l, J.Runs pos := (forall_mem_cons.mp hl.runs).2
    by_cases hI : I.Ends pos x
    · refine ⟨[], I :: l, rfl, by simp, ?_⟩
      intro J hJ
      rcases mem_cons.mp hJ with rfl | hJ
      · exact hI
      · by_contra hx
        exact Interval.not_ends_of_later (hruns J hJ) (hfirst J hJ) hx hI
    · obtain ⟨before, after, rfl, hbefore, hafter⟩ := ih ⟨hruns, hsorted⟩
      exact ⟨I :: before, after, rfl, forall_mem_cons.mpr ⟨hI, hbefore⟩, hafter⟩

/-- Beyond a value that is behind every interval nothing is covered. -/
theorem not_covers_of_not_ends (h : ∀ I ∈ l, ¬ I.Ends pos x) (hxy : pos x ≤ pos y) :
    ¬ Covers pos l y := by
  rintro ⟨I, hI, hy⟩
  exact h I hI (hy.2.mono hxy)

/-- Let a value be behind all intervals up to `I`. From there on, what is covered has reached
`I`. -/
theorem Ordered.starts_of_covers {before after : List (Interval α)}
    (hl : Ordered pos (before ++ I :: after)) (h : ∀ J ∈ before, ¬ J.Ends pos x)
    (hxy : pos x ≤ pos y) (hy : Covers pos (before ++ I :: after) y) : I.Starts pos y := by
  obtain ⟨J, hJ, hstart, hend⟩ := hy
  rcases mem_append.mp hJ with hJ | hJ
  · exact absurd (hend.mono hxy) (h J hJ)
  · rcases mem_cons.mp hJ with rfl | hJ
    · exact hstart
    · have hsorted := (pairwise_append.mp hl.sorted).2.1
      exact hstart.of_later (hl.runs I (by simp)) ((pairwise_cons.mp hsorted).1 J hJ)

/-- What is covered has reached the first interval. -/
theorem Ordered.starts_head (hl : Ordered pos (I :: l)) (hy : Covers pos (I :: l) y) :
    I.Starts pos y :=
  @Ordered.starts_of_covers α β _ pos I y y [] l hl (by simp) le_rfl hy

/-- Nothing is covered beyond the end of the last interval. -/
theorem Ordered.not_covers_after_last (hl : Ordered pos (l ++ [I])) (hx : pos I.stop ≤ pos x)
    (hxy : pos x < pos y) : ¬ Covers pos (l ++ [I]) y := by
  have hI : ¬ I.Ends pos y := by
    rintro (hlt | ⟨heq, -⟩)
    · order
    · order
  refine not_covers_of_not_ends (fun J hJ => ?_) le_rfl
  rcases mem_append.mp hJ with hJ | hJ
  · have hJI := (pairwise_append.mp hl.sorted).2.2 J hJ I (mem_singleton_self I)
    exact Interval.not_ends_of_later (hl.runs I (by simp)) hJI hI
  · rw [mem_singleton.mp hJ]
    exact hI

end Order

section
variable {α : Type*} (p : α → Bool)

/-- `std::lower_bound` on the `count` elements from `first` on: the first element of which `p` does
not hold, if the ones of which it holds come first. -/
def lowerBoundFrom (l : List α) (first count : Nat) : Nat :=
  if h : 0 < count then
    let step := count / 2
    if (l[first + step]?).any p then lowerBoundFrom l (first + step + 1) (count - (step + 1))
    else lowerBoundFrom l first step
  else first
termination_by count
decreasing_by
  all_goals omega

def lowerBound (l : List α) : Nat := lowerBoundFrom p l 0 l.length

variable {p}

theorem lowerBoundFrom_eq {before after : List α} (hb : ∀ x ∈ before, p x)
    (ha : ∀ x ∈ after, p x = false) {first count : Nat} (hfirst : first ≤ before.length)
    (hcount : before.length ≤ first + count) (hlen : first + count ≤ (before ++ after).length) :
    lowerBoundFrom p (before ++ after) first count = before.length := by
  induction count using Nat.strongRecOn generalizing first with
  | ind count ih =>
    rw [lowerBoundFrom]
    split
    next h =>
      rw [length_append] at hlen
      by_cases hin : first + count / 2 < before.length
      · have hp : ((before ++ after)[first + count / 2]?).any p := by
          rw [getElem?_append_left hin, List.getElem?_eq_getElem hin]
          exact hb _ (getElem_mem hin)
        simp only [hp, if_true]
        exact ih _ (by omega) (by omega) (by omega) (by rw [length_append]; omega)
      · have hp : ((before ++ after)[first + count / 2]?).any p = false := by
          have hbound : first + count / 2 - before.length < after.length := by omega
          rw [getElem?_append_right (by omega), List.getElem?_eq_getElem hbound]
          exact ha _ (getElem_mem hbound)
        simp only [hp, Bool.false_eq_true, if_false]
        exact ih _ (by omega) hfirst (by omega) (by rw [length_append]; omega)
    · omega

/-- On a list whose elements with `p` come first, the search finds where the others start. -/
theorem lowerBound_eq {before after : List α} (hb : ∀ x ∈ before, p x)
    (ha : ∀ x ∈ after, p x = false) : lowerBound p (before ++ after) = before.length :=
  lowerBoundFrom_eq hb ha (Nat.zero_le _) (by simp) (by simp)

end

end Intervals
