import Mathlib.Data.Finset.Card

/-! A depth-first search for a cycle through its root, with a stack of nodes yet to visit, in a
graph given by a successor function. A node for which the function is undefined is skipped. -/
namespace CycleSearch
open Relation List

variable {α : Type*}

structure Search (α : Type*) where
  queue : List α
  seen : List α
  found : Bool

variable {succ : α → Option (List α)} {root a b : α} {s t : Search α}

def Edge (succ : α → Option (List α)) (a b : α) : Prop := ∃ next, succ a = some next ∧ b ∈ next

section
variable [DecidableEq α]

/-- Take the next node from the queue. Meeting the root again means a cycle. -/
def visit (succ : α → Option (List α)) (root : α) (s : Search α) : Search α :=
  match s.queue with
  | [] => s
  | a :: rest =>
    match succ a with
    | none => { s with queue := rest }
    | some next =>
      if a ∈ s.seen then { s with queue := rest, found := s.found || decide (a = root) }
      else { queue := next ++ rest, seen := a :: s.seen, found := s.found }

/-- Visit until the queue is empty; `none` when the fuel runs out first. -/
def search (succ : α → Option (List α)) (root : α) : Nat → Search α → Option (Search α)
  | 0, _ => none
  | n + 1, s =>
    if (visit succ root s).queue = [] then some (visit succ root s)
    else search succ root n (visit succ root s)

end

def start (root : α) : Search α := ⟨[root], [], false⟩

/-- What holds of a search at any time. -/
structure Good (succ : α → Option (List α)) (root : α) (s : Search α) : Prop where
  before : s.seen = [] → s.queue = [root] ∨ (s.queue = [] ∧ succ root = none)
  rootSeen : s.seen ≠ [] → root ∈ s.seen
  queued : s.seen ≠ [] → ∀ a ∈ s.queue, TransGen (Edge succ) root a
  reached : ∀ a ∈ s.seen, ReflTransGen (Edge succ) root a
  sound : s.found = true → TransGen (Edge succ) root root
  followed : ∀ a ∈ s.seen, ∀ b, Edge succ a b →
    b ∈ s.queue ∨ (b ≠ root ∧ (b ∈ s.seen ∨ succ b = none)) ∨ (b = root ∧ s.found = true)

theorem good_start : Good succ root (start root) :=
  ⟨fun _ => .inl rfl, fun h => absurd rfl h, fun h => absurd rfl h, by simp [start],
    by simp [start], by simp [start]⟩

theorem Edge.succ_ne_none (h : Edge succ a b) : succ a ≠ none := by
  obtain ⟨next, hn, -⟩ := h
  simp [hn]

/-- A node that is skipped leads nowhere. -/
theorem Good.skip {rest : List α} (hg : Good succ root s) (hq : s.queue = a :: rest)
    (ha : succ a = none) : Good succ root { s with queue := rest } := by
  refine ⟨fun hs => ?_, hg.rootSeen, fun hs b hb => hg.queued hs b (by simp [hq, hb]), hg.reached,
    hg.sound, fun c hc b he => ?_⟩
  · rcases hg.before hs with h | ⟨h, -⟩
    · rw [hq, cons.injEq] at h
      exact .inr ⟨h.2, h.1 ▸ ha⟩
    · rw [hq] at h
      cases h
  · rcases hg.followed c hc b he with h | h | h
    · rw [hq, mem_cons] at h
      rcases h with rfl | h
      · by_cases hb : b = root
        · -- the root has been visited, so it is not skipped
          subst hb
          obtain ⟨x, hx⟩ : ∃ x, Edge succ b x := by
            rcases (hg.reached c hc).cases_head with rfl | ⟨x, hx, -⟩
            · exact ⟨_, he⟩
            · exact ⟨x, hx⟩
          exact absurd ha hx.succ_ne_none
        · exact .inr (.inl ⟨hb, .inr ha⟩)
      · exact .inl h
    · exact .inr (.inl h)
    · exact .inr (.inr h)

/-- A node visited before: a cycle if it is the root. -/
theorem Good.again [DecidableEq α] {rest : List α} (hg : Good succ root s) (hq : s.queue = a :: rest)
    (ha : a ∈ s.seen) :
    Good succ root { s with queue := rest, found := s.found || decide (a = root) } := by
  have hne : s.seen ≠ [] := ne_nil_of_mem ha
  refine ⟨fun hs => absurd hs hne, hg.rootSeen, fun hs b hb => hg.queued hs b (by simp [hq, hb]),
    hg.reached, fun hf => ?_, fun c hc b he => ?_⟩
  · rw [Bool.or_eq_true, decide_eq_true_eq] at hf
    rcases hf with hf | rfl
    · exact hg.sound hf
    · exact hg.queued hne a (by simp [hq])
  · rcases hg.followed c hc b he with h | h | ⟨h, hf⟩
    · rw [hq, mem_cons] at h
      rcases h with rfl | h
      · by_cases hb : b = root
        · exact .inr (.inr ⟨hb, by simp [hb]⟩)
        · exact .inr (.inl ⟨hb, .inl ha⟩)
      · exact .inl h
    · exact .inr (.inl h)
    · exact .inr (.inr ⟨h, by simp [hf]⟩)

/-- A node visited for the first time. -/
theorem Good.first {rest next : List α} (hg : Good succ root s) (hq : s.queue = a :: rest)
    (hn : succ a = some next) (ha : a ∉ s.seen) :
    Good succ root { queue := next ++ rest, seen := a :: s.seen, found := s.found } := by
  have hpath : ReflTransGen (Edge succ) root a := by
    by_cases hs : s.seen = []
    · rcases hg.before hs with h | ⟨h, -⟩ <;> rw [hq] at h
      · rw [(cons.inj h).1]
      · cases h
    · exact (hg.queued hs a (by simp [hq])).to_reflTransGen
  have hedge : ∀ b ∈ next, Edge succ a b := fun b hb => ⟨next, hn, hb⟩
  refine ⟨fun hs => absurd hs (cons_ne_nil _ _), fun _ => ?_, fun _ b hb => ?_, fun b hb => ?_,
    hg.sound, fun c hc b he => ?_⟩
  · by_cases hs : s.seen = []
    · rcases hg.before hs with h | ⟨h, -⟩ <;> rw [hq] at h
      · simp [(cons.inj h).1]
      · cases h
    · exact mem_cons_of_mem a (hg.rootSeen hs)
  · rcases mem_append.mp hb with hb | hb
    · exact TransGen.tail' hpath (hedge b hb)
    · by_cases hs : s.seen = []
      · rcases hg.before hs with h | ⟨h, -⟩ <;> rw [hq] at h
        · rw [(cons.inj h).2] at hb
          cases hb
        · cases h
      · exact hg.queued hs b (by simp [hq, hb])
  · rcases mem_cons.mp hb with rfl | hb
    · exact hpath
    · exact hg.reached b hb
  · rcases mem_cons.mp hc with rfl | hcs
    · obtain ⟨next', hn', hb⟩ := he
      obtain rfl : next = next' := Option.some.inj (hn.symm.trans hn')
      exact .inl (mem_append_left _ hb)
    · rcases hg.followed c hcs b he with h | ⟨h, h' | h'⟩ | h
      · rw [hq, mem_cons] at h
        rcases h with rfl | h
        · -- the root is the first node visited, and this one was not
          have hroot := hg.rootSeen (ne_nil_of_mem hcs)
          exact .inr (.inl ⟨fun hb => ha (hb ▸ hroot), .inl (by simp)⟩)
        · exact .inl (mem_append_right _ h)
      · exact .inr (.inl ⟨h, .inl (mem_cons_of_mem a h')⟩)
      · exact .inr (.inl ⟨h, .inr h'⟩)
      · exact .inr (.inr h)

/-- An empty queue means that everything reachable has been followed. -/
theorem Good.found_iff (hg : Good succ root s) (hq : s.queue = []) :
    s.found = true ↔ TransGen (Edge succ) root root := by
  refine ⟨hg.sound, fun hcycle => ?_⟩
  by_contra hf
  have hroot : root ∈ s.seen := by
    by_cases hs : s.seen = []
    · rcases hg.before hs with h | ⟨-, h⟩
      · rw [hq] at h
        cases h
      · obtain ⟨x, hx, -⟩ := TransGen.head'_iff.mp hcycle
        exact absurd h hx.succ_ne_none
    · exact hg.rootSeen hs
  have hfollow : ∀ a ∈ s.seen, ∀ b, Edge succ a b → b ≠ root ∧ (b ∈ s.seen ∨ succ b = none) := by
    intro a ha b he
    rcases hg.followed a ha b he with h | h | h
    · rw [hq] at h
      cases h
    · exact h
    · exact absurd h.2 hf
  have hall : ∀ b, TransGen (Edge succ) root b → b ≠ root ∧ (b ∈ s.seen ∨ succ b = none) := by
    intro b hb
    induction hb with
    | single he => exact hfollow root hroot _ he
    | tail _ he ih => exact hfollow _ (ih.2.resolve_right he.succ_ne_none) _ he
  exact (hall root hcycle).1 rfl

variable [DecidableEq α]

theorem Good.visit (hg : Good succ root s) : Good succ root (visit succ root s) := by
  unfold CycleSearch.visit
  split
  · exact hg
  next a rest hq =>
  split
  · next ha => exact hg.skip hq ha
  next next hn =>
  split
  · next ha => exact hg.again hq ha
  · next ha => exact hg.first hq hn ha

/-- A visit takes a node off the queue or marks one of the finitely many as seen. -/
theorem visit_progress {nodes : Finset α} {rest : List α} (root : α) (hq : s.queue = a :: rest)
    (hqueue : ∀ b ∈ s.queue, b ∈ nodes) (hedge : ∀ b ∈ nodes, ∀ c, Edge succ b c → c ∈ nodes) :
    (∀ b ∈ (visit succ root s).queue, b ∈ nodes) ∧
      (((visit succ root s).seen = s.seen ∧ (visit succ root s).queue = rest) ∨
        ((visit succ root s).seen = a :: s.seen ∧ a ∉ s.seen ∧ a ∈ nodes)) := by
  have ha : a ∈ nodes := hqueue a (by simp [hq])
  have hrest : ∀ b ∈ rest, b ∈ nodes := fun b hb => hqueue b (by simp [hq, hb])
  simp only [visit, hq]
  split
  · exact ⟨hrest, .inl ⟨rfl, rfl⟩⟩
  next next hn =>
  split
  · exact ⟨hrest, .inl ⟨rfl, rfl⟩⟩
  · next hseen =>
    refine ⟨fun b hb => ?_, .inr ⟨rfl, hseen, ha⟩⟩
    rcases mem_append.mp hb with hb | hb
    · exact hedge a ha b ⟨next, hn, hb⟩
    · exact hrest b hb

theorem search_of_queue_nil {n : Nat} (hq : (visit succ root s).queue = []) :
    search succ root (n + 1) s = some (visit succ root s) := by
  simp [search, hq]

/-- The search ends when finitely many nodes can be reached. The induction is on the nodes not
seen and then on the length of the queue. -/
theorem Good.search_terminates {nodes : Finset α} (hg : Good succ root s)
    (hedge : ∀ b ∈ nodes, ∀ c, Edge succ b c → c ∈ nodes) (hqueue : ∀ b ∈ s.queue, b ∈ nodes) :
    ∃ n t, (∀ m, n ≤ m → search succ root m s = some t) ∧ Good succ root t ∧ t.queue = [] := by
  induction hk : (nodes \ s.seen.toFinset).card using Nat.strong_induction_on
    generalizing s with
  | _ k ihk =>
    induction hl : s.queue.length generalizing s with
    | zero =>
      have hq : s.queue = [] := length_eq_zero_iff.mp hl
      have hv : CycleSearch.visit succ root s = s := by simp [CycleSearch.visit, hq]
      refine ⟨1, s, fun m hm => ?_, hg, hq⟩
      obtain ⟨m, rfl⟩ := Nat.exists_eq_add_of_le' hm
      rw [search_of_queue_nil (by rw [hv, hq]), hv]
    | succ l ihl =>
      obtain ⟨a, rest, hq⟩ := exists_cons_of_length_eq_add_one hl
      obtain ⟨hqueue', hprog⟩ := visit_progress root hq hqueue hedge
      have hg' := hg.visit
      have hstep : (∃ n t, (∀ m, n ≤ m → search succ root m (CycleSearch.visit succ root s) = some t)
          ∧ Good succ root t ∧ t.queue = []) := by
        rcases hprog with ⟨hseen, hrest⟩ | ⟨hseen, hnew, hin⟩
        · refine ihl hg' hqueue' (by rw [hseen]; exact hk) ?_
          rw [hrest]
          simpa [hq] using hl
        · refine ihk _ ?_ hg' hqueue' rfl
          rw [hseen, ← hk]
          refine Finset.card_lt_card ?_
          rw [Finset.ssubset_iff_of_subset (by
            intro b hb
            simp only [toFinset_cons, Finset.mem_sdiff, Finset.mem_insert, not_or] at hb ⊢
            exact ⟨hb.1, hb.2.2⟩)]
          exact ⟨a, by simp [hin, hnew], by simp⟩
      by_cases hnil : (CycleSearch.visit succ root s).queue = []
      · refine ⟨1, _, fun m hm => ?_, hg', hnil⟩
        obtain ⟨m, rfl⟩ := Nat.exists_eq_add_of_le' hm
        exact search_of_queue_nil hnil
      · obtain ⟨n, t, ht, hgt, hqt⟩ := hstep
        refine ⟨n + 1, t, fun m hm => ?_, hgt, hqt⟩
        obtain ⟨m, rfl⟩ : ∃ j, m = j + 1 := ⟨m - 1, by omega⟩
        simpa [search, hnil] using ht m (by omega)

/-- The search ends, and finds a cycle exactly when the root is on one. -/
theorem search_found_iff {nodes : Finset α} (hroot : root ∈ nodes)
    (hedge : ∀ b ∈ nodes, ∀ c, Edge succ b c → c ∈ nodes) :
    ∃ n t, (∀ m, n ≤ m → search succ root m (start root) = some t) ∧
      (t.found = true ↔ TransGen (Edge succ) root root) := by
  obtain ⟨n, t, ht, hg, hq⟩ := good_start.search_terminates hedge (s := start root) (by
    simpa [start] using hroot)
  exact ⟨n, t, ht, hg.found_iff hq⟩

end CycleSearch
