import MongolDb.Lock.Manager
import MongolDb.Lock.Operations

/-! Every step of the lock manager keeps its lock heads and partitions in order. -/
namespace MongolDb.Lock
open Keyed LockHead List Option LockRequest

variable {s t : State} {a : Action} {R : ResourceId} {h h' : LockHead} {id : RequestId}
  {r : LockRequest} {f : LockRequest → LockRequest} {flags : Flags} {m : LockMode} {p b : Nat}
  {l : List LockRequest} {locker : Nat} {flagged : Prop} {place : Place}

/-- A change to a request that leaves its place in the queues alone. -/
structure Touches (f : LockRequest → LockRequest) : Prop where
  id : ∀ q, (f q).id = q.id
  status : ∀ q, (f q).status = q.status
  mode : ∀ q, (f q).mode = q.mode
  convertMode : ∀ q, (f q).convertMode = q.convertMode

theorem Touches.blocks (ht : Touches f) (q : LockRequest) : (f q).Blocks m ↔ q.Blocks m := by
  simp only [LockRequest.Blocks, ht.status, ht.mode, ht.convertMode]

theorem Touches.held (ht : Touches f) (hr : r.Held)
    (hcall : ∀ m, (f r).call = .convert m →
      r.status = .granted ∧ covers m r.mode ∧ ¬ covers r.mode m) : (f r).Held := by
  refine ⟨?_, ?_, ?_⟩
  · rw [ht.mode]
    exact hr.mode
  · rw [ht.status, ht.mode, ht.convertMode]
    exact hr.status
  · rw [ht.status, ht.mode]
    exact hcall

theorem Touches.mem_modify (ht : Touches f) {q : LockRequest}
    (hq : q ∈ modify LockRequest.id id f l) :
    ∃ p ∈ l, p.id = q.id ∧ p.status = q.status ∧ p.mode = q.mode ∧
      p.convertMode = q.convertMode := by
  rcases Keyed.mem_modify.mp hq with ⟨hq, -⟩ | ⟨p, hp, -, rfl⟩
  · exact ⟨q, hq, rfl, rfl, rfl, rfl⟩
  · exact ⟨p, hp, (ht.id p).symm, (ht.status p).symm, (ht.mode p).symm, (ht.convertMode p).symm⟩

namespace LockHead

theorem Ok.touch_granted (hok : h.Ok) (ht : Touches f) (hr : r ∈ h.grantedList)
    (hcall : ∀ m, (f r).call = .convert m →
      r.status = .granted ∧ covers m r.mode ∧ ¬ covers r.mode m) :
    (h.modifyRequest r.id f).Ok := by
  rw [hok.modifyRequest_eq (c := h.granted) (n := h.conversionsCount) hr]
  have hw : ∀ i, (f r).weight i = r.weight i := fun i => by
    simp only [weight, ht.status, ht.mode, ht.convertMode]
  have hq := hok.granted.replace (f := f) (k := h.conversionsCount) hr ht.id
    (ht.held (hok.granted.held r hr) hcall)
    (fun q hq hne => by
      rw [ht.mode]
      exact hok.granted.compatible r hr q hq (Ne.symm hne))
    hok.granted.counts (fun i => by rw [hw]) (by rw [ht.status])
  refine ⟨hq, hok.conflict, fun q hq w hw => ?_, hok.partitioned, hok.unlinked⟩
  obtain ⟨p, hp, hid, -⟩ := ht.mem_modify hq
  exact hid ▸ hok.apart p hp w hw

theorem Ok.touch_waiting (hok : h.Ok) (ht : Touches f) (hr : r ∈ h.conflictList)
    (hcall : ∀ m, (f r).call ≠ .convert m) : (h.modifyRequest r.id f).Ok := by
  have hgl : modify LockRequest.id r.id f h.grantedList = h.grantedList :=
    modify_of_forall_ne fun q hq => hok.apart q hq r hr
  have hq := hok.conflict.replace hr ht.id (ht.status r) (ht.mode r) (ht.convertMode r) hcall
  rw [LockHead.modifyRequest, hgl, hok.unlinked]
  refine ⟨hok.granted, hq, fun q hq w hw => ?_, hok.partitioned, rfl⟩
  obtain ⟨p, hp, hid, -⟩ := ht.mem_modify hw
  exact hid ▸ hok.apart q hq p hp

/-- A touched request blocks and is blocked as before. -/
theorem Blocked.touch (hb : h.Blocked) (ht : Touches f) : (h.modifyRequest id f).Blocked := by
  have hback : ∀ l : List LockRequest, ∀ q ∈ l,
      ∃ q' ∈ modify LockRequest.id id f l, q'.id = q.id ∧ q'.mode = q.mode ∧
        ∀ m, q.Blocks m → q'.Blocks m := by
    intro l q hq
    by_cases hid : q.id = id
    · exact ⟨f q, Keyed.mem_modify.mpr (.inr ⟨q, hq, hid, rfl⟩), ht.id q, ht.mode q,
        fun m hm => (ht.blocks q).mpr hm⟩
    · exact ⟨q, Keyed.mem_modify.mpr (.inl ⟨hq, hid⟩), rfl, rfl, fun m hm => hm⟩
  refine ⟨fun w hw => ?_, fun hne => ?_, fun q hq hs => ?_⟩
  · obtain ⟨w₀, hw₀, hid, -, hm, -⟩ := ht.mem_modify hw
    rw [← hm, ← hid]
    rcases hb.waiting w₀ hw₀ with hc | ⟨w', hw', hne, hc⟩
    · exact .inl hc
    · obtain ⟨w'', hw'', hid', hm', -⟩ := hback _ w' hw'
      exact .inr ⟨w'', hw'', hid' ▸ hne, hm' ▸ hc⟩
  · have hne' : h.conflictList ≠ [] := fun he => hne (by simp [modifyRequest, Keyed.modify, he])
    obtain ⟨w, hw, hc⟩ := hb.first hne'
    obtain ⟨w', hw', -, hm, -⟩ := hback _ w hw
    exact ⟨w', hw', hm ▸ hc⟩
  · obtain ⟨q₀, hq₀, hid, hst, -, hv⟩ := ht.mem_modify hq
    obtain ⟨b, hb', hne, hbl⟩ := hb.converting q₀ hq₀ (hst.trans hs)
    obtain ⟨b', hb'', hid', -, hbl'⟩ := hback _ b hb'
    exact ⟨b', hb'', by rw [hid', ← hid]; exact hne, by rw [← hv]; exact hbl' _ hbl⟩

/-- Being blocked does not depend on the partitions that are listed. -/
theorem Blocked.of_partitions (hb : h.Blocked) {ps : List Nat} :
    LockHead.Blocked { h with partitions := ps } :=
  ⟨hb.waiting, hb.first, hb.converting⟩

theorem Counted.touch (hc : h.Counted) (hok : h.Ok)
    (hflag : ∀ r ∈ h.grantedList, r.id = id → (f r).compatibleFirst = r.compatibleFirst) :
    (h.modifyRequest id f).Counted := by
  rw [Counted] at hc ⊢
  change h.compatibleFirstCount = (modify LockRequest.id id f h.grantedList).countP _
  by_cases hex : ∃ r ∈ h.grantedList, r.id = id
  · obtain ⟨r, hr, rfl⟩ := hex
    have := countP_modify (f := f) compatibleFirst hok.granted.nodup hr rfl
    rw [hflag r hr rfl] at this
    omega
  · rw [modify_of_forall_ne fun r hr hid => hex ⟨r, hr, hid⟩]
    exact hc

theorem Ok.mem_of_request (hok : h.Ok) (hr : h.request id = some r) : r ∈ h.requests ∧ r.id = id := by
  obtain ⟨hmem, hid⟩ := of_lookup hr
  rw [hok.unlinked, append_nil] at hmem
  exact ⟨hmem, hid⟩

theorem Ok.mem_granted_of_request (hok : h.Ok) (hr : h.request id = some r)
    (hw : r.status = .waiting → ∃ m, r.call = .convert m) : r ∈ h.grantedList := by
  rcases mem_append.mp (hok.mem_of_request hr).1 with hg | hc
  · exact hg
  · have hwait := hok.conflict.waiting r hc
    obtain ⟨m, hm⟩ := hw hwait.1
    exact absurd hm (hwait.2.2.2 m)

end LockHead

/-- The requests of a resource that one partition holds. -/
structure PartitionOk (next : Nat) (h : Option LockHead) (p : Nat) (l : List LockRequest) :
    Prop where
  listed : ∃ h', h = some h' ∧ p ∈ h'.partitions ∧ ∀ r ∈ l, ∀ q ∈ h'.requests, q.id ≠ r.id
  nodup : (l.map LockRequest.id).Nodup
  requests : ∀ r ∈ l, InPartition r ∧ getPartition r.id.locker = p ∧ r.id.serial < next

theorem PartitionOk.mono {m n : Nat} {h : Option LockHead} (hp : PartitionOk m h p l) (hmn : m ≤ n) :
    PartitionOk n h p l :=
  ⟨hp.listed, hp.nodup, fun r hr => (hp.requests r hr).imp_right fun hr =>
    hr.imp_right (Nat.lt_of_lt_of_le · hmn)⟩

namespace State

structure Inv (s : State) : Prop where
  head : ∀ R h, s.heads R = some h → h.Ok ∧ ∀ r ∈ h.requests, r.id.serial < s.next
  partition : ∀ p R l, s.partitions p R = some l → PartitionOk s.next (s.heads R) p l

theorem inv_initial : initial.Inv := ⟨by simp [initial], by simp [initial]⟩

theorem findOrInsert_of_forall {P : LockHead → Prop} (hnew : P .initNew)
    (hold : ∀ h, s.heads R = some h → P h) : P (s.findOrInsert R) := by
  rw [State.findOrInsert]
  cases hR : s.heads R with
  | none => exact hnew
  | some h => exact hold h hR

theorem Inv.findOrInsert (hi : s.Inv) (R : ResourceId) :
    (s.findOrInsert R).Ok ∧ ∀ r ∈ (s.findOrInsert R).requests, r.id.serial < s.next :=
  findOrInsert_of_forall (P := fun h => h.Ok ∧ ∀ r ∈ h.requests, r.id.serial < s.next)
    ⟨ok_initNew, by simp [LockHead.requests, LockHead.initNew]⟩ (hi.head R)

theorem findOrInsert_of_heads (hR : s.heads R = some h) : s.findOrInsert R = h := by
  simp [State.findOrInsert, hR]

/-- A lock head is replaced. Its requests are old ones or have a serial from here on. -/
theorem Inv.setHead {n : Nat} (hi : s.Inv) (hfind : s.findOrInsert R = h) (hn : s.next ≤ n)
    (hok : h'.Ok) (hreq : ∀ r ∈ h'.requests, (s.next ≤ r.id.serial ∧ r.id.serial < n) ∨
      ∃ q ∈ h.requests, q.id = r.id) (hp : h.partitions ⊆ h'.partitions) :
    { s.setHead R (some h') with next := n }.Inv := by
  refine ⟨fun R₁ h₁ h₁e => ?_, fun p R₁ l hl => ?_⟩
  · by_cases hR : R₁ = R
    · subst hR hfind
      obtain rfl : h' = h₁ := by simpa [State.setHead] using h₁e
      refine ⟨hok, fun r hr => ?_⟩
      rcases hreq r hr with hnew | ⟨q, hq, hid⟩
      · exact hnew.2
      · exact hid ▸ Nat.lt_of_lt_of_le ((hi.findOrInsert R₁).2 q hq) hn
    · obtain ⟨hok₁, hser⟩ := hi.head R₁ h₁ (by simpa [State.setHead, hR] using h₁e)
      exact ⟨hok₁, fun r hr => Nat.lt_of_lt_of_le (hser r hr) hn⟩
  · have hpart := (hi.partition p R₁ l hl).mono hn
    refine ⟨?_, hpart.nodup, hpart.requests⟩
    by_cases hR : R₁ = R
    · subst hR
      obtain ⟨h₀, hh₀, hmem, hapart⟩ := hpart.listed
      obtain rfl : h₀ = h := (findOrInsert_of_heads hh₀).symm.trans hfind
      refine ⟨h', by simp [State.setHead], hp hmem, fun r hr q hq heq => ?_⟩
      rcases hreq q hq with hnew | ⟨q', hq', hid⟩
      · have := ((hi.partition p R₁ l hl).requests r hr).2.2
        rw [heq] at hnew
        omega
      · exact hapart r hr q' hq' (hid.trans heq)
    · simpa [State.setHead, hR] using hpart.listed

theorem setPartition_of_ne {l' : Option (List LockRequest)} {p₁ : Nat} {R₁ : ResourceId}
    (hne : ¬ (p₁ = p ∧ R₁ = R)) : (s.setPartition p R l').partitions p₁ R₁ = s.partitions p₁ R₁ := by
  by_cases hp : p₁ = p
  · subst hp
    simp [State.setPartition, show R₁ ≠ R from fun he => hne ⟨rfl, he⟩]
  · simp [State.setPartition, hp]

/-- A new request joins a partition that its lock head lists. -/
theorem Inv.joinPartition (hi : s.Inv) (hm : m ∈ intentModes) (hR : s.heads R = some h)
    (hp : getPartition locker ∈ h.partitions) :
    (s.joinPartition R locker flags m).Inv := by
  have hlt : s.next < s.next + 1 := Nat.lt_succ_self _
  have hold : PartitionOk s.next (s.heads R) (getPartition locker)
      ((s.partitions (getPartition locker) R).getD []) := by
    cases hl : s.partitions (getPartition locker) R with
    | none => exact ⟨⟨h, hR, hp, by simp⟩, by simp, by simp⟩
    | some l => exact hi.partition _ _ _ hl
  obtain ⟨h₀, hh₀, -, hapart⟩ := hold.listed
  obtain rfl : h = h₀ := some.inj (hR.symm.trans hh₀)
  refine ⟨fun R₁ h₁ h₁e => ?_, fun p₁ R₁ l₁ hl₁ => ?_⟩
  · obtain ⟨hok, hser⟩ := hi.head R₁ h₁ h₁e
    exact ⟨hok, fun r hr => (hser r hr).trans hlt⟩
  by_cases hpR : p₁ = getPartition locker ∧ R₁ = R
  · obtain ⟨rfl, rfl⟩ := hpR
    obtain rfl : _ ++ [inPartition ⟨locker, s.next⟩ flags m] = l₁ := by
      simpa [State.joinPartition, State.setPartition] using hl₁
    refine ⟨⟨h, hR, hp, fun r hr q hq => ?_⟩, ?_, fun r hr => ?_⟩
    · rcases mem_append.mp hr with hr | hr
      · exact hapart r hr q hq
      · rw [mem_singleton.mp hr]
        have := (hi.head R₁ h hR).2 q hq
        intro he
        rw [he] at this
        exact Nat.lt_irrefl _ this
    · rw [map_append, nodup_append]
      refine ⟨hold.nodup, by simp, fun i hi j hj he => ?_⟩
      obtain ⟨r, hr, rfl⟩ := mem_map.mp hi
      obtain rfl : j = ⟨locker, s.next⟩ := by
        simpa [inPartition, LockRequest.initNew] using hj
      have := (hold.requests r hr).2.2
      rw [he] at this
      exact Nat.lt_irrefl _ this
    · rcases mem_append.mp hr with hr | hr
      · exact (hold.mono (Nat.le_succ _)).requests r hr
      · rw [mem_singleton.mp hr]
        refine ⟨⟨⟨ne_modeNone_of_intent hm, .inl ⟨rfl, rfl⟩, fun m hm => ?_⟩, hm, rfl⟩, rfl, hlt⟩
        simp [inPartition, LockRequest.initNew] at hm
  · exact (hi.partition p₁ R₁ l₁ ((setPartition_of_ne hpR).symm.trans hl₁)).mono (Nat.le_succ _)

theorem Inv.setInside (hi : s.Inv) (sec : Option Section) : (s.setInside b sec).Inv :=
  ⟨hi.head, hi.partition⟩

/-- What a step does to the lock heads, apart from keeping the invariant. The compatible-first
counter needs `flagged`. -/
structure Sound (flagged : Prop) (s t : State) : Prop where
  inv : t.Inv
  blocked : ∀ R h', t.heads R = some h' → (s.findOrInsert R).Blocked → h'.Blocked
  counted : flagged → ∀ R h', t.heads R = some h' → (s.findOrInsert R).Counted → h'.Counted

theorem Sound.of_heads (hi : t.Inv) (hold : ∀ R h', t.heads R = some h' → s.heads R = some h') :
    Sound flagged s t := by
  refine ⟨hi, fun R h' hh hb => ?_, fun _ R h' hh hc => ?_⟩
  · rwa [findOrInsert_of_heads (hold R h' hh)] at hb
  · rwa [findOrInsert_of_heads (hold R h' hh)] at hc

/-- Only the lock head of `R` changes. -/
theorem Sound.of_setHead (hi : t.Inv)
    (hset : t.heads = Function.update s.heads R (some h')) (hfind : s.findOrInsert R = h)
    (hb : h.Blocked → h'.Blocked) (hc : flagged → h.Counted → h'.Counted) : Sound flagged s t := by
  subst hfind
  have hcases : ∀ R₁ h₁, t.heads R₁ = some h₁ →
      (R₁ = R ∧ h₁ = h') ∨ s.findOrInsert R₁ = h₁ := by
    intro R₁ h₁ h₁e
    rw [hset] at h₁e
    by_cases hR : R₁ = R
    · subst hR
      exact .inl ⟨rfl, by simpa using h₁e.symm⟩
    · rw [Function.update_of_ne hR] at h₁e
      exact .inr (findOrInsert_of_heads h₁e)
  refine ⟨hi, fun R₁ h₁ h₁e hb₁ => ?_, fun hf R₁ h₁ h₁e hc₁ => ?_⟩
  · rcases hcases R₁ h₁ h₁e with ⟨rfl, rfl⟩ | he
    · exact hb hb₁
    · exact he ▸ hb₁
  · rcases hcases R₁ h₁ h₁e with ⟨rfl, rfl⟩ | he
    · exact hc hf hc₁
    · exact he ▸ hc₁

theorem Inv.setHead_of_preserves (hi : s.Inv) (hR : s.heads R = some h)
    (hp : Preserves h h') : Sound flagged s (s.setHead R (some h')) := by
  have hfind := findOrInsert_of_heads hR
  have hinv := hi.setHead hfind (Nat.le_refl _) hp.ok (fun r hr => .inr (hp.requests r hr))
    (hp.partitions ▸ List.Subset.refl _)
  exact .of_setHead hinv rfl hfind hp.blocked fun _ => hp.counted

theorem Inv.lockFast (hi : s.Inv)
    (he : s.lockFast R locker flags m = some t) : Sound flagged s t := by
  unfold State.lockFast at he
  split at he
  · next hc =>
    cases he
    obtain ⟨l, hl⟩ := ne_none_iff_exists'.mp hc.2
    obtain ⟨h, hR, hp, -⟩ := (hi.partition _ _ _ hl).listed
    exact .of_heads (hi.joinPartition hc.1 hR hp) fun _ _ h => h
  · cases he

theorem Inv.lockHead (hi : s.Inv)
    (he : s.lockHead R locker flags m = some t) : Sound flagged s t := by
  obtain ⟨hok, hser⟩ := hi.findOrInsert R
  have hreq : ∀ r ∈ (s.findOrInsert R).requests, (s.next ≤ r.id.serial ∧ r.id.serial < s.next) ∨
      ∃ q ∈ (s.findOrInsert R).requests, q.id = r.id := fun r hr => .inr ⟨r, hr, rfl⟩
  unfold State.lockHead at he
  split at he
  · cases he
  split at he
  · cases he
  split at he
  · next hc =>
    cases he
    -- the partition is listed on the head before a request joins it
    have hok' : LockHead.Ok ((s.findOrInsert R).addPartition (getPartition locker)) :=
      ⟨hok.granted, hok.conflict, hok.apart, fun _ => hc.2, hok.unlinked⟩
    have hi₁ := hi.setHead (n := s.next) rfl (Nat.le_refl _) hok' hreq (subset_append_left _ _)
    refine .of_setHead (hi₁.joinPartition hc.1 (Function.update_self ..) ?_) rfl rfl
      (fun hb => hb.of_partitions) fun _ hcd => hcd
    simp [LockHead.addPartition]
  · cases he
    have hi₁ := hi.setHead (n := s.next) rfl (Nat.le_refl _) hok hreq (List.Subset.refl _)
    exact .of_setHead (hi₁.setInside _) rfl rfl (fun hb => hb) fun _ hcd => hcd

theorem Inv.lockDone (hi : s.Inv) (he : s.lockDone b = some t) :
    Sound flagged s t := by
  unfold State.lockDone at he
  split at he
  · next R locker flags mode hm hin =>
    obtain ⟨h, hR, he⟩ := bind_eq_some_iff.mp he
    split at he
    · cases he
    next hp =>
    obtain ⟨⟨h', res⟩, hnew, rfl⟩ := map_eq_some_iff.mp he
    have hfind := findOrInsert_of_heads hR
    obtain ⟨hok, hser⟩ := hi.head R h hR
    have hadd := hok.newRequest (r := LockRequest.initNew ⟨locker, s.next⟩ flags.1 flags.2)
      hm rfl (by simp [LockRequest.initNew])
      (fun q hq heq => Nat.lt_irrefl s.next (by simpa [heq, LockRequest.initNew] using hser q hq))
      (not_not.mp hp) hnew
    have hi' := hi.setHead (n := s.next + 1) hfind (Nat.le_succ _) hadd.ok
      (fun q hq => (hadd.requests q hq).imp_left fun hid => by simp [hid, LockRequest.initNew])
      (hadd.partitions ▸ List.Subset.refl _)
    exact .of_setHead ⟨hi'.head, hi'.partition⟩ rfl hfind hadd.blocked fun _ => hadd.counted
  · cases he

theorem mem_dropLast_of_ne {ps : List Nat} {q : Nat} (hq : q ∈ ps) (hlast : ps.getLast? = some p)
    (hne : q ≠ p) : q ∈ ps.dropLast := by
  obtain ⟨init, rfl⟩ := getLast?_eq_some_iff.mp hlast
  simpa [hne] using hq

/-- A lock head drops the last partition it lists, which holds no requests for it by then. -/
theorem Inv.popPartition {rs : List LockRequest} (hi : s.Inv) (hR : s.heads R = some h)
    (hlast : h.partitions.getLast? = some p) (hj : Joins rs h h')
    (hrs : ∀ r ∈ rs, getPartition r.id.locker = p ∧ r.id.serial < s.next)
    (ht : t.heads = Function.update s.heads R (some h'.popPartition)) (hn : t.next = s.next)
    (hparts : ∀ q R₁, (q = p ∧ R₁ = R → t.partitions q R₁ = none) ∧
      (¬ (q = p ∧ R₁ = R) → t.partitions q R₁ = s.partitions q R₁)) : t.Inv := by
  have hne : h.partitions ≠ [] := by
    rintro he
    simp [he] at hlast
  have hok : h'.popPartition.Ok :=
    ⟨hj.ok.granted, hj.ok.conflict, hj.ok.apart,
      fun _ => hj.ok.partitioned (hj.partitions ▸ hne), hj.ok.unlinked⟩
  refine ⟨fun R₁ h₁ h₁e => ?_, fun q R₁ l hl => ?_⟩
  · rw [ht] at h₁e
    by_cases hRR : R₁ = R
    · subst hRR
      obtain rfl : h'.popPartition = h₁ := by simpa using h₁e
      refine ⟨hok, fun r hr => ?_⟩
      rw [hn]
      rcases hj.requests r hr with ⟨q, hq, hid⟩ | ⟨q, hq, hid⟩
      · exact hid ▸ (hrs q hq).2
      · exact hid ▸ (hi.head R₁ h hR).2 q hq
    · rw [Function.update_of_ne hRR] at h₁e
      rw [hn]
      exact hi.head R₁ h₁ h₁e
  · by_cases hqR : q = p ∧ R₁ = R
    · rw [(hparts q R₁).1 hqR] at hl
      cases hl
    rw [(hparts q R₁).2 hqR] at hl
    have hpart := hi.partition q R₁ l hl
    rw [ht, hn]
    by_cases hRR : R₁ = R
    · subst hRR
      obtain ⟨h₀, hh₀, hmem, hapart⟩ := hpart.listed
      obtain rfl : h = h₀ := some.inj (hR.symm.trans hh₀)
      have hqp : q ≠ p := fun he => hqR ⟨he, rfl⟩
      refine ⟨⟨h'.popPartition, by simp, ?_, fun r hr w hw => ?_⟩, hpart.nodup, hpart.requests⟩
      · change q ∈ h'.partitions.dropLast
        rw [hj.partitions]
        exact mem_dropLast_of_ne hmem hlast hqp
      · rcases hj.requests w hw with ⟨w', hw', hid⟩ | ⟨w', hw', hid⟩
        · -- the two requests belong to lockers of different partitions
          intro he
          have h₁ := (hrs w' hw').1
          rw [hid, he, (hpart.requests r hr).2.1] at h₁
          exact hqp h₁
        · exact hid ▸ hapart r hr w' hw'
    · rw [Function.update_of_ne hRR]
      exact hpart

theorem Inv.migrate (hi : s.Inv) (he : s.migrate b = some t) :
    Sound flagged s t := by
  obtain ⟨sec, -, he⟩ := bind_eq_some_iff.mp he
  obtain ⟨h, hR, he⟩ := bind_eq_some_iff.mp he
  obtain ⟨p, hlast, he⟩ := bind_eq_some_iff.mp he
  have hfind := findOrInsert_of_heads hR
  have hok := (hi.head _ h hR).1
  split at he
  · split at he
    · next hnone =>
      cases he
      have hj : Joins [] h h :=
        ⟨hok, fun q hq => .inr ⟨q, hq, rfl⟩, rfl, fun hc => hc, fun hb => hb⟩
      refine .of_setHead (hi.popPartition hR hlast hj (by simp) rfl rfl fun q R₁ => ?_) rfl hfind
        (fun hb => hb.of_partitions) fun _ hc => hc
      refine ⟨?_, fun _ => rfl⟩
      rintro ⟨rfl, rfl⟩
      exact hnone
    · next rs hrs =>
      obtain ⟨h', hm, rfl⟩ := map_eq_some_iff.mp he
      have hpart := hi.partition p _ rs hrs
      obtain ⟨h₀, hh₀, hmem, hapart⟩ := hpart.listed
      obtain rfl : h = h₀ := some.inj (hR.symm.trans hh₀)
      have hj := hok.migrateRequests (ne_nil_of_mem hmem) (fun r hr => (hpart.requests r hr).1)
        hpart.nodup hapart hm
      refine .of_setHead (hi.popPartition hR hlast hj (fun r hr => (hpart.requests r hr).2) rfl rfl
        fun q R₁ => ⟨?_, fun hne => ?_⟩) rfl hfind ?_ ?_
      · rintro ⟨rfl, rfl⟩
        simp [State.setPartition]
      · exact setPartition_of_ne hne
      · exact fun hb => (hj.blocked hb).of_partitions
      · exact fun _ => hj.counted
  · cases he

/-- The requests of a partition change or leave, and none come. -/
theorem Inv.setPartition {l' : List LockRequest} (hi : s.Inv) (hl : s.partitions p R = some l)
    (hnodup : (l'.map LockRequest.id).Nodup)
    (hreq : ∀ r ∈ l', InPartition r ∧ ∃ q ∈ l, q.id = r.id) :
    (s.setPartition p R (some l')).Inv := by
  refine ⟨hi.head, fun p₁ R₁ l₁ hl₁ => ?_⟩
  by_cases hpR : p₁ = p ∧ R₁ = R
  · obtain ⟨rfl, rfl⟩ := hpR
    obtain rfl : l' = l₁ := by simpa [State.setPartition] using hl₁
    have hpart := hi.partition p₁ R₁ l hl
    obtain ⟨h, hR, hmem, hapart⟩ := hpart.listed
    refine ⟨⟨h, hR, hmem, fun r hr q hq => ?_⟩, hnodup, fun r hr => ?_⟩
    · obtain ⟨-, r', hr', hid⟩ := hreq r hr
      exact hid ▸ hapart r' hr' q hq
    · obtain ⟨hin, r', hr', hid⟩ := hreq r hr
      exact ⟨hin, hid ▸ (hpart.requests r' hr').2⟩
  · exact hi.partition p₁ R₁ l₁ ((setPartition_of_ne hpR).symm.trans hl₁)

/-- A call changes a request outside any mutex. -/
theorem Inv.touch (hi : s.Inv)
    (hr : s.request R place id = some r) (ht : Touches f)
    (hcall : ∀ m, (f r).call = .convert m →
      r.status = .granted ∧ covers m r.mode ∧ ¬ covers r.mode m)
    (hflag : flagged → place = .head → (f r).compatibleFirst = r.compatibleFirst) :
    Sound flagged s (s.modifyRequest R place id f) := by
  cases place with
  | head =>
    obtain ⟨h, hR, hreq⟩ := bind_eq_some_iff.mp hr
    have hok := (hi.head R h hR).1
    have hfind := findOrInsert_of_heads hR
    obtain ⟨hmem, rfl⟩ := hok.mem_of_request hreq
    have hok' : (h.modifyRequest r.id f).Ok := by
      rcases mem_append.mp hmem with hg | hw
      · exact hok.touch_granted ht hg hcall
      · refine hok.touch_waiting ht hw fun m hm => ?_
        have := (hcall m hm).1
        rw [(hok.conflict.waiting r hw).1] at this
        cases this
    have hset : s.modifyRequest R .head r.id f = s.setHead R (some (h.modifyRequest r.id f)) := by
      simp [State.modifyRequest, hR]
    rw [hset]
    refine .of_setHead (hi.setHead (n := s.next) hfind (Nat.le_refl _) hok' (fun q hq => .inr ?_)
      (List.Subset.refl _)) rfl hfind (fun hb => hb.touch ht) fun hf hc => hc.touch hok
        fun q hq hid => ?_
    · rcases mem_append.mp hq with hq | hq
      · obtain ⟨q', hq', hid, -⟩ := ht.mem_modify hq
        exact ⟨q', mem_append_left _ hq', hid⟩
      · obtain ⟨q', hq', hid, -⟩ := ht.mem_modify hq
        exact ⟨q', mem_append_right _ hq', hid⟩
    · rcases mem_append.mp hmem with hg | hw
      · rw [eq_of_key_eq hok.granted.nodup hq hg hid]
        exact hflag hf rfl
      · exact absurd hid (hok.apart q hq r hw)
  | partition p =>
    obtain ⟨l, hl, hlook⟩ := bind_eq_some_iff.mp hr
    obtain ⟨hmem, rfl⟩ := of_lookup hlook
    have hpart := hi.partition p R l hl
    have hset : s.modifyRequest R (.partition p) r.id f =
        s.setPartition p R (some (modify LockRequest.id r.id f l)) := by
      simp [State.modifyRequest, hl]
    rw [hset]
    refine .of_heads (hi.setPartition hl ?_ fun q hq => ?_) fun _ _ h => h
    · rw [map_key_modify ht.id]
      exact hpart.nodup
    · rcases Keyed.mem_modify.mp hq with ⟨hq', -⟩ | ⟨q, hq', hid, rfl⟩
      · exact ⟨(hpart.requests q hq').1, q, hq', rfl⟩
      · obtain rfl : q = r := eq_of_key_eq hpart.nodup hq' hmem hid
        have hin := (hpart.requests q hq').1
        refine ⟨⟨ht.held hin.held hcall, ?_, ?_⟩, q, hq', (ht.id q).symm⟩
        · rw [ht.mode]
          exact hin.intent
        · rw [ht.status]
          exact hin.status

theorem touches_reacquire (flags : Flags) (call : Call) : Touches (.reacquire flags call) :=
  ⟨fun _ => rfl, fun _ => rfl, fun _ => rfl, fun _ => rfl⟩

theorem touches_dropReference (call : Call) : Touches (.dropReference call) :=
  ⟨fun _ => rfl, fun _ => rfl, fun _ => rfl, fun _ => rfl⟩

theorem touches_proceed (call : Call) : Touches (.proceed call) :=
  ⟨fun _ => rfl, fun _ => rfl, fun _ => rfl, fun _ => rfl⟩

section
variable (hi : s.Inv)
include hi

theorem Inv.convertBegin (hflag : flagged → place = .head → ∀ r, s.request R place id = some r →
      flags.compatibleFirst = true → r.compatibleFirst = true)
    (he : s.convertBegin R place id flags m = some t) : Sound flagged s t := by
  obtain ⟨r, hr, he⟩ := bind_eq_some_iff.mp he
  have hsame : ∀ call, flagged → place = .head →
      (r.reacquire flags call).compatibleFirst = r.compatibleFirst := by
    intro call hf hp
    simp only [reacquire]
    cases h₁ : r.compatibleFirst <;> cases h₂ : flags.compatibleFirst <;> simp_all
  split at he
  · cases he
  next hok =>
  split at he
  · cases he
    exact hi.touch hr (touches_reacquire flags _) (by simp [reacquire]) (hsame _)
  next hncov =>
  split at he
  · next hcov =>
    cases he
    refine hi.touch hr (touches_reacquire flags _) (fun m' hm' => ?_) (hsame _)
    obtain rfl : m = m' := by simpa [reacquire] using hm'
    rw [not_or, not_or] at hok
    exact ⟨not_not.mp hok.2.1, hcov, hncov⟩
  · cases he

theorem Inv.convertHead (he : s.convertHead R place id = some t) : Sound flagged s t := by
  obtain ⟨r, -, he⟩ := bind_eq_some_iff.mp he
  split at he
  · split at he
    · cases he
    · cases he
      exact .of_heads (hi.setInside _) fun _ _ h => h
  · cases he

theorem Inv.convertDone (he : s.convertDone b = some t) : Sound flagged s t := by
  unfold State.convertDone at he
  split at he
  · obtain ⟨h, hR, he⟩ := bind_eq_some_iff.mp he
    split at he
    · cases he
    next hp =>
    obtain ⟨r, hr, he⟩ := bind_eq_some_iff.mp he
    split at he
    · next m hcall =>
      obtain ⟨⟨h', res⟩, hc, rfl⟩ := map_eq_some_iff.mp he
      have hok := (hi.head _ h hR).1
      have hg := hok.mem_granted_of_request hr fun _ => ⟨m, hcall⟩
      have hs : Sound flagged s _ :=
        hi.setHead_of_preserves hR (hok.convert hg hcall (not_not.mp hp) hc)
      exact ⟨hs.inv.setInside _, hs.blocked, hs.counted⟩
    · cases he
  · cases he

theorem Inv.unlockBegin (he : s.unlockBegin R place id = some t) : Sound flagged s t := by
  obtain ⟨r, hr, he⟩ := bind_eq_some_iff.mp he
  have hdrop : ∀ call, (∀ m, call ≠ .convert m) →
      Sound flagged s (s.modifyRequest R place id (.dropReference call)) := fun call hcall =>
    hi.touch hr (touches_dropReference call) (fun m hm => absurd hm (hcall m)) fun _ _ => rfl
  split at he
  · cases he
  split at he
  · cases he
    exact hdrop .idle (by simp)
  split at he
  · split at he
    · cases he
      exact hdrop .unlockPartition (by simp)
    · cases he
  · split at he
    · cases he
      exact hdrop .unlockHead (by simp)
    · cases he

theorem Inv.unlockPartition (he : s.unlockPartition R place id = some t) : Sound flagged s t := by
  obtain ⟨r, hr, he⟩ := bind_eq_some_iff.mp he
  split at he
  · cases he
  cases place with
  | head =>
    cases he
    exact hi.touch hr (touches_proceed _) (by simp [proceed]) fun _ _ => rfl
  | partition p =>
    cases he
    obtain ⟨l, hl, -⟩ := bind_eq_some_iff.mp hr
    have hpart := hi.partition p R l hl
    rw [hl, map_some]
    refine .of_heads (hi.setPartition hl (nodup_erase hpart.nodup) fun q hq => ?_) fun _ _ h => h
    have hq' := (mem_erase.mp hq).1
    exact ⟨(hpart.requests q hq').1, q, hq', rfl⟩

theorem Inv.unlockHead
    (hlast : ∀ r, s.request R .head id = some r → r.status = .granted → r.recursiveCount = 0)
    (he : s.unlockHead R id = some t) : Sound flagged s t := by
  unfold State.unlockHead at he
  split at he
  · cases he
  obtain ⟨h, hR, he⟩ := bind_eq_some_iff.mp he
  obtain ⟨r, hr, he⟩ := bind_eq_some_iff.mp he
  split at he
  · cases he
  obtain ⟨h', hu, rfl⟩ := map_eq_some_iff.mp he
  have hok := (hi.head R h hR).1
  refine hi.setHead_of_preserves hR (hok.unlock (hok.mem_of_request hr).1 (hlast r ?_) hu)
  simp [State.request, hR, hr]

theorem Inv.downgrade (he : s.downgrade R id m = some t) : Sound flagged s t := by
  unfold State.downgrade at he
  split at he
  · cases he
  next hm =>
  obtain ⟨h, hR, he⟩ := bind_eq_some_iff.mp he
  obtain ⟨r, hr, he⟩ := bind_eq_some_iff.mp he
  split at he
  · cases he
  next hc =>
  obtain ⟨h', hd, rfl⟩ := map_eq_some_iff.mp he
  simp only [not_or, not_not] at hm hc
  obtain ⟨hcall, hs, -, hcov⟩ := hc
  have hok := (hi.head R h hR).1
  have hg := hok.mem_granted_of_request hr fun hw => by cases hs.symm.trans hw
  exact hi.setHead_of_preserves hR (hok.downgrade hg hs hcall hm.2 hcov hd)

theorem Inv.cleanupHead (he : s.cleanupHead R = some t) : Sound flagged s t := by
  unfold State.cleanupHead at he
  split at he
  · cases he
  · cases he
    exact .of_heads (hi.setInside _) fun _ _ h => h

theorem Inv.cleanupDone (he : s.cleanupDone b = some t) : Sound flagged s t := by
  unfold State.cleanupDone at he
  split at he
  · next R hin =>
    obtain ⟨h, hR, he⟩ := bind_eq_some_iff.mp he
    split at he
    · cases he
    next hp =>
    split at he
    · cases he
      exact .of_heads (hi.setInside _) fun _ _ h => h
    split at he
    · cases he
      have hother : ∀ R₁ h₁, (s.setHead R none).heads R₁ = some h₁ → s.heads R₁ = some h₁ := by
        intro R₁ h₁ h₁e
        by_cases hRR : R₁ = R
        · simp [State.setHead, hRR] at h₁e
        · simpa [State.setHead, hRR] using h₁e
      refine .of_heads ⟨fun R₁ h₁ h₁e => hi.head R₁ h₁ (hother R₁ h₁ h₁e), fun p R₁ l hl => ?_⟩
        hother
      have hpart := hi.partition p R₁ l hl
      have hRR : R₁ ≠ R := by
        rintro rfl
        obtain ⟨h₀, hh₀, hmem, -⟩ := hpart.listed
        obtain rfl : h = h₀ := some.inj (hR.symm.trans hh₀)
        rw [not_not.mp hp] at hmem
        simp at hmem
      refine ⟨?_, hpart.nodup, hpart.requests⟩
      simpa [State.setHead, State.setInside, hRR] using hpart.listed
    · cases he
  · cases he

end

end State

/-- When `unlock` gets the bucket's mutex and finds its request granted, no reference to the
request is left. -/
def Action.releasesLast (s : State) : Action → Prop
  | .unlockHead resId id => ∀ r, s.request resId .head id = some r →
      r.status = .granted → r.recursiveCount = 0
  | _ => True

/-- The locker sets the compatible-first flag of no request that is granted on a lock head
without it. -/
def Action.flagsCounted (s : State) : Action → Prop
  | .convertBegin resId place id flags _ => place = .head → ∀ r,
      s.request resId place id = some r → flags.compatibleFirst = true → r.compatibleFirst = true
  | _ => True

theorem State.Inv.step (hi : s.Inv) (hlast : a.releasesLast s) (he : s.step a = some t) :
    Sound (a.flagsCounted s) s t := by
  cases a with
  | lockFast R locker flags m => exact hi.lockFast he
  | lockHead R locker flags m => exact hi.lockHead he
  | lockDone b => exact hi.lockDone he
  | migrate b => exact hi.migrate he
  | convertBegin R place id flags m => exact hi.convertBegin (fun hf => hf) he
  | convertHead R place id => exact hi.convertHead he
  | convertDone b => exact hi.convertDone he
  | unlockBegin R place id => exact hi.unlockBegin he
  | unlockPartition R place id => exact hi.unlockPartition he
  | unlockHead R id => exact hi.unlockHead hlast he
  | downgrade R id m => exact hi.downgrade he
  | cleanupHead R => exact hi.cleanupHead he
  | cleanupDone b => exact hi.cleanupDone he

end MongolDb.Lock
