import MongolDb.Lib.Binary64
import MongolDb.Lib.Outcome

/-! Replica set configurations and their validation (member_config.cpp, replica_set_config.cpp). -/
namespace MongolDb.Repl
open Finset

/-- What a `str::stream` is fed; how numbers print is left open. -/
inductive Piece where
  | text (s : String)
  | int (n : Int)
  | double (d : Binary64)
  deriving DecidableEq

inductive ErrorCode where
  | badValue
  deriving DecidableEq

structure Error where
  code : ErrorCode
  reason : List Piece
  deriving DecidableEq

abbrev Status := Except Error Unit

def badValue (reason : List Piece) : Error := ⟨.badValue, reason⟩

/-- `if (c) return Status(...)`. -/
def failIf (c : Bool) (e : Error) : Status := if c then .error e else .ok ()

theorem failIf_bind_eq_ok {α : Type} {c : Bool} {e : Error} {f : Unit → Except Error α} {a : α} :
    (failIf c e >>= f) = .ok a ↔ c = false ∧ f () = .ok a := by
  cases c
  · exact ⟨fun h => ⟨rfl, h⟩, fun h => h.2⟩
  · exact ⟨nofun, nofun⟩

/-- A host with what `port()` returns for it, the default port included. -/
structure HostAndPort where
  host : String
  port : Int
  deriving DecidableEq

namespace HostAndPort

def isLocalHost (h : HostAndPort) : Bool :=
  h.host == "localhost" || "127.".toList.isPrefixOf h.host.toList || h.host == "::1" ||
    h.host == "anonymous unix socket" || h.host.toList.head? == some '/'

/-- IPv6 addresses are wrapped in brackets. -/
def toPieces (h : HostAndPort) : List Piece :=
  (if h.host.toList.contains ':' then [.text "[", .text h.host, .text "]"] else [.text h.host]) ++
    [.text ":", .int h.port]

end HostAndPort

structure MemberConfig where
  id : Int
  host : HostAndPort
  priority : Binary64
  votes : Int
  arbiterOnly : Bool
  slaveDelay : Int
  hidden : Bool
  buildIndexes : Bool
  tags : List (String × String)
  deriving DecidableEq

namespace MemberConfig

def kMaxSlaveDelay : Int := 3600 * 24 * 366

def isVoter (m : MemberConfig) : Bool := m.votes != 0

def isArbiter (m : MemberConfig) : Bool := m.arbiterOnly

def isElectable (m : MemberConfig) : Bool :=
  !m.isArbiter && Binary64.lt (Binary64.ofNat 0) m.priority

def outOfRange (field : String) (value : Piece) (ending : String) : Error :=
  badValue [.text field, .text " field value of ", value, .text ending]

def validate (m : MemberConfig) : Status := do
  failIf (m.id < 0 || 255 < m.id) (outOfRange "_id" (.int m.id) " is out of range.")
  failIf (m.priority.lt (Binary64.ofNat 0) || (Binary64.ofNat 1000).lt m.priority)
    (outOfRange "priority" (.double m.priority) " is out of range")
  failIf (m.votes != 0 && m.votes != 1)
    (badValue [.text "votes", .text " field value is ", .int m.votes, .text " but must be 0 or 1"])
  failIf (m.arbiterOnly && !m.tags.isEmpty) (badValue [.text "Cannot set tags on arbiters."])
  failIf (m.arbiterOnly && !m.isVoter)
    (badValue [.text "Arbiter must vote (cannot have 0 votes)"])
  failIf (m.slaveDelay < 0 || kMaxSlaveDelay < m.slaveDelay)
    (badValue [.text "slaveDelay", .text " field value of ", .int m.slaveDelay,
      .text " seconds is out of range"])
  -- `_priority != 0`, true of a NaN
  let electable := !m.priority.eq (Binary64.ofNat 0)
  failIf (electable && m.votes == 0)
    (badValue [.text "priority must be 0 when non-voting (votes:0)"])
  failIf (electable && 0 < m.slaveDelay)
    (badValue [.text "priority must be 0 when slaveDelay is used"])
  failIf (electable && m.hidden) (badValue [.text "priority must be 0 when hidden=true"])
  failIf (electable && !m.buildIndexes)
    (badValue [.text "priority must be 0 when buildIndexes=false"])

end MemberConfig

structure WriteConcernOptions where
  wNumNodes : Int
  wMode : String
  deriving DecidableEq

structure ReplicaSetConfig where
  version : Int
  replSetName : String
  heartbeatInterval : Int
  electionTimeoutPeriod : Int
  members : List MemberConfig
  defaultWriteConcern : WriteConcernOptions
  /-- The names `findCustomWriteMode` finds. -/
  customWriteConcernModes : List String
  protocolVersion : Int
  configServer : Bool
  deriving DecidableEq

namespace ReplicaSetConfig

def kMaxMembers : Nat := 50

def kMaxVotingMembers : Nat := 7

def intMax : Int := 2 ^ 31 - 1

/-- The counters of the loop over the members. -/
structure Counts where
  localhost : Nat := 0
  voter : Nat := 0
  arbiter : Nat := 0
  electable : Nat := 0
  deriving DecidableEq

def Counts.add (c : Counts) (m : MemberConfig) : Counts where
  localhost := c.localhost + m.host.isLocalHost.toNat
  voter := c.voter + m.isVoter.toNat
  arbiter := c.arbiter + m.isArbiter.toNat
  electable := c.electable + (!m.isArbiter && Binary64.lt (Binary64.ofNat 0) m.priority).toNat

/-- `members.<i>.<field> == members.<j>.<field> == <value>`. -/
def sameField (field : String) (i j : Nat) (value : List Piece) : Error :=
  badValue ([.text "Found two member configurations with same ", .text field, .text " field, ",
    .text "members", .text ".", .int i, .text ".", .text field, .text " == ", .text "members",
    .text ".", .int j, .text ".", .text field, .text " == "] ++ value)

/-- The inner loop: the member at `i` against all others. -/
def validateDistinct (i : Nat) (memberI : MemberConfig) : List (MemberConfig × Nat) → Status
  | [] => pure ()
  | (memberJ, j) :: rest => do
    failIf (i != j && memberI.id == memberJ.id) (sameField "_id" i j [.int memberI.id])
    failIf (i != j && memberI.host == memberJ.host) (sameField "host" i j memberI.host.toPieces)
    validateDistinct i memberI rest

def validateMembers (all : List (MemberConfig × Nat)) :
    List (MemberConfig × Nat) → Counts → Except Error Counts
  | [], counts => pure counts
  | (memberI, i) :: rest, counts => do
    memberI.validate
    validateDistinct i memberI all
    validateMembers all rest (counts.add memberI)

section
variable (cfg : ReplicaSetConfig)

def validateWriteConcern : Status :=
  let mode := cfg.defaultWriteConcern.wMode
  if mode == "" then
    failIf (cfg.defaultWriteConcern.wNumNodes == 0)
      (badValue [.text "Default write concern mode must wait for at least 1 member"])
  else
    failIf (mode != "majority" && !cfg.customWriteConcernModes.contains mode)
      (badValue [.text "Default write concern requires undefined write mode ", .text mode])

def validateConfigServerMember (m : MemberConfig) : Status := do
  failIf (!m.buildIndexes)
    (badValue [.text ("Members in replica set configurations being used for config " ++
      "servers must build indexes")])
  failIf (m.slaveDelay != 0)
    (badValue [.text ("Members in replica set configurations being used for config " ++
      "servers cannot have a non-zero slaveDelay")])

/-- `configsvr` is `serverGlobalParams.configsvr`. -/
def validateConfigServer (configsvr : Bool) (arbiterCount : Nat) :
    Status :=
  if cfg.configServer then do
    failIf (cfg.protocolVersion == 0)
      (badValue [.text "Config servers cannot run in protocolVersion 0"])
    failIf (0 < arbiterCount)
      (badValue [.text ("Arbiters are not allowed in replica set configurations being used for " ++
        "config servers")])
    cfg.members.forM validateConfigServerMember
    failIf (!configsvr)
      (badValue [.text ("Nodes being used for config servers must be started with the " ++
        "--configsvr flag")])
  else
    failIf configsvr
      (badValue [.text ("Nodes started with the --configsvr flag must have configsvr:true in " ++
        "their config")])

def validate (configsvr : Bool) : Status := do
  failIf (cfg.version ≤ 0 || intMax < cfg.version)
    (MemberConfig.outOfRange "version" (.int cfg.version) " is out of range")
  failIf (cfg.replSetName == "")
    (badValue [.text "Replica set configuration must have non-empty ", .text "_id", .text " field"])
  failIf (cfg.heartbeatInterval < 0)
    (badValue [.text "settings", .text ".", .text "heartbeatIntervalMillis",
      .text " field value must be non-negative, but found ", .int cfg.heartbeatInterval])
  failIf (kMaxMembers < cfg.members.length || cfg.members.isEmpty)
    (badValue [.text "Replica set configuration contains ", .int cfg.members.length,
      .text " members, but must have at least 1 and no more than  ", .int kMaxMembers])
  let counts ← validateMembers cfg.members.zipIdx cfg.members.zipIdx {}
  failIf (counts.localhost != 0 && counts.localhost != cfg.members.length)
    (badValue [.text ("Either all host names in a replica set configuration must be localhost " ++
      "references, or none must be; found "), .int counts.localhost, .text " out of ",
      .int cfg.members.length])
  failIf (kMaxVotingMembers < counts.voter || counts.voter == 0)
    (badValue [.text "Replica set configuration contains ", .int counts.voter,
      .text " voting members, but must be at least 1 and no more than ", .int kMaxVotingMembers])
  failIf (counts.electable == 0)
    (badValue [.text ("Replica set configuration must contain at least " ++
      "one non-arbiter member with priority > 0")])
  validateWriteConcern cfg
  failIf (cfg.protocolVersion < 0 || intMax < cfg.protocolVersion)
    (MemberConfig.outOfRange "protocolVersion" (.int cfg.protocolVersion) " is out of range")
  validateConfigServer cfg configsvr counts.arbiter

/-- The voters that `_calculateMajorities` counts. -/
def totalVotingMembers : Nat := cfg.members.countP (·.isVoter)

def majorityVoteCount : Nat := cfg.totalVotingMembers / 2 + 1

def isV1ElectionProtocol : Bool := cfg.protocolVersion == 1

end

variable {cfg : ReplicaSetConfig} {configsvr : Bool}

theorem validateDistinct_eq_ok {i : Nat} {memberI : MemberConfig}
    {members : List (MemberConfig × Nat)} (h : validateDistinct i memberI members = .ok ()) :
    ∀ p ∈ members, i ≠ p.2 → memberI.id ≠ p.1.id ∧ memberI.host ≠ p.1.host := by
  induction members with
  | nil => exact nofun
  | cons q rest ih =>
    simp only [validateDistinct, failIf_bind_eq_ok] at h
    obtain ⟨hid, hhost, hrest⟩ := h
    intro p hp hi
    rcases List.mem_cons.mp hp with rfl | hp
    · simp_all
    · exact ih hrest p hp hi

theorem validateMembers_eq_ok {all members : List (MemberConfig × Nat)} {counts counts' : Counts}
    (h : validateMembers all members counts = .ok counts') :
    ∀ p ∈ members, p.1.validate = .ok () ∧ validateDistinct p.2 p.1 all = .ok () := by
  induction members generalizing counts with
  | nil => exact nofun
  | cons q rest ih =>
    rw [validateMembers, Outcome.bind_eq_ok] at h
    obtain ⟨⟨⟩, hq, h⟩ := h
    obtain ⟨⟨⟩, hd, h⟩ := Outcome.bind_eq_ok.mp h
    intro p hp
    rcases List.mem_cons.mp hp with rfl | hp
    · exact ⟨hq, hd⟩
    · exact ih h p hp

theorem exists_counts_of_validate (h : cfg.validate configsvr = .ok ()) :
    ∃ counts, validateMembers cfg.members.zipIdx cfg.members.zipIdx {} = .ok counts := by
  rw [validate] at h
  simp only [failIf_bind_eq_ok] at h
  obtain ⟨counts, hm, _⟩ := Outcome.bind_eq_ok.mp h.2.2.2.2
  exact ⟨counts, hm⟩

theorem member_validate (h : cfg.validate configsvr = .ok ()) {m : MemberConfig}
    (hm : m ∈ cfg.members) : m.validate = .ok () := by
  obtain ⟨counts, hc⟩ := exists_counts_of_validate h
  obtain ⟨i, hi, rfl⟩ := List.getElem_of_mem hm
  exact (validateMembers_eq_ok hc (cfg.members[i], i) (List.mk_mem_zipIdx_iff_getElem?.mpr
    (List.getElem?_eq_getElem hi))).1

def voters (cfg : ReplicaSetConfig) : Finset Nat :=
  (Finset.range cfg.members.length).filter fun i => (cfg.members[i]?).any (·.isVoter)

theorem mem_voters {i : Nat} :
    i ∈ cfg.voters ↔ ∃ m, cfg.members[i]? = some m ∧ m.isVoter = true := by
  simp only [voters, mem_filter, mem_range, Option.any_eq_true_iff_get]
  constructor
  · rintro ⟨_, hs, hv⟩
    exact ⟨_, Option.eq_some_of_isSome hs, hv⟩
  · rintro ⟨m, hm, hv⟩
    refine ⟨(List.getElem?_eq_some_iff.mp hm).1, by simp [hm], ?_⟩
    simpa [hm] using hv

/-- A predicate holds at as many indices as there are elements that have it. -/
theorem card_filter_range_any {α : Type} (p : α → Bool) (l : List α) :
    ((Finset.range l.length).filter fun i => (l[i]?).any p).card = l.countP p := by
  induction l using List.reverseRecOn with
  | nil => rfl
  | append_singleton l a ih =>
    have hsame : ((range l.length).filter fun i => ((l ++ [a])[i]?).any p) =
        (range l.length).filter fun i => (l[i]?).any p := by
      refine filter_congr fun i hi => ?_
      rw [List.getElem?_append_left (mem_range.mp hi)]
    rw [List.length_append, List.length_singleton, range_add_one, filter_insert,
      hsame, List.countP_append, ← ih]
    cases hp : p a <;> simp [hp]

theorem card_voters : cfg.voters.card = cfg.totalVotingMembers :=
  card_filter_range_any _ _

theorem host_injective (h : cfg.validate configsvr = .ok ()) {i j : Nat} {m m' : MemberConfig}
    (hi : cfg.members[i]? = some m) (hj : cfg.members[j]? = some m') (he : m.host = m'.host) :
    i = j := by
  obtain ⟨counts, hc⟩ := exists_counts_of_validate h
  by_contra hij
  have hd := (validateMembers_eq_ok hc (m, i) (List.mk_mem_zipIdx_iff_getElem?.mpr hi)).2
  exact (validateDistinct_eq_ok hd (m', j) (List.mk_mem_zipIdx_iff_getElem?.mpr hj) hij).2 he

end ReplicaSetConfig

/-- A member that may stand for election may vote. -/
theorem MemberConfig.isVoter_of_isElectable {m : MemberConfig} (h : m.validate = .ok ())
    (he : m.isElectable = true) : m.isVoter = true := by
  simp only [MemberConfig.validate, failIf_bind_eq_ok] at h
  obtain ⟨-, -, -, -, -, -, hvotes, -⟩ := h
  simp only [isElectable, Bool.and_eq_true, Binary64.lt, decide_eq_true_eq] at he
  have hne : m.priority.eq (Binary64.ofNat 0) = false := by
    simp only [Binary64.eq, Bool.and_eq_false_iff, decide_eq_false_iff_not]
    exact .inr (ne_of_gt he.2.2)
  simpa [hne, isVoter] using hvotes

/-- A set of three members on one host. -/
def threeMembers : ReplicaSetConfig where
  version := 1
  replSetName := "rs0"
  heartbeatInterval := 2000
  electionTimeoutPeriod := 10000
  members := [0, 1, 2].map fun k =>
    { id := k, host := ⟨"localhost", 27017 + k⟩, priority := Binary64.ofNat 1, votes := 1
      arbiterOnly := false, slaveDelay := 0, hidden := false, buildIndexes := true, tags := [] }
  defaultWriteConcern := ⟨1, ""⟩
  customWriteConcernModes := []
  protocolVersion := 1
  configServer := false

end MongolDb.Repl
