import WaterCredits.Host

/-! # The storage of the governance contract

One field per storage key, with the default that its reader falls back to.
Proposals carry the weights of the votes and the total that was eligible when
they were created.
-/

namespace WaterCredits.Governance

open Function

/-- A host value that crosses a contract boundary. -/
inductive Val
  | void
  | i128 (n : I128)
  | address (a : Address)
  | other (payload : UInt64)
  deriving DecidableEq

inductive ProposalStatus
  | pending
  | active
  | approved
  | executed
  | cancelled
  | rejected
  | expired
  deriving DecidableEq, Repr

/-- The operations that a proposal names by a fixed identifier. -/
inductive ProtocolAction
  | none
  | emergencyPause
  | emergencyUnpause
  deriving DecidableEq, Repr

structure GovernanceAction where
  target : Address
  function : String
  args : List Val
  protocolAction : ProtocolAction := .none
  deriving DecidableEq

structure GovernanceConfig where
  votingPeriod : UInt64 := 604800
  timelockDuration : UInt64 := 86400
  approvalThresholdBps : UInt32 := 6000
  quorumBps : UInt32 := 5000
  minProposalDeposit : I128 := 1000
  maxActiveProposals : UInt32 := 10
  deriving DecidableEq

structure Proposal where
  id : UInt64
  proposer : Address
  title : String
  description : String
  actions : List GovernanceAction
  allowPartialExecution : Bool
  actionResults : List Bool := []
  votesFor : UInt32 := 0
  votesAgainst : UInt32 := 0
  eligibleVoters : UInt32
  totalEligibleWeight : I128
  votesForWeight : I128 := 0
  votesAgainstWeight : I128 := 0
  status : ProposalStatus := .pending
  createdAt : UInt64
  votingEndsAt : UInt64
  timelockEndsAt : UInt64 := 0
  deriving DecidableEq

structure State where
  admin : Address
  config : GovernanceConfig := {}
  memberCount : UInt32 := 0
  proposalCount : UInt64 := 0
  activeProposals : List UInt64 := []
  protocolPaused : Bool := false
  registeredTokens : List Address := []
  registeredOracles : List Address := []
  governanceToken : Option Address := none
  member : Address → Bool := fun _ => false
  proposal : UInt64 → Option Proposal := fun _ => none
  hasVoted : UInt64 × Address → Bool := fun _ => false

/-- The ranges that a new configuration must lie in. -/
def validateConfig (config : GovernanceConfig) : Result Unit := do
  ensure (3600 ≤ config.votingPeriod ∧ config.votingPeriod ≤ 2592000) "voting_period out of range"
  ensure (config.timelockDuration ≤ 604800) "timelock_duration out of range"
  ensure (1 ≤ config.approvalThresholdBps ∧ config.approvalThresholdBps ≤ 10000)
    "approval_threshold_bps out of range"
  ensure (config.quorumBps ≤ 10000) "quorum_bps out of range"
  ensure (0 ≤ config.minProposalDeposit) "min_proposal_deposit out of range"
  ensure (1 ≤ config.maxActiveProposals ∧ config.maxActiveProposals ≤ 100)
    "max_active_proposals out of range"

theorem validateConfig_default : validateConfig {} = .ok () := by rfl

namespace State

variable {contract : Address}

def requireAdmin (e : Env contract) (s : State) (admin : Address) : Result Unit := do
  e.requireAuth admin
  ensure (admin = s.admin) "unauthorized"

/-- The guard of the calls that members make. -/
def requireMember (e : Env contract) (s : State) (caller : Address) : Result Unit := do
  e.requireAuth caller
  ensure (s.member caller = true) "not a governance member"

def expectProposal (s : State) (proposalId : UInt64) : Result Proposal :=
  orPanic (s.proposal proposalId) "proposal not found"

def saveProposal (s : State) (proposalId : UInt64) (proposal : Proposal) : State :=
  { s with proposal := update s.proposal proposalId (some proposal) }

def removeFromActive (s : State) (proposalId : UInt64) : State :=
  { s with activeProposals := s.activeProposals.filter (· ≠ proposalId) }

@[simp] theorem requireAdmin_eq_ok {e : Env contract} {s : State} {a : Address} {u : Unit} :
    s.requireAdmin e a = .ok u ↔ e.auth a = true ∧ a = s.admin := by simp [requireAdmin]

@[simp] theorem requireMember_eq_ok {e : Env contract} {s : State} {a : Address} {u : Unit} :
    s.requireMember e a = .ok u ↔ e.auth a = true ∧ s.member a = true := by simp [requireMember]

@[simp] theorem expectProposal_eq_ok {s : State} {proposalId : UInt64} {proposal : Proposal} :
    s.expectProposal proposalId = .ok proposal ↔ s.proposal proposalId = some proposal := by
  simp [expectProposal]

end State

end WaterCredits.Governance
