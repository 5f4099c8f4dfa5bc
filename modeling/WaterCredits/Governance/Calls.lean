import WaterCredits.Foundation.Machine
import WaterCredits.Governance.State

/-! # The public calls of the governance contract

Each entry point returns the storage that it leaves behind, with the world of
the other contracts when it calls them. Plain `+`, `-` and `*` wrap, as in the
release build.
-/

namespace WaterCredits.Governance

open Foundation (Machine bind_eq_ok pure_eq_ok)
open Function

structure Contracts (W : Type) where
  invoke : (caller target : Address) → (function : String) → List Val → W → Result (Val × W)

variable {contract : Address} {W : Type}

namespace Contracts

variable (C : Contracts W) (contract target : Address) (function : String) (args : List Val) (w : W)

/-- The host admits no re-entry, so a call of the contract on itself fails. -/
def call : Result (Val × W) :=
  if target = contract then .error .invokeFailed else C.invoke contract target function args w

/-- A call whose failure is rolled back and reported. -/
def tryCall : Option Val × W :=
  match C.call contract target function args w with
  | .ok (val, w) => (some val, w)
  | .error _ => (none, w)

/-- One dispatched call: best effort reports a failure, otherwise it aborts. -/
def dispatch (bestEffort : Bool) : Result (Bool × W) :=
  if bestEffort = true then
    let (val, w) := C.tryCall contract target function args w
    return (val.isSome, w)
  else do
    let (val, w) ← C.call contract target function args w
    Foundation.require (val = .void) .invokeFailed
    return (true, w)

/-- The same call on each contract of a list; reports whether all of them succeeded. -/
def dispatchEach (bestEffort : Bool) : List Address → W → Result (Bool × W)
  | [], w => return (true, w)
  | target :: rest, w => do
    let (ok, w) ← C.dispatch contract target function args w bestEffort
    let (allOk, w) ← dispatchEach bestEffort rest w
    return (ok && allOk, w)

end Contracts

/-- Enrol the listed members, counting each address once. -/
def enrol : List Address → (Address → Bool) → UInt32 → (Address → Bool) × UInt32
  | [], member, count => (member, count)
  | a :: rest, member, count =>
    if member a = true then enrol rest member count
    else enrol rest (update member a true) (count + 1)

/-- Fails once an admin is stored. -/
def initialise (stored : Option State) (admin : Address) (initialMembers : List Address) :
    Result State := do
  ensure (stored.isNone) "already initialized"
  let (member, memberCount) := enrol initialMembers (fun _ => false) 0
  return { admin, member, memberCount }

theorem initialise_eq_ok {stored : Option State} {admin : Address} {initialMembers : List Address}
    {s : State} : initialise stored admin initialMembers = .ok s ↔ stored = none ∧ s = {
      admin
      member := (enrol initialMembers (fun _ => false) 0).1
      memberCount := (enrol initialMembers (fun _ => false) 0).2 } := by
  simp [initialise, @eq_comm _ s]

namespace Proposal

/-- Count one vote and its weight on the side that the voter takes. -/
def cast (p : Proposal) (approve : Bool) (weight : I128) : Proposal :=
  if approve = true then
    { p with votesFor := p.votesFor + 1, votesForWeight := p.votesForWeight + weight }
  else
    { p with
      votesAgainst := p.votesAgainst + 1
      votesAgainstWeight := p.votesAgainstWeight + weight }

def activate (p : Proposal) : Proposal :=
  if p.status = .pending then { p with status := .active } else p

def quorumWeight (p : Proposal) (config : GovernanceConfig) : I128 :=
  if 0 < p.totalEligibleWeight then
    (p.totalEligibleWeight * ofU32 config.quorumBps + 10000 - 1) / 10000
  else 0

/-- The quorum by head count, rounded up; members that left lower it. -/
def quorumCount (p : Proposal) (config : GovernanceConfig) (memberCount : UInt32) : UInt64 :=
  let effectiveVoters := min p.eligibleVoters memberCount
  if effectiveVoters = 0 then 0
  else (effectiveVoters.toUInt64 * config.quorumBps.toUInt64 + 10000 - 1) / 10000

def approvedByWeight (p : Proposal) (config : GovernanceConfig) : Bool :=
  let totalWeight := p.votesForWeight + p.votesAgainstWeight
  decide (0 < totalWeight) &&
    decide (ofU32 config.approvalThresholdBps ≤ p.votesForWeight * 10000 / totalWeight)

def approvedByCount (p : Proposal) (config : GovernanceConfig) : Bool :=
  let totalVotes := p.votesFor + p.votesAgainst
  decide (0 < totalVotes) &&
    decide (config.approvalThresholdBps.toUInt64 ≤
      p.votesFor.toUInt64 * 10000 / totalVotes.toUInt64)

end Proposal

namespace State

/-- The balance of a voter, or zero when the token does not answer with a balance. -/
def getVoterVotingWeight (C : Contracts W) (contract : Address) (s : State) (voter : Address)
    (w : W) :
    I128 × W :=
  match s.governanceToken with
  | none => (0, w)
  | some token =>
    match C.tryCall contract token "balance" [.address voter] w with
    | (some (.i128 n), w) => (n, w)
    | (_, w) => (0, w)

/-- The supply of the token; without an answer every member counts one. -/
def getTotalEligibleWeight (C : Contracts W) (contract : Address) (s : State) (w : W) : I128 × W :=
  match s.governanceToken with
  | none => (ofU32 s.memberCount, w)
  | some token =>
    match C.tryCall contract token "total_supply" [] w with
    | (some (.i128 supply), w) => (supply, w)
    | (_, w) => (ofU32 s.memberCount, w)

def propose (C : Contracts W) (e : Env contract) (s : State) (proposer : Address)
    (title description : String) (actions : List GovernanceAction) (allowPartialExecution : Bool)
    (w : W) : Result (UInt64 × State × W) := do
  s.requireMember e proposer
  let proposalId := s.proposalCount + 1
  ensure (s.activeProposals.length < s.config.maxActiveProposals.toNat) "too many active proposals"
  ensure (title ≠ "") "title must not be empty"
  let (totalEligibleWeight, w) := s.getTotalEligibleWeight C contract w
  let proposal : Proposal := {
    id := proposalId
    proposer, title, description, actions, allowPartialExecution, totalEligibleWeight
    eligibleVoters := s.memberCount
    createdAt := e.timestamp
    votingEndsAt := e.timestamp + s.config.votingPeriod }
  return (proposalId, { s.saveProposal proposalId proposal with
    activeProposals := s.activeProposals ++ [proposalId]
    proposalCount := proposalId }, w)

/-- Whether enough weight, or without a token enough votes, has been cast. -/
def reachesQuorum (s : State) (p : Proposal) : Bool :=
  if s.governanceToken.isSome = true then
    decide (p.quorumWeight s.config ≤ p.votesForWeight + p.votesAgainstWeight)
  else
    decide (p.quorumCount s.config s.memberCount ≤ (p.votesFor + p.votesAgainst).toUInt64)

def approves (s : State) (p : Proposal) : Bool :=
  if s.governanceToken.isSome = true then p.approvedByWeight s.config
  else p.approvedByCount s.config

def resolve (s : State) (timestamp : UInt64) (proposalId : UInt64) (p : Proposal) : State :=
  if s.reachesQuorum p = true then
    if s.approves p = true then
      s.saveProposal proposalId { p with
        status := .approved
        timelockEndsAt := timestamp + s.config.timelockDuration }
    else (s.saveProposal proposalId { p with status := .rejected }).removeFromActive proposalId
  else s

/-- The weight of a voter is its balance at the time of the vote. -/
def vote (C : Contracts W) (e : Env contract) (s : State) (voter : Address) (proposalId : UInt64)
    (approve : Bool) (w : W) : Result (State × W) := do
  s.requireMember e voter
  let proposal ← s.expectProposal proposalId
  let proposal := proposal.activate
  ensure (proposal.status = .active) "proposal already resolved"
  ensure (s.hasVoted (proposalId, voter) = false) "already voted"
  ensure (e.timestamp ≤ proposal.votingEndsAt) "voting period ended"
  let (weight, w) := s.getVoterVotingWeight C contract voter w
  let proposal := proposal.cast approve weight
  let s := { s.saveProposal proposalId proposal with
    hasVoted := update s.hasVoted (proposalId, voter) true }
  return (s.resolve e.timestamp proposalId proposal, w)

/-- Pause or unpause every registered token and oracle; a clean sweep is recorded. -/
def switchAll (C : Contracts W) (contract : Address) (function : String) (paused : Bool) (s : State)
    (bestEffort : Bool) (w : W) : Result (Bool × State × W) := do
  let args : List Val := [.address contract]
  let (tokensOk, w) ← C.dispatchEach contract function args bestEffort s.registeredTokens w
  let (oraclesOk, w) ← C.dispatchEach contract function args bestEffort s.registeredOracles w
  if (tokensOk && oraclesOk) = true then return (true, { s with protocolPaused := paused }, w)
  else return (false, s, w)

def pauseAll (C : Contracts W) (contract : Address) (s : State) (bestEffort : Bool) (w : W) :
    Result (Bool × State × W) :=
  s.switchAll C contract "pause" true bestEffort w

def unpauseAll (C : Contracts W) (contract : Address) (s : State) (bestEffort : Bool) (w : W) :
    Result (Bool × State × W) :=
  s.switchAll C contract "unpause" false bestEffort w

def dispatchAction (C : Contracts W) (contract : Address) (s : State) (action : GovernanceAction)
    (bestEffort : Bool) (w : W) : Result (Bool × State × W) :=
  match action.protocolAction with
  | .emergencyPause => s.pauseAll C contract bestEffort w
  | .emergencyUnpause => s.unpauseAll C contract bestEffort w
  | .none => do
    let (ok, w) ← C.dispatch contract action.target action.function action.args w bestEffort
    return (ok, s, w)

/-- Dispatch the actions in order and collect their outcomes. -/
def dispatchActions (C : Contracts W) (contract : Address) (bestEffort : Bool) :
    List GovernanceAction → State → W → Result (List Bool × State × W)
  | [], s, w => return ([], s, w)
  | action :: rest, s, w => do
    let (ok, s, w) ← s.dispatchAction C contract action bestEffort w
    let (results, s, w) ← dispatchActions C contract bestEffort rest s w
    return (ok :: results, s, w)

/-- The slot is freed before the actions run. -/
def execute (C : Contracts W) (e : Env contract) (s : State) (caller : Address)
    (proposalId : UInt64)
    (w : W) : Result (State × W) := do
  s.requireMember e caller
  let proposal ← s.expectProposal proposalId
  ensure (proposal.status = .approved) "proposal not approved"
  ensure (proposal.timelockEndsAt ≤ e.timestamp) "timelock not elapsed"
  let bestEffort := proposal.allowPartialExecution
  let (results, s, w) ←
    dispatchActions C contract bestEffort proposal.actions (s.removeFromActive proposalId) w
  let actionResults := if bestEffort = true then results else proposal.actionResults
  return (s.saveProposal proposalId { proposal with status := .executed, actionResults }, w)

def cancellable (s : State) (caller : Address) (status : ProposalStatus) : Bool :=
  if caller = s.admin then
    decide (status = .approved) || decide (status = .active) || decide (status = .pending)
  else decide (status = .active) || decide (status = .pending)

def cancelProposal (e : Env contract) (s : State) (caller : Address) (proposalId : UInt64) :
    Result State := do
  e.requireAuth caller
  let proposal ← s.expectProposal proposalId
  ensure (caller = s.admin ∨ caller = proposal.proposer) "unauthorized"
  ensure (s.cancellable caller proposal.status = true) "proposal not cancellable"
  return (s.saveProposal proposalId { proposal with status := .cancelled }).removeFromActive
    proposalId

/-- Open to anyone once the voting period is over. -/
def expireProposal (e : Env contract) (s : State) (proposalId : UInt64) : Result State := do
  let proposal ← s.expectProposal proposalId
  ensure (proposal.status = .active ∨ proposal.status = .pending) "proposal not active or pending"
  ensure (proposal.votingEndsAt < e.timestamp) "voting period has not ended"
  return (s.saveProposal proposalId { proposal with status := .expired }).removeFromActive
    proposalId

def updateConfig (e : Env contract) (s : State) (admin : Address) (config : GovernanceConfig) :
    Result State := do
  s.requireAdmin e admin
  validateConfig config
  return { s with config }

def transferAdmin (e : Env contract) (s : State) (admin newAdmin : Address) : Result State := do
  s.requireAdmin e admin
  return { s with admin := newAdmin }

def addMember (e : Env contract) (s : State) (admin newMember : Address) : Result State := do
  s.requireAdmin e admin
  ensure (s.member newMember = false) "already a member"
  return { s with member := update s.member newMember true, memberCount := s.memberCount + 1 }

def removeMember (e : Env contract) (s : State) (admin member : Address) : Result State := do
  s.requireAdmin e admin
  ensure (s.member member = true) "not a member"
  ensure (1 < s.memberCount) "cannot remove last member"
  return { s with member := update s.member member false, memberCount := s.memberCount - 1 }

def registerToken (e : Env contract) (s : State) (admin token : Address) : Result State := do
  s.requireAdmin e admin
  if token ∈ s.registeredTokens then return s
  else return { s with registeredTokens := s.registeredTokens ++ [token] }

def deregisterToken (e : Env contract) (s : State) (admin token : Address) : Result State := do
  s.requireAdmin e admin
  return { s with registeredTokens := s.registeredTokens.filter (· ≠ token) }

def registerOracle (e : Env contract) (s : State) (admin oracle : Address) : Result State := do
  s.requireAdmin e admin
  if oracle ∈ s.registeredOracles then return s
  else return { s with registeredOracles := s.registeredOracles ++ [oracle] }

def deregisterOracle (e : Env contract) (s : State) (admin oracle : Address) : Result State := do
  s.requireAdmin e admin
  return { s with registeredOracles := s.registeredOracles.filter (· ≠ oracle) }

def emergencyPause (C : Contracts W) (e : Env contract) (s : State) (admin : Address) (w : W) :
    Result (State × W) := do
  s.requireAdmin e admin
  let (_, s, w) ← s.pauseAll C contract false w
  return (s, w)

def emergencyUnpause (C : Contracts W) (e : Env contract) (s : State) (admin : Address) (w : W) :
    Result (State × W) := do
  s.requireAdmin e admin
  let (_, s, w) ← s.unpauseAll C contract false w
  return (s, w)

/-- The token must answer a query of its supply. -/
def setGovernanceToken (C : Contracts W) (e : Env contract) (s : State) (admin token : Address)
    (w : W) : Result (State × W) := do
  s.requireAdmin e admin
  match C.tryCall contract token "total_supply" [] w with
  | (some _, w) => return ({ s with governanceToken := some token }, w)
  | (none, _) => .error (.message "governance token contract call failed")

end State

/-- The state-changing entry points with their arguments. -/
inductive Call
  | initialise (admin : Address) (initialMembers : List Address)
  | propose (proposer : Address) (title description : String) (actions : List GovernanceAction)
      (allowPartialExecution : Bool)
  | vote (voter : Address) (proposalId : UInt64) (approve : Bool)
  | execute (caller : Address) (proposalId : UInt64)
  | cancelProposal (caller : Address) (proposalId : UInt64)
  | expireProposal (proposalId : UInt64)
  | updateConfig (admin : Address) (config : GovernanceConfig)
  | transferAdmin (admin newAdmin : Address)
  | addMember (admin newMember : Address)
  | removeMember (admin member : Address)
  | registerToken (admin token : Address)
  | deregisterToken (admin token : Address)
  | registerOracle (admin oracle : Address)
  | deregisterOracle (admin oracle : Address)
  | emergencyPause (admin : Address)
  | emergencyUnpause (admin : Address)
  | setGovernanceToken (admin token : Address)

/-- A call on the contract, or a change of the world outside it. -/
inductive Event (contract : Address) (W : Type)
  | call (e : Env contract) (c : Call)
  | outside (w : W)

/-- A call that leaves the outside world alone. -/
def within (w : W) (x : Result State) : Result (State × W) := do
  let s ← x
  return (s, w)

@[simp] theorem within_eq_ok {w w' : W} {x : Result State} {s' : State} :
    within w x = .ok (s', w') ↔ x = .ok s' ∧ w = w' := by
  simp [within]

/-- Drop the identifier of a new proposal. -/
def discard (x : Result (UInt64 × State × W)) : Result (State × W) := do
  let (_, s, w) ← x
  return (s, w)

def run (C : Contracts W) (e : Env contract) (s : State) (w : W) : Call → Result (State × W)
  | .initialise admin initialMembers =>
      within w (Governance.initialise (some s) admin initialMembers)
  | .propose proposer title description actions allowPartialExecution =>
      discard (s.propose C e proposer title description actions allowPartialExecution w)
  | .vote voter proposalId approve => s.vote C e voter proposalId approve w
  | .execute caller proposalId => s.execute C e caller proposalId w
  | .cancelProposal caller proposalId => within w (s.cancelProposal e caller proposalId)
  | .expireProposal proposalId => within w (s.expireProposal e proposalId)
  | .updateConfig admin config => within w (s.updateConfig e admin config)
  | .transferAdmin admin newAdmin => within w (s.transferAdmin e admin newAdmin)
  | .addMember admin newMember => within w (s.addMember e admin newMember)
  | .removeMember admin member => within w (s.removeMember e admin member)
  | .registerToken admin token => within w (s.registerToken e admin token)
  | .deregisterToken admin token => within w (s.deregisterToken e admin token)
  | .registerOracle admin oracle => within w (s.registerOracle e admin oracle)
  | .deregisterOracle admin oracle => within w (s.deregisterOracle e admin oracle)
  | .emergencyPause admin => s.emergencyPause C e admin w
  | .emergencyUnpause admin => s.emergencyUnpause C e admin w
  | .setGovernanceToken admin token => s.setGovernanceToken C e admin token w

def step (C : Contracts W) : Event contract W → State × W → Result (State × W)
  | .call e c, (s, w) => run C e s w c
  | .outside w', (s, _) => .ok (s, w')

/-- A governance contract deployed at `contract`, from its initialisation on. -/
def machine (contract : Address) (C : Contracts W) :
    Machine (State × W) (Event contract W) Panic where
  init sw := ∃ (admin : Address) (initialMembers : List Address),
    Governance.initialise none admin initialMembers = .ok sw.1
  step := step C

end WaterCredits.Governance
