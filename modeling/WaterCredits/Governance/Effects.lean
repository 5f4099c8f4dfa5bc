import WaterCredits.Governance.Calls

/-! # What the calls do to ballots

The weights of the proposals, the marks of the voters and the governance token
are one view of the state. A proposal, a vote and a new token change it; every
other call keeps it.
-/

namespace WaterCredits.Governance

open Foundation Function

variable {contract : Address} {W : Type} {C : Contracts W} {e : Env contract} {s s' : State}
  {w w' : W} {id : UInt64} {p q : Proposal}

/-- The weights of a proposal. -/
structure Tally where
  eligible : I128
  votesFor : I128
  votesAgainst : I128

def Tally.cast (t : Tally) (approve : Bool) (weight : I128) : Tally :=
  if approve = true then { t with votesFor := t.votesFor + weight }
  else { t with votesAgainst := t.votesAgainst + weight }

def Proposal.tally (p : Proposal) : Tally where
  eligible := p.totalEligibleWeight
  votesFor := p.votesForWeight
  votesAgainst := p.votesAgainstWeight

theorem tally_activate : p.activate.tally = p.tally := by
  unfold Proposal.activate
  split <;> rfl

theorem tally_cast {approve : Bool} {weight : I128} :
    (p.cast approve weight).tally = p.tally.cast approve weight := by
  unfold Proposal.cast Tally.cast
  split <;> rfl

/-- The storage that decides and records what votes weigh. -/
@[ext] structure Ballots where
  governanceToken : Option Address
  tally : UInt64 → Option Tally
  hasVoted : UInt64 × Address → Bool

namespace State

def tally (s : State) (id : UInt64) : Option Tally := (s.proposal id).map Proposal.tally

def ballots (s : State) : Ballots where
  governanceToken := s.governanceToken
  tally := s.tally
  hasVoted := s.hasVoted

end State

theorem tally_save : (s.saveProposal id p).tally = update s.tally id (some p.tally) := by
  ext i
  simp only [State.tally, State.saveProposal, update_apply]
  split <;> rfl

def Proposal.blank (p : Proposal) : Proposal :=
  { p with status := .pending, timelockEndsAt := 0, actionResults := [] }

/-- The storage that votes are counted in, with proposals up to their progress. -/
@[ext] structure Polls where
  governanceToken : Option Address
  paper : UInt64 → Option Proposal
  hasVoted : UInt64 × Address → Bool
  member : Address → Bool
  memberCount : UInt32

def State.polls (s : State) : Polls where
  governanceToken := s.governanceToken
  paper := fun id => (s.proposal id).map Proposal.blank
  hasVoted := s.hasVoted
  member := s.member
  memberCount := s.memberCount

theorem ballots_congr (h : s'.polls = s.polls) : s'.ballots = s.ballots := by
  have htally (t : State) : t.tally = fun id => (t.polls.paper id).map Proposal.tally := by
    ext id
    simp only [State.tally, State.polls, Option.map_map]
    rfl
  refine Ballots.ext (congrArg Polls.governanceToken h) ?_ (congrArg Polls.hasVoted h)
  have hpaper := congrArg Polls.paper h
  simp only [State.ballots, htally, hpaper]

theorem polls_resave (h : s.proposal id = some p) (hq : q.blank = p.blank) :
    (s.saveProposal id q).polls = s.polls := by
  refine Polls.ext rfl ?_ rfl rfl rfl
  funext i
  simp only [State.polls, State.saveProposal, update_apply]
  split
  · rename_i hi
    rw [hi, h]
    exact congrArg some hq
  · rfl

theorem polls_resolve (timestamp : UInt64) (h : s.proposal id = some p) :
    (s.resolve timestamp id p).polls = s.polls := by
  unfold State.resolve
  split
  · split
    · exact polls_resave h rfl
    · have hb := polls_resave (q := { p with status := .rejected }) h rfl
      exact hb
  · rfl

section Dispatch

variable {bestEffort : Bool}

theorem switchAll_frame {function : String} {paused ok : Bool}
    (h : s.switchAll C contract function paused bestEffort w = .ok (ok, s', w')) :
    s' = { s with protocolPaused := s'.protocolPaused } := by
  simp only [State.switchAll, bind_eq_ok] at h
  obtain ⟨⟨tokensOk, w₁⟩, -, ⟨oraclesOk, w₂⟩, -, h⟩ := h
  split at h <;> cases h <;> rfl

theorem dispatchAction_frame {action : GovernanceAction} {ok : Bool}
    (h : s.dispatchAction C contract action bestEffort w = .ok (ok, s', w')) :
    s' = { s with protocolPaused := s'.protocolPaused } := by
  unfold State.dispatchAction at h
  split at h
  · exact switchAll_frame h
  · exact switchAll_frame h
  · simp only [bind_eq_ok, pure_eq_ok] at h
    obtain ⟨⟨ok', w₁⟩, -, heq⟩ := h
    cases heq
    rfl

theorem dispatchActions_frame {actions : List GovernanceAction} {results : List Bool}
    (h : State.dispatchActions C contract bestEffort actions s w = .ok (results, s', w')) :
    s' = { s with protocolPaused := s'.protocolPaused } := by
  induction actions generalizing s w results with
  | nil =>
    simp only [State.dispatchActions, pure_eq_ok] at h
    cases h
    rfl
  | cons action rest ih =>
    simp only [State.dispatchActions, bind_eq_ok, pure_eq_ok] at h
    obtain ⟨⟨ok, s₁, w₁⟩, h1, ⟨results', s₂, w₂⟩, h2, heq⟩ := h
    cases heq
    have ht := ih h2
    rw [dispatchAction_frame h1] at ht
    exact ht

end Dispatch

theorem propose_cases {proposer : Address} {title description : String}
    {actions : List GovernanceAction} {allowPartialExecution : Bool}
    (h : run C e s w (.propose proposer title description actions allowPartialExecution) =
      .ok (s', w')) :
    s'.governanceToken = s.governanceToken ∧ s'.hasVoted = s.hasVoted ∧
      s'.tally = update s.tally (s.proposalCount + 1)
        (some ⟨(s.getTotalEligibleWeight C contract w).1, 0, 0⟩) := by
  simp only [run, discard, State.propose, bind_eq_ok, pure_eq_ok] at h
  obtain ⟨⟨id, s₁, w₁⟩, ⟨_, -, _, -, _, -, hid⟩, heq⟩ := h
  cases heq
  cases hid
  exact ⟨rfl, rfl, tally_save⟩

theorem vote_cases {voter : Address} {approve : Bool}
    (h : s.vote C e voter id approve w = .ok (s', w')) :
    ∃ t, s.tally id = some t ∧ s.hasVoted (id, voter) = false ∧
      s'.governanceToken = s.governanceToken ∧
      s'.hasVoted = update s.hasVoted (id, voter) true ∧
      s'.tally = update s.tally id
        (some (t.cast approve (s.getVoterVotingWeight C contract voter w).1)) := by
  simp only [State.vote, bind_eq_ok, State.expectProposal_eq_ok, ensure_eq_ok, pure_eq_ok] at h
  obtain ⟨_, -, p, hp, _, -, _, hv, _, -, heq⟩ := h
  cases heq
  refine ⟨p.tally, congrArg (Option.map Proposal.tally) hp, hv, ?_⟩
  have ht : (p.activate.cast approve (s.getVoterVotingWeight C contract voter w).1).tally =
      p.tally.cast approve (s.getVoterVotingWeight C contract voter w).1 := by
    rw [tally_cast, tally_activate]
  generalize p.activate.cast approve (s.getVoterVotingWeight C contract voter w).1 = q at ht ⊢
  have hq : ({ s.saveProposal id q with
      hasVoted := update s.hasVoted (id, voter) true } : State).proposal id = some q := by
    simp [State.saveProposal]
  -- resolving the proposal leaves its weights and the marks alone
  have hb := ballots_congr (polls_resolve e.timestamp hq)
  refine ⟨congrArg Ballots.governanceToken hb, congrArg Ballots.hasVoted hb, ?_⟩
  rw [← ht]
  exact (congrArg Ballots.tally hb).trans tally_save

theorem setGovernanceToken_cases {admin token : Address}
    (h : s.setGovernanceToken C e admin token w = .ok (s', w')) :
    s'.governanceToken = some token ∧ s'.hasVoted = s.hasVoted ∧ s'.tally = s.tally := by
  simp only [State.setGovernanceToken, bind_eq_ok] at h
  obtain ⟨_, -, h⟩ := h
  split at h
  · cases h
    exact ⟨rfl, rfl, rfl⟩
  · cases h

def Call.balloting : Call → Bool
  | .propose .. | .vote .. | .setGovernanceToken .. => true
  | _ => false

/-- The calls that change what votes are counted from. -/
def Call.polling : Call → Bool
  | .propose .. | .vote .. | .setGovernanceToken .. | .addMember .. | .removeMember .. => true
  | _ => false

theorem execute_polls {caller : Address} (h : s.execute C e caller id w = .ok (s', w')) :
    s'.polls = s.polls := by
  simp only [State.execute, bind_eq_ok, State.expectProposal_eq_ok, pure_eq_ok] at h
  obtain ⟨_, -, p, hp, _, -, _, -, ⟨results, t, v⟩, hd, heq⟩ := h
  cases heq
  have hf := dispatchActions_frame hd
  have ht : t.proposal id = some p := by rw [hf]; exact hp
  have htb : t.polls = s.polls := by rw [hf]; rfl
  rw [← htb]
  exact polls_resave ht rfl

def Call.maintains : Call → Bool
  | .transferAdmin .. | .registerToken .. | .deregisterToken .. | .registerOracle ..
  | .deregisterOracle .. | .emergencyPause .. | .emergencyUnpause .. => true
  | _ => false

theorem run_maintains {c : Call} (hc : c.maintains = true)
    (h : run C e s w c = .ok (s', w')) :
    s' = { s with
      admin := s'.admin
      protocolPaused := s'.protocolPaused
      registeredTokens := s'.registeredTokens
      registeredOracles := s'.registeredOracles } := by
  cases c <;> simp only [Call.maintains, Bool.false_eq_true] at hc <;>
    simp only [run, within_eq_ok] at h
  case registerToken =>
    simp only [State.registerToken, bind_eq_ok] at h
    obtain ⟨⟨_, -, h⟩, -⟩ := h
    split at h <;> cases h <;> rfl
  case registerOracle =>
    simp only [State.registerOracle, bind_eq_ok] at h
    obtain ⟨⟨_, -, h⟩, -⟩ := h
    split at h <;> cases h <;> rfl
  case emergencyPause =>
    simp only [State.emergencyPause, bind_eq_ok, pure_eq_ok] at h
    obtain ⟨_, -, ⟨ok, t, v⟩, hs, heq⟩ := h
    cases heq
    rw [switchAll_frame hs]
  case emergencyUnpause =>
    simp only [State.emergencyUnpause, bind_eq_ok, pure_eq_ok] at h
    obtain ⟨_, -, ⟨ok, t, v⟩, hs, heq⟩ := h
    cases heq
    rw [switchAll_frame hs]
  all_goals
    simp only [State.transferAdmin, State.deregisterToken, State.deregisterOracle, bind_eq_ok,
      pure_eq_ok] at h
    obtain ⟨⟨_, -, rfl⟩, -⟩ := h
    rfl

theorem run_polls {c : Call} (hc : c.polling = false) (h : run C e s w c = .ok (s', w')) :
    s'.polls = s.polls := by
  by_cases hm : c.maintains = true
  · rw [run_maintains hm h]
    rfl
  cases c <;> simp only [Call.polling, Bool.true_eq_false] at hc <;>
    simp only [Call.maintains, not_true_eq_false] at hm <;> simp only [run, within_eq_ok] at h
  case initialise => simp [initialise] at h
  case execute => exact execute_polls h
  case cancelProposal =>
    simp only [State.cancelProposal, bind_eq_ok, State.expectProposal_eq_ok, pure_eq_ok] at h
    obtain ⟨⟨_, -, p, hp, _, -, _, -, rfl⟩, -⟩ := h
    have hb := polls_resave (q := { p with status := .cancelled }) hp rfl
    exact hb
  case expireProposal =>
    simp only [State.expireProposal, bind_eq_ok, State.expectProposal_eq_ok, pure_eq_ok] at h
    obtain ⟨⟨p, hp, _, -, _, -, rfl⟩, -⟩ := h
    have hb := polls_resave (q := { p with status := .expired }) hp rfl
    exact hb
  case updateConfig =>
    simp only [State.updateConfig, bind_eq_ok, pure_eq_ok] at h
    obtain ⟨⟨_, -, _, -, rfl⟩, -⟩ := h
    rfl

theorem addMember_cases {admin newMember : Address} (h : s.addMember e admin newMember = .ok s') :
    s.member newMember = false ∧
      s' = { s with
        member := update s.member newMember true
        memberCount := s.memberCount + 1 } := by
  simp only [State.addMember, bind_eq_ok, ensure_eq_ok, pure_eq_ok] at h
  obtain ⟨_, -, _, hm, rfl⟩ := h
  exact ⟨hm, rfl⟩

theorem removeMember_cases {admin member : Address} (h : s.removeMember e admin member = .ok s') :
    s.member member = true ∧ 1 < s.memberCount ∧
      s' = { s with
        member := update s.member member false
        memberCount := s.memberCount - 1 } := by
  simp only [State.removeMember, bind_eq_ok, ensure_eq_ok, pure_eq_ok] at h
  obtain ⟨_, -, _, hm, _, hc, rfl⟩ := h
  exact ⟨hm, hc, rfl⟩

theorem run_ballots {c : Call} (hc : c.balloting = false) (h : run C e s w c = .ok (s', w')) :
    s'.ballots = s.ballots := by
  cases c with
  | propose | vote | setGovernanceToken => cases hc
  | addMember =>
    obtain ⟨-, rfl⟩ := addMember_cases (within_eq_ok.mp h).1
    rfl
  | removeMember =>
    obtain ⟨-, -, rfl⟩ := removeMember_cases (within_eq_ok.mp h).1
    rfl
  | _ => exact ballots_congr (run_polls rfl h)

end WaterCredits.Governance
