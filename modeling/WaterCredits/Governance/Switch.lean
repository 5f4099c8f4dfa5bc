import WaterCredits.Governance.Provenance

/-! # Switching the governance token

A vote is counted in the unit of the token in force at that moment. So a new
token changes the outcome of votes on proposals that exist already, unless no
further vote on them can be accepted, whoever joins the members in between.
-/

namespace WaterCredits.Governance

open Foundation Function

variable {contract : Address} {W : Type} {C : Contracts W} {e : Env contract} {s s' : State}
  {w w' : W} {id now : UInt64} {p q : Proposal} {token : Address}

def State.status (s : State) (id : UInt64) : Option ProposalStatus :=
  (s.proposal id).map Proposal.status

/-- No proposal of the sequence is made under an identifier that is in use. -/
def Unused (C : Contracts W) (id : UInt64) : State × W → List (Event contract W) → Prop
  | _, [] => True
  | sw, l :: ls => (proposing l = true → sw.1.proposalCount + 1 ≠ id) ∧
      Unused C id ((machine contract C).call sw l) ls

/-- The status in which an accepted vote leaves a proposal. -/
def reached (C : Contracts W) (e : Env contract) (voter : Address) (id : UInt64) (approve : Bool)
    (sw : State × W) : Option ProposalStatus :=
  ((machine contract C).step (.call e (.vote voter id approve)) sw).toOption.bind (·.1.status id)

/-- Asking a contract for its supply changes nothing. -/
def Quiet (C : Contracts W) (contract : Address) : Prop :=
  ∀ target w val w', C.invoke contract target "total_supply" [] w = .ok (val, w') → w' = w

/--
Every later vote on the proposal, after any calls, leaves the same status
whether `token` was made the governance token before these calls or not.
-/
def Unaffected (contract : Address) (s : State) (id now : UInt64) (token : Address) : Prop :=
  ∀ (W : Type) (C : Contracts W) (w : W), Quiet C contract →
    ∀ (e : Env contract) (admin : Address) (ls : List (Event contract W)),
      Unused C id (s, w) ls →
      Unused C id (s, w) (.call e (.setGovernanceToken admin token) :: ls) →
        ∀ (ballot : Env contract) (voter : Address) (approve : Bool), now ≤ ballot.timestamp →
          reached C ballot voter id approve ((machine contract C).calls (s, w)
              (.call e (.setGovernanceToken admin token) :: ls)) =
            reached C ballot voter id approve ((machine contract C).calls (s, w) ls)

/-- The proposal is open, and an address other than the contract has not voted on it. -/
def Votable (contract : Address) (s : State) (id now : UInt64) : Prop :=
  ∃ p voter, s.proposal id = some p ∧ (p.status = .pending ∨ p.status = .active) ∧
    now ≤ p.votingEndsAt ∧ s.hasVoted (id, voter) = false ∧ voter ≠ contract

/-- The admin can put another token in force. -/
def Switchable (contract : Address) (s : State) (token : Address) : Prop :=
  s.governanceToken ≠ some token ∧ token ≠ contract ∧ s.admin ≠ contract

theorem setGovernanceToken_eq (hq : Quiet C contract) {admin : Address}
    (h : s.setGovernanceToken C e admin token w = .ok (s', w')) :
    s' = { s with governanceToken := some token } ∧ w' = w ∧ token ≠ contract ∧
      s.admin ≠ contract := by
  simp only [State.setGovernanceToken, bind_eq_ok, State.requireAdmin_eq_ok] at h
  obtain ⟨_, ⟨hauth, rfl⟩, h⟩ := h
  unfold Contracts.tryCall Contracts.call at h
  by_cases ht : token = contract
  · rw [if_pos ht] at h
    cases h
  · rw [if_neg ht] at h
    cases hi : C.invoke contract token "total_supply" [] w with
    | error p =>
      rw [hi] at h
      cases h
    | ok x =>
      obtain ⟨val, v⟩ := x
      rw [hi] at h
      cases h
      exact ⟨rfl, hq _ _ _ _ hi, ht, e.ne_self hauth⟩

theorem switch_cases (hq : Quiet C contract) (s : State) (w : W) (e : Env contract)
    (admin token : Address) :
    (machine contract C).call (s, w) (.call e (.setGovernanceToken admin token)) = (s, w) ∨
      (machine contract C).call (s, w) (.call e (.setGovernanceToken admin token)) =
        ({ s with governanceToken := some token }, w) ∧ token ≠ contract ∧ s.admin ≠ contract := by
  rcases Machine.call_cases (m := machine contract C) (s, w)
    (.call e (.setGovernanceToken admin token)) with h | h
  · exact .inl h
  · generalize (machine contract C).call (s, w) (.call e (.setGovernanceToken admin token)) = x at *
    obtain ⟨s', w'⟩ := x
    obtain ⟨rfl, rfl, ht, ha⟩ := setGovernanceToken_eq hq h
    exact .inr ⟨rfl, ht, ha⟩

theorem run_hasVoted {c : Call} {x : UInt64 × Address} (h : run C e s w c = .ok (s', w'))
    (hx : s'.hasVoted x = false) : s.hasVoted x = false := by
  cases hc : c.balloting with
  | false =>
    have hsame : s'.hasVoted = s.hasVoted := congrArg Ballots.hasVoted (run_ballots hc h)
    rwa [← hsame]
  | true =>
    cases c <;> simp only [Call.balloting, Bool.false_eq_true] at hc
    case propose => exact (propose_cases h).2.1 ▸ hx
    case setGovernanceToken => exact (setGovernanceToken_cases h).2.1 ▸ hx
    case vote =>
      obtain ⟨t, -, -, -, hv, -⟩ := vote_cases h
      rw [hv, update_apply] at hx
      split at hx
      · cases hx
      · exact hx

theorem Moves.open_before {a b : ProposalStatus} (h : Moves a b) (hb : b = .pending ∨ b = .active) :
    a = .pending ∨ a = .active := by
  cases h with
  | activate => exact .inl rfl
  | resolve ha _ => exact ha
  | execute => exact absurd hb (by decide)
  | cancel => exact absurd hb (by decide)

/-- A proposal that is open after a call was open before it, until the same time. -/
theorem open_before {c : Call} (h : run C e s w c = .ok (s', w')) (hq : s'.proposal id = some q)
    (hopen : q.status = .pending ∨ q.status = .active)
    (hfresh : c.proposes = true → s.proposalCount + 1 ≠ id) :
    ∃ p, s.proposal id = some p ∧ (p.status = .pending ∨ p.status = .active) ∧
      p.votingEndsAt = q.votingEndsAt := by
  cases run_progress h with
  | @opens p hc ho =>
    have hsame : s'.proposal = update s.proposal (s.proposalCount + 1) (some p) :=
      congrArg Prod.fst ho.agenda
    rw [hsame, update_of_ne (hfresh hc).symm] at hq
    exact ⟨q, hq, hopen, rfl⟩
  | rests _ ha _ =>
    have hsame : s'.proposal = s.proposal := congrArg Prod.fst ha
    exact ⟨q, hsame ▸ hq, hopen, rfl⟩
  | @advance i p r hc ha =>
    by_cases hid : id = i
    · subst hid
      have hr := hq
      rw [ha.saved, update_self] at hr
      obtain rfl := Option.some.inj hr
      refine ⟨p, ha.stored, ?_, ?_⟩
      · rcases ha.moves with hsame | hmoves
        · exact hsame ▸ hopen
        · exact hmoves.open_before hopen
      · cases run_fate h hq with
        | kept hp => rw [Option.some.inj (ha.stored.symm.trans hp)]
        | made hmade =>
          obtain ⟨_, hlabel, -⟩ := (hmade (s, w)).call
          cases hlabel
          cases hc
        | moved hp hterms =>
          cases ha.stored.symm.trans hp
          exact (congrArg Proposal.votingEndsAt hterms).symm
        | executed _ _ hs => rcases hopen with hs' | hs' <;> cases hs'.symm.trans hs
    · rw [ha.saved, update_of_ne hid] at hq
      exact ⟨q, hq, hopen, rfl⟩

theorem votable_before {l : Event contract W} {sw sw' : State × W}
    (hfresh : proposing l = true → sw.1.proposalCount + 1 ≠ id)
    (h : (machine contract C).step l sw = .ok sw') (hv : Votable contract sw'.1 id now) :
    Votable contract sw.1 id now := by
  obtain ⟨q, voter, hq, hopen, htime, hnew, hne⟩ := hv
  cases l with
  | outside v =>
    cases h
    exact ⟨q, voter, hq, hopen, htime, hnew, hne⟩
  | call e c =>
    obtain ⟨p, hp, hopen', hends⟩ := open_before h hq hopen hfresh
    exact ⟨p, voter, hp, hopen', hends ▸ htime, run_hasVoted h hnew, hne⟩

/-- Where nobody can vote any more, no calls change that. -/
theorem calls_votable {ls : List (Event contract W)} {sw : State × W} (hu : Unused C id sw ls)
    (hv : Votable contract ((machine contract C).calls sw ls).1 id now) :
    Votable contract sw.1 id now := by
  induction ls generalizing sw with
  | nil => exact hv
  | cons l ls ih =>
    obtain ⟨hfresh, hu⟩ := hu
    have hv' : Votable contract ((machine contract C).call sw l).1 id now := ih hu hv
    rcases Machine.call_cases (m := machine contract C) sw l with h | h
    · exact h ▸ hv'
    · exact votable_before hfresh h hv'

theorem reached_unvotable {sw : State × W} (hn : ¬ Votable contract sw.1 id now) {voter : Address}
    {approve : Bool} (hnow : now ≤ e.timestamp) : reached C e voter id approve sw = none := by
  unfold reached
  cases h : (machine contract C).step (.call e (.vote voter id approve)) sw with
  | error err => rfl
  | ok sw' =>
    obtain ⟨p, hmay, -⟩ := vote_eq_ok.mp h
    exact absurd ⟨p, voter, hmay.stored, hmay.live, UInt64.le_trans hnow hmay.inTime, hmay.fresh,
      e.ne_self hmay.auth⟩ hn

/-- The status that a vote leaves behind. -/
def State.verdict (s : State) (q : Proposal) : ProposalStatus :=
  if s.reachesQuorum q = true then if s.approves q = true then .approved else .rejected
  else .active

theorem vote_status {voter : Address} (h : s.MayVote e voter id p) :
    reached C e voter id true (s, w) =
      some (s.verdict (p.activate.cast true (s.getVoterVotingWeight C contract voter w).1)) := by
  have hcast : (p.activate.cast true (s.getVoterVotingWeight C contract voter w).1).status =
    .active := status_activate.mpr h.live
  have hstep : (machine contract C).step (.call e (.vote voter id true)) (s, w) = .ok _ :=
    vote_eq_ok.mpr ⟨p, h, rfl, rfl⟩
  generalize p.activate.cast true (s.getVoterVotingWeight C contract voter w).1 = q at hcast hstep ⊢
  set t := s.recordVote voter id q with ht
  have hverdict : s.verdict q = t.verdict q := rfl
  have hreached : reached C e voter id true (s, w) = (t.resolve e.timestamp id q).status id := by
    unfold reached
    rw [hstep]
    rfl
  rw [hreached, hverdict]
  unfold State.resolve State.verdict
  split
  · split
    · simp [State.status, State.saveProposal]
    · simp [State.status, State.saveProposal, State.removeFromActive]
  · simp [State.status, ht, recordVote_self, hcast]

theorem verdict_free (ht : s.governanceToken.isSome = true) (q : Proposal)
    (x : ProposalStatus) : ∃ n, s.verdict (q.cast true n) ≠ x := by
  have hcast (n : I128) : s.reachesQuorum (q.cast true n) =
      decide (q.quorumWeight s.config ≤ q.votesForWeight + n + q.votesAgainstWeight) := by
    unfold State.reachesQuorum
    rw [if_pos ht]
    rfl
  by_cases hx : x = .active
  · obtain ⟨n, hn⟩ := I128.exists_add_eq q.votesForWeight q.votesAgainstWeight I128.MAX
    refine ⟨n, ?_⟩
    have hle : (q.quorumWeight s.config).val ≤ 2 ^ 127 - 1 := by
      have hlt := (q.quorumWeight s.config).val_lt
      omega
    have hreach : s.reachesQuorum (q.cast true n) = true := by
      rw [hcast, hn]
      exact decide_eq_true hle
    unfold State.verdict
    rw [if_pos hreach, hx]
    split <;> exact ProposalStatus.noConfusion
  · obtain ⟨n, hn⟩ := I128.exists_add_eq q.votesForWeight q.votesAgainstWeight
      ⟨-2 ^ 127, le_rfl, by norm_num⟩
    refine ⟨n, ?_⟩
    have hgt : -2 ^ 127 < (q.quorumWeight s.config).val := by
      unfold Proposal.quorumWeight
      split
      · exact I128.neg_lt_val_div _ (by decide)
      · decide
    have hreach : ¬ s.reachesQuorum (q.cast true n) = true := by
      rw [hcast, hn, decide_eq_true_eq]
      exact not_le.mpr hgt
    unfold State.verdict
    rw [if_neg hreach]
    exact Ne.symm hx

/-- A token at `token` that reports one balance for everybody. -/
def flatToken (token : Address) (n : I128) : Contracts Unit where
  invoke _ target function _ _ :=
    if target = token then
      if function = "total_supply" then .ok (.i128 0, ()) else .ok (.i128 n, ())
    else .error .invokeFailed

theorem flatToken_weight {n : I128} (ht : token ≠ contract) (hs : s.governanceToken = some token)
    (voter : Address) :
    (s.getVoterVotingWeight (flatToken token n) contract voter ()).1 = n := by
  simp [State.getVoterVotingWeight, hs, Contracts.tryCall, Contracts.call, ht, flatToken]

theorem flatToken_other {n : I128} (hs : s.governanceToken ≠ some token) (voter : Address) :
    (s.getVoterVotingWeight (flatToken token n) contract voter ()).1 = 0 := by
  unfold State.getVoterVotingWeight
  cases hg : s.governanceToken with
  | none => rfl
  | some other =>
    have hne : other ≠ token := fun he => hs (he ▸ hg)
    by_cases hc : other = contract
    · simp [Contracts.tryCall, Contracts.call, hc]
    · simp [Contracts.tryCall, Contracts.call, hc, flatToken, hne]

theorem flatToken_switch {n : I128} (ht : token ≠ contract) (ha : e.auth s.admin = true) :
    (machine contract (flatToken token n)).call (s, ())
    (.call e (.setGovernanceToken s.admin token))
      = ({ s with governanceToken := some token }, ()) := by
  have hstep : s.setGovernanceToken (flatToken token n) e s.admin token () =
      .ok ({ s with governanceToken := some token }, ()) := by
    have hr : s.requireAdmin e s.admin = .ok () := State.requireAdmin_eq_ok.mpr ⟨ha, rfl⟩
    simp [State.setGovernanceToken, hr, Contracts.tryCall, Contracts.call, ht, flatToken, bind,
      Except.bind, pure, Except.pure]
  exact Machine.call_of_ok hstep

theorem addMember_eq_ok {admin newMember : Address} : s.addMember e admin newMember = .ok s' ↔
    (e.auth admin = true ∧ admin = s.admin) ∧ s.member newMember = false ∧
      { s with
        member := update s.member newMember true
        memberCount := s.memberCount + 1 } = s' := by
  simp [State.addMember, State.requireAdmin_eq_ok]

/-- A call that makes a voter a member, unless it is one. -/
def enrolling (s : State) (now : UInt64) (ha : s.admin ≠ contract) (voter : Address) :
    List (Event contract Unit) :=
  if s.member voter = true then []
  else [.call (.signed now 0 s.admin ha) (.addMember s.admin voter)]

def State.enrolled (s : State) (voter : Address) : State :=
  if s.member voter = true then s
  else { s with member := update s.member voter true, memberCount := s.memberCount + 1 }

@[simp] theorem enrolled_member (voter : Address) : (s.enrolled voter).member voter = true := by
  unfold State.enrolled
  split
  · assumption
  · exact update_self ..

@[simp] theorem enrolled_agenda (voter : Address) : (s.enrolled voter).agenda = s.agenda := by
  unfold State.enrolled
  split <;> rfl

@[simp] theorem enrolled_ballots (voter : Address) :
    (s.enrolled voter).ballots = s.ballots := by
  unfold State.enrolled
  split <;> rfl

theorem calls_enrolling {C : Contracts Unit} (ha : s.admin ≠ contract) (voter : Address)
    (t : Option Address) :
    (machine contract C).calls ({ s with governanceToken := t }, ())
      (enrolling s now ha voter) = ({ s.enrolled voter with governanceToken := t }, ()) := by
  unfold enrolling State.enrolled
  by_cases hm : s.member voter = true
  · rw [if_pos hm, if_pos hm]
    rfl
  · rw [if_neg hm, if_neg hm]
    have hstep : (machine contract C).step
        (.call (.signed now 0 s.admin ha) (.addMember s.admin voter))
          ({ s with governanceToken := t }, ()) = .ok _ :=
      within_eq_ok.mpr ⟨addMember_eq_ok.mpr ⟨⟨by simp [Env.signed], rfl⟩, by simpa using hm, rfl⟩,
        rfl⟩
    exact Machine.call_of_ok hstep

theorem unused_enrolling {C : Contracts Unit} {sw : State × Unit} {ha : s.admin ≠ contract}
    {voter : Address} : Unused C id sw (enrolling s now ha voter) := by
  unfold enrolling
  split
  · trivial
  · exact ⟨by simp [proposing, Call.proposes], trivial⟩

theorem mayVote_enrolled {voter : Address} (hv : voter ≠ contract) (hp : s.proposal id = some p)
    (hopen : p.status = .pending ∨ p.status = .active) (htime : now ≤ p.votingEndsAt)
    (hnew : s.hasVoted (id, voter) = false) (t : Option Address) :
    ({ s.enrolled voter with governanceToken := t } : State).MayVote
      (Env.signed now 0 voter hv) voter id p where
  auth := by simp [Env.signed]
  member := enrolled_member voter
  stored := (congrFun (congrArg Prod.fst (enrolled_agenda voter)) id).trans hp
  live := hopen
  fresh := (congrFun (congrArg Ballots.hasVoted (enrolled_ballots voter)) (id, voter)).trans hnew
  inTime := htime

/-- After the switch the voter is enrolled under the new token. -/
theorem calls_switch_enrolling {n : I128} (ht : token ≠ contract) (ha : s.admin ≠ contract)
    (voter : Address) :
    (machine contract (flatToken token n)).calls (s, ())
        (.call (.signed now 0 s.admin ha) (.setGovernanceToken s.admin token) ::
          enrolling s now ha voter) =
      ({ s.enrolled voter with governanceToken := some token }, ()) :=
  calc
    _ = (machine contract (flatToken token n)).calls
          ({ s with governanceToken := some token }, ()) (enrolling s now ha voter) :=
      congrArg ((machine contract (flatToken token n)).calls · _)
        (flatToken_switch ht (by simp [Env.signed]))
    _ = _ := calls_enrolling ha voter (some token)

/-- A flat token of the right balance decides the vote of somebody who joins. -/
theorem affected_of_votable (hs : Switchable contract s token)
    (hv : Votable contract s id now) : ¬ Unaffected contract s id now token := by
  intro h
  obtain ⟨hne, ht, ha⟩ := hs
  obtain ⟨p, voter, hp, hopen, htime, hnew, hv⟩ := hv
  set before : State := { s.enrolled voter with governanceToken := s.governanceToken }
  set after : State := { s.enrolled voter with governanceToken := some token }
  obtain ⟨n, hn⟩ := verdict_free (s := after) rfl p.activate
    (before.verdict (p.activate.cast true 0))
  have hmay := mayVote_enrolled hv hp hopen htime hnew
  have hall := h Unit (flatToken token n) () (fun _ _ _ _ _ => rfl) (.signed now 0 s.admin ha)
    s.admin (enrolling s now ha voter) unused_enrolling
    ⟨by simp [proposing, Call.proposes], unused_enrolling⟩ (.signed now 0 voter hv) voter true
    (UInt64.le_refl _)
  have hstay : (machine contract (flatToken token n)).calls (s, ()) (enrolling s now ha voter) =
      (before, ()) :=
    calls_enrolling ha voter s.governanceToken
  rw [calls_switch_enrolling ht ha, hstay, vote_status (hmay _), vote_status (hmay _),
    flatToken_weight (s := after) ht rfl, flatToken_other (s := before) hne] at hall
  exact hn (Option.some.inj hall)

/--
A switch affects a proposal exactly if it puts another token in force while a
vote on the proposal can still be accepted.
-/
theorem unaffected_iff :
    Unaffected contract s id now token ↔
      ¬ (Switchable contract s token ∧ Votable contract s id now) := by
  constructor
  · exact fun h hv => affected_of_votable hv.1 hv.2 h
  · intro hno W C w hq e admin ls hu hu' ballot voter approve hnow
    obtain ⟨-, hu'⟩ := hu'
    have hcons : (machine contract C).calls (s, w)
        (.call e (.setGovernanceToken admin token) :: ls) =
        (machine contract C).calls
          ((machine contract C).call (s, w) (.call e (.setGovernanceToken admin token))) ls := rfl
    rw [hcons]
    rcases switch_cases hq s w e admin token with hsame | ⟨hset, ht, ha⟩
    · rw [hsame]
    · rw [hset] at hu' ⊢
      by_cases hs : s.governanceToken = some token
      · rw [← hs]
      · have hn : ¬ Votable contract s id now := fun hv => hno ⟨⟨hs, ht, ha⟩, hv⟩
        have hn' : ¬ Votable contract { s with governanceToken := some token } id now := hn
        rw [reached_unvotable (fun hv => hn' (calls_votable hu' hv)) hnow,
          reached_unvotable (fun hv => hn (calls_votable hu hv)) hnow]

section Sample

open Token (Ledger)

/-- A proposal made while members still count one each. -/
def tabled : State × Ledger :=
  councilMachine.calls founded [calledBy 1 (.propose (.account 1) "fees" "" [] false)]

/-- The admin turns to the credit token. -/
def switch : Event council Ledger := calledBy 0 (.setGovernanceToken (.account 0) Token.home)

def ballot : Event council Ledger := calledBy 1 (.vote (.account 1) 1 true)

/-- Forty units of one member outweigh a quorum that was set in members. -/
theorem switch_decides_proposal : councilMachine.Reachable tabled ∧
    Quiet (creditContracts Token.home) council ∧
    (councilMachine.calls tabled [ballot]).1.status 1 = some .active ∧
    (councilMachine.calls tabled [switch, ballot]).1.status 1 = some .approved := by
  have hfounded : councilMachine.Reachable founded :=
    ⟨_, .init ⟨.account 0, [.account 1, .account 2, .account 3], by rfl⟩⟩
  refine ⟨hfounded.calls _, ?_, by rfl, by rfl⟩
  intro target w val w' h
  simp only [creditContracts] at h
  split at h
  · cases h
    rfl
  · cases h

end Sample

end WaterCredits.Governance
