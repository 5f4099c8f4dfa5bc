import WaterCredits.Foundation.Poll
import WaterCredits.Governance.Weight

/-! # When a vote resolves a proposal

Quorum and approval compare what is cast with shares of what is eligible. The
comparisons of the contract are the exact ones as long as its sums and products
stay in range. Those of weights are not checked: a product that wraps around
lets a single unit decide.
-/

namespace WaterCredits.Governance

open Foundation Function
open Token (Ledger)

variable {contract : Address} {W : Type} {C : Contracts W} {e : Env contract} {s s' : State}
  {w w' : W} {id : UInt64} {p q : Proposal} {voter : Address} {approve : Bool}
  {tr : Trace (State × W) (Event contract W)} {config : GovernanceConfig}

def Proposal.weightPoll (p : Proposal) : Poll where
  yes := p.votesForWeight.val
  no := p.votesAgainstWeight.val
  eligible := p.totalEligibleWeight.val

/-- The heads of the votes on a proposal; members that left lower what is eligible. -/
def Proposal.headPoll (p : Proposal) (memberCount : UInt32) : Poll where
  yes := p.votesFor.toNat
  no := p.votesAgainst.toNat
  eligible := min p.eligibleVoters.toNat memberCount.toNat

namespace State

/-- The votes on a proposal by the measure that decides: weight under a token, else heads. -/
def poll (s : State) (p : Proposal) : Poll :=
  if s.governanceToken.isSome = true then p.weightPoll else p.headPoll s.memberCount

/-- What the vote of a voter counts by that measure. -/
def worth (C : Contracts W) (contract : Address) (s : State) (voter : Address) (w : W) : ℤ :=
  if s.governanceToken.isSome = true then (s.getVoterVotingWeight C contract voter w).1.val else 1

/-- The votes on a proposal with one more, in unbounded integers. -/
def pollAfter (C : Contracts W) (contract : Address) (s : State) (p : Proposal) (voter : Address)
    (approve : Bool) (w : W) : Poll :=
  (s.poll p).add approve (s.worth C contract voter w)

/-- The sums and products by which a poll is decided stay in the range of their types. -/
def InRange (s : State) (k : Poll) : Prop :=
  if s.governanceToken.isSome = true then
    k.turnout < 2 ^ 127 ∧ k.eligible * s.config.quorumBps.toNat + 9999 < 2 ^ 127 ∧
      (k.Reached 10000 s.config.quorumBps.toNat → k.yes * 10000 < 2 ^ 127)
  else k.turnout < 2 ^ 32

end State

section Comparisons

theorem val_ten_thousand : (10000 : I128).val = 10000 := by decide

/-- The weighted quorum is the rounded share unless its numerator wraps. -/
theorem val_quorumWeight (h0 : 0 ≤ p.totalEligibleWeight.val)
    (h : p.totalEligibleWeight.val * config.quorumBps.toNat + 9999 < 2 ^ 127) :
    (p.quorumWeight config).val =
      (p.totalEligibleWeight.val * config.quorumBps.toNat + 10000 - 1) / 10000 := by
  have hx : 0 ≤ p.totalEligibleWeight.val * (config.quorumBps.toNat : ℤ) := by positivity
  have hone : (1 : I128).val = 1 := by decide
  unfold Proposal.quorumWeight
  split
  · have hmul : (p.totalEligibleWeight * ofU32 config.quorumBps).val =
        p.totalEligibleWeight.val * config.quorumBps.toNat := by
      rw [I128.val_mul, val_ofU32]
      rw [val_ofU32]
      exact ⟨by omega, by omega⟩
    have hnum : (p.totalEligibleWeight * ofU32 config.quorumBps + 10000 - 1).val =
        p.totalEligibleWeight.val * config.quorumBps.toNat + 10000 - 1 := by
      rw [I128.val_add_sub, hmul, val_ten_thousand, hone]
      rw [hmul, val_ten_thousand, hone]
      exact ⟨by omega, by omega⟩
    rw [I128.val_div_of_nonneg (by rw [hnum]; omega) (by decide), hnum, val_ten_thousand]
  · rename_i hpos
    have hzero : p.totalEligibleWeight.val = 0 := le_antisymm (not_lt.mp hpos) h0
    rw [hzero, zero_mul]
    rfl

theorem toNat_min (a b : UInt32) : (min a b).toNat = min a.toNat b.toNat := by
  have hmin : min a b = if a ≤ b then a else b := rfl
  rw [hmin, apply_ite UInt32.toNat, min_def]
  simp only [UInt32.le_iff_toNat_le]

/-- The quorum by head count fits 64 bits whatever the configuration. -/
theorem toNat_quorumCount (memberCount : UInt32) :
    (p.quorumCount config memberCount).toNat =
      (min p.eligibleVoters.toNat memberCount.toNat * config.quorumBps.toNat + 9999) / 10000 := by
  unfold Proposal.quorumCount
  rw [← toNat_min]
  generalize min p.eligibleVoters memberCount = n
  have hn := n.toNat_lt
  have hq := config.quorumBps.toNat_lt
  have hx : n.toNat * config.quorumBps.toNat ≤ (2 ^ 32 - 1) * (2 ^ 32 - 1) :=
    Nat.mul_le_mul (by omega) (by omega)
  simp only
  split
  · rename_i hzero
    simp [hzero]
  · simp only [UInt64.toNat_div, UInt64.toNat_sub, UInt64.toNat_add, UInt64.toNat_mul,
      UInt32.toNat_toUInt64, UInt64.toNat_ofNat]
    generalize n.toNat * config.quorumBps.toNat = x at hx
    norm_num at hx ⊢
    omega

theorem val_votes (h0 : p.weightPoll.Nonneg) (h : p.weightPoll.turnout < 2 ^ 127) :
    (p.votesForWeight + p.votesAgainstWeight).val = p.weightPoll.turnout := by
  have h0 : 0 ≤ p.votesForWeight.val + p.votesAgainstWeight.val := h0.turnout
  exact I128.val_add ⟨by omega, h⟩

theorem quorumWeight_le_iff (h0 : p.weightPoll.Nonneg) (ht : p.weightPoll.turnout < 2 ^ 127)
    (hq : p.weightPoll.eligible * config.quorumBps.toNat + 9999 < 2 ^ 127) :
    p.quorumWeight config ≤ p.votesForWeight + p.votesAgainstWeight ↔
      p.weightPoll.Reached 10000 config.quorumBps.toNat := by
  rw [← Poll.ceil_le_turnout_iff (by norm_num), I128.le_iff, val_quorumWeight h0.eligible hq,
    val_votes h0 ht]
  rfl

theorem approvedByWeight_iff (h0 : p.weightPoll.Nonneg) (ht : p.weightPoll.turnout < 2 ^ 127)
    (hp : p.weightPoll.yes * 10000 < 2 ^ 127) :
    p.approvedByWeight config = true ↔
      p.weightPoll.Carried 10000 config.approvalThresholdBps.toNat := by
  have hyes : 0 ≤ p.votesForWeight.val := h0.yes
  have hp : p.votesForWeight.val * 10000 < 2 ^ 127 := hp
  have hmul : (p.votesForWeight * 10000).val = p.votesForWeight.val * 10000 := by
    rw [I128.val_mul, val_ten_thousand]
    rw [val_ten_thousand]
    exact ⟨by omega, by omega⟩
  unfold Proposal.approvedByWeight
  simp only [Bool.and_eq_true, decide_eq_true_eq, I128.lt_iff, I128.le_iff, val_votes h0 ht,
    I128.val_zero, val_ofU32]
  by_cases hpos : 0 < p.weightPoll.turnout
  · rw [and_iff_right hpos, I128.val_div_of_nonneg (by rw [hmul]; omega) (by rwa [val_votes h0 ht]),
      hmul, val_votes h0 ht]
    exact Poll.le_share_iff hpos
  · exact iff_of_false (fun h => hpos h.1) fun h => hpos h.1

theorem toNat_votes {memberCount : UInt32} (h : (p.headPoll memberCount).turnout < 2 ^ 32) :
    (p.votesFor + p.votesAgainst).toNat = p.votesFor.toNat + p.votesAgainst.toNat := by
  have h : (p.votesFor.toNat : ℤ) + p.votesAgainst.toNat < 2 ^ 32 := h
  rw [UInt32.toNat_add, Nat.mod_eq_of_lt (by omega)]

theorem turnout_headPoll {memberCount : UInt32} :
    (p.headPoll memberCount).turnout = (p.votesFor.toNat + p.votesAgainst.toNat : ℕ) :=
  (Nat.cast_add ..).symm

theorem quorumCount_le_iff {memberCount : UInt32}
    (h : (p.headPoll memberCount).turnout < 2 ^ 32) :
    p.quorumCount config memberCount ≤ (p.votesFor + p.votesAgainst).toUInt64 ↔
      (p.headPoll memberCount).Reached 10000 config.quorumBps.toNat := by
  rw [← Poll.ceil_le_turnout_iff (by norm_num), UInt64.le_iff_toNat_le, toNat_quorumCount,
    UInt32.toNat_toUInt64, toNat_votes h, turnout_headPoll]
  have heligible : (p.headPoll memberCount).eligible =
      (min p.eligibleVoters.toNat memberCount.toNat : ℕ) := (Nat.cast_min ..).symm
  rw [heligible, ← Nat.cast_mul]
  omega

theorem approvedByCount_iff {memberCount : UInt32}
    (h : (p.headPoll memberCount).turnout < 2 ^ 32) :
    p.approvedByCount config = true ↔
      (p.headPoll memberCount).Carried 10000 config.approvalThresholdBps.toNat := by
  have hle := p.votesFor.toNat_lt
  unfold Proposal.approvedByCount
  simp only [Bool.and_eq_true, decide_eq_true_eq, UInt32.lt_iff_toNat_lt, UInt64.le_iff_toNat_le,
    UInt64.toNat_div, UInt64.toNat_mul, UInt32.toNat_toUInt64, toNat_votes h]
  by_cases hpos : 0 < p.votesFor.toNat + p.votesAgainst.toNat
  · have hturnout : 0 < (p.headPoll memberCount).turnout := by
      rw [turnout_headPoll]
      exact_mod_cast hpos
    have hten : (10000 : UInt64).toNat = 10000 := by decide
    have hmod : p.votesFor.toNat * (10000 : UInt64).toNat % 2 ^ 64 = p.votesFor.toNat * 10000 := by
      rw [hten, Nat.mod_eq_of_lt (by omega)]
    rw [← Poll.le_share_iff hturnout, turnout_headPoll, hmod]
    simp only [UInt32.toNat_zero, hpos, true_and]
    exact Nat.cast_le.symm
  · refine iff_of_false (fun h => hpos h.1) fun h => hpos ?_
    have hturnout := h.1
    rw [turnout_headPoll] at hturnout
    exact_mod_cast hturnout

theorem reachesQuorum_iff (h0 : (s.poll p).Nonneg) (hr : s.InRange (s.poll p)) :
    s.reachesQuorum p = true ↔ (s.poll p).Reached 10000 s.config.quorumBps.toNat := by
  unfold State.poll State.InRange State.reachesQuorum at *
  split_ifs at * with ht
  · exact decide_eq_true_iff.trans (quorumWeight_le_iff h0 hr.1 hr.2.1)
  · exact decide_eq_true_iff.trans (quorumCount_le_iff hr)

theorem approves_iff (h0 : (s.poll p).Nonneg) (hr : s.InRange (s.poll p))
    (hq : (s.poll p).Reached 10000 s.config.quorumBps.toNat) :
    s.approves p = true ↔ (s.poll p).Carried 10000 s.config.approvalThresholdBps.toNat := by
  unfold State.poll State.InRange State.approves at *
  split_ifs at * with ht
  · exact approvedByWeight_iff h0 hr.1 (hr.2.2 hq)
  · exact approvedByCount_iff hr

end Comparisons

section Vote

structure State.MayVote (e : Env contract) (s : State) (voter : Address) (id : UInt64)
    (p : Proposal) : Prop where
  auth : e.auth voter = true
  member : s.member voter = true
  stored : s.proposal id = some p
  live : p.status = .pending ∨ p.status = .active
  fresh : s.hasVoted (id, voter) = false
  inTime : e.timestamp ≤ p.votingEndsAt

def State.recordVote (s : State) (voter : Address) (id : UInt64) (q : Proposal) : State :=
  { s.saveProposal id q with hasVoted := update s.hasVoted (id, voter) true }

theorem recordVote_self : (s.recordVote voter id q).proposal id = some q := update_self ..

theorem recordVote_of_ne {i : UInt64} (h : i ≠ id) :
    (s.recordVote voter id q).proposal i = s.proposal i := update_of_ne h ..

theorem status_activate :
    p.activate.status = .active ↔ p.status = .pending ∨ p.status = .active := by
  unfold Proposal.activate
  split
  · rename_i h
    exact iff_of_true rfl (.inl h)
  · rename_i h
    exact (or_iff_right h).symm

theorem votingEndsAt_activate : p.activate.votingEndsAt = p.votingEndsAt := by
  unfold Proposal.activate
  split <;> rfl

/-- Exactly the votes that meet the demands of the contract are accepted, whatever they weigh. -/
theorem vote_eq_ok : s.vote C e voter id approve w = .ok (s', w') ↔
    ∃ p, s.MayVote e voter id p ∧
      (s.recordVote voter id
        (p.activate.cast approve (s.getVoterVotingWeight C contract voter w).1)).resolve e.timestamp
          id (p.activate.cast approve (s.getVoterVotingWeight C contract voter w).1) = s' ∧
      (s.getVoterVotingWeight C contract voter w).2 = w' := by
  simp only [State.vote, bind_eq_ok, State.requireMember_eq_ok, State.expectProposal_eq_ok,
    ensure_eq_ok, status_activate, votingEndsAt_activate, pure_eq_ok, Prod.mk.injEq]
  constructor
  · rintro ⟨_, ⟨ha, hm⟩, p, hp, _, hl, _, hf, _, ht, hs, hw⟩
    exact ⟨p, ⟨ha, hm, hp, hl, hf, ht⟩, hs, hw⟩
  · rintro ⟨p, h, hs, hw⟩
    exact ⟨(), ⟨h.auth, h.member⟩, p, h.stored, (), h.live, (), h.fresh, (), h.inTime, hs, hw⟩

/-- In range, resolving an active proposal decides it exactly. -/
theorem resolve_decides (timestamp : UInt64) (h : s.proposal id = some q)
    (hq : q.status = .active) (h0 : (s.poll q).Nonneg) (hr : s.InRange (s.poll q)) :
    ∃ r, (s.resolve timestamp id q).proposal id = some r ∧
      (s.resolve timestamp id q).poll r = s.poll q ∧
      (s.resolve timestamp id q).config = s.config ∧
      ((r.status = .approved ∨ r.status = .rejected) ↔
        (s.poll q).Reached 10000 s.config.quorumBps.toNat) ∧
      ((s.poll q).Reached 10000 s.config.quorumBps.toNat →
        (r.status = .approved ↔ (s.poll q).Carried 10000 s.config.approvalThresholdBps.toNat)) := by
  unfold State.resolve
  split
  · rename_i hreached
    have hreached := (reachesQuorum_iff h0 hr).mp hreached
    split
    · rename_i happroves
      have happroves := (approves_iff h0 hr hreached).mp happroves
      exact ⟨_, update_self .., rfl, rfl, iff_of_true (.inl rfl) hreached,
        fun _ => iff_of_true rfl happroves⟩
    · rename_i happroves
      have happroves := mt (approves_iff h0 hr hreached).mpr happroves
      exact ⟨_, update_self .., rfl, rfl, iff_of_true (.inr rfl) hreached,
        fun _ => iff_of_false (by simp) happroves⟩
  · rename_i hreached
    have hreached := mt (reachesQuorum_iff h0 hr).mpr hreached
    exact ⟨q, h, rfl, rfl, iff_of_false (by simp [hq]) hreached, fun hr => absurd hr hreached⟩

/-- Weights that stay in range are added exactly. -/
theorem weightPoll_cast {n : I128} (hy : I128.Fits (p.weightPoll.add approve n.val).yes)
    (hn : I128.Fits (p.weightPoll.add approve n.val).no) :
    (p.cast approve n).weightPoll = p.weightPoll.add approve n.val := by
  cases approve with
  | true =>
    have hadd := I128.val_add (a := p.votesForWeight) (b := n) hy
    simp [Proposal.cast, Proposal.weightPoll, Poll.add, hadd]
  | false =>
    have hadd := I128.val_add (a := p.votesAgainstWeight) (b := n) hn
    simp [Proposal.cast, Proposal.weightPoll, Poll.add, hadd]

theorem fits_of_turnout {k : Poll} (h0 : k.Nonneg) (h : k.turnout < 2 ^ 127) :
    I128.Fits k.yes ∧ I128.Fits k.no := by
  obtain ⟨hy, hn, -⟩ := h0
  unfold Poll.turnout at h
  exact ⟨⟨by omega, by omega⟩, by omega, by omega⟩

theorem headPoll_cast {n : I128} {memberCount : UInt32}
    (h : ((p.headPoll memberCount).add approve 1).turnout < 2 ^ 32) :
    (p.cast approve n).headPoll memberCount = (p.headPoll memberCount).add approve 1 := by
  rw [Poll.turnout_add, turnout_headPoll] at h
  cases approve with
  | true =>
    simp only [Proposal.cast, Proposal.headPoll, Poll.add, if_true, UInt32.toNat_add,
      UInt32.toNat_one, Poll.mk.injEq, and_self, and_true]
    omega
  | false =>
    simp only [Proposal.cast, Proposal.headPoll, Poll.add, Bool.false_eq_true, if_false,
      UInt32.toNat_add, UInt32.toNat_one, Poll.mk.injEq, and_true, true_and]
    omega

theorem poll_activate : s.poll p.activate = s.poll p := by
  unfold Proposal.activate
  split <;> rfl

theorem poll_cast (h0 : p.weightPoll.Nonneg)
    (hw : 0 ≤ (s.getVoterVotingWeight C contract voter w).1)
    (hr : s.InRange (s.pollAfter C contract p voter approve w)) :
    s.poll (p.cast approve (s.getVoterVotingWeight C contract voter w).1) =
      s.pollAfter C contract p voter approve w := by
  unfold State.pollAfter State.poll State.InRange State.worth at *
  split_ifs at * with ht
  · obtain ⟨hy, hn⟩ := fits_of_turnout (h0.add hw approve) hr.1
    exact weightPoll_cast hy hn
  · exact headPoll_cast hr

/-- A vote is counted exactly, and resolves its proposal exactly. -/
def Decides (C : Contracts W) (contract : Address) (s : State) (w : W) (voter : Address)
    (id : UInt64) (approve : Bool) (s' : State) : Prop :=
  ∃ p q, s.proposal id = some p ∧ s'.proposal id = some q ∧
    s'.poll q = s.pollAfter C contract p voter approve w ∧
    ((q.status = .approved ∨ q.status = .rejected) ↔
      (s'.poll q).Reached 10000 s'.config.quorumBps.toNat) ∧
    ((s'.poll q).Reached 10000 s'.config.quorumBps.toNat →
      (q.status = .approved ↔ (s'.poll q).Carried 10000 s'.config.approvalThresholdBps.toNat))

/-- The votes of a proposal, and so its poll, are never negative. -/
theorem poll_nonneg (h0 : p.weightPoll.Nonneg) : (s.poll p).Nonneg := by
  unfold State.poll
  split
  · exact h0
  · exact ⟨Int.natCast_nonneg _, Int.natCast_nonneg _, by simp [Proposal.headPoll]⟩

theorem pollAfter_nonneg (h0 : p.weightPoll.Nonneg)
    (hw : 0 ≤ (s.getVoterVotingWeight C contract voter w).1) :
    (s.pollAfter C contract p voter approve w).Nonneg := by
  apply (poll_nonneg h0).add
  unfold State.worth
  split
  · exact hw
  · exact zero_le_one

/-- A vote whose sums and products stay in range decides exactly. -/
theorem vote_decides (h : s.vote C e voter id approve w = .ok (s', w'))
    (h0 : ∀ p, s.proposal id = some p → p.weightPoll.Nonneg)
    (hw : 0 ≤ (s.getVoterVotingWeight C contract voter w).1)
    (hr : ∀ p, s.proposal id = some p → s.InRange (s.pollAfter C contract p voter approve w)) :
    Decides C contract s w voter id approve s' := by
  obtain ⟨p, hmay, rfl, rfl⟩ := vote_eq_ok.mp h
  have h0 := h0 p hmay.stored
  have hr := hr p hmay.stored
  have h0' : p.activate.weightPoll.Nonneg := by
    have heq : p.activate.weightPoll = p.weightPoll := by
      unfold Proposal.activate
      split <;> rfl
    rwa [heq]
  have hafter : s.pollAfter C contract p.activate voter approve w =
      s.pollAfter C contract p voter approve w := congrArg (Poll.add · _ _) poll_activate
  have hpoll := poll_cast h0' hw (hafter ▸ hr)
  rw [hafter] at hpoll
  have hactive : (p.activate.cast approve (s.getVoterVotingWeight C contract voter w).1).status =
      .active := by
    unfold Proposal.cast
    split <;> exact status_activate.mpr hmay.live
  generalize p.activate.cast approve (s.getVoterVotingWeight C contract voter w).1 = q
    at hpoll hactive
  have hsame : (s.recordVote voter id q).poll q = s.pollAfter C contract p voter approve w := hpoll
  obtain ⟨r, hr', hp', hc', hresolved, happroved⟩ :=
    resolve_decides e.timestamp recordVote_self hactive
    (hsame ▸ pollAfter_nonneg h0 hw) (hsame ▸ hr)
  refine ⟨p, r, hmay.stored, hr', hp'.trans hsame, ?_, ?_⟩
  · rw [hp', hc']
    exact hresolved
  · rw [hp', hc']
    exact happroved

end Vote

section Run

/-- Weights and supplies are read as credit tokens have them, never negative. -/
def admitted (C : Contracts W) : Guard (State × W) (Event contract W) := fun _ sw ev =>
  match ev with
  | .call _ (.propose ..) => 0 ≤ (sw.1.getTotalEligibleWeight C contract sw.2).1
  | .call _ (.vote voter _ _) => 0 ≤ (sw.1.getVoterVotingWeight C contract voter sw.2).1
  | _ => True

/-- The votes of a run are admitted, and their sums and products stay in range. -/
def resolvable (C : Contracts W) : Guard (State × W) (Event contract W) := fun tr sw ev =>
  admitted C tr sw ev ∧
    match ev with
    | .call _ (.vote voter id approve) => ∀ p, sw.1.proposal id = some p →
        sw.1.InRange (sw.1.pollAfter C contract p voter approve sw.2)
    | _ => True

def Tally.poll (t : Tally) : Poll := ⟨t.votesFor.val, t.votesAgainst.val, t.eligible.val⟩

/-- No proposal has a negative weight. -/
def State.Unsigned (s : State) : Prop := ∀ id t, s.tally id = some t → t.poll.Nonneg

theorem State.Unsigned.weightPoll (h : s.Unsigned) (hp : s.proposal id = some p) :
    p.weightPoll.Nonneg :=
  h id p.tally (congrArg (Option.map Proposal.tally) hp)

theorem State.Unsigned.congr (h : s.Unsigned) (ht : s'.tally = s.tally) : s'.Unsigned := by
  unfold State.Unsigned
  rw [ht]
  exact h

theorem State.Unsigned.vote (h : s.Unsigned)
    (hw : 0 ≤ (s.getVoterVotingWeight C contract voter w).1)
    (hr : ∀ p, s.proposal id = some p → s.InRange (s.pollAfter C contract p voter approve w))
    (hs : s.vote C e voter id approve w = .ok (s', w')) : s'.Unsigned := by
  obtain ⟨t₀, ht₀, -, -, -, ht⟩ := vote_cases hs
  obtain ⟨p, hp, rfl⟩ := Option.map_eq_some_iff.mp ht₀
  have hp0 := h.weightPoll hp
  have hr := hr p hp
  intro i t hi
  rw [ht, update_apply] at hi
  split at hi
  · cases hi
    have hfits : I128.Fits (p.weightPoll.add approve
          (s.getVoterVotingWeight C contract voter w).1.val).yes ∧
        I128.Fits (p.weightPoll.add approve
          (s.getVoterVotingWeight C contract voter w).1.val).no := by
      unfold State.pollAfter State.poll State.InRange State.worth at hr
      split_ifs at hr with htok
      · exact fits_of_turnout (hp0.add hw approve) hr.1
      · -- without a token, the voter adds no weight
        have hnone : s.governanceToken = none := by simpa using htok
        have hzero : (s.getVoterVotingWeight C contract voter w).1.val = 0 := by
          simp [State.getVoterVotingWeight, hnone]
        have hsame : p.weightPoll.add approve 0 = p.weightPoll := by
          unfold Poll.add
          split <;> simp
        rw [hzero, hsame]
        exact ⟨p.votesForWeight.fits, p.votesAgainstWeight.fits⟩
    have hcast : (p.tally.cast approve (s.getVoterVotingWeight C contract voter w).1).poll =
        p.weightPoll.add approve (s.getVoterVotingWeight C contract voter w).1.val := by
      rw [← tally_cast]
      exact weightPoll_cast hfits.1 hfits.2
    rw [hcast]
    exact hp0.add hw approve
  · exact h i t hi

theorem unsigned_step {ev : Event contract W} (h : s.Unsigned) (hg : resolvable C tr (s, w) ev)
    (hs : step C ev (s, w) = .ok (s', w')) : s'.Unsigned := by
  cases ev with
  | outside v =>
    cases hs
    exact h
  | call e c =>
    have hs : run C e s w c = .ok (s', w') := hs
    cases c with
    | propose =>
      obtain ⟨-, -, ht⟩ := propose_cases hs
      intro i t hi
      rw [ht, update_apply] at hi
      split at hi
      · cases hi
        exact ⟨le_rfl, le_rfl, hg.1⟩
      · exact h i t hi
    | vote => exact h.vote hg.1 hg.2 hs
    | setGovernanceToken =>
      obtain ⟨-, -, ht⟩ := setGovernanceToken_cases hs
      exact h.congr ht
    | _ => exact h.congr (congrArg Ballots.tally (run_ballots rfl hs))

theorem unsigned_run {sw : State × W} (h : (machine contract C).Run (resolvable C) tr sw) :
    sw.1.Unsigned := by
  refine Machine.Run.invariant (I := fun _ sw => sw.1.Unsigned) ?_ ?_ h
  · rintro ⟨s, w⟩ ⟨admin, members, hs⟩
    obtain ⟨-, rfl⟩ := initialise_eq_ok.mp hs
    rintro id t ht
    cases ht
  · rintro tr ⟨s, w⟩ ev ⟨s', w'⟩ - hi hg hs
    exact unsigned_step hi hg hs

/-- Which votes a contract accepts, and what the votes of the run that led there have decided. -/
structure VotesResolved (C : Contracts W) (tr : Trace (State × W) (Event contract W))
    (sw : State × W) : Prop where
  accepted : ∀ (e : Env contract) voter id approve,
    (∃ sw', sw.1.vote C e voter id approve sw.2 = .ok sw') ↔ ∃ p, sw.1.MayVote e voter id p
  decided : ∀ st ∈ tr, ∀ e voter id approve, st.label = .call e (.vote voter id approve) →
    Decides C contract st.before.1 st.before.2 voter id approve st.after.1

/--
No vote fails because of what it weighs, and every vote resolves its proposal
exactly, in every run whose votes keep their sums and products in range.
-/
theorem votes_resolved {sw : State × W} (h : (machine contract C).Run (resolvable C) tr sw) :
    VotesResolved C tr sw := by
  constructor
  · intro e voter id approve
    constructor
    · rintro ⟨⟨s', w'⟩, hs⟩
      obtain ⟨p, hmay, -, -⟩ := vote_eq_ok.mp hs
      exact ⟨p, hmay⟩
    · rintro ⟨p, hmay⟩
      exact ⟨_, vote_eq_ok.mpr ⟨p, hmay, rfl, rfl⟩⟩
  · intro st hst e voter id approve hlabel
    obtain ⟨tr', hr, hg, hs⟩ := h.mem st hst
    rw [hlabel] at hg hs
    exact vote_decides hs (fun p hp => (unsigned_run hr).weightPoll hp) hg.1 hg.2

end Run

section Sample

def vast : List (Env Token.home × Token.Call) :=
  [Token.signedBy 0 (.mintTo (.account 0) (.account 2) 1),
    Token.signedBy 0 (.mintTo (.account 0) (.account 3) (I128.wrap (2 ^ 126 - 101)))]

def tipped : State × Ledger :=
  councilMachine.calls (founded.1, ledgerAfter vast)
    [calledBy 0 (.setGovernanceToken (.account 0) Token.home),
      calledBy 1 (.propose (.account 1) "fees" "" [] false), calledBy 2 (.vote (.account 2) 1 true)]

/--
The product of the supply and the quorum wraps to zero, so that one unit of
`2 ^ 126` approves a proposal.
-/
theorem unit_decides : ∃ tr, councilMachine.Run (admitted (creditContracts Token.home)) tr tipped ∧
    (tipped.1.proposal 1).map (fun p => (p.status, p.votesForWeight.val, p.votesAgainstWeight.val,
      p.totalEligibleWeight.val)) = some (.approved, 1, 0, 2 ^ 126) ∧
    tipped.1.config.quorumBps = 5000 ∧ ¬ VotesResolved (creditContracts Token.home) tr tipped := by
  have h0 := Machine.Run.init (m := councilMachine)
    (G := admitted (creditContracts Token.home)) (s := (founded.1, ledgerAfter vast))
    ⟨.account 0, [.account 1, .account 2, .account 3], by rfl⟩
  have h1 := h0.call (l := calledBy 0 (.setGovernanceToken (.account 0) Token.home)) trivial
    (by rfl)
  have h2 := h1.call (l := calledBy 1 (.propose (.account 1) "fees" "" [] false))
    (by decide : (0 : I128) ≤ _) (by rfl)
  have h3 := h2.call (l := calledBy 2 (.vote (.account 2) 1 true)) (by decide : (0 : I128) ≤ _)
    (by rfl)
  refine ⟨_, h3, by rfl, by rfl, fun hv => ?_⟩
  obtain ⟨p, q, -, hq, -, hresolved, -⟩ := hv.decided _ List.mem_cons_self _ _ _ _ rfl
  have happroved : (tipped.1.proposal 1).map (fun q => (q.status, tipped.1.poll q)) =
      some (.approved, ⟨1, 0, 2 ^ 126⟩) := by rfl
  have hq : tipped.1.proposal 1 = some q := hq
  rw [hq] at happroved
  obtain ⟨hstatus, hpoll⟩ := Prod.mk.inj (Option.some.inj happroved)
  have hreached : (tipped.1.poll q).Reached 10000 tipped.1.config.quorumBps.toNat :=
    hresolved.mp (.inl hstatus)
  rw [hpoll] at hreached
  exact absurd hreached (by decide)

def unanimous : State × Ledger :=
  councilMachine.calls founded [calledBy 0 (.setGovernanceToken (.account 0) Token.home),
    calledBy 1 (.propose (.account 1) "fees" "" [] false), calledBy 1 (.vote (.account 1) 1 true),
    calledBy 3 (.vote (.account 3) 1 false)]

theorem votes_resolved_unanimous : ∃ tr,
    councilMachine.Run (resolvable (creditContracts Token.home)) tr unanimous ∧
      VotesResolved (creditContracts Token.home) tr unanimous ∧
      (unanimous.1.proposal 1).map (fun p => (p.status, p.votesForWeight.val,
        p.votesAgainstWeight.val, p.totalEligibleWeight.val)) = some (.rejected, 40, 60, 100) := by
  have h0 := Machine.Run.init (m := councilMachine)
    (G := resolvable (creditContracts Token.home)) (s := founded)
    ⟨.account 0, [.account 1, .account 2, .account 3], by rfl⟩
  have h1 := h0.call (l := calledBy 0 (.setGovernanceToken (.account 0) Token.home))
    ⟨trivial, trivial⟩ (by rfl)
  have h2 := h1.call (l := calledBy 1 (.propose (.account 1) "fees" "" [] false))
    ⟨(by decide : (0 : I128) ≤ _), trivial⟩ (by rfl)
  have h3 := h2.call (l := calledBy 1 (.vote (.account 1) 1 true))
    ⟨(by decide : (0 : I128) ≤ _), fun p hp => by
      cases hp
      exact ⟨by decide, by decide, fun _ => by decide⟩⟩ (by rfl)
  have h4 := h3.call (l := calledBy 3 (.vote (.account 3) 1 false))
    ⟨(by decide : (0 : I128) ≤ _), fun p hp => by
      cases hp
      exact ⟨by decide, by decide, fun _ => by decide⟩⟩ (by rfl)
  exact ⟨_, h4, votes_resolved h4, by rfl⟩

end Sample

end WaterCredits.Governance
