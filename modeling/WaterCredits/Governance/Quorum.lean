import WaterCredits.Governance.Progress
import WaterCredits.Governance.Resolution

/-! # The votes that a quorum lacks

Without a governance token a proposal is decided by heads. As soon as as many
members vote as its quorum lacks, it is decided, in whatever order they vote:
their votes are all accepted, the last one of them decides, and what it decides
depends on the votes alone.
-/

namespace WaterCredits.Governance

open Foundation Function

variable {contract : Address} {W : Type} {C : Contracts W} {s s' : State} {w : W} {id : UInt64}
  {p : Proposal} {tr : Trace (State × W) (Event contract W)}

/-- A vote that a member is about to make. -/
structure Poised (contract : Address) where
  env : Env contract
  voter : Address
  approve : Bool

variable {b : Poised contract} {bs bs' acc : List (Poised contract)}

def Poised.event (id : UInt64) (b : Poised contract) : Event contract W :=
  .call b.env (.vote b.voter id b.approve)

/-- The approvals and the rejections among the votes. -/
def approvals (bs : List (Poised contract)) : ℕ := bs.countP (·.approve)

@[inherit_doc approvals]
def rejections (bs : List (Poised contract)) : ℕ := bs.countP (!·.approve)

theorem approvals_add_rejections (bs : List (Poised contract)) :
    approvals bs + rejections bs = bs.length := by
  rw [List.length_eq_countP_add_countP (·.approve)]
  simp only [approvals, rejections, Bool.not_eq_true, Bool.decide_eq_false]

def Proposal.counting (p : Proposal) (bs : List (Poised contract)) : Proposal :=
  { p with
    status := .active
    votesFor := p.votesFor + .ofNat (approvals bs)
    votesAgainst := p.votesAgainst + .ofNat (rejections bs) }

/-- The storage with the votes, none of which has decided. -/
def State.gathered (s : State) (id : UInt64) (p : Proposal) (bs : List (Poised contract)) : State :=
  { s with
    proposal := update s.proposal id (some (if bs = [] then p else p.counting bs))
    hasVoted := fun k => decide (k.1 = id ∧ k.2 ∈ bs.map (·.voter)) || s.hasVoted k }

theorem counting_perm (h : bs.Perm bs') : p.counting bs = p.counting bs' := by
  simp only [Proposal.counting, approvals, rejections, h.countP_eq]

theorem gathered_perm (h : bs.Perm bs') : s.gathered id p bs = s.gathered id p bs' := by
  have hnil : bs = [] ↔ bs' = [] := by rw [← List.length_eq_zero_iff, h.length_eq,
    List.length_eq_zero_iff]
  have hmem (a : Address) : a ∈ bs.map (·.voter) ↔ a ∈ bs'.map (·.voter) := (h.map _).mem_iff
  simp only [State.gathered, hnil, counting_perm h, hmem]

theorem gathered_nil (hp : s.proposal id = some p) :
    s.gathered id p ([] : List (Poised contract)) = s := by
  simp [State.gathered, ← hp]

theorem activate_counting (hp : p.status = .pending ∨ p.status = .active) :
    (if bs = [] then p else p.counting bs).activate = p.counting bs := by
  by_cases hnil : bs = []
  · subst hnil
    have hzero : p.counting ([] : List (Poised contract)) = { p with status := .active } := by
      simp [Proposal.counting, approvals, rejections]
    rw [if_pos rfl, hzero, Proposal.activate]
    rcases hp with hp | hp <;> simp [← hp]
  · rw [if_neg hnil]
    rfl

theorem cast_counting : (p.counting bs).cast b.approve 0 = p.counting (b :: bs) := by
  have hsucc (x : UInt32) (n : ℕ) : x + .ofNat n + 1 = x + .ofNat (n + 1) := by
    rw [UInt32.add_assoc, UInt32.ofNat_add]
    rfl
  cases hb : b.approve <;>
    simp [Proposal.cast, Proposal.counting, approvals, rejections, hb, hsucc, I128.add_zero]

theorem votes_counting (h : p.votesFor.toNat + p.votesAgainst.toNat + bs.length < 2 ^ 32) :
    (p.counting bs).votesFor.toNat = p.votesFor.toNat + approvals bs ∧
      (p.counting bs).votesAgainst.toNat = p.votesAgainst.toNat + rejections bs := by
  have hsum := approvals_add_rejections bs
  simp only [Proposal.counting, UInt32.toNat_add, UInt32.toNat_ofNat']
  omega

theorem reachesQuorum_counting (ht : s.governanceToken = none)
    (h : p.votesFor.toNat + p.votesAgainst.toNat + bs.length < 2 ^ 32) :
    s.reachesQuorum (p.counting bs) = true ↔ (p.quorumCount s.config s.memberCount).toNat ≤
      p.votesFor.toNat + p.votesAgainst.toNat + bs.length := by
  obtain ⟨hfor, hagainst⟩ := votes_counting h
  have hsum := approvals_add_rejections bs
  have hquorum : (p.counting bs).quorumCount s.config s.memberCount =
      p.quorumCount s.config s.memberCount := rfl
  have hnone : ¬ s.governanceToken.isSome = true := by simp [ht]
  rw [State.reachesQuorum, if_neg hnone, decide_eq_true_iff, hquorum, UInt64.le_iff_toNat_le,
    UInt32.toNat_toUInt64, UInt32.toNat_add, hfor, hagainst]
  omega

/-- What the contract asks of the voters, whose votes are still to come. -/
structure Waits (s : State) (id : UInt64) (p : Proposal) (bs : List (Poised contract)) : Prop where
  token : s.governanceToken = none
  stored : s.proposal id = some p
  undecided : p.status = .pending ∨ p.status = .active
  voters : (bs.map (·.voter)).Nodup
  mayVote : ∀ b ∈ bs, b.env.auth b.voter = true ∧ s.member b.voter = true ∧
    s.hasVoted (id, b.voter) = false ∧ b.env.timestamp ≤ p.votingEndsAt

theorem Waits.perm (h : Waits s id p bs) (hp : bs'.Perm bs) : Waits s id p bs' where
  token := h.token
  stored := h.stored
  undecided := h.undecided
  voters := (hp.map _).nodup_iff.mpr h.voters
  mayVote b hb := h.mayVote b (hp.mem_iff.mp hb)

theorem Waits.sublist (h : Waits s id p bs) (hs : bs'.Sublist bs) : Waits s id p bs' where
  token := h.token
  stored := h.stored
  undecided := h.undecided
  voters := h.voters.sublist (hs.map _)
  mayVote b hb := h.mayVote b (hs.subset hb)

theorem vote_gathered (h : Waits s id p (b :: acc)) :
    (s.gathered id p acc).vote C b.env b.voter id b.approve w =
      .ok ((s.gathered id p (b :: acc)).resolve b.env.timestamp id (p.counting (b :: acc)), w) := by
  obtain ⟨hauth, hmember, hfresh, htime⟩ := h.mayVote b List.mem_cons_self
  have hnew : b.voter ∉ acc.map (·.voter) := (List.nodup_cons.mp h.voters).1
  have hweight : (s.gathered id p acc).getVoterVotingWeight C contract b.voter w = (0, w) := by
    simp [State.getVoterVotingWeight, State.gathered, h.token]
  have hmay : (s.gathered id p acc).MayVote b.env b.voter id
      (if acc = [] then p else p.counting acc) := by
    refine ⟨hauth, hmember, update_self .., ?_, ?_, ?_⟩
    · split
      · exact h.undecided
      · exact .inr rfl
    · simp only [State.gathered, hfresh, hnew, and_false, decide_false, Bool.or_false]
    · split <;> exact htime
  refine vote_eq_ok.mpr ⟨_, hmay, ?_, by rw [hweight]⟩
  rw [hweight, activate_counting h.undecided, cast_counting]
  congr 1
  simp only [State.recordVote, State.saveProposal, State.gathered, update_idem,
    if_neg (List.cons_ne_nil b acc)]
  congr 1
  funext k
  by_cases hk : k = (id, b.voter)
  · subst hk
    simp
  · rw [update_of_ne hk]
    have hne : k.1 = id → k.2 ≠ b.voter := fun hid hv => hk (Prod.ext hid hv)
    by_cases hid : k.1 = id
    · simp [hid, hne hid]
    · simp [hid]

def State.quorum (s : State) (p : Proposal) : ℕ := (p.quorumCount s.config s.memberCount).toNat

/-- Votes that leave the quorum open decide nothing. -/
theorem votes_gathered (h : Waits s id p (bs ++ acc)) (hlt : s.quorum p < 2 ^ 32)
    (hn : p.votesFor.toNat + p.votesAgainst.toNat + (bs ++ acc).length < s.quorum p)
    (hr : ((machine contract C).startedIn (s, w)).Run Machine.anyCall tr
      (s.gathered id p acc, w)) :
    ∃ tr', ((machine contract C).startedIn (s, w)).Run Machine.anyCall tr'
        (s.gathered id p (bs ++ acc), w) ∧
      tr'.map (·.label) = (bs.map (·.event id)).reverse ++ tr.map (·.label) := by
  induction bs generalizing acc tr with
  | nil => exact ⟨tr, hr, rfl⟩
  | cons b bs ih =>
    have hmiddle : (bs ++ b :: acc).Perm (b :: bs ++ acc) := List.perm_middle
    have hfirst : (b :: acc).Sublist (b :: bs ++ acc) :=
      (List.sublist_append_right bs acc).cons_cons b
    have hlen : (b :: acc).length ≤ (b :: bs ++ acc).length := hfirst.length_le
    have hopen : ¬ (s.gathered id p (b :: acc)).reachesQuorum (p.counting (b :: acc)) = true :=
      fun hq => Nat.not_le.mpr (lt_of_le_of_lt (Nat.add_le_add_left hlen _) hn)
        ((reachesQuorum_counting h.token (by omega)).mp hq)
    have hstep : ((machine contract C).startedIn (s, w)).step (b.event id)
        (s.gathered id p acc, w) = .ok (s.gathered id p (b :: acc), w) := by
      refine (vote_gathered (h.sublist hfirst)).trans ?_
      rw [State.resolve, if_neg hopen]
    obtain ⟨tr', hr', hlabels⟩ := ih (h.perm hmiddle) (hmiddle.length_eq ▸ hn)
      (hr.step trivial hstep)
    rw [gathered_perm hmiddle] at hr'
    exact ⟨tr', hr', by simp [hlabels]⟩

def State.decided (s : State) (id : UInt64) (p : Proposal) (bs : List (Poised contract))
    (timestamp : UInt64) : State :=
  (s.gathered id p bs).resolve timestamp id (p.counting bs)

structure Settles (C : Contracts W) (s : State) (w : W) (id : UInt64) (p : Proposal)
    (bs : List (Poised contract)) : Prop where
  accepted : ∀ bs' : List (Poised contract), bs'.Perm bs → ∃ tr last, bs'.getLast? = some last ∧
    ((machine contract C).startedIn (s, w)).Run Machine.anyCall tr
      (s.decided id p bs last.env.timestamp, w) ∧
    tr.map (·.label) = (bs'.map (·.event id)).reverse
  outcome : ∀ timestamp, ∃ q, (s.decided id p bs timestamp).proposal id = some q ∧
    q.blank = (p.counting bs).blank ∧
    if s.config.approvalThresholdBps.toNat * s.quorum p ≤
        (p.votesFor.toNat + approvals bs) * 10000 then
      q.status = .approved ∧ q.timelockEndsAt = timestamp + s.config.timelockDuration
    else q.status = .rejected

theorem quorum_lt (hc : validateConfig s.config = .ok ()) : s.quorum p < 2 ^ 32 := by
  simp only [validateConfig, bind_eq_ok, ensure_eq_ok] at hc
  obtain ⟨_, -, _, -, _, -, _, hquorum, -⟩ := hc
  have hquorum : s.config.quorumBps.toNat ≤ 10000 := UInt32.le_iff_toNat_le.mp hquorum
  have hmin := min_le_left p.eligibleVoters.toNat s.memberCount.toNat
  have hvoters := p.eligibleVoters.toNat_lt
  rw [State.quorum, toNat_quorumCount]
  have hmul := Nat.mul_le_mul hmin hquorum
  omega

theorem approves_counting (ht : s.governanceToken = none)
    (h : p.votesFor.toNat + p.votesAgainst.toNat + bs.length < 2 ^ 32)
    (hpos : 0 < p.votesFor.toNat + p.votesAgainst.toNat + bs.length) :
    s.approves (p.counting bs) = true ↔
      s.config.approvalThresholdBps.toNat *
          (p.votesFor.toNat + p.votesAgainst.toNat + bs.length) ≤
        (p.votesFor.toNat + approvals bs) * 10000 := by
  obtain ⟨hfor, hagainst⟩ := votes_counting h
  have hsum := approvals_add_rejections bs
  have hturnout : ((p.counting bs).headPoll 0).turnout =
      (p.votesFor.toNat + p.votesAgainst.toNat + bs.length : ℕ) := by
    rw [turnout_headPoll, hfor, hagainst]
    congr 1
    omega
  have hyes : ((p.counting bs).headPoll 0).yes = (p.votesFor.toNat + approvals bs : ℕ) :=
    congrArg Nat.cast hfor
  have hnone : ¬ s.governanceToken.isSome = true := by simp [ht]
  have hbounded : ((p.counting bs).headPoll 0).turnout < 2 ^ 32 := by
    rw [hturnout]
    exact_mod_cast h
  rw [State.approves, if_neg hnone, approvedByCount_iff hbounded, Poll.Carried, hturnout, hyes]
  constructor
  · rintro ⟨-, hle⟩
    exact_mod_cast hle
  · intro hle
    exact ⟨by exact_mod_cast hpos, by exact_mod_cast hle⟩

/--
The votes that the quorum lacks are accepted in every order, and the last one
decides the proposal by the share of all approvals.
-/
theorem quorum_settles (h0 : (machine contract C).Reachable (s, w)) (h : Waits s id p bs)
    (hne : bs ≠ []) (hn : p.votesFor.toNat + p.votesAgainst.toNat + bs.length = s.quorum p) :
    Settles C s w id p bs := by
  obtain ⟨tr₀, hrun⟩ := h0
  have hlt : s.quorum p < 2 ^ 32 := quorum_lt (config_run hrun)
  have hlen : 0 < bs.length := List.length_pos_iff.mpr hne
  constructor
  · intro bs' hp
    obtain rfl | ⟨first, last, rfl⟩ := List.eq_nil_or_concat' bs'
    · exact absurd hp.nil_eq.symm hne
    have hlength := hp.length_eq
    rw [List.length_append, List.length_singleton] at hlength
    have hlast : (last :: first).Perm bs := (List.perm_append_singleton last first).symm.trans hp
    have hstart : ((machine contract C).startedIn (s, w)).Run Machine.anyCall []
        (s.gathered id p ([] : List (Poised contract)), w) := by
      rw [gathered_nil h.stored]
      exact .init rfl
    have hearly : (first ++ ([] : List (Poised contract))).length < bs.length := by
      rw [List.append_nil]
      omega
    have hwaits : Waits s id p (first ++ []) := by
      rw [List.append_nil]
      exact (h.perm hlast).sublist (List.sublist_cons_self last first)
    obtain ⟨tr, hr, hlabels⟩ := votes_gathered hwaits hlt (by omega) hstart
    rw [List.append_nil] at hr
    have hstep : ((machine contract C).startedIn (s, w)).step (last.event id)
        (s.gathered id p first, w) = .ok (s.decided id p bs last.env.timestamp, w) := by
      rw [State.decided, ← gathered_perm hlast, ← counting_perm hlast]
      exact vote_gathered (h.perm hlast)
    exact ⟨_, last, List.getLast?_concat, hr.step trivial hstep, by simp [hlabels]⟩
  · intro timestamp
    have hreached : (s.gathered id p bs).reachesQuorum (p.counting bs) = true :=
      (reachesQuorum_counting h.token (by omega)).mpr hn.ge
    have happroves : s.approves (p.counting bs) = true ↔
        s.config.approvalThresholdBps.toNat * s.quorum p ≤
          (p.votesFor.toNat + approvals bs) * 10000 := by
      rw [← hn]
      exact approves_counting h.token (by omega) (by omega)
    rw [State.decided, State.resolve, if_pos hreached]
    by_cases hcarried : s.approves (p.counting bs) = true
    · have hyes : (s.gathered id p bs).approves (p.counting bs) = true := hcarried
      rw [if_pos hyes]
      refine ⟨_, update_self .., rfl, ?_⟩
      rw [if_pos (happroves.mp hcarried)]
      exact ⟨rfl, rfl⟩
    · have hno : ¬ (s.gathered id p bs).approves (p.counting bs) = true := hcarried
      rw [if_neg hno]
      refine ⟨_, update_self .., rfl, ?_⟩
      rw [if_neg fun hle => hcarried (happroves.mpr hle)]

section Sample

def poised (key : BytesN 32) (approve : Bool) : Poised council :=
  ⟨memberAt 0 key, .account key, approve⟩

/-- The account `1` has proposed, and two of three votes make the quorum. -/
def onTheTable : State × ℕ :=
  (machine council counter).calls (founded.1, 0)
    [.call (memberAt 0 1) (.propose (.account 1) "count" "" [] false)]

theorem quorum_settles_onTheTable : ∃ p, onTheTable.1.proposal 1 = some p ∧
    Settles counter onTheTable.1 onTheTable.2 1 p [poised 1 true, poised 2 false] := by
  have h0 : (machine council counter).Reachable (founded.1, 0) :=
    ⟨_, .init ⟨.account 0, [.account 1, .account 2, .account 3], rfl⟩⟩
  have hreach : (machine council counter).Reachable onTheTable := h0.calls _
  have hp : ∃ p, onTheTable.1.proposal 1 = some p ∧ p.status = .pending ∧
      p.votesFor.toNat + p.votesAgainst.toNat + 2 = onTheTable.1.quorum p ∧ 0 ≤ p.votingEndsAt :=
    ⟨_, rfl, by decide, by decide, by decide⟩
  obtain ⟨p, hp, hpending, hquorum, htime⟩ := hp
  refine ⟨p, hp, quorum_settles hreach ⟨rfl, hp, .inl hpending, by decide, ?_⟩ (by simp) hquorum⟩
  simp only [List.mem_cons, List.not_mem_nil, or_false, forall_eq_or_imp, forall_eq]
  exact ⟨⟨by decide, by decide, by decide, htime⟩, by decide, by decide, by decide, htime⟩

end Sample

end WaterCredits.Governance
