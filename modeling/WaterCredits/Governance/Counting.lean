import WaterCredits.Governance.Lifecycle
import WaterCredits.Governance.Resolution

/-! # One counted vote for each member

The counters of a proposal, its weights and the marks of its voters are written
apart. In a run whose counters and sums of weights stay in range, and whose
identifiers are not used up, they all record the same list of votes.
-/

namespace WaterCredits.Governance

open Foundation Function
open Token (Ledger)

variable {contract : Address} {W : Type} {C : Contracts W} {e : Env contract} {s s' : State}
  {w w' : W} {id : UInt64} {p q : Proposal} {c : Call} {voter : Address} {approve : Bool}
  {tr : Trace (State × W) (Event contract W)} {st : Step (State × W) (Event contract W)}

/-- A vote as it was counted, with the weight that was read for it. -/
structure Vote where
  voter : Address
  approve : Bool
  weight : I128

def heads (side : Bool) (vs : List Vote) : ℕ := vs.countP (·.approve = side)

def weightOf (side : Bool) (vs : List Vote) : ℤ :=
  ((vs.filter (·.approve = side)).map (·.weight.val)).sum

@[simp] theorem heads_cons (side : Bool) (v : Vote) (vs : List Vote) :
    heads side (v :: vs) = heads side vs + if v.approve = side then 1 else 0 := by
  simp [heads, List.countP_cons]

@[simp] theorem weightOf_cons (side : Bool) (v : Vote) (vs : List Vote) :
    weightOf side (v :: vs) = weightOf side vs + if v.approve = side then v.weight.val else 0 := by
  unfold weightOf
  rw [List.filter_cons]
  split <;> simp_all [add_comm]

theorem heads_add_heads (vs : List Vote) : heads true vs + heads false vs = vs.length := by
  induction vs with
  | nil => rfl
  | cons v vs ih =>
    rw [heads_cons, heads_cons, List.length_cons, ← ih]
    cases v.approve <;> simp <;> omega

theorem toNat_succ {x : UInt32} (h : x.toNat + 1 < 2 ^ 32) : (x + 1).toNat = x.toNat + 1 := by
  rw [UInt32.toNat_add, UInt32.toNat_one, Nat.mod_eq_of_lt h]

def voteOn (C : Contracts W) (id : UInt64) (st : Step (State × W) (Event contract W)) :
    Option Vote :=
  match st.label with
  | .call _ (.vote voter id' approve) =>
      if id' = id then
        some ⟨voter, approve, (st.before.1.getVoterVotingWeight C contract voter st.before.2).1⟩
      else none
  | _ => none

/-- The votes on a proposal in a run, the most recent first. -/
def ballotsOn (C : Contracts W) (id : UInt64) (tr : Trace (State × W) (Event contract W)) :
    List Vote :=
  tr.filterMap (voteOn C id)

theorem ballotsOn_of_none (h : voteOn C id st = none) :
    ballotsOn C id (st :: tr) = ballotsOn C id tr :=
  List.filterMap_cons_none h

theorem ballotsOn_of_some {v : Vote} (h : voteOn C id st = some v) :
    ballotsOn C id (st :: tr) = v :: ballotsOn C id tr :=
  List.filterMap_cons_some h

structure Scores (vs : List Vote) (p : Proposal) : Prop where
  votesFor : p.votesFor.toNat = heads true vs
  votesAgainst : p.votesAgainst.toNat = heads false vs
  votesForWeight : p.votesForWeight.val = weightOf true vs
  votesAgainstWeight : p.votesAgainstWeight.val = weightOf false vs

/-- The counter and the weight of the chosen side have room for one more vote. -/
def Proposal.HasRoom (p : Proposal) (approve : Bool) (weight : I128) : Prop :=
  if approve = true then
    p.votesFor.toNat + 1 < 2 ^ 32 ∧ I128.Fits (p.votesForWeight.val + weight.val)
  else p.votesAgainst.toNat + 1 < 2 ^ 32 ∧ I128.Fits (p.votesAgainstWeight.val + weight.val)

theorem Scores.congr {vs : List Vote} (h : Scores vs p) (hq : q.blank = p.blank) : Scores vs q where
  votesFor := (congrArg (·.votesFor.toNat) hq).trans h.votesFor
  votesAgainst := (congrArg (·.votesAgainst.toNat) hq).trans h.votesAgainst
  votesForWeight := (congrArg (·.votesForWeight.val) hq).trans h.votesForWeight
  votesAgainstWeight := (congrArg (·.votesAgainstWeight.val) hq).trans h.votesAgainstWeight

theorem blank_activate : p.activate.blank = p.blank := by
  unfold Proposal.activate
  split <;> rfl

theorem Scores.cast {vs : List Vote} {weight : I128} (h : Scores vs p)
    (hr : p.HasRoom approve weight) :
    Scores (⟨voter, approve, weight⟩ :: vs) (p.cast approve weight) := by
  obtain ⟨hf, ha, hfw, haw⟩ := h
  unfold Proposal.HasRoom at hr
  cases approve with
  | true =>
    simp only [if_true] at hr
    refine ⟨?_, ?_, ?_, ?_⟩ <;>
      simp only [Proposal.cast, if_true, heads_cons, weightOf_cons, Bool.true_eq_false, if_false,
        add_zero]
    · rw [toNat_succ hr.1, hf]
    · exact ha
    · rw [I128.val_add hr.2, hfw]
    · exact haw
  | false =>
    simp only [Bool.false_eq_true, if_false] at hr
    refine ⟨?_, ?_, ?_, ?_⟩ <;>
      simp only [Proposal.cast, if_true, heads_cons, weightOf_cons, Bool.false_eq_true, if_false,
        add_zero]
    · exact hf
    · rw [toNat_succ hr.1, ha]
    · exact hfw
    · rw [I128.val_add hr.2, haw]

/-- Marks, counters and weights of an identifier record the votes of the run on it. -/
structure Tallied (C : Contracts W) (tr : Trace (State × W) (Event contract W)) (s : State)
    (id : UInt64) : Prop where
  marks : Indexes (fun a => s.hasVoted (id, a) = true) ((ballotsOn C id tr).map (·.voter))
  unborn : s.proposal id = none → ballotsOn C id tr = []
  scores : ∀ p, s.proposal id = some p → Scores (ballotsOn C id tr) p

namespace Tallied

variable (h : Tallied C tr s id)

include h

theorem keep (hst : voteOn C id st = none)
    (hp : (s'.proposal id).map Proposal.blank = (s.proposal id).map Proposal.blank)
    (hm : ∀ a, s'.hasVoted (id, a) = s.hasVoted (id, a)) : Tallied C (st :: tr) s' id := by
  have hv : ballotsOn C id (st :: tr) = ballotsOn C id tr := ballotsOn_of_none hst
  refine ⟨?_, fun hnone => ?_, fun q hq => ?_⟩
  · rw [hv]
    exact h.marks.congr fun a => by rw [hm]
  · rw [hnone] at hp
    rw [hv]
    exact h.unborn (Option.map_eq_none_iff.mp hp.symm)
  · rw [hq] at hp
    obtain ⟨p, hp', hblank⟩ := Option.map_eq_some_iff.mp hp.symm
    rw [hv]
    exact (h.scores p hp').congr hblank.symm

theorem polls (hst : voteOn C id st = none) (hp : s'.polls = s.polls) :
    Tallied C (st :: tr) s' id :=
  h.keep hst (congrFun (congrArg Polls.paper hp) id)
    fun a => congrFun (congrArg Polls.hasVoted hp) (id, a)

theorem create (hst : voteOn C id st = none) (hfresh : s.proposal id = none)
    (hp : s'.proposal id = some p) (hm : s'.hasVoted = s.hasVoted) (hs : Scores [] p) :
    Tallied C (st :: tr) s' id := by
  have hv : ballotsOn C id (st :: tr) = ballotsOn C id tr := ballotsOn_of_none hst
  have hnil := h.unborn hfresh
  refine ⟨?_, fun hnone => ?_, fun q hq => ?_⟩
  · rw [hv]
    exact h.marks.congr fun a => by rw [hm]
  · rw [hp] at hnone
    cases hnone
  · rw [hp] at hq
    cases hq
    rw [hv, hnil]
    exact hs

theorem vote {weight : I128} (hst : voteOn C id st = some ⟨voter, approve, weight⟩)
    (hp : s.proposal id = some p) (hfresh : s.hasVoted (id, voter) = false)
    (hr : p.HasRoom approve weight)
    (hq : (s'.proposal id).map Proposal.blank = some (p.activate.cast approve weight).blank)
    (hm : s'.hasVoted = update s.hasVoted (id, voter) true) : Tallied C (st :: tr) s' id := by
  have hv : ballotsOn C id (st :: tr) = ⟨voter, approve, weight⟩ :: ballotsOn C id tr :=
    ballotsOn_of_some hst
  have hroom : p.activate.HasRoom approve weight := by
    have hsame : p.activate.HasRoom approve weight = p.HasRoom approve weight := by
      unfold Proposal.activate
      split <;> rfl
    rwa [hsame]
  have hscores : Scores (⟨voter, approve, weight⟩ :: ballotsOn C id tr)
      (p.activate.cast approve weight) := ((h.scores p hp).congr blank_activate).cast hroom
  refine ⟨?_, fun hnone => ?_, fun r hr' => ?_⟩
  · rw [hv]
    refine h.marks.cons ?_ ?_ fun a ha => ?_
    · rw [h.marks.mem_iff, hfresh]
      simp
    · rw [hm, update_self]
    · rw [hm, update_of_ne fun heq => ha (congrArg Prod.snd heq)]
  · rw [hnone] at hq
    cases hq
  · rw [hr'] at hq
    rw [hv]
    exact hscores.congr (Option.some.inj hq)

end Tallied

theorem vote_polls (h : s.vote C e voter id approve w = .ok (s', w')) :
    ∃ p, s.MayVote e voter id p ∧
      s'.polls = (s.recordVote voter id
        (p.activate.cast approve (s.getVoterVotingWeight C contract voter w).1)).polls := by
  obtain ⟨p, hmay, rfl, -⟩ := vote_eq_ok.mp h
  exact ⟨p, hmay, polls_resolve e.timestamp recordVote_self⟩

theorem propose_polls {proposer : Address} {title description : String}
    {actions : List GovernanceAction} {allowPartialExecution : Bool}
    (h : run C e s w (.propose proposer title description actions allowPartialExecution) =
      .ok (s', w')) :
    ∃ p, s' = { s.saveProposal (s.proposalCount + 1) p with
        activeProposals := s.activeProposals ++ [s.proposalCount + 1]
        proposalCount := s.proposalCount + 1 } ∧ Scores [] p := by
  simp only [run, discard, State.propose, bind_eq_ok, pure_eq_ok] at h
  obtain ⟨⟨i, s₁, w₁⟩, ⟨_, -, _, -, _, -, hid⟩, heq⟩ := h
  cases heq
  cases hid
  exact ⟨_, rfl, rfl, rfl, rfl, rfl⟩

/-- Identifiers are left, and every counter and sum of weights has room for what is added. -/
def countable (C : Contracts W) : Guard (State × W) (Event contract W) := fun tr sw ev =>
  match ev with
  | .call _ (.propose ..) => proposals tr < 2 ^ 64
  | .call _ (.addMember ..) => sw.1.memberCount.toNat + 1 < 2 ^ 32
  | .call _ (.vote voter id approve) => ∀ p, sw.1.proposal id = some p →
      p.HasRoom approve (sw.1.getVoterVotingWeight C contract voter sw.2).1
  | _ => True

theorem tallied_step {ev : Event contract W} (h : ∀ id, Tallied C tr s id) (hn : Numbered tr s)
    (hg : countable C tr (s, w) ev) (hs : step C ev (s, w) = .ok (s', w')) (id : UInt64) :
    Tallied C (⟨(s, w), ev, (s', w')⟩ :: tr) s' id := by
  cases ev with
  | outside v =>
    cases hs
    exact (h id).polls rfl rfl
  | call e c =>
    have hs : run C e s w c = .ok (s', w') := hs
    cases c with
    | propose =>
      obtain ⟨p, rfl, hp⟩ := propose_polls hs
      by_cases hid : id = s.proposalCount + 1
      · subst hid
        exact (h _).create rfl (hn.fresh hg) (update_self ..) rfl hp
      · refine (h id).keep rfl ?_ fun a => rfl
        exact congrArg (Option.map Proposal.blank) (update_of_ne hid ..)
    | vote voter i approve =>
      obtain ⟨p, hmay, hp⟩ := vote_polls hs
      have hmarks : s'.hasVoted = update s.hasVoted (i, voter) true := congrArg Polls.hasVoted hp
      by_cases hid : i = id
      · subst hid
        refine (h i).vote (if_pos rfl) hmay.stored hmay.fresh (hg p hmay.stored) ?_ hmarks
        refine (congrFun (congrArg Polls.paper hp) i).trans ?_
        exact congrArg (Option.map Proposal.blank) recordVote_self
      · refine (h id).keep (if_neg hid) ?_ fun a => ?_
        · refine (congrFun (congrArg Polls.paper hp) id).trans ?_
          exact congrArg (Option.map Proposal.blank) (recordVote_of_ne (Ne.symm hid))
        · have hne : (id, a) ≠ (i, voter) := fun heq => hid (congrArg Prod.fst heq).symm
          rw [hmarks, update_of_ne hne]
    | setGovernanceToken =>
      simp only [run, State.setGovernanceToken, bind_eq_ok] at hs
      obtain ⟨_, -, hs⟩ := hs
      split at hs <;> cases hs
      exact (h id).keep rfl rfl fun a => rfl
    | addMember =>
      obtain ⟨-, rfl⟩ := addMember_cases (within_eq_ok.mp hs).1
      exact (h id).keep rfl rfl fun a => rfl
    | removeMember =>
      obtain ⟨-, -, rfl⟩ := removeMember_cases (within_eq_ok.mp hs).1
      exact (h id).keep rfl rfl fun a => rfl
    | _ => exact (h id).polls rfl (run_polls rfl hs)

/-- The member count is the number of the members. -/
def State.Enrolled (s : State) : Prop :=
  ∃ l, Indexes (fun a => s.member a = true) l ∧ l.length = s.memberCount.toNat

theorem State.Enrolled.congr (h : s.Enrolled) (hp : s'.polls = s.polls) : s'.Enrolled := by
  have hm : s'.member = s.member := congrArg Polls.member hp
  have hc : s'.memberCount = s.memberCount := congrArg Polls.memberCount hp
  unfold State.Enrolled
  rw [hm, hc]
  exact h

theorem enrol_indexes {list : List Address} {member : Address → Bool} {count : UInt32}
    {l : List Address} (hi : Indexes (fun a => member a = true) l) (hl : l.length = count.toNat)
    (hlt : count.toNat + list.length < 2 ^ 32) :
    ∃ l', Indexes (fun a => (enrol list member count).1 a = true) l' ∧
      l'.length = (enrol list member count).2.toNat := by
  induction list generalizing member count l with
  | nil => exact ⟨l, hi, hl⟩
  | cons a rest ih =>
    rw [List.length_cons] at hlt
    unfold enrol
    split
    · exact ih hi hl (by omega)
    · rename_i hnew
      have hnext := toNat_succ (x := count) (by omega)
      have ha : a ∉ l := fun hmem => hnew ((hi.mem_iff a).mp hmem)
      refine ih (hi.cons ha (update_self ..) fun b hb => ?_) ?_ (by omega)
      · rw [update_of_ne hb]
      · rw [List.length_cons, hl, hnext]

theorem addMember_enrolled {admin newMember : Address} (h : s.Enrolled)
    (hlt : s.memberCount.toNat + 1 < 2 ^ 32) (hs : s.addMember e admin newMember = .ok s') :
    s'.Enrolled ∧ s'.memberCount.toNat = s.memberCount.toNat + 1 := by
  obtain ⟨hnew, rfl⟩ := addMember_cases hs
  obtain ⟨l, hi, hl⟩ := h
  have hnext := toNat_succ hlt
  have hmem : newMember ∉ l := by
    rw [hi.mem_iff, hnew]
    simp
  have hsame (b : Address) (hb : b ≠ newMember) :
      update s.member newMember true b = true ↔ s.member b = true := by
    rw [update_of_ne hb]
  refine ⟨⟨newMember :: l, hi.cons hmem (update_self ..) hsame, ?_⟩, hnext⟩
  rw [List.length_cons, hl, hnext]

theorem removeMember_enrolled {admin member : Address} (h : s.Enrolled)
    (hs : s.removeMember e admin member = .ok s') :
    s'.Enrolled ∧ 1 ≤ s'.memberCount.toNat := by
  obtain ⟨hold, hlt, rfl⟩ := removeMember_cases hs
  obtain ⟨l, hi, hl⟩ := h
  have hlt : 1 < s.memberCount.toNat := UInt32.lt_iff_toNat_lt.mp hlt
  have hprev : (s.memberCount - 1).toNat = s.memberCount.toNat - 1 :=
    UInt32.toNat_sub_of_le _ _ (UInt32.le_iff_toNat_le.mpr hlt.le)
  have hlength := hi.length_erase (a := member) hold
  have hsame (b : Address) (hb : b ≠ member) :
      update s.member member false b = true ↔ s.member b = true := by
    rw [update_of_ne hb]
  have hgone : ¬ update s.member member false member = true := by
    rw [update_self]
    simp
  refine ⟨⟨_, hi.erase hgone hsame, ?_⟩, ?_⟩
  · rw [hprev]
    omega
  · rw [hprev]
    omega

theorem enrolled_step {ev : Event contract W} (h : s.Enrolled) (hg : countable C tr (s, w) ev)
    (hs : step C ev (s, w) = .ok (s', w')) :
    s'.Enrolled ∧ (1 ≤ s.memberCount.toNat → 1 ≤ s'.memberCount.toNat) := by
  cases ev with
  | outside v =>
    cases hs
    exact ⟨h, fun h1 => h1⟩
  | call e c =>
    have hs : run C e s w c = .ok (s', w') := hs
    cases c with
    | propose =>
      obtain ⟨p, rfl, -⟩ := propose_polls hs
      exact ⟨h, fun h1 => h1⟩
    | vote =>
      obtain ⟨p, -, hp⟩ := vote_polls hs
      have hm : s'.member = s.member := congrArg Polls.member hp
      have hc : s'.memberCount = s.memberCount := congrArg Polls.memberCount hp
      unfold State.Enrolled
      rw [hm, hc]
      exact ⟨h, fun h1 => h1⟩
    | setGovernanceToken =>
      simp only [run, State.setGovernanceToken, bind_eq_ok] at hs
      obtain ⟨_, -, hs⟩ := hs
      split at hs <;> cases hs
      exact ⟨h, fun h1 => h1⟩
    | addMember =>
      obtain ⟨henrolled, hc⟩ := addMember_enrolled h hg (within_eq_ok.mp hs).1
      exact ⟨henrolled, fun _ => by omega⟩
    | removeMember =>
      obtain ⟨henrolled, hc⟩ := removeMember_enrolled h (within_eq_ok.mp hs).1
      exact ⟨henrolled, fun _ => hc⟩
    | _ =>
      have hp := run_polls rfl hs
      have hc : s'.memberCount = s.memberCount := congrArg Polls.memberCount hp
      exact ⟨h.congr hp, fun h1 => hc ▸ h1⟩

structure OneVoteEach (C : Contracts W) (tr : Trace (State × W) (Event contract W))
    (sw : State × W) : Prop where
  counts : ∀ id p, sw.1.proposal id = some p →
    {a | sw.1.hasVoted (id, a) = true}.Finite ∧
      p.votesFor.toNat + p.votesAgainst.toNat = {a | sw.1.hasVoted (id, a) = true}.ncard
  marks : ∀ id a, sw.1.hasVoted (id, a) = true ↔ ∃ v ∈ ballotsOn C id tr, v.voter = a
  once : ∀ id, ((ballotsOn C id tr).map (·.voter)).Nodup
  lawful : ∀ st ∈ tr, ∀ e voter id approve, st.label = .call e (.vote voter id approve) →
    ∃ p, st.before.1.MayVote e voter id p
  weights : ∀ id p, sw.1.proposal id = some p →
    p.votesForWeight.val = weightOf true (ballotsOn C id tr) ∧
      p.votesAgainstWeight.val = weightOf false (ballotsOn C id tr)
  members : {a | sw.1.member a = true}.Finite ∧
    sw.1.memberCount.toNat = {a | sw.1.member a = true}.ncard
  populated : ∀ st ∈ tr, 1 ≤ st.before.1.memberCount.toNat → 1 ≤ sw.1.memberCount.toNat
  failed : ∀ e voter id approve x, sw.1.vote C e voter id approve sw.2 = .error x →
    (machine contract C).call sw (.call e (.vote voter id approve)) = sw

section Run

variable {sw₀ sw : State × W} {admin : Address} {initialMembers : List Address}

theorem tallied_run (h0 : initialise none admin initialMembers = .ok sw₀.1)
    (h : ((machine contract C).startedIn sw₀).Run (countable C) tr sw) (id : UInt64) :
    Tallied C tr sw.1 id := by
  refine (Machine.Run.invariant
    (I := fun tr sw => Numbered tr sw.1 ∧ ∀ id, Tallied C tr sw.1 id) ?_ ?_ h).2 id
  · rintro sw rfl
    have hinit : (machine contract C).init sw := ⟨admin, initialMembers, h0⟩
    refine ⟨numbered_init hinit, fun id => ?_⟩
    rw [(initialise_eq_ok.mp h0).2]
    exact ⟨.nil (by simp), fun _ => rfl, fun p hp => by cases hp⟩
  · rintro tr ⟨s, w⟩ ev ⟨s', w'⟩ hr ⟨hn, ht⟩ hg hs
    have hr := (hr.of_startedIn ⟨admin, initialMembers, h0⟩).step hg hs
    exact ⟨numbered_run hr, fun id => tallied_step ht hn hg hs id⟩

theorem enrolled_run (h0 : initialise none admin initialMembers = .ok sw₀.1)
    (hlen : initialMembers.length < 2 ^ 32)
    (h : ((machine contract C).startedIn sw₀).Run (countable C) tr sw) :
    sw.1.Enrolled ∧
      ∀ st ∈ tr, 1 ≤ st.before.1.memberCount.toNat → 1 ≤ sw.1.memberCount.toNat := by
  refine Machine.Run.invariant (I := fun tr sw => sw.1.Enrolled ∧
    ∀ st ∈ tr, 1 ≤ st.before.1.memberCount.toNat → 1 ≤ sw.1.memberCount.toNat) ?_ ?_ h
  · rintro sw rfl
    rw [(initialise_eq_ok.mp h0).2]
    have hempty : Indexes (fun a : Address => (fun _ => false : Address → Bool) a = true) [] :=
      .nil (by simp)
    exact ⟨enrol_indexes hempty rfl (by simpa using hlen), by simp⟩
  · rintro tr ⟨s, w⟩ ev ⟨s', w'⟩ - ⟨henrolled, hpop⟩ hg hs
    obtain ⟨henrolled', hkeep⟩ := enrolled_step henrolled hg hs
    refine ⟨henrolled', fun st hst h1 => ?_⟩
    rcases List.mem_cons.mp hst with rfl | hst
    · exact hkeep h1
    · exact hkeep (hpop st hst h1)

/--
Every member has one counted vote on a proposal, in every run in which no
counter and no sum of weights leaves its range and identifiers are left.
-/
theorem votes_counted (h0 : initialise none admin initialMembers = .ok sw₀.1)
    (hlen : initialMembers.length < 2 ^ 32)
    (h : ((machine contract C).startedIn sw₀).Run (countable C) tr sw) : OneVoteEach C tr sw := by
  have ht := tallied_run h0 h
  obtain ⟨⟨l, hl, hcount⟩, hpop⟩ := enrolled_run h0 hlen h
  refine ⟨fun id p hp => ?_, fun id a => ?_, fun id => (ht id).marks.nodup, ?_, fun id p hp => ?_,
    ⟨hl.finite, hl.ncard_eq ▸ hcount.symm⟩, hpop, ?_⟩
  · refine ⟨(ht id).marks.finite, ?_⟩
    obtain ⟨hf, ha, -, -⟩ := (ht id).scores p hp
    rw [(ht id).marks.ncard_eq, List.length_map, hf, ha, heads_add_heads]
  · rw [← (ht id).marks.mem_iff, List.mem_map]
  · intro st hst e voter id approve hlabel
    obtain ⟨tr', -, -, hs⟩ := h.mem st hst
    rw [hlabel] at hs
    obtain ⟨p, hmay, -⟩ := vote_eq_ok.mp hs
    exact ⟨p, hmay⟩
  · obtain ⟨-, -, hf, ha⟩ := (ht id).scores p hp
    exact ⟨hf, ha⟩
  · intro e voter id approve x hx
    simp [Machine.call, machine, step, run, hx]

end Run

section Sample

/-- The sum of all units is one hundred below the limit of the type. -/
def heavy : List (Env Token.home × Token.Call) :=
  [Token.signedBy 0 (.mintTo (.account 0) (.account 3) (I128.wrap (2 ^ 127 - 200)))]

/-- The account `1` sends its hundred units to the account `3`. -/
def gathered : List (Env Token.home × Token.Call) :=
  heavy ++ [Token.signedBy 1 (.transfer (.account 1) (.account 3) 100)]

def strictCouncil : Event council Ledger :=
  calledBy 0 (.updateConfig (.account 0) { quorumBps := 5001 })

/-- The account `1` votes with its units, and the account `3` with all units. -/
def overweight : State × Ledger :=
  councilMachine.calls (founded.1, ledgerAfter heavy) [strictCouncil,
    calledBy 0 (.setGovernanceToken (.account 0) Token.home),
    calledBy 1 (.propose (.account 1) "fees" "" [] false), calledBy 1 (.vote (.account 1) 1 true),
    movedBy gathered, calledBy 3 (.vote (.account 3) 1 true)]

/-- The sum of two weights wraps to the smallest value of the type. -/
theorem weights_wrap : ∃ tr,
    (councilMachine.startedIn (founded.1, ledgerAfter heavy)).Run Machine.anyCall tr overweight ∧
      initialise none (.account 0) [.account 1, .account 2, .account 3] = .ok founded.1 ∧
      (overweight.1.proposal 1).map (·.votesForWeight.val) = some (-2 ^ 127) ∧
      weightOf true (ballotsOn (creditContracts Token.home) 1 tr) = 2 ^ 127 ∧
      ¬ OneVoteEach (creditContracts Token.home) tr overweight := by
  have h0 := Machine.Run.init (m := councilMachine.startedIn (founded.1, ledgerAfter heavy))
    (G := Machine.anyCall) rfl
  have h1 := h0.call (l := strictCouncil) trivial (by rfl)
  have h2 := h1.call (l := calledBy 0 (.setGovernanceToken (.account 0) Token.home)) trivial
    (by rfl)
  have h3 := h2.call (l := calledBy 1 (.propose (.account 1) "fees" "" [] false)) trivial (by rfl)
  have h4 := h3.call (l := calledBy 1 (.vote (.account 1) 1 true)) trivial (by rfl)
  have h5 := h4.call (l := movedBy gathered) trivial (by rfl)
  have h6 := h5.call (l := calledBy 3 (.vote (.account 3) 1 true)) trivial (by rfl)
  have hstored : (overweight.1.proposal 1).map (·.votesForWeight.val) = some (-2 ^ 127) := by rfl
  refine ⟨_, h6, by rfl, hstored, by rfl, fun hv => ?_⟩
  obtain ⟨p, hp, hw⟩ := Option.map_eq_some_iff.mp hstored
  have hsum := (hv.weights 1 p hp).1
  rw [hw] at hsum
  exact absurd hsum (by decide)

theorem votes_counted_unanimous : ∃ tr,
    (councilMachine.startedIn founded).Run (countable (creditContracts Token.home)) tr unanimous ∧
      OneVoteEach (creditContracts Token.home) tr unanimous ∧
      {a | unanimous.1.hasVoted (1, a) = true}.ncard = 2 := by
  have h0 := Machine.Run.init (m := councilMachine.startedIn founded)
    (G := countable (creditContracts Token.home)) rfl
  have h1 := h0.call (l := calledBy 0 (.setGovernanceToken (.account 0) Token.home)) trivial
    (by rfl)
  have h2 := h1.call (l := calledBy 1 (.propose (.account 1) "fees" "" [] false))
    (by decide : 0 < 2 ^ 64) (by rfl)
  have h3 := h2.call (l := calledBy 1 (.vote (.account 1) 1 true))
    (fun p hp => by cases hp; exact ⟨by decide, by decide⟩) (by rfl)
  have h4 := h3.call (l := calledBy 3 (.vote (.account 3) 1 false))
    (fun p hp => by cases hp; exact ⟨by decide, by decide⟩) (by rfl)
  have hfounded : initialise none (.account 0) [.account 1, .account 2, .account 3] =
    .ok founded.1 := by rfl
  have hv := votes_counted hfounded (by decide) h4
  have hstored : (unanimous.1.proposal 1).map (fun p => p.votesFor.toNat + p.votesAgainst.toNat) =
      some 2 := by rfl
  obtain ⟨p, hp, hsum⟩ := Option.map_eq_some_iff.mp hstored
  exact ⟨_, h4, hv, (hv.counts 1 p hp).2.symm.trans hsum⟩

end Sample

end WaterCredits.Governance
