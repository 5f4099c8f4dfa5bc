import WaterCredits.Governance.Counting
import WaterCredits.Governance.Execution

/-! # What is executed is what was proposed

The terms of a proposal are fixed when a member makes it: the votes on it, its
approval and its execution all see the same ones. So the calls that an execution
dispatches are those that were proposed, in the mode that was proposed, and the
members' votes on just these terms have approved them.
-/

namespace WaterCredits.Governance

open Foundation Function

variable {contract caller : Address} {W : Type} {C : Contracts W} {e : Env contract}
  {s s' : State} {w w' : W} {id : UInt64} {p q : Proposal} {c : Call}
  {tr : Trace (State × W) (Event contract W)} {st : Step (State × W) (Event contract W)}

/-- What a proposal says, without the votes on it and its progress. -/
def Proposal.terms (p : Proposal) : Proposal :=
  { p with
    votesFor := 0
    votesAgainst := 0
    votesForWeight := 0
    votesAgainstWeight := 0
    status := .pending
    timelockEndsAt := 0
    actionResults := [] }

theorem terms_activate : p.activate.terms = p.terms := by
  unfold Proposal.activate
  split <;> rfl

theorem terms_cast {approve : Bool} {weight : I128} :
    (p.cast approve weight).terms = p.terms := by
  unfold Proposal.cast
  split <;> rfl

theorem results_activate : p.activate.actionResults = p.actionResults := by
  unfold Proposal.activate
  split <;> rfl

theorem results_cast {approve : Bool} {weight : I128} :
    (p.cast approve weight).actionResults = p.actionResults := by
  unfold Proposal.cast
  split <;> rfl

/-- The member makes the proposal with these terms. -/
structure Proposes (C : Contracts W) (st : Step (State × W) (Event contract W)) (id : UInt64)
    (p : Proposal) : Prop where
  call : ∃ e, st.label = .call e
    (.propose p.proposer p.title p.description p.actions p.allowPartialExecution) ∧
    e.auth p.proposer = true ∧ p.createdAt = e.timestamp ∧
    p.votingEndsAt = e.timestamp + st.before.1.config.votingPeriod
  member : st.before.1.member p.proposer = true
  numbered : p.id = id ∧ id = st.before.1.proposalCount + 1
  eligible : p.eligibleVoters = st.before.1.memberCount ∧
    p.totalEligibleWeight = (st.before.1.getTotalEligibleWeight C contract st.before.2).1

theorem Proposes.congr (h : Proposes C st id p) (ht : q.terms = p.terms) :
    Proposes C st id q := by
  simp only [Proposal.terms, Proposal.mk.injEq] at ht
  obtain ⟨hid, hproposer, htitle, hdescription, hactions, hpartial, -, -, -, hvoters, hweight, -,
    -, -, hcreated, hends, -⟩ := ht
  refine ⟨?_, hproposer ▸ h.member, hid ▸ h.numbered, hvoters ▸ hweight ▸ h.eligible⟩
  rw [hproposer, htitle, hdescription, hactions, hpartial, hcreated, hends]
  exact h.call

structure Approves (st : Step (State × W) (Event contract W)) (id : UInt64) (p : Proposal) :
    Prop where
  vote : ∃ e voter approve, st.label = .call e (.vote voter id approve) ∧
    p.timelockEndsAt = e.timestamp + st.before.1.config.timelockDuration
  quorum : st.before.1.reachesQuorum p = true
  carried : st.before.1.approves p = true

/-- How a call comes to leave the proposal `q`. -/
inductive Fate (C : Contracts W) (e : Env contract) (c : Call) (s : State) (w : W) (id : UInt64)
    (q : Proposal) : Prop
  | kept : s.proposal id = some q → Fate C e c s w id q
  | made : (∀ sw, Proposes C ⟨(s, w), .call e c, sw⟩ id q) → q.status = .pending →
      q.actionResults = [] → Fate C e c s w id q
  | moved {p : Proposal} : s.proposal id = some p → q.terms = p.terms →
      p.status ≠ .executed → q.actionResults = p.actionResults →
      (q.status = .approved → ∀ sw, Approves (W := W) ⟨(s, w), .call e c, sw⟩ id q) →
      Fate C e c s w id q
  | executed {p : Proposal} : s.proposal id = some p → q.terms = p.terms →
      q.status = .executed → Fate C e c s w id q

theorem resolve_fate {timestamp : UInt64} (h : s.proposal id = some p) (hp : p.status = .active)
    (hq : (s.resolve timestamp id p).proposal id = some q) :
    q.terms = p.terms ∧ q.actionResults = p.actionResults ∧
      (q.status = .approved → s.reachesQuorum q = true ∧ s.approves q = true ∧
        q.timelockEndsAt = timestamp + s.config.timelockDuration) := by
  unfold State.resolve at hq
  split at hq
  · rename_i hreached
    split at hq <;> simp only [State.saveProposal, State.removeFromActive, update_self] at hq <;>
      cases hq
    · rename_i hcarried
      exact ⟨rfl, rfl, fun _ => ⟨hreached, hcarried, rfl⟩⟩
    · exact ⟨rfl, rfl, fun hs => by cases hs⟩
  · obtain rfl := Option.some.inj (h.symm.trans hq)
    exact ⟨rfl, rfl, fun hs => absurd (hp.symm.trans hs) (by simp)⟩

theorem vote_fate {voter : Address} {approve : Bool} {i : UInt64}
    (h : s.vote C e voter i approve w = .ok (s', w')) (hq : s'.proposal id = some q) :
    Fate C e (.vote voter i approve) s w id q := by
  obtain ⟨p, hmay, rfl, -⟩ := vote_eq_ok.mp h
  generalize hcast : p.activate.cast approve (s.getVoterVotingWeight C contract voter w).1 = r at hq
  have hactive : r.status = .active := by
    have hact : p.activate.status = .active := status_activate.mpr hmay.live
    rw [← hcast]
    unfold Proposal.cast
    split <;> exact hact
  by_cases hid : id = i
  · subst hid
    obtain ⟨hterms, hresults, happroved⟩ := resolve_fate recordVote_self hactive hq
    refine .moved hmay.stored ?_ ?_ ?_ fun hs sw => ?_
    · rw [hterms, ← hcast, terms_cast, terms_activate]
    · rcases hmay.live with hl | hl <;> simp [hl]
    · rw [hresults, ← hcast, results_cast, results_activate]
    · obtain ⟨hquorum, hcarried, hends⟩ := happroved hs
      exact ⟨⟨e, voter, approve, rfl, hends⟩, hquorum, hcarried⟩
  · refine .kept (Eq.trans ?_ hq)
    have hvoted : (s.recordVote voter i r).proposal i = some r := recordVote_self
    obtain ⟨r', hr', -⟩ := resolve_cases e.timestamp hvoted hactive
    rw [hr', update_of_ne hid, recordVote_of_ne hid]

theorem propose_fate {proposer : Address} {title description : String}
    {actions : List GovernanceAction} {allowPartialExecution : Bool}
    (h : run C e s w (.propose proposer title description actions allowPartialExecution) =
      .ok (s', w')) (hq : s'.proposal id = some q) :
    Fate C e (.propose proposer title description actions allowPartialExecution) s w id q := by
  simp only [run, discard, State.propose, bind_eq_ok, State.requireMember_eq_ok, pure_eq_ok] at h
  obtain ⟨⟨i, t, v⟩, ⟨_, ⟨hauth, hmember⟩, _, -, _, -, hmade⟩, heq⟩ := h
  cases heq
  cases hmade
  simp only [State.saveProposal, update_apply] at hq
  split at hq
  · rename_i hid
    obtain rfl := Option.some.inj hq
    exact .made (fun _ => ⟨⟨e, rfl, hauth, rfl, rfl⟩, hmember, ⟨hid.symm, hid⟩, rfl, rfl⟩) rfl rfl
  · exact .kept hq

theorem save_fate {i : UInt64} (hp : s.proposal i = some p) (hterms : q.terms = p.terms)
    (hresults : q.actionResults = p.actionResults) (hlive : p.status ≠ .executed)
    (hstatus : q.status ≠ .approved) {r : Proposal}
    (hr : (s.saveProposal i q).proposal id = some r) : Fate C e c s w id r := by
  simp only [State.saveProposal, update_apply] at hr
  split at hr
  · rename_i hid
    obtain rfl := Option.some.inj hr
    exact .moved (hid ▸ hp) hterms hlive hresults fun hs => absurd hs hstatus
  · exact .kept hr

theorem cancelProposal_fate {i : UInt64} (h : s.cancelProposal e caller i = .ok s')
    (hq : s'.proposal id = some q) : Fate C e (.cancelProposal caller i) s w id q := by
  simp only [State.cancelProposal, bind_eq_ok, State.expectProposal_eq_ok, ensure_eq_ok,
    pure_eq_ok] at h
  obtain ⟨_, -, p, hp, _, -, _, hc, rfl⟩ := h
  have hlive : p.status ≠ .executed := by
    intro hs
    rw [hs] at hc
    unfold State.cancellable at hc
    split at hc <;> simp at hc
  exact save_fate (q := { p with status := .cancelled }) hp rfl rfl hlive (by simp) hq

theorem expireProposal_fate {i : UInt64} (h : s.expireProposal e i = .ok s')
    (hq : s'.proposal id = some q) : Fate C e (.expireProposal i) s w id q := by
  simp only [State.expireProposal, bind_eq_ok, State.expectProposal_eq_ok, ensure_eq_ok,
    pure_eq_ok] at h
  obtain ⟨p, hp, _, hopen, _, -, rfl⟩ := h
  have hlive : p.status ≠ .executed := by rcases hopen with h | h <;> simp [h]
  exact save_fate (q := { p with status := .expired }) hp rfl rfl hlive (by simp) hq

theorem execute_fate {i : UInt64} (h : s.execute C e caller i w = .ok (s', w'))
    (hq : s'.proposal id = some q) : Fate C e (.execute caller i) s w id q := by
  simp only [State.execute, bind_eq_ok, State.expectProposal_eq_ok, pure_eq_ok] at h
  obtain ⟨_, -, p, hp, _, -, _, -, ⟨results, t, v⟩, hd, heq⟩ := h
  cases heq
  have ht : t.proposal = s.proposal := by
    rw [dispatchActions_frame hd]
    rfl
  simp only [State.saveProposal, update_apply, ht] at hq
  split at hq
  · rename_i hid
    obtain rfl := Option.some.inj hq
    exact .executed (p := p) (hid ▸ hp) rfl rfl
  · exact .kept hq

theorem run_fate (h : run C e s w c = .ok (s', w')) (hq : s'.proposal id = some q) :
    Fate C e c s w id q := by
  cases c with
  | propose => exact propose_fate h hq
  | vote => exact vote_fate h hq
  | execute => exact execute_fate h hq
  | cancelProposal => exact cancelProposal_fate (within_eq_ok.mp h).1 hq
  | expireProposal => exact expireProposal_fate (within_eq_ok.mp h).1 hq
  | _ =>
    have ha : s'.proposal = s.proposal := congrArg Prod.fst (run_agenda rfl h).1
    exact .kept (ha ▸ hq)

/-- A vote of the run has approved the proposal after a member made it with these terms. -/
def ApprovedIn (C : Contracts W) (tr : Trace (State × W) (Event contract W)) (id : UInt64)
    (p : Proposal) : Prop :=
  ∃ post st pre, tr = post ++ st :: pre ∧ Approves st id p ∧ ∃ st₀ ∈ pre, Proposes C st₀ id p

theorem ApprovedIn.cons (h : ApprovedIn C tr id p) : ApprovedIn C (st :: tr) id p := by
  obtain ⟨post, st', pre, rfl, h⟩ := h
  exact ⟨st :: post, st', pre, rfl, h⟩

/-- Where a stored proposal comes from. -/
structure Sourced (C : Contracts W) (tr : Trace (State × W) (Event contract W)) (id : UInt64)
    (p : Proposal) : Prop where
  proposed : ∃ st ∈ tr, Proposes C st id p
  approved : p.status = .approved → ApprovedIn C tr id p
  results : p.status ≠ .executed → p.actionResults = []

theorem Sourced.cons (h : Sourced C tr id p) : Sourced C (st :: tr) id p where
  proposed := h.proposed.imp fun _ h => ⟨List.mem_cons_of_mem _ h.1, h.2⟩
  approved hs := (h.approved hs).cons
  results := h.results

theorem sourced_step {sw : State × W} (h : ∀ id p, s.proposal id = some p → Sourced C tr id p)
    (hf : Fate C e c s w id q) : Sourced C (⟨(s, w), .call e c, sw⟩ :: tr) id q := by
  cases hf with
  | kept hq => exact (h id q hq).cons
  | made hq hs hr =>
    refine ⟨⟨_, List.mem_cons_self, hq sw⟩, fun hs' => ?_, fun _ => hr⟩
    exact absurd (hs.symm.trans hs') (by simp)
  | moved hp ht hlive hr ha =>
    have hsource := h id _ hp
    obtain ⟨st₀, hst₀, hproposed⟩ := hsource.proposed
    refine ⟨⟨st₀, List.mem_cons_of_mem _ hst₀, hproposed.congr ht⟩, fun hs => ?_,
      fun _ => hr.trans (hsource.results hlive)⟩
    exact ⟨[], _, tr, rfl, ha hs sw, st₀, hst₀, hproposed.congr ht⟩
  | executed hp ht hs =>
    obtain ⟨st₀, hst₀, hproposed⟩ := (h id _ hp).proposed
    exact ⟨⟨st₀, List.mem_cons_of_mem _ hst₀, hproposed.congr ht⟩,
      fun hs' => absurd (hs.symm.trans hs') (by simp), fun hn => absurd hs hn⟩

theorem sourced_run {G : Guard (State × W) (Event contract W)} {sw : State × W}
    (h : (machine contract C).Run G tr sw) :
    ∀ id p, sw.1.proposal id = some p → Sourced C tr id p := by
  refine Machine.Run.invariant
    (I := fun tr sw => ∀ id p, sw.1.proposal id = some p → Sourced C tr id p) ?_ ?_ h
  · rintro ⟨s, w⟩ ⟨admin, members, hs⟩ id p hp
    obtain ⟨-, rfl⟩ := initialise_eq_ok.mp hs
    cases hp
  · rintro tr ⟨s, w⟩ ev ⟨s', w'⟩ - hi - hs id q hq
    cases ev with
    | outside v =>
      cases hs
      exact (hi id q hq).cons
    | call e c => exact sourced_step hi (run_fate hs hq)

/--
The step executes the proposal `p`, which was approved in the run `tr` before
it: its actions are dispatched in their order and in its mode, and the report of
best effort is all that is added to it.
-/
structure Enacts (C : Contracts W) (tr : Trace (State × W) (Event contract W))
    (st : Step (State × W) (Event contract W)) (e : Env contract) (caller : Address) (id : UInt64)
    (p : Proposal) : Prop where
  executable : Executable e st.before.1 caller id p
  approved : ApprovedIn C tr id p
  dispatched : ∃ results t,
    State.dispatchActions C contract p.allowPartialExecution p.actions
      (st.before.1.removeFromActive id) st.before.2 = .ok (results, t, st.after.2) ∧
    st.after.1.proposal id = some { p with
      status := .executed
      actionResults := if p.allowPartialExecution = true then results else [] }

theorem execute_executable (h : s.execute C e caller id w = .ok (s', w')) :
    ∃ p, Executable e s caller id p := by
  simp only [State.execute, bind_eq_ok, State.requireMember_eq_ok, State.expectProposal_eq_ok,
    ensure_eq_ok] at h
  obtain ⟨_, ⟨hauth, hmember⟩, p, hp, _, happroved, _, helapsed, -⟩ := h
  exact ⟨p, hauth, hmember, hp, happroved, helapsed⟩

theorem execute_enacts {sw : State × W} (hsource : ∀ id p, s.proposal id = some p →
    Sourced C tr id p) (h : s.execute C e caller id w = .ok sw) :
    ∃ p, Enacts C tr ⟨(s, w), .call e (.execute caller id), sw⟩ e caller id p := by
  obtain ⟨p, hp⟩ := execute_executable h
  have hsourced := hsource id p hp.stored
  obtain ⟨results, t, hd, hafter⟩ := (execute_eq_ok hp).mp h
  refine ⟨p, hp, hsourced.approved hp.approved, results, t, hd, ?_⟩
  rw [hafter, hsourced.results (by simp [hp.approved])]
  exact update_self ..

/--
An execution dispatches exactly the actions that a member proposed and, after
that, the votes on these terms approved; it changes nothing else about the
proposal.
-/
theorem executed_as_proposed {G : Guard (State × W) (Event contract W)} {sw : State × W}
    {post : Trace (State × W) (Event contract W)}
    (h : (machine contract C).Run G (post ++ st :: tr) sw)
    (hst : st.label = .call e (.execute caller id)) : ∃ p, Enacts C tr st e caller id p := by
  obtain ⟨before, label, after⟩ := st
  obtain ⟨hr, -, hs⟩ := h.split
  subst hst
  exact execute_enacts (sourced_run hr) hs

section Sample

def counting : Event council ℕ := .call (memberAt 86400 1) (.execute (.account 1) 1)

/-- The counter is called once, as the account `1` has proposed. -/
theorem executed_as_proposed_counting : ∃ tr p,
    (machine council counter).Run Machine.anyCall tr ((machine council counter).call
      (passed "increment") counting) ∧
    p.actions = [⟨.contract 7, "increment", [], .none⟩] ∧
    Enacts counter tr.tail ⟨passed "increment", counting,
      (machine council counter).call (passed "increment") counting⟩ (memberAt 86400 1)
        (.account 1) 1 p := by
  have h0 := Machine.Run.init (m := machine council counter) (G := Machine.anyCall)
    (s := (founded.1, 0)) ⟨.account 0, [.account 1, .account 2, .account 3], by rfl⟩
  have h1 := h0.call (l := .call (memberAt 0 1)
    (.propose (.account 1) "count" "" [⟨.contract 7, "increment", [], .none⟩] false)) trivial
    (by rfl)
  have h2 := h1.call (l := .call (memberAt 0 1) (.vote (.account 1) 1 true)) trivial (by rfl)
  have h3 := h2.call (l := .call (memberAt 0 2) (.vote (.account 2) 1 true)) trivial (by rfl)
  have h4 := h3.call (l := counting) trivial (by rfl)
  have hlast : (machine council counter).Run Machine.anyCall ([] ++ _) _ := h4
  obtain ⟨p, hp⟩ := executed_as_proposed hlast rfl
  have hactions : (passed "increment").1.proposal 1 = some p := hp.executable.stored
  exact ⟨_, p, h4, congrArg Proposal.actions (Option.some.inj hactions.symm), hp⟩

end Sample

end WaterCredits.Governance
