import WaterCredits.Foundation.Index
import WaterCredits.Governance.Weight

/-! # The life of a proposal

A proposal is pending until its first vote, and ends rejected, expired,
cancelled or executed. The list of the active proposals has those that have not
ended. As long as the identifiers do not run out, an approved proposal is
executed at most once, after its timelock.
-/

namespace WaterCredits.Governance

open Foundation Function

variable {contract : Address} {W : Type} {C : Contracts W} {e : Env contract} {s s' : State}
  {w w' : W} {id : UInt64} {p q : Proposal} {c : Call}
  {tr : Trace (State × W) (Event contract W)}

inductive Moves : ProposalStatus → ProposalStatus → Prop
  | activate : Moves .pending .active
  | resolve {a b : ProposalStatus} : a = .pending ∨ a = .active →
      b = .approved ∨ b = .rejected ∨ b = .expired ∨ b = .cancelled → Moves a b
  | execute : Moves .approved .executed
  | cancel : Moves .approved .cancelled

def ProposalStatus.live : ProposalStatus → Bool
  | .pending | .active | .approved => true
  | _ => false

/-- Nothing happens to a proposal that has ended. -/
theorem Moves.live {a b : ProposalStatus} (h : Moves a b) : a.live = true := by
  cases h with
  | resolve ha _ => rcases ha with rfl | rfl <;> rfl
  | _ => rfl

structure Advance (e : Env contract) (c : Call) (s s' : State) (id : UInt64) (p q : Proposal) :
    Prop where
  stored : s.proposal id = some p
  saved : s'.proposal = update s.proposal id (some q)
  live : p.status.live = true
  moves : q.status = p.status ∨ Moves p.status q.status
  listed : s'.activeProposals =
    if q.status.live = true then s.activeProposals else s.activeProposals.filter (· ≠ id)
  count : s'.proposalCount = s.proposalCount
  config : s'.config = s.config
  approval : q.status = .approved → p.status ≠ .approved ∧
    (∃ voter approve, c = .vote voter id approve) ∧
    q.timelockEndsAt = e.timestamp + s.config.timelockDuration
  execution : q.status = .executed → p.status = .approved ∧ p.timelockEndsAt ≤ e.timestamp

theorem resolve_cases (timestamp : UInt64) (h : s.proposal id = some q) (hq : q.status = .active) :
    ∃ r, (s.resolve timestamp id q).proposal = update s.proposal id (some r) ∧
      (r.status = .active ∨ r.status = .rejected ∨
        r.status = .approved ∧ r.timelockEndsAt = timestamp + s.config.timelockDuration) ∧
      (s.resolve timestamp id q).activeProposals =
        (if r.status.live = true then s.activeProposals else s.activeProposals.filter (· ≠ id)) ∧
      (s.resolve timestamp id q).proposalCount = s.proposalCount ∧
      (s.resolve timestamp id q).config = s.config := by
  unfold State.resolve
  split
  · split
    · exact ⟨_, rfl, .inr (.inr ⟨rfl, rfl⟩), rfl, rfl, rfl⟩
    · exact ⟨_, rfl, .inr (.inl rfl), rfl, rfl, rfl⟩
  · refine ⟨q, ?_, .inl hq, by simp [hq, ProposalStatus.live], rfl, rfl⟩
    rw [← h, update_eq_self]

theorem vote_advance {voter : Address} {approve : Bool}
    (h : s.vote C e voter id approve w = .ok (s', w')) :
    ∃ p q, Advance e (.vote voter id approve) s s' id p q := by
  simp only [State.vote, bind_eq_ok, State.expectProposal_eq_ok, ensure_eq_ok, pure_eq_ok] at h
  obtain ⟨_, -, p, hp, _, hactive, _, -, _, -, heq⟩ := h
  cases heq
  have hopen : p.status = .pending ∨ p.status = .active := by
    unfold Proposal.activate at hactive
    split at hactive
    · exact .inl ‹_›
    · exact .inr hactive
  have hcast (n : I128) : (p.activate.cast approve n).status = .active := by
    unfold Proposal.cast
    split <;> exact hactive
  generalize hq : p.activate.cast approve (s.getVoterVotingWeight C contract voter w).1 = q
  have hactive : q.status = .active := hq ▸ hcast _
  set t : State := { s.saveProposal id q with
    hasVoted := update s.hasVoted (id, voter) true } with ht
  have hid : t.proposal id = some q := by simp [ht, State.saveProposal]
  obtain ⟨r, hsaved, hstatus, hlisted, hcount, hconfig⟩ := resolve_cases e.timestamp hid hactive
  have hlive : p.status.live = true := by rcases hopen with h | h <;> rw [h] <;> rfl
  refine ⟨p, r, hp, hsaved.trans (by simp [ht, State.saveProposal]), hlive, ?_, hlisted, hcount,
    hconfig, ?_, ?_⟩
  · rcases hstatus with hr | hr | ⟨hr, -⟩
    · rcases hopen with hp | hp
      · rw [hp, hr]
        exact .inr .activate
      · exact .inl (hr.trans hp.symm)
    · exact .inr (.resolve hopen (.inr (.inl hr)))
    · exact .inr (.resolve hopen (.inl hr))
  · intro hr
    rcases hstatus with hr' | hr' | ⟨-, hends⟩
    · rw [hr] at hr'
      cases hr'
    · rw [hr] at hr'
      cases hr'
    · refine ⟨?_, ⟨voter, approve, rfl⟩, hends⟩
      rcases hopen with h | h <;> simp [h]
  · intro hr
    rcases hstatus with hr' | hr' | ⟨hr', -⟩ <;>
    · rw [hr] at hr'
      cases hr'

theorem execute_advance {caller : Address} (h : s.execute C e caller id w = .ok (s', w')) :
    ∃ p q, Advance e (.execute caller id) s s' id p q ∧ q.status = .executed := by
  simp only [State.execute, bind_eq_ok, State.expectProposal_eq_ok, ensure_eq_ok, pure_eq_ok] at h
  obtain ⟨_, -, p, hp, _, hstatus, _, hends, ⟨results, t, v⟩, hd, heq⟩ := h
  cases heq
  have hf := dispatchActions_frame hd
  have hsaved : t.proposal = s.proposal := by rw [hf]; rfl
  have hlisted : t.activeProposals = s.activeProposals.filter (· ≠ id) := by rw [hf]; rfl
  have hcount : t.proposalCount = s.proposalCount := by rw [hf]; rfl
  have hconfig : t.config = s.config := by rw [hf]; rfl
  refine ⟨p, _, ⟨hp, congrArg (update · id _) hsaved, by rw [hstatus]; rfl, ?_, hlisted, hcount,
    hconfig, fun hr => (by cases hr), fun _ => ⟨hstatus, hends⟩⟩, rfl⟩
  rw [hstatus]
  exact .inr .execute

theorem cancelProposal_advance {caller : Address} (h : s.cancelProposal e caller id = .ok s') :
    ∃ p q, Advance e (.cancelProposal caller id) s s' id p q := by
  simp only [State.cancelProposal, bind_eq_ok, State.expectProposal_eq_ok, ensure_eq_ok,
    pure_eq_ok] at h
  obtain ⟨_, -, p, hp, _, -, _, hc, rfl⟩ := h
  have hlive : p.status = .approved ∨ p.status = .active ∨ p.status = .pending := by
    unfold State.cancellable at hc
    split at hc <;> simp at hc <;> tauto
  have hmove : Moves p.status .cancelled := by
    rcases hlive with h | h | h
    · exact h ▸ .cancel
    · exact .resolve (.inr h) (.inr (.inr (.inr rfl)))
    · exact .resolve (.inl h) (.inr (.inr (.inr rfl)))
  exact ⟨p, _, hp, rfl, hmove.live, .inr hmove, rfl, rfl, rfl, fun hr => (by cases hr),
    fun hr => by cases hr⟩

theorem expireProposal_advance (h : s.expireProposal e id = .ok s') :
    ∃ p q, Advance e (.expireProposal id) s s' id p q := by
  simp only [State.expireProposal, bind_eq_ok, State.expectProposal_eq_ok, ensure_eq_ok,
    pure_eq_ok] at h
  obtain ⟨p, hp, _, hopen, _, -, rfl⟩ := h
  have hmove : Moves p.status .expired := .resolve hopen.symm (.inr (.inr (.inl rfl)))
  exact ⟨p, _, hp, rfl, hmove.live, .inr hmove, rfl, rfl, rfl, fun hr => (by cases hr),
    fun hr => by cases hr⟩

/-- The storage that the life of proposals is read from. -/
def State.agenda (s : State) : (UInt64 → Option Proposal) × List UInt64 × UInt64 :=
  (s.proposal, s.activeProposals, s.proposalCount)

/-- One call creates the proposal `p` under the next identifier. -/
structure Opens (s s' : State) (p : Proposal) : Prop where
  pending : p.status = .pending
  agenda : s'.agenda = (update s.proposal (s.proposalCount + 1) (some p),
    s.activeProposals ++ [s.proposalCount + 1], s.proposalCount + 1)
  config : s'.config = s.config

theorem propose_opens {proposer : Address} {title description : String}
    {actions : List GovernanceAction} {allowPartialExecution : Bool}
    (h : s.propose C e proposer title description actions allowPartialExecution w =
      .ok (id, s', w')) : ∃ p, Opens s s' p := by
  simp only [State.propose, bind_eq_ok, pure_eq_ok] at h
  obtain ⟨_, -, _, -, _, -, heq⟩ := h
  cases heq
  exact ⟨_, rfl, rfl, rfl⟩

def Call.proposes : Call → Bool
  | .propose .. => true
  | _ => false

def Call.proposal : Call → Bool
  | .propose .. | .vote .. | .execute .. | .cancelProposal .. | .expireProposal .. => true
  | _ => false

/-- A timelock of at most a week, as the configuration check demands. -/
def State.Bounded (s : State) : Prop := s.config.timelockDuration ≤ 604800

/-- The other calls leave the proposals alone and the timelock bounded. -/
theorem run_agenda (hc : c.proposal = false) (h : run C e s w c = .ok (s', w')) :
    s'.agenda = s.agenda ∧ (s.Bounded → s'.Bounded) := by
  by_cases hm : c.maintains = true
  · rw [run_maintains hm h]
    exact ⟨rfl, id⟩
  cases c <;> simp only [Call.proposal, Bool.true_eq_false] at hc <;>
    simp only [Call.maintains, not_true_eq_false] at hm <;> simp only [run, within_eq_ok] at h
  case initialise => simp [initialise] at h
  case setGovernanceToken =>
    simp only [State.setGovernanceToken, bind_eq_ok] at h
    obtain ⟨_, -, h⟩ := h
    split at h <;> cases h
    exact ⟨rfl, id⟩
  case updateConfig =>
    simp only [State.updateConfig, validateConfig, bind_eq_ok, ensure_eq_ok, pure_eq_ok] at h
    obtain ⟨⟨_, -, _, ⟨_, -, _, hlock, -⟩, rfl⟩, -⟩ := h
    exact ⟨rfl, fun _ => hlock⟩
  case addMember =>
    simp only [State.addMember, bind_eq_ok, pure_eq_ok] at h
    obtain ⟨⟨_, -, _, -, rfl⟩, -⟩ := h
    exact ⟨rfl, id⟩
  case removeMember =>
    simp only [State.removeMember, bind_eq_ok, pure_eq_ok] at h
    obtain ⟨⟨_, -, _, -, _, -, rfl⟩, -⟩ := h
    exact ⟨rfl, id⟩

/-- The ways an accepted call treats the proposals. -/
inductive Progress (e : Env contract) (c : Call) (s s' : State) : Prop
  | opens {p : Proposal} : c.proposes = true → Opens s s' p → Progress e c s s'
  | advance {id : UInt64} {p q : Proposal} : c.proposes = false → Advance e c s s' id p q →
      Progress e c s s'
  | rests : c.proposes = false → s'.agenda = s.agenda → (s.Bounded → s'.Bounded) →
      Progress e c s s'

theorem run_progress (h : run C e s w c = .ok (s', w')) : Progress e c s s' := by
  cases c with
  | propose =>
    simp only [run, discard, bind_eq_ok, pure_eq_ok] at h
    obtain ⟨⟨id, t, v⟩, h, heq⟩ := h
    cases heq
    obtain ⟨p, hp⟩ := propose_opens h
    exact .opens rfl hp
  | vote =>
    obtain ⟨p, q, ha⟩ := vote_advance h
    exact .advance rfl ha
  | execute =>
    obtain ⟨p, q, ha, -⟩ := execute_advance h
    exact .advance rfl ha
  | cancelProposal =>
    obtain ⟨p, q, ha⟩ := cancelProposal_advance (within_eq_ok.mp h).1
    exact .advance rfl ha
  | expireProposal =>
    obtain ⟨p, q, ha⟩ := expireProposal_advance (within_eq_ok.mp h).1
    exact .advance rfl ha
  | _ =>
    obtain ⟨ha, hb⟩ := run_agenda rfl h
    exact .rests rfl ha hb

def proposing : Event contract W → Bool
  | .call _ c => c.proposes
  | .outside _ => false

/-- The number of the proposals that a run has created. -/
def proposals (tr : Trace (State × W) (Event contract W)) : ℕ :=
  tr.countP fun st => proposing st.label

def executes (id : UInt64) : Event contract W → Bool
  | .call _ (.execute _ id') => id' = id
  | _ => false

/-- Identifiers are given out in order. -/
structure Numbered (tr : Trace (State × W) (Event contract W)) (s : State) : Prop where
  count : s.proposalCount = .ofNat (proposals tr)
  created : ∀ id p, s.proposal id = some p → ∃ k < proposals tr, id = .ofNat (k + 1)

namespace Numbered

variable {st : Step (State × W) (Event contract W)} (h : Numbered tr s)

include h

theorem fresh (hlt : proposals tr < 2 ^ 64) : s.proposal (s.proposalCount + 1) = none := by
  by_contra hne
  obtain ⟨p, hp⟩ := Option.ne_none_iff_exists'.mp hne
  obtain ⟨k, hk, hid⟩ := h.created _ p hp
  rw [h.count] at hid
  have heq := congrArg UInt64.toNat hid
  rw [UInt64.toNat_add, UInt64.toNat_ofNat', UInt64.toNat_ofNat'] at heq
  simp only [UInt64.toNat_one] at heq
  omega

theorem rests (hst : proposing st.label = false) (ha : s'.agenda = s.agenda) :
    Numbered (st :: tr) s' := by
  simp only [State.agenda, Prod.mk.injEq] at ha
  obtain ⟨hp, -, hc⟩ := ha
  have hn : proposals (st :: tr) = proposals tr := by simp [proposals, hst]
  refine ⟨hc.trans (hn ▸ h.count), ?_⟩
  rw [hp, hn]
  exact h.created

theorem opens (hst : proposing st.label = true) (ho : Opens s s' p) : Numbered (st :: tr) s' := by
  have ha := ho.agenda
  simp only [State.agenda, Prod.mk.injEq] at ha
  obtain ⟨hp, -, hc⟩ := ha
  have hn : proposals (st :: tr) = proposals tr + 1 := by simp [proposals, hst]
  have hnext : s.proposalCount + 1 = .ofNat (proposals tr + 1) := by
    rw [h.count]
    exact UInt64.toNat_inj.mp (by simp [UInt64.toNat_add])
  refine ⟨by rw [hc, hn, hnext], fun id q hid => ?_⟩
  rw [hp, update_apply] at hid
  rw [hn]
  split at hid
  · rename_i heq
    exact ⟨_, Nat.lt_succ_self _, heq.trans hnext⟩
  · obtain ⟨k, hk, hid⟩ := h.created id q hid
    exact ⟨k, hk.trans (Nat.lt_succ_self _), hid⟩

theorem advance (hst : proposing st.label = false) (ha : Advance e c s s' id p q) :
    Numbered (st :: tr) s' := by
  have hn : proposals (st :: tr) = proposals tr := by simp [proposals, hst]
  refine ⟨ha.count.trans (hn ▸ h.count), fun i r hi => ?_⟩
  rw [hn]
  rw [ha.saved, update_apply] at hi
  split at hi
  · rename_i heq
    exact heq ▸ h.created id p ha.stored
  · exact h.created i r hi

end Numbered

theorem numbered_init {sw : State × W} (h : (machine contract C).init sw) :
    Numbered ([] : Trace (State × W) (Event contract W)) sw.1 := by
  obtain ⟨admin, members, hs⟩ := h
  rw [(initialise_eq_ok.mp hs).2]
  exact ⟨rfl, fun id p hp => by cases hp⟩

theorem numbered_run {G : Guard (State × W) (Event contract W)} {sw : State × W}
    (h : (machine contract C).Run G tr sw) : Numbered tr sw.1 := by
  refine Machine.Run.invariant (I := fun tr sw => Numbered tr sw.1) ?_ ?_ h
  · rintro sw hs
    exact numbered_init hs
  · rintro tr ⟨s, w⟩ ev ⟨s', w'⟩ - hi - hs
    cases ev with
    | outside v =>
      cases hs
      exact hi.rests rfl rfl
    | call e c =>
      cases run_progress hs with
      | opens hc ho => exact hi.opens hc ho
      | advance hc ha => exact hi.advance hc ha
      | rests hc ha _ => exact hi.rests hc ha

/--
The ledger time stays thirty days below its maximum, and there are no more
proposals than identifiers.
-/
def timely : Guard (State × W) (Event contract W) := fun tr _ ev =>
  match ev with
  | .call e c => e.timestamp.toNat + 2592000 < 2 ^ 64 ∧ (c.proposes = true → proposals tr < 2 ^ 64)
  | .outside _ => True

/-- The call approves a proposal, whose timelock as it is then configured ends at a given time. -/
structure ApprovesUntil (st : Step (State × W) (Event contract W)) (id : UInt64) (ends : ℕ) :
    Prop where
  vote : ∃ e voter approve, st.label = .call e (.vote voter id approve) ∧
    ends = e.timestamp.toNat + st.before.1.config.timelockDuration.toNat
  before : ∃ p, st.before.1.proposal id = some p ∧ p.status ≠ .approved
  after : ∃ p, st.after.1.proposal id = some p ∧ p.status = .approved

def State.Live (s : State) (id : UInt64) : Prop :=
  ∃ p, s.proposal id = some p ∧ p.status.live = true

/-- What holds of the proposals throughout a run. -/
structure Orderly (tr : Trace (State × W) (Event contract W)) (s : State) : Prop where
  indexed : Indexes s.Live s.activeProposals
  count : s.proposalCount = .ofNat (proposals tr)
  created : ∀ id p, s.proposal id = some p → ∃ k < proposals tr, id = .ofNat (k + 1)
  bounded : s.Bounded
  approved : ∀ id p, s.proposal id = some p → p.status = .approved →
    ∃ st ∈ tr, ApprovesUntil st id p.timelockEndsAt.toNat

theorem Orderly.numbered (h : Orderly tr s) : Numbered tr s := ⟨h.count, h.created⟩

section Steps

variable {st : Step (State × W) (Event contract W)} (h : Orderly tr s)

include h

theorem Orderly.rests (hst : proposing st.label = false) (ha : s'.agenda = s.agenda)
    (hb : s'.Bounded) : Orderly (st :: tr) s' := by
  have hnumbered := h.numbered.rests hst ha
  simp only [State.agenda, Prod.mk.injEq] at ha
  obtain ⟨hp, hl, -⟩ := ha
  refine ⟨?_, hnumbered.count, hnumbered.created, hb, ?_⟩
  · rw [hl]
    exact h.indexed.congr fun id => by simp [State.Live, hp]
  · intro id p hid hs
    rw [hp] at hid
    obtain ⟨st', hst', hu⟩ := h.approved id p hid hs
    exact ⟨st', List.mem_cons_of_mem _ hst', hu⟩

theorem Orderly.opens (hst : proposing st.label = true) (hlt : proposals tr < 2 ^ 64)
    (ho : Opens s s' p) : Orderly (st :: tr) s' := by
  have hfresh := h.numbered.fresh hlt
  have hnumbered := h.numbered.opens hst ho
  have ha := ho.agenda
  simp only [State.agenda, Prod.mk.injEq] at ha
  obtain ⟨hp, hl, -⟩ := ha
  have hnew : s.proposalCount + 1 ∉ s.activeProposals := by
    intro hmem
    obtain ⟨q, hq, -⟩ := (h.indexed.mem_iff _).mp hmem
    rw [hfresh] at hq
    cases hq
  refine ⟨?_, hnumbered.count, hnumbered.created, ?_, ?_⟩
  · have hlive : s'.Live (s.proposalCount + 1) := ⟨p, by simp [hp], by rw [ho.pending]; rfl⟩
    have hi := h.indexed.insert hlive fun id hid => by simp [State.Live, hp, hid]
    rwa [if_neg hnew, ← hl] at hi
  · unfold State.Bounded
    rw [ho.config]
    exact h.bounded
  · intro id q hid hs
    rw [hp, update_apply] at hid
    split at hid
    · cases hid
      rw [ho.pending] at hs
      cases hs
    · obtain ⟨st', hst', hu⟩ := h.approved id q hid hs
      exact ⟨st', List.mem_cons_of_mem _ hst', hu⟩

theorem Orderly.advance (hlabel : st.label = .call e c) (hbefore : st.before.1 = s)
    (hafter : st.after.1 = s') (htime : e.timestamp.toNat + 2592000 < 2 ^ 64)
    (hc : c.proposes = false) (ha : Advance e c s s' id p q) : Orderly (st :: tr) s' := by
  have hnumbered : Numbered (st :: tr) s' := h.numbered.advance (by rw [hlabel]; exact hc) ha
  have hsaved (i : UInt64) : s'.proposal i = if i = id then some q else s.proposal i := by
    rw [ha.saved, update_apply]
  refine ⟨?_, hnumbered.count, hnumbered.created, ?_, ?_⟩
  · have hother : ∀ i, i ≠ id → (s'.Live i ↔ s.Live i) := fun i hi => by
      simp [State.Live, hsaved, hi]
    have hold : s.Live id := ⟨p, ha.stored, ha.live⟩
    rw [ha.listed]
    split
    · rename_i hq
      apply h.indexed.congr
      intro i
      by_cases hi : i = id
      · subst hi
        exact iff_of_true ⟨q, by simp [hsaved], hq⟩ hold
      · exact hother i hi
    · rename_i hq
      refine h.indexed.erase ?_ hother
      rintro ⟨r, hr, hlive⟩
      simp only [hsaved, if_true, Option.some.injEq] at hr
      exact hq (hr ▸ hlive)
  · unfold State.Bounded
    rw [ha.config]
    exact h.bounded
  · intro i r hi hs
    rw [hsaved] at hi
    split at hi
    · rename_i heq
      obtain rfl : q = r := Option.some.inj hi
      obtain ⟨hne, ⟨voter, approve, rfl⟩, hends⟩ := ha.approval hs
      have hlock : s.config.timelockDuration.toNat ≤ 604800 := h.bounded
      refine ⟨st, List.mem_cons_self, ⟨e, voter, approve, ?_, ?_⟩, ?_, ?_⟩
      · rw [heq, hlabel]
      · rw [hends, UInt64.toNat_add, hbefore]
        omega
      · exact ⟨p, by rw [hbefore, heq, ha.stored], hne⟩
      · exact ⟨q, by rw [hafter, hsaved, if_pos heq], hs⟩
    · obtain ⟨st', hst', hu⟩ := h.approved i r hi hs
      exact ⟨st', List.mem_cons_of_mem _ hst', hu⟩

end Steps

theorem orderly_run {sw : State × W} (h : (machine contract C).Run timely tr sw) :
    Orderly tr sw.1 := by
  refine Machine.Run.invariant (I := fun tr sw => Orderly tr sw.1) ?_ ?_ h
  · rintro ⟨s, w⟩ h0
    have hnumbered := numbered_init h0
    obtain ⟨admin, members, hs⟩ := h0
    obtain ⟨-, rfl⟩ := initialise_eq_ok.mp hs
    refine ⟨.nil ?_, hnumbered.count, hnumbered.created, ?_, fun id p hp => by cases hp⟩
    · rintro id ⟨p, hp, -⟩
      cases hp
    · have hb : (86400 : UInt64) ≤ 604800 := by decide
      exact hb
  · rintro tr ⟨s, w⟩ ev ⟨s', w'⟩ - hi hg hs
    cases ev with
    | outside v =>
      cases hs
      exact hi.rests rfl rfl hi.bounded
    | call e c =>
      obtain ⟨htime, hlt⟩ := hg
      cases run_progress hs with
      | opens hc ho => exact hi.opens hc (hlt hc) ho
      | advance hc ha => exact hi.advance rfl rfl rfl htime hc ha
      | rests hc ha hb => exact hi.rests hc ha (hb hi.bounded)

theorem step_moves {ev : Event contract W} (h : Orderly tr s) (hg : timely tr (s, w) ev)
    (hs : step C ev (s, w) = .ok (s', w')) (id : UInt64) :
    (∀ p, s.proposal id = some p →
      ∃ q, s'.proposal id = some q ∧ (q.status = p.status ∨ Moves p.status q.status)) ∧
    ∀ q, s.proposal id = none → s'.proposal id = some q → q.status = .pending := by
  have keep (hp : s'.proposal = s.proposal) :
      (∀ p, s.proposal id = some p →
        ∃ q, s'.proposal id = some q ∧ (q.status = p.status ∨ Moves p.status q.status)) ∧
      ∀ q, s.proposal id = none → s'.proposal id = some q → q.status = .pending := by
    rw [hp]
    refine ⟨fun p hid => ⟨p, hid, .inl rfl⟩, fun q hid hid' => ?_⟩
    rw [hid] at hid'
    cases hid'
  cases ev with
  | outside v =>
    cases hs
    exact keep rfl
  | call e c =>
    obtain ⟨-, hlt⟩ := hg
    cases run_progress hs with
    | rests _ ha _ => exact keep (congrArg Prod.fst ha)
    | @opens r hc ho =>
      have hp : s'.proposal = update s.proposal (s.proposalCount + 1) (some r) :=
        congrArg Prod.fst ho.agenda
      have hfresh := h.numbered.fresh (hlt hc)
      rw [hp]
      constructor
      · intro p hid
        have hne : id ≠ s.proposalCount + 1 := by
          rintro rfl
          rw [hfresh] at hid
          cases hid
        exact ⟨p, by rw [update_of_ne hne, hid], .inl rfl⟩
      · intro q hid hid'
        rw [update_apply] at hid'
        split at hid'
        · cases hid'
          exact ho.pending
        · rw [hid] at hid'
          cases hid'
    | @advance i p q _ ha =>
      rw [ha.saved]
      constructor
      · intro p' hid
        by_cases hi : id = i
        · subst hi
          obtain rfl : p = p' := Option.some.inj (ha.stored.symm.trans hid)
          exact ⟨q, by rw [update_self], ha.moves⟩
        · exact ⟨p', by rw [update_of_ne hi, hid], .inl rfl⟩
      · intro q' hid hid'
        have hi : id ≠ i := by
          rintro rfl
          rw [ha.stored] at hid
          cases hid
        rw [update_of_ne hi, hid] at hid'
        cases hid'

/-- The law of proposals along a run that ends in `sw`. -/
structure Lawful (C : Contracts W) (tr : Trace (State × W) (Event contract W)) (sw : State × W) :
    Prop where
  moves : ∀ st ∈ tr, ∀ id p, st.before.1.proposal id = some p →
    ∃ q, st.after.1.proposal id = some q ∧ (q.status = p.status ∨ Moves p.status q.status)
  starts : ∀ st ∈ tr, ∀ id q, st.before.1.proposal id = none →
    st.after.1.proposal id = some q → q.status = .pending
  once : ∀ id, tr.countP (fun st => executes id st.label) ≤ 1
  timelock : ∀ post st pre, tr = post ++ st :: pre → ∀ e caller id,
    st.label = .call e (.execute caller id) →
      ∃ st' ∈ pre, ∃ ends, ApprovesUntil st' id ends ∧ ends ≤ e.timestamp.toNat
  failed : ∀ e caller id err, sw.1.execute C e caller id sw.2 = .error err →
    (machine contract C).call sw (.call e (.execute caller id)) = sw
  indexed : Indexes sw.1.Live sw.1.activeProposals

theorem execute_once {sw : State × W} (h : (machine contract C).Run timely tr sw) (id : UInt64) :
    tr.countP (fun st => executes id st.label) ≤ 1 := by
  refine (h.once (P := fun sw => ∃ p, sw.1.proposal id = some p ∧ p.status = .executed) ?_ ?_).1
  · rintro ev ⟨s, w⟩ ⟨s', w'⟩ hq hs
    unfold executes at hq
    split at hq
    · obtain rfl : _ = id := of_decide_eq_true hq
      obtain ⟨p, q, ha, hexec⟩ := execute_advance hs
      refine ⟨?_, q, by rw [ha.saved, update_self], hexec⟩
      rintro ⟨r, hr, hdone⟩
      obtain rfl : p = r := Option.some.inj (ha.stored.symm.trans hr)
      rw [(ha.execution hexec).1] at hdone
      cases hdone
    · cases hq
  · rintro tr ⟨s, w⟩ ev ⟨s', w'⟩ hr hg hs ⟨p, hp, hdone⟩
    obtain ⟨q, hq, hmove⟩ := (step_moves (orderly_run hr) hg hs id).1 p hp
    refine ⟨q, hq, ?_⟩
    rcases hmove with hsame | hmove
    · exact hsame.trans hdone
    · have hlive := hmove.live
      rw [hdone] at hlive
      cases hlive

/--
Every proposal goes through its life once, its actions are dispatched at most
once and after its timelock, and the list of the active proposals has exactly
those that have not ended.
-/
theorem lawful_run {sw : State × W} (h : (machine contract C).Run timely tr sw) :
    Lawful C tr sw := by
  refine ⟨?_, ?_, execute_once h, ?_, ?_, (orderly_run h).indexed⟩
  · intro st hst id p hp
    obtain ⟨tr', hr, hg, hs⟩ := h.mem st hst
    exact (step_moves (orderly_run hr) hg hs id).1 p hp
  · intro st hst id q hnone hq
    obtain ⟨tr', hr, hg, hs⟩ := h.mem st hst
    exact (step_moves (orderly_run hr) hg hs id).2 q hnone hq
  · rintro post st pre rfl e caller id hlabel
    obtain ⟨hr, hg, hs⟩ := h.split
    rw [hlabel] at hs
    obtain ⟨p, q, ha, hexec⟩ := execute_advance hs
    obtain ⟨happroved, hends⟩ := ha.execution hexec
    obtain ⟨st', hst', hu⟩ := (orderly_run hr).approved id p ha.stored happroved
    exact ⟨st', hst', _, hu, hends⟩
  · intro e caller id err herr
    simp [Machine.call, machine, step, run, herr]

section Sample

open Token (Ledger)

theorem account_ne_council (key : BytesN 32) : Address.account key ≠ council := by simp

/-- A sample call of the account with this key at a later time. -/
def calledAt (timestamp : UInt64) (key : BytesN 32) (c : Call) : Event council Ledger :=
  .call (.signed timestamp 0 (.account key) (account_ne_council key)) c

/-- Two of three members approve a proposal, and the third one executes it a day later. -/
def enacted : State × Ledger :=
  councilMachine.calls founded [calledBy 1 (.propose (.account 1) "fees" "" [] false),
    calledBy 1 (.vote (.account 1) 1 true), calledBy 2 (.vote (.account 2) 1 true),
    calledAt 86400 3 (.execute (.account 3) 1)]

theorem lawful_run_enacted : (enacted.1.proposal 1).map Proposal.status = some .executed ∧
    ∃ tr, councilMachine.Run timely tr enacted ∧
      Lawful (creditContracts Token.home) tr enacted := by
  have h0 := Machine.Run.init (m := councilMachine) (G := timely) (s := founded)
    ⟨.account 0, [.account 1, .account 2, .account 3], by rfl⟩
  have h1 := h0.call (l := calledBy 1 (.propose (.account 1) "fees" "" [] false))
    ⟨by decide, by decide⟩ (by rfl)
  have h2 := h1.call (l := calledBy 1 (.vote (.account 1) 1 true)) ⟨by decide, nofun⟩ (by rfl)
  have h3 := h2.call (l := calledBy 2 (.vote (.account 2) 1 true)) ⟨by decide, nofun⟩ (by rfl)
  have h4 := h3.call (l := calledAt 86400 3 (.execute (.account 3) 1)) ⟨by decide, nofun⟩ (by rfl)
  exact ⟨by rfl, _, h4, lawful_run h4⟩

/-- The calls of a run at which the ledger time is zero. -/
def atGenesis : Guard (State × Ledger) (Event council Ledger) := fun _ _ ev =>
  match ev with
  | .call e _ => e.timestamp = 0
  | .outside _ => True

/-- No proposal is active, and `n` is the last identifier. -/
def idle (f : UInt64 → Option Proposal) (n : UInt64) : State × Ledger :=
  ({ founded.1 with proposal := f, proposalCount := n }, founded.2)

/-- The proposal that the account `1` makes again and again. -/
def draft (id : UInt64) : Proposal :=
  { id, proposer := .account 1, title := "fees", description := "", actions := []
    allowPartialExecution := false, eligibleVoters := 3, totalEligibleWeight := 3, createdAt := 0
    votingEndsAt := 0 + 604800 }

def drafted (f : UInt64 → Option Proposal) (n : UInt64) : State × Ledger :=
  ({ founded.1 with
     proposal := update f (n + 1) (some (draft (n + 1)))
     activeProposals := [n + 1]
     proposalCount := n + 1 }, founded.2)

def drafting : Event council Ledger := calledBy 1 (.propose (.account 1) "fees" "" [] false)

def retracting (id : UInt64) : Event council Ledger :=
  calledBy 1 (.cancelProposal (.account 1) id)

variable {f : UInt64 → Option Proposal} {n : UInt64}

theorem drafting_step : councilMachine.step drafting (idle f n) = .ok (drafted f n) := by rfl

theorem retracting_step : councilMachine.step (retracting (n + 1)) (drafted f n) =
    .ok (idle (update f (n + 1) (some { draft (n + 1) with status := .cancelled })) (n + 1)) := by
  have hp : (drafted f n).1.expectProposal (n + 1) = .ok (draft (n + 1)) :=
    State.expectProposal_eq_ok.mpr (update_self ..)
  have hc : (drafted f n).1.cancelProposal (.signed 0 0 (.account 1) (by simp) : Env council)
      (.account 1) (n + 1) = .ok (((drafted f n).1.saveProposal (n + 1)
        { draft (n + 1) with status := .cancelled }).removeFromActive (n + 1)) := by
    simp only [State.cancelProposal, bind_eq_ok, hp]
    exact ⟨(), rfl, _, rfl, (), rfl, (), rfl, rfl⟩
  refine (within_eq_ok (w := (drafted f n).2)).mpr ⟨hc.trans (congrArg _ ?_), rfl⟩
  simp [State.removeFromActive, State.saveProposal, drafted, founded]

theorem idle_run (k : ℕ) (hk : k < 2 ^ 64) : ∃ tr f p,
    councilMachine.Run atGenesis tr (idle f (.ofNat (k + 1))) ∧ f 1 = some p ∧
      p.status = .cancelled := by
  have round {tr : Trace (State × Ledger) (Event council Ledger)} {f : UInt64 → Option Proposal}
      {n : UInt64} (h : councilMachine.Run atGenesis tr (idle f n)) : ∃ tr',
      councilMachine.Run atGenesis tr'
        (idle (update f (n + 1) (some { draft (n + 1) with status := .cancelled })) (n + 1)) :=
    ⟨_, (h.step (l := drafting) rfl drafting_step).step (l := retracting (n + 1)) rfl
      retracting_step⟩
  induction k with
  | zero =>
    have h0 := Machine.Run.init (m := councilMachine) (G := atGenesis)
      (s := idle (fun _ => none) 0) ⟨.account 0, [.account 1, .account 2, .account 3], by rfl⟩
    obtain ⟨tr, h⟩ := round h0
    exact ⟨tr, _, _, h, update_self .., rfl⟩
  | succ k ih =>
    obtain ⟨tr, f, p, h, hf, hp⟩ := ih (by omega)
    obtain ⟨tr', h'⟩ := round h
    have hn : UInt64.ofNat (k + 1) + 1 = UInt64.ofNat (k + 1 + 1) :=
      UInt64.toNat_inj.mp (by simp [UInt64.toNat_add])
    rw [hn] at h'
    refine ⟨tr', _, p, h', ?_, hp⟩
    have hne : (1 : UInt64) ≠ UInt64.ofNat (k + 1 + 1) := by
      intro heq
      have heq := congrArg UInt64.toNat heq
      rw [UInt64.toNat_ofNat'] at heq
      simp only [UInt64.toNat_one] at heq
      omega
    rw [update_of_ne hne, hf]

/-- After all identifiers have been used, a cancelled proposal is overwritten by a pending one. -/
theorem cancelled_identifier_reused : ∃ tr sw, councilMachine.Run atGenesis tr sw ∧
    ∃ st ∈ tr, ∃ p q, st.before.1.proposal 1 = some p ∧ p.status = .cancelled ∧
      st.after.1.proposal 1 = some q ∧ q.status = .pending := by
  obtain ⟨tr, f, p, h, hf, hp⟩ := idle_run (2 ^ 64 - 1) (by norm_num)
  have hn : UInt64.ofNat (2 ^ 64 - 1 + 1) = 0 := by rfl
  rw [hn] at h
  have ha : (drafted f 0).1.proposal 1 = some (draft 1) := by simp [drafted]
  exact ⟨_, _, h.step (l := drafting) rfl drafting_step, _, List.mem_cons_self, p, draft 1, hf, hp,
    ha, rfl⟩

end Sample

end WaterCredits.Governance
