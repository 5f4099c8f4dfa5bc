import WaterCredits.Governance.Execution

/-! # Proposals come to an end

The slots of the active proposals are never lost. The admin cancels whatever
takes one. Without the admin anybody expires what was not decided in time, and a
member executes what was approved, which cannot fail under best effort.
-/

namespace WaterCredits.Governance

open Foundation Function

variable {contract caller : Address} {W : Type} {C : Contracts W} {e : Env contract}
  {s s' : State} {w w' : W} {id i : UInt64} {p q : Proposal} {c : Call}
  {tr : Trace (State × W) (Event contract W)}

def State.bylaws (s : State) : Address × (Address → Bool) × GovernanceConfig :=
  (s.admin, s.member, s.config)

/-- One proposal has ended, and nothing has happened to the others. -/
structure Ends (s s' : State) (id : UInt64) : Prop where
  listed : s'.activeProposals = s.activeProposals.filter (· ≠ id)
  bylaws : s'.bylaws = s.bylaws
  others : ∀ i ≠ id, s'.proposal i = s.proposal i

/-- The storage when a proposal ends undecided. -/
def State.close (s : State) (id : UInt64) (p : Proposal) (status : ProposalStatus) : State :=
  (s.saveProposal id { p with status }).removeFromActive id

theorem close_ends {status : ProposalStatus} : Ends s (s.close id p status) id :=
  ⟨rfl, rfl, fun _ hi => update_of_ne hi ..⟩

/-- The admin may cancel whatever takes a slot. -/
theorem cancelProposal_ends (ha : e.auth s.admin = true) (hl : s.Live id) :
    ∃ s', s.cancelProposal e s.admin id = .ok s' ∧ Ends s s' id := by
  obtain ⟨p, hp, hlive⟩ := hl
  have hc : s.cancellable s.admin p.status = true := by
    unfold State.cancellable
    rw [if_pos rfl]
    revert hlive
    cases p.status <;> decide
  refine ⟨s.close id p .cancelled, ?_, close_ends⟩
  simp only [State.cancelProposal, bind_eq_ok, Env.requireAuth_eq_ok, State.expectProposal_eq_ok,
    ensure_eq_ok, pure_eq_ok]
  exact ⟨(), ha, p, hp, (), .inl trivial, (), hc, rfl⟩

theorem expireProposal_ends (hp : s.proposal id = some p)
    (ho : p.status = .active ∨ p.status = .pending) (ht : p.votingEndsAt < e.timestamp) :
    ∃ s', s.expireProposal e id = .ok s' ∧ Ends s s' id := by
  refine ⟨s.close id p .expired, ?_, close_ends⟩
  simp only [State.expireProposal, bind_eq_ok, State.expectProposal_eq_ok, ensure_eq_ok, pure_eq_ok]
  exact ⟨p, hp, (), ho, (), ht, rfl⟩

/-- A best-effort execution succeeds whatever its actions do. -/
theorem execute_ends (h : Executable e s caller id p) (hb : p.allowPartialExecution = true) :
    ∃ s' w', s.execute C e caller id w = .ok (s', w') ∧ Ends s s' id := by
  obtain ⟨results, t, v, hd, -⟩ :=
    dispatchActions_bestEffort C contract p.actions (s.removeFromActive id) w
  refine ⟨_, v, (execute_eq_ok h).mpr ⟨results, t, hb ▸ hd, rfl⟩, ?_⟩
  rw [dispatchActions_frame hd]
  exact ⟨rfl, rfl, fun i hi => update_of_ne hi ..⟩

/-- The proposal can be brought to its end without the admin, by a member at that time. -/
def Due (e : Env contract) (p : Proposal) : Prop :=
  if p.status = .approved then p.timelockEndsAt ≤ e.timestamp ∧ p.allowPartialExecution = true
  else p.votingEndsAt < e.timestamp

theorem due_ends (hauth : e.auth caller = true) (hm : s.member caller = true)
    (hp : s.proposal id = some p) (hlive : p.status.live = true) (hd : Due e p) :
    ∃ c s' w', (c = .execute caller id ∨ c = .expireProposal id) ∧
      run C e s w c = .ok (s', w') ∧ Ends s s' id := by
  unfold Due at hd
  split at hd
  · rename_i happroved
    obtain ⟨s', w', hx, hends⟩ :=
      execute_ends (C := C) (w := w) ⟨hauth, hm, hp, happroved, hd.1⟩ hd.2
    exact ⟨_, s', w', .inl rfl, hx, hends⟩
  · rename_i hopen
    have ho : p.status = .active ∨ p.status = .pending := by
      revert hlive hopen
      cases p.status <;> simp [ProposalStatus.live]
    obtain ⟨s', hx, hends⟩ := expireProposal_ends hp ho hd
    exact ⟨_, s', w, .inr rfl, within_eq_ok.mpr ⟨hx, rfl⟩, hends⟩

/-- A call leaves the configuration alone, unless it sets one that passes the check. -/
theorem run_config (h : run C e s w c = .ok (s', w')) :
    s'.config = s.config ∨ validateConfig s'.config = .ok () := by
  by_cases hm : c.maintains = true
  · rw [run_maintains hm h]
    exact .inl rfl
  cases c <;> simp only [Call.maintains, not_true_eq_false] at hm
  case initialise => simp [run, initialise] at h
  case propose =>
    simp only [run, discard, bind_eq_ok, pure_eq_ok] at h
    obtain ⟨⟨i, t, v⟩, h, heq⟩ := h
    cases heq
    obtain ⟨p, hp⟩ := propose_opens h
    exact .inl hp.config
  case vote =>
    obtain ⟨p, q, ha⟩ := vote_advance h
    exact .inl ha.config
  case execute =>
    obtain ⟨p, q, ha, -⟩ := execute_advance h
    exact .inl ha.config
  case cancelProposal =>
    obtain ⟨p, q, ha⟩ := cancelProposal_advance (within_eq_ok.mp h).1
    exact .inl ha.config
  case expireProposal =>
    obtain ⟨p, q, ha⟩ := expireProposal_advance (within_eq_ok.mp h).1
    exact .inl ha.config
  case updateConfig =>
    simp only [run, within_eq_ok, State.updateConfig, bind_eq_ok, pure_eq_ok] at h
    obtain ⟨⟨_, -, _, hc, rfl⟩, -⟩ := h
    exact .inr hc
  case setGovernanceToken =>
    simp only [run, State.setGovernanceToken, bind_eq_ok] at h
    obtain ⟨_, -, h⟩ := h
    split at h <;> cases h
    exact .inl rfl
  all_goals
    simp only [run, within_eq_ok, State.addMember, State.removeMember, bind_eq_ok, pure_eq_ok] at h
    obtain ⟨⟨_, -, _, -, h⟩, -⟩ := h
    exact .inl (by first | rw [← h] | (obtain ⟨_, -, rfl⟩ := h; rfl))

theorem config_run {G : Guard (State × W) (Event contract W)} {sw : State × W}
    (h : (machine contract C).Run G tr sw) : validateConfig sw.1.config = .ok () := by
  refine h.invariant (I := fun _ sw => validateConfig sw.1.config = .ok ()) ?_ ?_
  · rintro ⟨s, w⟩ ⟨admin, members, hs⟩
    obtain ⟨-, rfl⟩ := initialise_eq_ok.mp hs
    exact validateConfig_default
  · rintro tr ⟨s, w⟩ ev ⟨s', w'⟩ - hi - hs
    cases ev with
    | outside v =>
      cases hs
      exact hi
    | call e c =>
      rcases run_config hs with hc | hc
      · exact hc ▸ hi
      · exact hc

/-- Where nothing takes a slot, every member may make a proposal. -/
theorem propose_accepted {title description : String} {actions : List GovernanceAction}
    {allowPartialExecution : Bool} (hc : validateConfig s.config = .ok ())
    (hl : s.activeProposals = []) (ha : e.auth caller = true) (hm : s.member caller = true)
    (ht : title ≠ "") :
    ∃ r, s.propose C e caller title description actions allowPartialExecution w = .ok r := by
  simp only [validateConfig, bind_eq_ok, ensure_eq_ok] at hc
  obtain ⟨_, -, _, -, _, -, _, -, _, -, hmax, -⟩ := hc
  have hmax : 1 ≤ s.config.maxActiveProposals.toNat := UInt32.le_iff_toNat_le.mp hmax
  simp only [State.propose, bind_eq_ok, State.requireMember_eq_ok, ensure_eq_ok, hl,
    List.length_nil, pure_eq_ok]
  exact ⟨_, (), ⟨ha, hm⟩, (), hmax, (), ht, rfl⟩

/-- Calls of the given kind, one for each proposal that takes a slot, make room for new ones. -/
def MakesRoom (C : Contracts W) (sw : State × W) (P : Call → Prop) (e : Env contract) : Prop :=
  ∃ tr sw', ((machine contract C).startedIn sw).Run (fun _ _ ev => ∃ c, ev = .call e c ∧ P c)
      tr sw' ∧ tr.length = sw.1.activeProposals.length ∧ sw'.1.activeProposals = [] ∧
    ∀ (e' : Env contract) (proposer : Address) (title description : String)
      (actions : List GovernanceAction) (allowPartialExecution : Bool),
      e'.auth proposer = true → sw.1.member proposer = true → title ≠ "" →
        ∃ r, sw'.1.propose C e' proposer title description actions allowPartialExecution sw'.2 =
          .ok r

theorem makesRoom_of_ends {P : Call → Prop} (Ready : State → UInt64 → Prop)
    (hc : validateConfig s.config = .ok ()) (hd : s.activeProposals.Nodup)
    (hr : ∀ id ∈ s.activeProposals, Ready s id)
    (hends : ∀ s w id, Ready s id → ∃ c s' w', P c ∧ run C e s w c = .ok (s', w') ∧ Ends s s' id)
    (hkept : ∀ s s' id i, Ends s s' id → i ≠ id → Ready s i → Ready s' i) :
    MakesRoom C (s, w) P e := by
  obtain ⟨tr, ⟨s', w'⟩, hrun, hempty, hlen, hsame⟩ := Machine.exists_run_drain
    (m := machine contract C) (fun sw => sw.1.activeProposals) (fun sw => Ready sw.1)
    (fun ev => ∃ c, ev = .call e c ∧ P c) (fun sw sw' => sw'.1.bylaws = sw.1.bylaws)
    (fun _ => rfl) (fun h h' => h'.trans h)
    (fun sw id _ hready => by
      obtain ⟨c, s', w', hp, hs, hend⟩ := hends sw.1 sw.2 id hready
      exact ⟨.call e c, (s', w'), ⟨c, rfl, hp⟩, hs, hend.listed, hend.bylaws,
        fun i hi => hkept _ _ _ i hend hi⟩) (s := (s, w)) hd hr
  refine ⟨tr, (s', w'), hrun, hlen, hempty,
    fun e' proposer title description actions _ ha hm ht => ?_⟩
  have hconfig : s'.config = s.config := congrArg (fun x => x.2.2) hsame
  have hmember : s'.member = s.member := congrArg (fun x => x.2.1) hsame
  exact propose_accepted (hconfig ▸ hc) hempty ha (hmember ▸ hm) ht

/-- How the slots are recovered, by the admin at once and by a member in time. -/
structure Recoverable (C : Contracts W) (contract : Address) (s : State) (w : W) : Prop where
  byAdmin : ∀ e : Env contract, e.auth s.admin = true →
    MakesRoom C (s, w) (fun c => ∃ id, c = .cancelProposal s.admin id) e
  byMember : ∀ (e : Env contract) (caller : Address), e.auth caller = true →
    s.member caller = true →
    (∀ id ∈ s.activeProposals, ∀ p, s.proposal id = some p → Due e p) →
      MakesRoom C (s, w) (fun c => ∃ id, c = .execute caller id ∨ c = .expireProposal id) e

/--
In every run the admin can free all slots at once, and without the admin any
member can when the proposals are due, if those that were approved run under
best effort. After that every member may propose again.
-/
theorem slots_recoverable {sw : State × W} (h : (machine contract C).Run timely tr sw) :
    Recoverable C contract sw.1 sw.2 := by
  have hindexed := (orderly_run h).indexed
  have hconfig := config_run h
  constructor
  · intro e ha
    refine makesRoom_of_ends (fun s id => s.admin = sw.1.admin ∧ s.Live id) hconfig
      hindexed.nodup (fun id hid => ⟨rfl, (hindexed.mem_iff id).mp hid⟩) ?_ ?_
    · rintro s w id ⟨hadmin, hlive⟩
      obtain ⟨s', hs, hends⟩ := cancelProposal_ends (hadmin ▸ ha) hlive
      exact ⟨_, s', w, ⟨id, rfl⟩, within_eq_ok.mpr ⟨hadmin ▸ hs, rfl⟩, hends⟩
    · rintro s s' id i hends hi ⟨hadmin, p, hp, hlive⟩
      exact ⟨(congrArg Prod.fst hends.bylaws).trans hadmin, p, (hends.others i hi).trans hp, hlive⟩
  · intro e caller ha hm hdue
    refine makesRoom_of_ends (fun s id => s.member caller = true ∧
      ∃ p, s.proposal id = some p ∧ p.status.live = true ∧ Due e p) hconfig hindexed.nodup
      (fun id hid => ?_) ?_ ?_
    · obtain ⟨p, hp, hlive⟩ := (hindexed.mem_iff id).mp hid
      exact ⟨hm, p, hp, hlive, hdue id hid p hp⟩
    · rintro s w id ⟨hmember, p, hp, hlive, hd⟩
      obtain ⟨c, s', w', hc, hs, hends⟩ := due_ends (C := C) (w := w) ha hmember hp hlive hd
      exact ⟨c, s', w', ⟨id, hc⟩, hs, hends⟩
    · rintro s s' id i hends hi ⟨hmember, p, hp, hd⟩
      have hsame : s'.member = s.member := congrArg (fun x => x.2.1) hends.bylaws
      exact ⟨hsame ▸ hmember, p, (hends.others i hi).trans hp, hd⟩

section Sample

/-- One proposal has been approved, and another one waits for votes. -/
def crowded : State × Token.Ledger :=
  councilMachine.calls founded [calledBy 1 (.propose (.account 1) "fees" "" [] true),
    calledBy 1 (.vote (.account 1) 1 true), calledBy 2 (.vote (.account 2) 1 true),
    calledBy 2 (.propose (.account 2) "more fees" "" [] false)]

theorem slots_recoverable_crowded : crowded.1.activeProposals = [1, 2] ∧
    ∃ tr, councilMachine.Run timely tr crowded ∧
      Recoverable (creditContracts Token.home) council crowded.1 crowded.2 := by
  have h0 := Machine.Run.init (m := councilMachine) (G := timely) (s := founded)
    ⟨.account 0, [.account 1, .account 2, .account 3], by rfl⟩
  have h1 := h0.call (l := calledBy 1 (.propose (.account 1) "fees" "" [] true))
    ⟨by decide, by decide⟩ (by rfl)
  have h2 := h1.call (l := calledBy 1 (.vote (.account 1) 1 true)) ⟨by decide, nofun⟩ (by rfl)
  have h3 := h2.call (l := calledBy 2 (.vote (.account 2) 1 true)) ⟨by decide, nofun⟩ (by rfl)
  have h4 := h3.call (l := calledBy 2 (.propose (.account 2) "more fees" "" [] false))
    ⟨by decide, by decide⟩ (by rfl)
  exact ⟨by rfl, _, h4, slots_recoverable h4⟩

end Sample

end WaterCredits.Governance
