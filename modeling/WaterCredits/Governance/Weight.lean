import WaterCredits.Foundation.Ballot
import WaterCredits.Governance.Effects
import WaterCredits.Token.Ledger

/-! # The weight of the votes on a proposal

The weight of a voter is its balance at the time of the vote. As long as no
voter has more than when the proposal was created, the votes stay within the
eligible weight; units that move to another voter are counted again.
-/

namespace WaterCredits.Governance

open Foundation Function
open Token (Ledger)

variable {contract : Address} {W : Type} {C : Contracts W} {e : Env contract} {s s' : State}
  {w w' : W} {id : UInt64} {token : Address} {ledger : W → Ledger}
  {tr : Trace (State × W) (Event contract W)} {t : Tally}

/-- The governance token is a credit token, whose ledger the world contains. -/
structure CreditLedger (C : Contracts W) (contract token : Address) (ledger : W → Ledger) :
    Prop where
  apart : token ≠ contract
  balance : ∀ a w, C.invoke contract token "balance" [.address a] w =
    .ok (.i128 ((ledger w).balance a), w)
  totalSupply : ∀ w, C.invoke contract token "total_supply" [] w =
    .ok (.i128 (ledger w).totalSupply, w)

section Readings

variable (hl : CreditLedger C contract token ledger) (ht : s.governanceToken = some token)

include hl ht

theorem getVoterVotingWeight_eq (voter : Address) :
    s.getVoterVotingWeight C contract voter w = ((ledger w).balance voter, w) := by
  simp only [State.getVoterVotingWeight, ht, Contracts.tryCall, Contracts.call, if_neg hl.apart,
    hl.balance]

theorem getTotalEligibleWeight_eq :
    s.getTotalEligibleWeight C contract w = ((ledger w).totalSupply, w) := by
  simp only [State.getTotalEligibleWeight, ht, Contracts.tryCall, Contracts.call, if_neg hl.apart,
    hl.totalSupply]

end Readings

/-- The world in which a proposal was last created. -/
def createdIn (id : UInt64) : Trace (State × W) (Event contract W) → Option W
  | [] => none
  | st :: tr =>
    match st.label with
    | .call _ (.propose ..) =>
        if st.before.1.proposalCount + 1 = id then some st.before.2 else createdIn id tr
    | _ => createdIn id tr

/--
Proposals are created under the governance token at `token`, at a time when its
balances fit into its supply.
-/
def tokenWeighted (token : Address) (ledger : W → Ledger) : Guard (State × W) (Event contract W) :=
  fun _ sw ev =>
    match ev with
    | .call _ (.propose ..) => sw.1.governanceToken = some token ∧ (ledger sw.2).Covered
    | .call _ (.setGovernanceToken _ t) => t = token
    | _ => True

/-- No voter has more than it had when the proposal was created. -/
def withinSnapshot (ledger : W → Ledger) : Guard (State × W) (Event contract W) :=
  fun tr sw ev =>
    match ev with
    | .call _ (.vote voter id _) => ∀ w₀, createdIn id tr = some w₀ →
        (ledger sw.2).balance voter ≤ (ledger w₀).balance voter
    | _ => True

def power (l : Ledger) (a : Address) : ℤ := (l.balance a).val

/-- A ballot of voters that are marked, with the weights of a proposal. -/
structure Counts (s : State) (id : UInt64) (t : Tally) (b : Ballot Address) : Prop where
  yes : t.votesFor.val = b.yes
  no : t.votesAgainst.val = b.no
  voted : ∀ a ∈ b.voters, s.hasVoted (id, a) = true

/-- The votes on a proposal count units of a ledger, each of them at most once. -/
structure WithinLedger (s : State) (id : UInt64) (t : Tally) (l : Ledger) : Prop where
  covered : ∑ᶠ a, power l a ≤ t.eligible.val
  ballot : ∃ b, Counts s id t b ∧ b.Within (power l)

/-- The votes never weigh more than what is eligible. -/
theorem WithinLedger.weight_le {l : Ledger} (h : WithinLedger s id t l) :
    t.votesFor.val + t.votesAgainst.val ≤ t.eligible.val := by
  obtain ⟨b, hc, hb⟩ := h.ballot
  have hle := hb.weight_le_total l.holdings.finite l.holdings.nonneg
  rw [hc.yes, hc.no]
  exact hle.trans h.covered

theorem WithinLedger.mono {l : Ledger} (h : WithinLedger s id t l)
    (hv : ∀ a, s.hasVoted (id, a) = true → s'.hasVoted (id, a) = true) :
    WithinLedger s' id t l := by
  obtain ⟨b, hc, hb⟩ := h.ballot
  exact ⟨h.covered, b, ⟨hc.yes, hc.no, fun a ha => hv a (hc.voted a ha)⟩, hb⟩

theorem withinLedger_new {l : Ledger} {supply : I128} (hs : supply = l.totalSupply)
    (hcov : l.Covered) : WithinLedger s id ⟨supply, 0, 0⟩ l := by
  subst hs
  exact ⟨hcov, .empty, ⟨rfl, rfl, by simp [Ballot.empty]⟩, Ballot.within_empty⟩

/-- A vote whose sums stay in range counts exactly. -/
theorem Counts.cast {b : Ballot Address} {voter : Address} {approve : Bool} {n : I128}
    (h : Counts s id t b) (hy : I128.Fits (b.cast voter approve n.val).yes)
    (hn : I128.Fits (b.cast voter approve n.val).no)
    (hm : s'.hasVoted = update s.hasVoted (id, voter) true) :
    Counts s' id (t.cast approve n) (b.cast voter approve n.val) := by
  have hvoted : ∀ a ∈ (b.cast voter approve n.val).voters, s'.hasVoted (id, a) = true := by
    intro a ha
    rw [hm, update_apply]
    split
    · rfl
    · rename_i hne
      rcases Finset.mem_insert.mp ha with rfl | ha
      · exact absurd rfl hne
      · exact h.voted a ha
  cases approve with
  | true =>
    simp only [Ballot.cast, if_true, ← h.yes] at hy
    refine ⟨?_, h.no, hvoted⟩
    simp only [Tally.cast, Ballot.cast, if_true, ← h.yes]
    exact I128.val_add hy
  | false =>
    simp only [Ballot.cast, Bool.false_eq_true, if_false, ← h.no] at hn
    refine ⟨h.yes, ?_, hvoted⟩
    simp only [Tally.cast, Ballot.cast, Bool.false_eq_true, if_false, ← h.no]
    exact I128.val_add hn

theorem WithinLedger.vote {l l₀ : Ledger} {voter : Address} {approve : Bool}
    (h : WithinLedger s id t l₀) (hv : s.hasVoted (id, voter) = false)
    (hle : l.balance voter ≤ l₀.balance voter)
    (hm : s'.hasVoted = update s.hasVoted (id, voter) true) :
    WithinLedger s' id (t.cast approve (l.balance voter)) l₀ := by
  obtain ⟨b, hc, hb⟩ := h.ballot
  have hvoter : voter ∉ b.voters := fun hmem => by
    have := hc.voted voter hmem
    rw [hv] at this
    cases this
  have hcast := hb.cast hvoter (l.holdings.nonneg voter) hle approve
  have htotal := hcast.weight_le_total l₀.holdings.finite l₀.holdings.nonneg
  have hy := hcast.yes_nonneg
  have hn := hcast.no_nonneg
  have hlt := t.eligible.val_lt
  have hcov := h.covered
  unfold Ballot.weight at htotal
  have heligible : (t.cast approve (l.balance voter)).eligible = t.eligible := by
    unfold Tally.cast
    split <;> rfl
  refine ⟨heligible ▸ h.covered, _, hc.cast ⟨?_, ?_⟩ ⟨?_, ?_⟩ hm, hcast⟩
  all_goals omega

/-- What every run under the guards keeps: proposals and the worlds that they were created in. -/
structure Snapshots (token : Address) (ledger : W → Ledger)
    (tr : Trace (State × W) (Event contract W)) (s : State) : Prop where
  within : ∀ id t, s.tally id = some t → s.governanceToken = some token ∧
    ∃ w₀, createdIn id tr = some w₀ ∧ WithinLedger s id t (ledger w₀)

/-- The guards of a run in which votes stay within the balances at the creation. -/
def snapshotKept (token : Address) (ledger : W → Ledger) : Guard (State × W) (Event contract W) :=
  fun tr sw ev => tokenWeighted token ledger tr sw ev ∧ withinSnapshot ledger tr sw ev

namespace Snapshots

variable {st : Step (State × W) (Event contract W)} (h : Snapshots token ledger tr s)

include h

theorem keep (hc : ∀ id, createdIn id (st :: tr) = createdIn id tr) (ht : s'.tally = s.tally)
    (hv : s'.hasVoted = s.hasVoted)
    (hg : s'.governanceToken = s.governanceToken ∨ s'.governanceToken = some token) :
    Snapshots token ledger (st :: tr) s' := by
  constructor
  intro id t hid
  rw [ht] at hid
  obtain ⟨htok, w₀, hw₀, hin⟩ := h.within id t hid
  refine ⟨?_, w₀, (hc id).trans hw₀, hin.mono fun a ha => hv ▸ ha⟩
  rcases hg with hg | hg
  · exact hg.trans htok
  · exact hg

theorem propose (hl : CreditLedger C contract token ledger) {proposer : Address}
    {title description : String} {actions : List GovernanceAction} {allowPartialExecution : Bool}
    (htok : s.governanceToken = some token) (hcov : (ledger w).Covered)
    (hs : run C e s w (.propose proposer title description actions allowPartialExecution) =
      .ok (s', w')) :
    Snapshots token ledger (⟨(s, w), .call e (.propose proposer title description actions
      allowPartialExecution), (s', w')⟩ :: tr) s' := by
  obtain ⟨hg, hv, ht⟩ := propose_cases hs
  constructor
  intro id t hid
  rw [ht, update_apply] at hid
  refine ⟨hg.trans htok, ?_⟩
  by_cases hnew : s.proposalCount + 1 = id
  · rw [if_pos hnew.symm] at hid
    cases hid
    exact ⟨w, if_pos hnew, withinLedger_new (by rw [getTotalEligibleWeight_eq hl htok]) hcov⟩
  · rw [if_neg (Ne.symm hnew)] at hid
    obtain ⟨-, w₀, hw₀, hin⟩ := h.within id t hid
    exact ⟨w₀, (if_neg hnew).trans hw₀, hin.mono fun a ha => hv ▸ ha⟩

theorem vote (hl : CreditLedger C contract token ledger) {voter : Address} {approve : Bool}
    (hle : ∀ w₀, createdIn id tr = some w₀ →
      (ledger w).balance voter ≤ (ledger w₀).balance voter)
    (hs : s.vote C e voter id approve w = .ok (s', w')) :
    Snapshots token ledger (⟨(s, w), .call e (.vote voter id approve), (s', w')⟩ :: tr) s' := by
  obtain ⟨t₀, ht₀, hnew, hg, hm, ht⟩ := vote_cases hs
  obtain ⟨htok, w₀, hw₀, hin⟩ := h.within id t₀ ht₀
  rw [getVoterVotingWeight_eq hl htok] at ht
  constructor
  intro i t hi
  rw [ht, update_apply] at hi
  refine ⟨hg.trans htok, ?_⟩
  by_cases hid : i = id
  · subst hid
    rw [if_pos rfl] at hi
    cases hi
    exact ⟨w₀, hw₀, hin.vote hnew (hle w₀ hw₀) hm⟩
  · rw [if_neg hid] at hi
    obtain ⟨-, w₁, hw₁, hin₁⟩ := h.within i t hi
    refine ⟨w₁, hw₁, hin₁.mono fun a ha => ?_⟩
    have hne : (i, a) ≠ (id, voter) := fun heq => hid (congrArg Prod.fst heq)
    rwa [hm, update_of_ne hne]

end Snapshots

theorem snapshots_step (hl : CreditLedger C contract token ledger) {ev : Event contract W}
    (hg : snapshotKept token ledger tr (s, w) ev) (h : Snapshots token ledger tr s)
    (hs : step C ev (s, w) = .ok (s', w')) :
    Snapshots token ledger (⟨(s, w), ev, (s', w')⟩ :: tr) s' := by
  cases ev with
  | outside v =>
    cases hs
    exact h.keep (fun id => rfl) rfl rfl (.inl rfl)
  | call e c =>
    have hs : run C e s w c = .ok (s', w') := hs
    cases c with
    | propose => exact h.propose hl hg.1.1 hg.1.2 hs
    | vote => exact h.vote hl hg.2 hs
    | setGovernanceToken admin t =>
      obtain ⟨htok, hv, ht⟩ := setGovernanceToken_cases hs
      have hsame : t = token := hg.1
      exact h.keep (fun id => rfl) ht hv (.inr (hsame ▸ htok))
    | _ =>
      have hb := run_ballots rfl hs
      exact h.keep (fun id => rfl) (congrArg Ballots.tally hb) (congrArg Ballots.hasVoted hb)
        (.inl (congrArg Ballots.governanceToken hb))

theorem snapshots_run (hl : CreditLedger C contract token ledger) {sw : State × W}
    (h : (machine contract C).Run (snapshotKept token ledger) tr sw) :
    Snapshots token ledger tr sw.1 := by
  refine Machine.Run.invariant (I := fun tr sw => Snapshots token ledger tr sw.1) ?_ ?_ h
  · rintro ⟨s, w⟩ ⟨admin, members, hs⟩
    obtain ⟨-, rfl⟩ := initialise_eq_ok.mp hs
    exact ⟨fun id t hid => by cases hid⟩
  · rintro tr ⟨s, w⟩ ev ⟨s', w'⟩ - hi hg hs
    exact snapshots_step hl hg hi hs

/--
The votes on a proposal never weigh more than what was eligible at its creation,
and they count units of that time at most once each, in every run in which no
voter has more than it had then.
-/
theorem votes_within_eligible (hl : CreditLedger C contract token ledger) {sw : State × W}
    (h : (machine contract C).Run (snapshotKept token ledger) tr sw) {p : Proposal}
    (hp : sw.1.proposal id = some p) :
    p.votesForWeight.val + p.votesAgainstWeight.val ≤ p.totalEligibleWeight.val ∧
      ∃ w₀, createdIn id tr = some w₀ ∧ WithinLedger sw.1 id p.tally (ledger w₀) := by
  have hid : sw.1.tally id = some p.tally := congrArg (Option.map Proposal.tally) hp
  obtain ⟨-, w₀, hw₀, hin⟩ := (snapshots_run hl h).within id p.tally hid
  exact ⟨hin.weight_le, w₀, hw₀, hin⟩

section Sample

def creditContracts (token : Address) : Contracts Ledger where
  invoke _ target function args l :=
    if target = token then
      match function, args with
      | "balance", [.address a] => .ok (.i128 (l.balance a), l)
      | "total_supply", [] => .ok (.i128 l.totalSupply, l)
      | _, _ => .error .invokeFailed
    else .error .invokeFailed

abbrev council : Address := .contract 3

theorem creditContracts_ledger :
    CreditLedger (creditContracts Token.home) council Token.home fun l => l where
  apart := by decide
  balance a l := by simp [creditContracts]
  totalSupply l := by simp [creditContracts]

/-- The ledger after sample calls on the token of which the account `1` holds one hundred units. -/
def ledgerAfter (calls : List (Env Token.home × Token.Call)) : Ledger where
  state := ((Token.machine Token.home Token.closedRegistry).calls Token.funded calls).1
  reached := ⟨Token.home, Unit, Token.closedRegistry, (), Token.funded_reach.free.calls calls⟩

/-- The account `1` keeps forty units and the account `3` has sixty. -/
def split : List (Env Token.home × Token.Call) :=
  [Token.signedBy 1 (.transfer (.account 1) (.account 3) 60)]

def collected : List (Env Token.home × Token.Call) :=
  split ++ [Token.signedBy 1 (.transfer (.account 1) (.account 2) 40),
    Token.signedBy 3 (.transfer (.account 3) (.account 2) 60)]

def calledBy (key : BytesN 32) (c : Call) : Event council Ledger :=
  .call (.signed 0 0 (.account key) (by simp)) c

def movedBy (calls : List (Env Token.home × Token.Call)) : Event council Ledger :=
  .outside (ledgerAfter calls)

/-- A fresh contract with three members. -/
def founded : State × Ledger :=
  ({ admin := .account 0
     memberCount := 3
     member := update (update (update (fun _ => false) (.account 1) true) (.account 2) true)
      (.account 3) true }, ledgerAfter split)

abbrev councilMachine : Machine (State × Ledger) (Event council Ledger) Panic :=
  machine council (creditContracts Token.home)

def voted : State × Ledger :=
  councilMachine.calls founded [calledBy 0 (.setGovernanceToken (.account 0) Token.home),
    calledBy 1 (.propose (.account 1) "fees" "" [] false), calledBy 1 (.vote (.account 1) 1 true)]

theorem split_covered : (ledgerAfter split).Covered :=
  Ledger.covered_of_noSelfTransfer
    (Token.funded_reach.calls
      (by simp [split, Token.signedBy, Token.noSelfTransfer, Token.Call.toSelf]))

theorem voted_run : ∃ tr, councilMachine.Run (snapshotKept Token.home fun l => l) tr voted ∧
    createdIn 1 tr = some (ledgerAfter split) := by
  have h0 := Machine.Run.init (m := councilMachine) (G := snapshotKept Token.home fun l => l)
    (s := founded) ⟨.account 0, [.account 1, .account 2, .account 3], by rfl⟩
  have h1 := h0.call (l := calledBy 0 (.setGovernanceToken (.account 0) Token.home))
    ⟨rfl, trivial⟩ (by rfl)
  have h2 := h1.call (l := calledBy 1 (.propose (.account 1) "fees" "" [] false))
    ⟨⟨by rfl, split_covered⟩, trivial⟩ (by rfl)
  have h3 := h2.call (l := calledBy 1 (.vote (.account 1) 1 true))
    ⟨trivial, fun w₀ hw₀ => by cases hw₀; exact le_rfl⟩ (by rfl)
  exact ⟨_, h3, by rfl⟩

/-- The account `3` has sent twenty of its sixty units to the account `2`. -/
def lightened : List (Env Token.home × Token.Call) :=
  split ++ [Token.signedBy 3 (.transfer (.account 3) (.account 2) 20)]

def settled : State × Ledger :=
  councilMachine.calls voted [movedBy lightened, calledBy 3 (.vote (.account 3) 1 false)]

theorem votes_within_eligible_settled :
    ∃ p, settled.1.proposal 1 = some p ∧
      (p.votesForWeight.val, p.votesAgainstWeight.val, p.totalEligibleWeight.val) = (40, 40, 100) ∧
      p.votesForWeight.val + p.votesAgainstWeight.val ≤ p.totalEligibleWeight.val := by
  obtain ⟨tr, h, hc⟩ := voted_run
  have hout := h.call (l := movedBy lightened) ⟨trivial, trivial⟩ (by rfl)
  have hvote := hout.call (l := calledBy 3 (.vote (.account 3) 1 false))
    ⟨trivial, fun w₀ hw₀ => by
      have hw : w₀ = ledgerAfter split := Option.some.inj (hw₀.symm.trans hc)
      subst hw
      have hle : ((ledgerAfter lightened).balance (.account 3)).val ≤
        ((ledgerAfter split).balance (.account 3)).val := by decide
      exact hle⟩ (by rfl)
  have hsum : (settled.1.proposal 1).map (fun p =>
      (p.votesForWeight.val, p.votesAgainstWeight.val, p.totalEligibleWeight.val)) =
      some (40, 40, 100) := by rfl
  obtain ⟨p, hp, heq⟩ := Option.map_eq_some_iff.mp hsum
  exact ⟨p, hp, heq, (votes_within_eligible creditContracts_ledger hvote hp).1⟩

def recycled : State × Ledger :=
  councilMachine.calls voted [movedBy collected, calledBy 2 (.vote (.account 2) 1 true)]

/-- The forty units of the account `1` count again after they have moved to the account `2`. -/
theorem moved_units_vote_again :
    ∃ tr, councilMachine.Run (tokenWeighted Token.home fun l => l) tr recycled ∧
      (recycled.2.totalSupply.val = 100 ∧ (recycled.2.balance (.account 2)).val = 100) ∧
      ∃ p, recycled.1.proposal 1 = some p ∧ p.status = .approved ∧
        p.totalEligibleWeight.val = 100 ∧
        p.votesForWeight.val + p.votesAgainstWeight.val = 140 := by
  obtain ⟨tr, h, -⟩ := voted_run
  have hrun : councilMachine.Run (tokenWeighted Token.home fun l => l) tr voted :=
    h.mono fun _ _ _ hg => hg.1
  have hout := hrun.call (l := movedBy collected) trivial (by rfl)
  have hvote := hout.call (l := calledBy 2 (.vote (.account 2) 1 true)) trivial (by rfl)
  have hsum : (recycled.1.proposal 1).map (fun p => (p.status, p.totalEligibleWeight.val,
      p.votesForWeight.val + p.votesAgainstWeight.val)) = some (.approved, 100, 140) := by rfl
  obtain ⟨p, hp, heq⟩ := Option.map_eq_some_iff.mp hsum
  simp only [Prod.mk.injEq] at heq
  exact ⟨_, hvote, ⟨by decide, by decide⟩, p, hp, heq⟩

end Sample

end WaterCredits.Governance
