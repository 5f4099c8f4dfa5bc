import WaterCredits.Governance.Calls

/-! # The footprint of governance

Governance calls other contracts by name: proposals and votes query a token,
executions dispatch the actions of their proposal, and the emergency calls sweep
the registered contracts. A relation between worlds that the queries respect is
respected by every call that dispatches nothing.
-/

namespace WaterCredits.Governance

open Foundation

variable {contract target : Address} {W : Type} {C : Contracts W} {e : Env contract}
  {s s' : State} {w w' : W} {function : String} {args : List Val} {val : Val}
  {P : Address → String → List Val → Prop} {Rel : W → W → Prop}

/-- The calls on other contracts that meet `P` respect a relation between worlds. -/
structure Respects (C : Contracts W) (contract : Address) (P : Address → String → List Val → Prop)
    (Rel : W → W → Prop) : Prop where
  refl : ∀ w, Rel w w
  trans : ∀ {w v u}, Rel w v → Rel v u → Rel w u
  invoke : ∀ {target function args w val w'}, P target function args →
    C.invoke contract target function args w = .ok (val, w') → Rel w w'

def Call.dispatches : Call → Bool
  | .execute .. | .emergencyPause .. | .emergencyUnpause .. => true
  | _ => false

namespace Respects

variable (hR : Respects C contract P Rel)

include hR

theorem call (hp : P target function args)
    (h : C.call contract target function args w = .ok (val, w')) : Rel w w' := by
  unfold Contracts.call at h
  split at h
  · cases h
  · exact hR.invoke hp h

theorem tryCall (hp : P target function args) :
    Rel w (C.tryCall contract target function args w).2 := by
  unfold Contracts.tryCall
  split
  · rename_i h
    exact hR.call hp h
  · exact hR.refl w

theorem dispatch {bestEffort ok : Bool} (hp : P target function args)
    (h : C.dispatch contract target function args w bestEffort = .ok (ok, w')) : Rel w w' := by
  cases bestEffort with
  | true =>
    obtain ⟨-, rfl⟩ := Prod.mk.inj (pure_eq_ok.mp h)
    exact hR.tryCall hp
  | false =>
    simp only [Contracts.dispatch, Bool.false_eq_true, if_false, bind_eq_ok, pure_eq_ok] at h
    obtain ⟨⟨val, v⟩, hc, _, -, heq⟩ := h
    cases heq
    exact hR.call hp hc

theorem dispatchActions {bestEffort : Bool} {actions : List GovernanceAction} {results : List Bool}
    (hp : ∀ action ∈ actions, action.protocolAction = .none ∧
      P action.target action.function action.args)
    (h : State.dispatchActions C contract bestEffort actions s w = .ok (results, s', w')) :
    Rel w w' := by
  induction actions generalizing s w results with
  | nil =>
    cases h
    exact hR.refl _
  | cons action rest ih =>
    obtain ⟨⟨hgeneric, hcall⟩, hrest⟩ := List.forall_mem_cons.mp hp
    simp only [State.dispatchActions, State.dispatchAction, hgeneric, bind_eq_ok, pure_eq_ok] at h
    obtain ⟨_, ⟨⟨ok, v⟩, hd, rfl⟩, ⟨results', t, u⟩, hr, heq⟩ := h
    cases heq
    exact hR.trans (hR.dispatch hcall hd) (ih hrest hr)

theorem eligibleWeight (hsupply : ∀ t, P t "total_supply" []) :
    Rel w (s.getTotalEligibleWeight C contract w).2 := by
  unfold State.getTotalEligibleWeight
  cases s.governanceToken with
  | none => exact hR.refl w
  | some token =>
    have hw := hR.tryCall (w := w) (hsupply token)
    dsimp only
    split <;> rename_i hq <;> rwa [hq] at hw

theorem votingWeight {voter : Address} (hbalance : ∀ t a, P t "balance" [.address a]) :
    Rel w (s.getVoterVotingWeight C contract voter w).2 := by
  unfold State.getVoterVotingWeight
  cases s.governanceToken with
  | none => exact hR.refl w
  | some token =>
    have hw := hR.tryCall (w := w) (hbalance token voter)
    dsimp only
    split <;> rename_i hq <;> rwa [hq] at hw

/-- Without dispatching, governance only asks a token for a balance or for its supply. -/
theorem run {c : Call} (hbalance : ∀ t a, P t "balance" [.address a])
    (hsupply : ∀ t, P t "total_supply" []) (hc : c.dispatches = false)
    (h : Governance.run C e s w c = .ok (s', w')) : Rel w w' := by
  cases c <;> simp only [Call.dispatches, Bool.true_eq_false] at hc
  case propose =>
    simp only [Governance.run, discard, State.propose, bind_eq_ok, pure_eq_ok] at h
    obtain ⟨⟨id, t, v⟩, ⟨_, -, _, -, _, -, heq⟩, heq'⟩ := h
    cases heq
    cases heq'
    exact hR.eligibleWeight hsupply
  case vote =>
    simp only [Governance.run, State.vote, bind_eq_ok, pure_eq_ok] at h
    obtain ⟨_, -, p, -, _, -, _, -, _, -, heq⟩ := h
    cases heq
    exact hR.votingWeight hbalance
  case setGovernanceToken admin token =>
    simp only [Governance.run, State.setGovernanceToken, bind_eq_ok] at h
    obtain ⟨_, -, h⟩ := h
    have hw := hR.tryCall (w := w) (hsupply token)
    split at h
    · rename_i hq
      cases h
      rwa [hq] at hw
    · cases h
  all_goals
    obtain ⟨-, rfl⟩ := within_eq_ok.mp h
    exact hR.refl w

end Respects

end WaterCredits.Governance
