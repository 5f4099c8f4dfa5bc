import WaterCredits.Token.Frozen
import WaterCredits.Token.Handover

/-! # The offices of a token

The admin, its successor, the minter, the guardian and the bridge hold offices.
Everybody else only moves and retires credits: without the signature of an
officer no run changes an office, a setting or the credits ever issued.
-/

namespace WaterCredits.Token

open Foundation Function

variable {contract : Address} {W : Type} {e : Env contract} {R : Registry W}
  {s s' : State} {w w' : W} {a : Address}

namespace State

def Officer (s : State) (a : Address) : Prop :=
  a = s.admin ∨ s.pendingAdmin = some a ∨ a = s.readMinter ∨ s.pauseGuardian = some a ∨
    s.bridge = some a

/-- The offices and the settings. -/
structure Rules where
  admin : Address
  handover : Option Address × Option UInt64
  minter : Option Address
  pauseGuardian : Option Address
  bridge : Option Address
  retirementRegistry : Option Address
  requireRegistry : Bool
  paused : Bool
  maxSupply : I128
  metadata : String × String × UInt32 × CreditMetadata

def rules (s : State) : Rules where
  admin := s.admin
  handover := (s.pendingAdmin, s.pendingAdminActiveAfter)
  minter := s.minter
  pauseGuardian := s.pauseGuardian
  bridge := s.bridge
  retirementRegistry := s.retirementRegistry
  requireRegistry := s.requireRegistry
  paused := s.paused
  maxSupply := s.maxSupply
  metadata := (s.name, s.symbol, s.decimals, s.metadata)

def issued (s : State) : I128 × I128 × I128 := (s.everMinted, s.totalBurned, s.bridgedToEvm)

theorem officer_congr (h : s'.rules = s.rules) : s'.Officer a ↔ s.Officer a := by
  have hadmin : s'.admin = s.admin := congrArg Rules.admin h
  have hpending : s'.pendingAdmin = s.pendingAdmin := congrArg (fun r => r.handover.1) h
  have hminter : s'.minter = s.minter := congrArg Rules.minter h
  have hguardian : s'.pauseGuardian = s.pauseGuardian := congrArg Rules.pauseGuardian h
  have hbridge : s'.bridge = s.bridge := congrArg Rules.bridge h
  simp only [Officer, readMinter, hadmin, hpending, hminter, hguardian, hbridge]

end State

/-- The calls that need no office. -/
def Call.common : Call → Bool
  | .transfer .. | .batchTransfer .. | .transferFrom .. | .approve .. | .retire .. => true
  | _ => false

theorem step_officer {c : Call} (hc : c.common = false)
    (h : step R (e, c) (s, w) = .ok (s', w')) : ∃ a, s.Officer a ∧ e.auth a = true := by
  cases hd : c.destroys with
  | some p =>
    rcases step_destroys_by hd h with hauth | ⟨hbridge, hauth⟩
    · exact ⟨_, .inl rfl, hauth⟩
    · exact ⟨_, .inr (.inr (.inr (.inr hbridge))), hauth⟩
  | none =>
    cases c <;> simp only [Call.common, Call.destroys, Bool.true_eq_false, reduceCtorEq] at hc hd
    case initialise =>
      simp only [step, within_eq_ok, initialise_eq_ok, reduceCtorEq, false_and] at h
    case acceptAdmin =>
      obtain ⟨hauth, hp, -⟩ := acceptAdmin_eq_ok.mp (within_eq_ok.mp h).1
      exact ⟨_, .inr (.inl hp), hauth⟩
    case mintTo =>
      obtain ⟨-, -, ⟨hauth, rfl | rfl⟩, -⟩ := mintTo_eq_ok.mp (within_eq_ok.mp h).1
      · exact ⟨_, .inr (.inr (.inl rfl)), hauth⟩
      · exact ⟨_, .inl rfl, hauth⟩
    case batchMintTo =>
      simp only [step, within_eq_ok, State.batchMintTo, bind_eq_ok,
        State.requireMinter_eq_ok] at h
      obtain ⟨⟨_, -, _, -, _, -, _, ⟨hauth, rfl | rfl⟩, -⟩, -⟩ := h
      · exact ⟨_, .inr (.inr (.inl rfl)), hauth⟩
      · exact ⟨_, .inl rfl, hauth⟩
    case pause | unpause =>
      simp only [step, within_eq_ok, State.pause, State.unpause, bind_eq_ok,
        State.requirePauser_eq_ok] at h
      obtain ⟨⟨_, ⟨hauth, rfl | hg⟩, -⟩, -⟩ := h
      · exact ⟨_, .inl rfl, hauth⟩
      · exact ⟨_, .inr (.inr (.inr (.inl hg))), hauth⟩
    all_goals
      simp only [step, within_eq_ok, State.setAdmin, State.proposeAdmin,
        State.cancelAdminProposal, State.setMinter, State.setRetirementRegistry,
        State.setRequireRegistry, State.setMaxSupply, State.setPauseGuardian, State.setBridge,
        bind_eq_ok, State.requireAdmin_eq_ok] at h
      obtain ⟨⟨_, ⟨hauth, rfl⟩, -⟩, -⟩ := h
      exact ⟨_, .inl rfl, hauth⟩

/-- A call that needs no office leaves the offices, the settings and the issued credits alone. -/
theorem step_common {c : Call} (hc : c.common = true)
    (h : step R (e, c) (s, w) = .ok (s', w')) : s'.rules = s.rules ∧ s'.issued = s.issued := by
  by_cases ht : c.transferLike = true
  · rw [step_transfers ht h]
    exact ⟨rfl, rfl⟩
  by_cases hr : c.retiring = true
  · rw [step_retiring hr h]
    exact ⟨rfl, rfl⟩
  cases c <;> simp only [Call.common, Bool.false_eq_true] at hc <;>
    simp only [Call.transferLike, Call.retiring, not_true_eq_false] at ht hr
  case approve =>
    rw [step_administered rfl h]
    exact ⟨rfl, rfl⟩

/-- Calls that none of the officers of a state authorises. -/
def unofficial (s₀ : State) : Guard (State × W) (Env contract × Call) := fun _ _ l =>
  ∀ a, s₀.Officer a → l.1.auth a = false

/--
Without the officers of a state, later calls change no office and no setting,
and neither issue nor burn credits.
-/
theorem outsiders_powerless {sw₀ sw : State × W}
    (h : ((machine contract R).startedIn sw₀).Reach (unofficial sw₀.1) sw) :
    sw.1.rules = sw₀.1.rules ∧ sw.1.issued = sw₀.1.issued := by
  refine Machine.Reach.invariant
    (I := fun sw => sw.1.rules = sw₀.1.rules ∧ sw.1.issued = sw₀.1.issued) ?_ ?_ h
  · rintro sw rfl
    exact ⟨rfl, rfl⟩
  · rintro tr ⟨s, w⟩ ⟨e, c⟩ ⟨s', w'⟩ ⟨hrules, hissued⟩ hg hs
    cases hc : c.common with
    | true =>
      obtain ⟨hr, hi⟩ := step_common hc hs
      exact ⟨hr.trans hrules, hi.trans hissued⟩
    | false =>
      obtain ⟨a, ha, hauth⟩ := step_officer hc hs
      have hno := hg a ((State.officer_congr hrules).mp ha)
      exact absurd (hauth.symm.trans hno) Bool.true_eq_false.mp

section Sample

def circulated : State × Unit :=
  (machine home closedRegistry).calls funded
    [signedBy 1 (.transfer (.account 1) (.account 2) 5),
      signedBy 2 (.retire (.account 2) 5 "offset" "")]

theorem outsiders_powerless_circulated :
    circulated.1.totalRetired = 5 ∧ circulated.1.rules = funded.1.rules ∧
      circulated.1.issued = funded.1.issued := by
  have hofficer (a : Address) (ha : funded.1.Officer a) : a = .account 0 := by
    rcases ha with h | h | h | h | h
    · exact h
    · cases h
    · exact h
    · cases h
    · cases h
  have hstart := Machine.Run.init (m := (machine home closedRegistry).startedIn funded)
    (G := unofficial funded.1) rfl
  have hsent := hstart.call (l := signedBy 1 (.transfer (.account 1) (.account 2) 5))
    (fun a ha => hofficer a ha ▸ rfl) (by decide)
  have hretired := hsent.call (l := signedBy 2 (.retire (.account 2) 5 "offset" ""))
    (fun a ha => hofficer a ha ▸ rfl) (by decide)
  exact ⟨by decide, outsiders_powerless ⟨_, hretired⟩⟩

end Sample

end WaterCredits.Token
