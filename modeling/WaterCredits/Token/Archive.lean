import WaterCredits.Token.Cap

/-! # The certificates of a token

Only retirements write certificates, and each of them asks the registry, when
one is configured, for the number of its record.
-/

namespace WaterCredits.Token

open Foundation

variable {contract : Address} {W : Type} {e : Env contract} {R : Registry W}
  {s s' : State} {w w' : W}

theorem step_archive_eq {c : Call} (hc : c.retiring = false)
    (h : step R (e, c) (s, w) = .ok (s', w')) : s'.archive = s.archive ∧ w' = w := by
  constructor
  · cases ha : c.accounting with
    | false => exact (step_administer ha h).2.2
    | true =>
      rw [step_frame ha hc h]
      rfl
  · cases c <;> simp only [Call.retiring, Bool.true_eq_false] at hc <;>
      exact (within_eq_ok.mp h).2.symm

theorem retire_cases {holder registry : Address} {amount : I128} {purpose metadataUri : String}
    (hr : s.retirementRegistry = some registry)
    (h : step R (e, .retire holder amount purpose metadataUri) (s, w) = .ok (s', w')) :
    ∃ recordId, R.recordRetirement registry contract holder s.metadata.projectId amount purpose
        metadataUri w = .ok (recordId, w') ∧
      s'.archive = (Function.update s.cert s.certCount (some {
          retiree := holder
          projectId := s.metadata.projectId
          amount, purpose
          timestamp := e.timestamp
          metadataUri
          registryRecordId := some recordId }), s.certCount + 1, s.totalRetired + amount) := by
  simp only [step, State.retire, State.recordRetirement, State.saveBalance, hr, bind_eq_ok,
    pure_eq_ok, Prod.mk.injEq] at h
  obtain ⟨_, ⟨_, -, _, -, _, -, _, -, _, -, ⟨_, v⟩, ⟨⟨recordId, v'⟩, hrecord, rfl, rfl⟩, rfl⟩, rfl,
    rfl⟩ := h
  exact ⟨recordId, hrecord, rfl⟩

theorem retire_ok {holder registry : Address} {amount : I128} {purpose metadataUri : String}
    {recordId : UInt64} (h0 : 0 < amount) (hp : s.paused = false) (he : e.auth holder = true)
    (hle : amount ≤ s.balance holder) (hr : s.retirementRegistry = some registry)
    (hrecord : R.recordRetirement registry contract holder s.metadata.projectId amount purpose
      metadataUri w = .ok (recordId, w')) :
    ∃ cert, step R (e, .retire holder amount purpose metadataUri) (s, w) =
      .ok ({ s.saveBalance holder (s.balance holder - amount) with
        totalSupply := s.totalSupply - amount
        totalRetired := s.totalRetired + amount
        cert := Function.update s.cert s.certCount (some cert)
        certCount := s.certCount + 1 }, w') := by
  simp only [step, State.retire, State.recordRetirement, State.saveBalance, hr, hrecord, bind_eq_ok,
    ensure_eq_ok, require_eq_ok, pure_eq_ok, Env.requireAuth_eq_ok, State.requireNotPaused_eq_ok,
    Prod.mk.injEq]
  exact ⟨_, _, ⟨(), h0, (), hp, (), he, (), hle, (), by simp, _, ⟨_, rfl, rfl⟩, rfl⟩, rfl, rfl⟩

end WaterCredits.Token
