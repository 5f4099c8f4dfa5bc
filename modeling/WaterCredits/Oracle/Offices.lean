import WaterCredits.Oracle.Moves

/-! # The offices of the oracle

The admin and the guardian hold the offices. Readings, stakes and penalties go
on without them, but no call that neither of them authorises changes an office,
a setting or the whitelist.
-/

namespace WaterCredits.Oracle

open Foundation Function

variable {contract : Address} {W : Type} {o : Outside W} {e : Env contract} {s s' : State}
  {w w' : W} {c : Call} {p : ProjectId} {timestamp : UInt64}

namespace State

def Officer (s : State) (a : Address) : Prop := a = s.admin ∨ s.pauseGuardian = some a

/-- The offices, the settings and the whitelist. -/
structure Offices where
  admin : Address
  pauseGuardian : Option Address
  paused : Bool
  config : OracleConfig
  projectConfig : ProjectId → Option ProjectConfig
  oracleList : List Address
  oracleActive : Address → Bool

def offices (s : State) : Offices where
  admin := s.admin
  pauseGuardian := s.pauseGuardian
  paused := s.paused
  config := s.config
  projectConfig := s.projectConfig
  oracleList := s.oracleList
  oracleActive := s.oracleActive

theorem officer_congr {a : Address} (h : s'.offices = s.offices) : s'.Officer a ↔ s.Officer a := by
  have hadmin : s'.admin = s.admin := congrArg Offices.admin h
  have hguardian : s'.pauseGuardian = s.pauseGuardian := congrArg Offices.pauseGuardian h
  rw [Officer, Officer, hadmin, hguardian]

end State

theorem finalizeReveals_offices {r : Option VerificationResult}
    (h : s.finalizeReveals p o contract timestamp w = .ok (r, s', w')) :
    s'.offices = s.offices := by
  simp only [State.finalizeReveals, bind_eq_ok, State.expectWindow_eq_ok] at h
  obtain ⟨window, -, h⟩ := h
  split at h
  · cases h
    rfl
  · split at h
    · cases h
      rfl
    · simp only [bind_eq_ok, pure_eq_ok, Prod.mk.injEq] at h
      obtain ⟨⟨result, v⟩, -, -, rfl, -⟩ := h
      rw [recordResult_frame]
      rfl

theorem submitReading_offices {oracle : Address} {nonce : UInt64} {reading : Reading}
    {r : Option VerificationResult}
    (h : s.submitReading o e oracle p nonce reading w = .ok (r, s', w')) :
    s'.offices = s.offices := by
  simp only [State.submitReading, bind_eq_ok, addOpenProject_eq_ok] at h
  obtain ⟨_, -, _, -, _, -, _, -, _, -, _, -, t, ⟨-, ht⟩, h⟩ := h
  split at h
  · simp only [bind_eq_ok, pure_eq_ok, Prod.mk.injEq, State.finalizeDirect] at h
    obtain ⟨_, ⟨⟨result, v⟩, -, rfl⟩, -, rfl, -⟩ := h
    rw [recordResult_frame, ht]
    rfl
  · cases h
    rw [ht]
    rfl

def Call.official : Call → Bool
  | .initialise .. | .transferAdmin .. | .pause .. | .unpause .. | .setPauseGuardian ..
  | .addOracle .. | .removeOracle .. | .setProjectConfig .. | .updateConfig .. | .resetWindow ..
  | .slash .. | .openWindow .. => true
  | _ => false

theorem execute_official (hc : c.official = true) (h : execute o e s w c = .ok (s', w')) :
    ∃ a, s.Officer a ∧ e.auth a = true := by
  cases c <;> simp only [Call.official, Bool.false_eq_true] at hc
  case initialise => simp [execute, initialise] at h
  case pause | unpause =>
    simp only [execute, within_eq_ok, State.pause, State.unpause, bind_eq_ok,
      State.requirePauser_eq_ok] at h
    obtain ⟨⟨_, ⟨hauth, hofficer⟩, -⟩, -⟩ := h
    exact ⟨_, hofficer, hauth⟩
  case slash =>
    simp only [execute, State.slash, bind_eq_ok, State.requireAdmin_eq_ok] at h
    obtain ⟨_, ⟨hauth, rfl⟩, -⟩ := h
    exact ⟨_, .inl rfl, hauth⟩
  all_goals
    simp only [execute, within_eq_ok, State.transferAdmin, State.setPauseGuardian, State.addOracle,
      State.removeOracle, State.setProjectConfig, State.updateConfig, State.resetWindow,
      State.openWindow, bind_eq_ok, State.requireAdmin_eq_ok] at h
    obtain ⟨⟨_, ⟨hauth, rfl⟩, -⟩, -⟩ := h
    exact ⟨_, .inl rfl, hauth⟩

theorem execute_unofficial (hc : c.official = false) (h : execute o e s w c = .ok (s', w')) :
    s'.offices = s.offices := by
  cases c <;> simp only [Call.official, Bool.true_eq_false] at hc
  case submitReading =>
    obtain ⟨r, h⟩ := discard_eq_ok.mp h
    exact submitReading_offices h
  case stake =>
    simp only [execute, State.stake, bind_eq_ok, pure_eq_ok, Prod.mk.injEq] at h
    obtain ⟨_, -, _, -, v, -, rfl, -⟩ := h
    rfl
  case unstake =>
    simp only [execute, within_eq_ok, State.unstake, bind_eq_ok, pure_eq_ok] at h
    obtain ⟨⟨_, -, _, -, _, -, _, -, rfl⟩, -⟩ := h
    rfl
  case claimUnstake =>
    simp only [execute, State.claimUnstake, bind_eq_ok, pure_eq_ok, Prod.mk.injEq] at h
    obtain ⟨_, -, _, -, v, -, rfl, -⟩ := h
    rfl
  case commitReading =>
    obtain ⟨-, -, -, -, -, rfl⟩ := commitReading_cases (within_eq_ok.mp h).1
    rfl
  case beginRevealPhase =>
    obtain ⟨-, -, -, -, rfl⟩ := beginRevealPhase_cases (within_eq_ok.mp h).1
    rfl
  case revealReading =>
    obtain ⟨r, h⟩ := discard_eq_ok.mp h
    simp only [State.revealReading, bind_eq_ok] at h
    obtain ⟨_, -, _, -, _, -, window, -, _, -, _, -, _, -, _, -, info, -, _, -, _, -, _, -, _, -,
      h⟩ := h
    split at h
    · exact (finalizeReveals_offices h).trans rfl
    · cases h
      rfl
  case finalizeWindow =>
    obtain ⟨r, h⟩ := discard_eq_ok.mp h
    simp only [State.finalizeWindow, bind_eq_ok] at h
    obtain ⟨_, -, window, -, _, -, _, -, _, -, ⟨t, v⟩, ht, h⟩ := h
    have hpenalized : t.offices = s.offices := by
      rw [penalizeLoop_frame ht]
      rfl
    exact (finalizeReveals_offices h).trans hpenalized

end WaterCredits.Oracle
