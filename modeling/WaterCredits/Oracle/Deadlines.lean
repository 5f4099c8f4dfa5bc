import WaterCredits.Oracle.Lifecycle

/-! # The deadlines of a window

A window may be revealed to between two ledgers and closed after the second.
Both, the end of the commit phase and the end of an unstaking are sums with
unchecked settings, so they are in order exactly when the settings are and no
sum wraps around.
-/

namespace WaterCredits.Oracle

open Foundation Function

variable {contract : Address} {W : Type} {o : Outside W} {e : Env contract} {s s' : State}
  {w : W} {p : ProjectId} {a : Address} {window : WindowState} {config : OracleConfig}
  {sequence : UInt32} {now : UInt64}

def checkRevealTime (window : WindowState) (config : OracleConfig) (sequence : UInt32) :
    Result Unit := do
  ensure (window.revealOpenedLedger + config.minRevealLedgers ≤ sequence)
    "reveal submitted before the reveal window opened"
  ensure (sequence ≤ window.revealOpenedLedger + config.maxRevealLedgers) "reveal window has closed"

def checkFinalizeTime (window : WindowState) (config : OracleConfig) (sequence : UInt32) :
    Result Unit :=
  ensure (window.revealOpenedLedger + config.maxRevealLedgers < sequence) "reveal phase not ended"

section Checks

def State.revealTarget (e : Env contract) (s : State) (oracle : Address) (projectId : ProjectId) :
    Result WindowState := do
  e.requireAuth oracle
  s.requireNotPaused
  s.requireOracle oracle
  let window ← s.expectWindow projectId
  ensure (window.finalized = false) "window already finalized"
  ensure (window.phase = .reveal) "not in reveal phase"
  return window

/-- The window of an explicit finalization, before its time is checked. -/
def State.finalizeTarget (s : State) (projectId : ProjectId) : Result WindowState := do
  s.requireNotPaused
  let window ← s.expectWindow projectId
  ensure (window.finalized = false) "window already finalized"
  ensure (window.phase = .reveal) "not in reveal phase"
  return window

theorem revealReading_checks (params : RevealParams) :
    BeginsWith (do
      let window ← s.revealTarget e a p
      checkRevealTime window s.config e.sequence
      return window) (s.revealReading o e a p params w) := by
  unfold State.revealReading State.revealTarget checkRevealTime
  exact ⟨_, by simp only [bind_assoc, pure_bind]; rfl⟩

theorem finalizeWindow_checks :
    BeginsWith (do
      let window ← s.finalizeTarget p
      checkFinalizeTime window s.config e.sequence
      return window) (s.finalizeWindow o e p w) := by
  unfold State.finalizeWindow State.finalizeTarget checkFinalizeTime
  exact ⟨_, by simp only [bind_assoc, pure_bind]; rfl⟩

@[simp] theorem checkRevealTime_eq_ok {u : Unit} :
    checkRevealTime window config sequence = .ok u ↔
      window.revealOpenedLedger + config.minRevealLedgers ≤ sequence ∧
        sequence ≤ window.revealOpenedLedger + config.maxRevealLedgers := by
  simp [checkRevealTime]

@[simp] theorem checkFinalizeTime_eq_ok {u : Unit} :
    checkFinalizeTime window config sequence = .ok u ↔
      window.revealOpenedLedger + config.maxRevealLedgers < sequence := by
  simp [checkFinalizeTime]

end Checks

/-- No deadline wraps around, and the reveals of a window come before its end. -/
structure WellTimed (config : OracleConfig) (window : WindowState) (now : UInt64) : Prop where
  commit : window.openedAt.toNat + config.commitPhaseSecs.toNat < 2 ^ 64
  first : window.revealOpenedLedger.toNat + config.minRevealLedgers.toNat < 2 ^ 32
  last : window.revealOpenedLedger.toNat + config.maxRevealLedgers.toNat < 2 ^ 32
  cooldown : now.toNat + config.unstakeCooldownSecs.toNat < 2 ^ 64
  phases : ∃ first last, window.revealOpenedLedger ≤ first ∧ first ≤ last ∧
    (∀ sequence, checkRevealTime window config sequence = .ok () ↔
      first ≤ sequence ∧ sequence ≤ last) ∧
    ∀ sequence, checkFinalizeTime window config sequence = .ok () ↔ last < sequence
  chance : ∃ sequence, checkRevealTime window config sequence = .ok () ∧
    ∀ later, checkFinalizeTime window config later = .ok () → sequence < later

/-- Settings and times whose sums are in range, with the limits of a reveal in order. -/
structure InTime (config : OracleConfig) (openedAt : UInt64) (ledger : UInt32) (now : UInt64) :
    Prop where
  ordered : config.minRevealLedgers ≤ config.maxRevealLedgers
  commit : openedAt.toNat + config.commitPhaseSecs.toNat < 2 ^ 64
  last : ledger.toNat + config.maxRevealLedgers.toNat < 2 ^ 32
  cooldown : now.toNat + config.unstakeCooldownSecs.toNat < 2 ^ 64

theorem toNat_add_fits {x y : UInt32} (h : x.toNat + y.toNat < 2 ^ 32) :
    (x + y).toNat = x.toNat + y.toNat := by
  rw [UInt32.toNat_add]
  exact Nat.mod_eq_of_lt h

theorem wellTimed_iff : WellTimed config window now ↔
    InTime config window.openedAt window.revealOpenedLedger now := by
  constructor
  · rintro ⟨hcommit, hfirst, hlast, hcooldown, ⟨first, last, -, hle, hreveal, -⟩, -⟩
    obtain ⟨hge, hle⟩ := checkRevealTime_eq_ok.mp ((hreveal first).mpr ⟨UInt32.le_refl _, hle⟩)
    have hsum := UInt32.le_iff_toNat_le.mp (UInt32.le_trans hge hle)
    rw [toNat_add_fits hfirst, toNat_add_fits hlast] at hsum
    exact ⟨UInt32.le_iff_toNat_le.mpr (by omega), hcommit, hlast, hcooldown⟩
  · rintro ⟨hordered, hcommit, hlast, hcooldown⟩
    have hordered := UInt32.le_iff_toNat_le.mp hordered
    have hfirst : window.revealOpenedLedger.toNat + config.minRevealLedgers.toNat < 2 ^ 32 := by
      omega
    have hstart : window.revealOpenedLedger ≤
        window.revealOpenedLedger + config.minRevealLedgers := by
      rw [UInt32.le_iff_toNat_le, toNat_add_fits hfirst]
      omega
    have hspan : window.revealOpenedLedger + config.minRevealLedgers ≤
        window.revealOpenedLedger + config.maxRevealLedgers := by
      rw [UInt32.le_iff_toNat_le, toNat_add_fits hfirst, toNat_add_fits hlast]
      omega
    constructor
    · exact hcommit
    · exact hfirst
    · exact hlast
    · exact hcooldown
    · exact ⟨_, _, hstart, hspan, fun _ => checkRevealTime_eq_ok, fun _ => checkFinalizeTime_eq_ok⟩
    · exact ⟨_, checkRevealTime_eq_ok.mpr ⟨UInt32.le_refl _, hspan⟩, fun later hl =>
        UInt32.lt_of_le_of_lt hspan (checkFinalizeTime_eq_ok.mp hl)⟩

/-- The deadlines of a reveal phase that has just begun. -/
theorem deadlines_fit_iff (h : s.beginRevealPhase e p = .ok s') (now : UInt64) :
    ∃ window, s'.windowState p = some window ∧ window.revealOpenedLedger = e.sequence ∧
      (∃ opened, s.windowState p = some opened ∧ window.openedAt = opened.openedAt) ∧
      (WellTimed s'.config window now ↔ InTime s.config window.openedAt e.sequence now) := by
  obtain ⟨opened, hopened, -, -, rfl⟩ := beginRevealPhase_cases h
  exact ⟨_, update_self .., rfl, ⟨opened, hopened, rfl⟩, wellTimed_iff⟩

section Sample

/-- The configuration takes reveals from the second ledger on, and only up to the first. -/
def hasty : State × Unit :=
  (machine station offline).calls installed
    [calledAt 0 0 (.addOracle (.account 0) (.account 1)),
      calledAt 0 0 (.updateConfig (.account 0)
        { installed.1.config with minOracles := 1, minRevealLedgers := 2, maxRevealLedgers := 1 }),
      calledAt 0 0 (.openWindow (.account 0) 7), calledAt 0 1 (.commitReading (.account 1) 7 1 0)]

def hastyBegun : Event station Unit := calledAt 300 9 (.beginRevealPhase 7)

/-- The end of its reveal phase, two ledgers later. -/
def hastyClosed : Event station Unit :=
  .call (.signed 310 2 (.account 9) account_ne_contract) (.finalizeWindow 7)

set_option maxRecDepth 2000 in
/-- No ledger takes the reveal of a committed oracle, which then counts as missed. -/
theorem no_ledger_to_reveal : (machine station offline).Reachable hasty ∧
    (hasty.1.commitment (7, .account 1)).isSome = true ∧
    ∃ sw sw', (machine station offline).step hastyBegun hasty = .ok sw ∧
      (∃ window, sw.1.windowState 7 = some window ∧ ∀ now, ¬ WellTimed sw.1.config window now) ∧
      (machine station offline).step hastyClosed sw = .ok sw' ∧
      sw'.1.oracleMissedReveals (.account 1) = 1 := by
  refine ⟨Machine.Reachable.calls ⟨_, .init installed_init⟩ _, by rfl, _, _, rfl, ⟨_, rfl, ?_⟩, rfl,
    by rfl⟩
  rintro now h
  obtain ⟨sequence, hreveal, -⟩ := h.chance
  obtain ⟨hge, hle⟩ := checkRevealTime_eq_ok.mp hreveal
  have hsum : (2 : UInt32) ≤ 1 := UInt32.le_trans hge hle
  exact absurd hsum (by decide)

/-- Two oracles have committed under the default limits. -/
def bothCommitted : State × Unit :=
  (machine station offline).calls installed (regularRun.take 6)

set_option maxRecDepth 2000 in
theorem deadlines_fit_iff_default : ∃ s',
    bothCommitted.1.beginRevealPhase (.signed 300 0 (.account 9) account_ne_contract : Env station)
      7 = .ok s' ∧
    ∃ window, s'.windowState 7 = some window ∧ WellTimed s'.config window 300 := by
  have hok : ∃ s', bothCommitted.1.beginRevealPhase
      (.signed 300 0 (.account 9) account_ne_contract : Env station) 7 = .ok s' ∧
      ((s'.windowState 7).map (·.openedAt)) = some 0 := ⟨_, rfl, rfl⟩
  obtain ⟨s', h, hopened⟩ := hok
  obtain ⟨window, hw, -, -, hiff⟩ := deadlines_fit_iff h 300
  rw [hw] at hopened
  have hopened : window.openedAt = 0 := Option.some.inj hopened
  refine ⟨s', h, window, hw, hiff.mpr ?_⟩
  rw [hopened]
  exact ⟨by decide, by decide, by decide, by decide⟩

end Sample

end WaterCredits.Oracle
