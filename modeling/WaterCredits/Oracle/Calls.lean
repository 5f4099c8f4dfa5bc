import WaterCredits.Foundation.Machine
import WaterCredits.Oracle.Finalize

/-! # The public calls of the verification oracle

Each entry point returns the storage and the outside world it leaves behind.
Plain additions wrap, as in the release build. Between two calls the outside
world may change in any way.
-/

namespace WaterCredits.Oracle

open Foundation Function

variable {contract : Address} {W : Type}

/-- The hash of a revealed reading with its nonce and salt. -/
def sha256Commitment (o : Outside W) (params : RevealParams) : BytesN 32 :=
  o.sha256 (preimage params)

/-- The shortest and the longest monitoring window in seconds. -/
def MIN_WINDOW_SECS : UInt64 := 60

@[inherit_doc MIN_WINDOW_SECS]
def MAX_WINDOW_SECS : UInt64 := 86400

def freshWindow (timestamp : UInt64) : WindowState := { phase := .commit, openedAt := timestamp }

/-- Fails once an admin is stored. -/
def initialise (stored : Option State) (admin stakingToken treasury : Address) : Result State := do
  ensure (stored.isNone) "already initialized"
  return { admin, config := { stakingToken, treasury } }

theorem initialise_eq_ok {stored : Option State} {admin stakingToken treasury : Address}
    {s : State} : initialise stored admin stakingToken treasury = .ok s ↔
      stored = none ∧ s = { admin, config := { stakingToken, treasury } } := by
  simp [initialise, @eq_comm _ s]

namespace State

def transferAdmin (e : Env contract) (s : State) (admin newAdmin : Address) : Result State := do
  s.requireAdmin e admin
  return { s with admin := newAdmin }

def pause (e : Env contract) (s : State) (caller : Address) : Result State := do
  s.requirePauser e caller
  return { s with paused := true }

def unpause (e : Env contract) (s : State) (caller : Address) : Result State := do
  s.requirePauser e caller
  return { s with paused := false }

def setPauseGuardian (e : Env contract) (s : State) (admin guardian : Address) : Result State := do
  s.requireAdmin e admin
  return { s with pauseGuardian := some guardian }

def addOracle (e : Env contract) (s : State) (admin oracle : Address) : Result State := do
  s.requireAdmin e admin
  ensure (s.oracleActive oracle = false) "oracle already active"
  ensure (s.oracleCount < s.config.maxOracles) "max oracles reached"
  ensure (0 < s.config.minStake → s.config.minStake ≤ (s.oracleStake oracle).amount)
    "insufficient stake"
  return { s with
    oracleActive := update s.oracleActive oracle true
    oracleCount := s.oracleCount + 1
    oracleList := s.oracleList ++ [oracle] }

def oracleHasOpenSubmissions (s : State) (oracle : Address) : Bool :=
  s.openProjects.any fun projectId =>
    (s.commitment (projectId, oracle)).isSome || s.oracleRevealed (projectId, oracle)

def removeOracle (e : Env contract) (s : State) (admin oracle : Address) : Result State := do
  s.requireAdmin e admin
  ensure (s.oracleActive oracle = true) "oracle not active"
  let stake := (s.oracleStake oracle).amount
  let belowMinimumStake := 0 < s.config.minStake ∧ stake < s.config.minStake
  ensure (¬ (0 < stake ∧ ¬ belowMinimumStake)) "oracle must unstake before removal"
  ensure (s.config.minOracles < s.oracleCount) "minimum oracles required"
  ensure (s.oracleHasOpenSubmissions oracle = false) "oracle has open window submissions"
  return { s with
    oracleActive := update s.oracleActive oracle false
    oracleCount := s.oracleCount - 1
    oracleList := s.oracleList.filter (· ≠ oracle) }

/-- The storage after a direct submission to a window, before any finalization. -/
def recordSubmission (s : State) (projectId : ProjectId) (window : WindowState)
    (sub : ReadingSubmission) : State :=
  { s with
    oracleNonce := update s.oracleNonce (projectId, sub.oracle) sub.nonce
    totalSubmissions := s.totalSubmissions + 1
    windowState := update s.windowState projectId (some window)
    oracleSubmitted := update s.oracleSubmitted (projectId, sub.oracle) true }

/-- A submission to a project without a window opens one in the reveal phase. -/
def submitReading (o : Outside W) (e : Env contract) (s : State) (oracle : Address)
    (projectId : ProjectId) (nonce : UInt64) (reading : Reading) (w : W) :
    Result (Option VerificationResult × State × W) := do
  e.requireAuth oracle
  s.requireOracle oracle
  validateSensorReading reading
  ensure (nonce = s.oracleNonce (projectId, oracle) + 1) "invalid nonce"
  ensure (s.oracleSubmitted (projectId, oracle) = false) "oracle already submitted for this window"
  let window := (s.windowState projectId).getD { phase := .reveal, openedAt := e.timestamp }
  ensure (window.finalized = false) "window already finalized"
  let s ← s.addOpenProject projectId
  let sub : ReadingSubmission := { reading with oracle, nonce, timestamp := e.timestamp }
  let window := { window with submissions := window.submissions ++ [sub] }
  let s := s.recordSubmission projectId window sub
  if s.config.minOracles.toNat ≤ window.submissions.length then
    let (result, s, w) ← s.finalizeDirect projectId o contract e.timestamp window w
    return (some result, s, w)
  else return (none, s, w)

def setProjectConfig (e : Env contract) (s : State) (admin : Address) (projectId : ProjectId)
    (config : ProjectConfig) : Result State := do
  s.requireAdmin e admin
  return { s with projectConfig := update s.projectConfig projectId (some config) }

def updateConfig (e : Env contract) (s : State) (admin : Address) (config : OracleConfig) :
    Result State := do
  s.requireAdmin e admin
  ensure (config.slashPctBps ≤ 5000) "slash_pct_bps exceeds max (5000 = 50%)"
  ensure (¬ (config.minSlashAmount < 0 ∨ config.maxSlashAmount < config.minSlashAmount))
    "invalid slash amount bounds"
  ensure (MIN_WINDOW_SECS ≤ config.windowSecs ∧ config.windowSecs ≤ MAX_WINDOW_SECS)
    "window_secs out of valid range [60, 86400]"
  ensure (config.minOracles ≠ 0) "min_oracles must be at least 1"
  ensure (config.minOracles ≤ config.maxOracles) "min_oracles exceeds max_oracles"
  ensure (config.maxOracles ≤ MAX_ORACLES_HARD_LIMIT) "max_oracles exceeds hard limit (10)"
  ensure (config.minOracles ≤ s.oracleCount) "min_oracles exceeds current oracle count"
  ensure (config.maxOpenWindows ≠ 0) "max_open_windows must be at least 1"
  ensure (config.feeBps ≤ 10000) "fee_bps exceeds max (10000 = 100%)"
  return { s with config }

/-- A reset leaves the index of open projects as it is. -/
def resetWindow (e : Env contract) (s : State) (admin : Address) (projectId : ProjectId) :
    Result State := do
  s.requireAdmin e admin
  let window ← orPanic (s.windowState projectId) "no window found for project"
  let oracles := window.submissions.map (·.oracle) ++ s.oracleList
  let s := s.clearMarkers projectId oracles
  let s := { s with
    oracleSubmitted := fun k =>
      if k.1 = projectId ∧ k.2 ∈ oracles then false else s.oracleSubmitted k }
  return s.saveWindow projectId (freshWindow e.timestamp)

def stake (o : Outside W) (e : Env contract) (s : State) (oracle : Address) (amount : I128)
    (w : W) :
    Result (State × W) := do
  e.requireAuth oracle
  Foundation.require (0 < amount) (.contractError 1)
  let w ← o.transfer s.config.stakingToken oracle contract amount w
  let info := s.oracleStake oracle
  return ({ s with
    oracleStake := update s.oracleStake oracle
      { amount := info.amount + amount, unstakeRequest := none } }, w)

def unstake (e : Env contract) (s : State) (oracle : Address) (amount : I128) : Result State := do
  e.requireAuth oracle
  ensure (0 < amount) "unstake amount must be positive"
  let info := s.oracleStake oracle
  ensure (amount ≤ info.amount) "insufficient staked balance"
  ensure (s.oracleActive oracle = true → s.config.minStake ≤ info.amount - amount)
    "would fall below minimum stake"
  return { s with
    oracleStake := update s.oracleStake oracle {
      amount := info.amount - amount
      unstakeRequest := some (e.timestamp + s.config.unstakeCooldownSecs) } }

/-- The claim pays what is left of the stake. -/
def claimUnstake (o : Outside W) (e : Env contract) (s : State) (oracle : Address) (w : W) :
    Result (State × W) := do
  e.requireAuth oracle
  let info := s.oracleStake oracle
  let cooldownEnd := info.unstakeRequest.getD 0
  ensure (¬ (cooldownEnd = 0 ∨ e.timestamp < cooldownEnd)) "cooldown not elapsed"
  let s := { s with oracleStake := update s.oracleStake oracle {} }
  let w ← o.transfer s.config.stakingToken contract oracle info.amount w
  return (s, w)

def slash (o : Outside W) (e : Env contract) (s : State) (caller oracle : Address) (amount : I128)
    (reason : UInt32) (w : W) : Result (State × W) := do
  s.requireAdmin e caller
  ensure (0 < amount) "slash amount must be positive"
  let info := s.oracleStake oracle
  ensure (amount ≤ info.amount) "slash exceeds staked balance"
  let w ← o.transfer s.config.stakingToken contract s.config.treasury amount w
  return ({ s with
    oracleStake := update s.oracleStake oracle { info with amount := info.amount - amount }
    oracleSlashed := update s.oracleSlashed oracle (some { reason, timestamp := e.timestamp }) }, w)

def openWindow (e : Env contract) (s : State) (admin : Address) (projectId : ProjectId) :
    Result State := do
  s.requireAdmin e admin
  ensure (∀ window ∈ s.windowState projectId, window.finalized = true) "window already active"
  (s.saveWindow projectId (freshWindow e.timestamp)).addOpenProject projectId

def commitReading (e : Env contract) (s : State) (oracle : Address) (projectId : ProjectId)
    (nonce : UInt64) (commitment : BytesN 32) : Result State := do
  e.requireAuth oracle
  s.requireNotPaused
  s.requireOracle oracle
  ensure (nonce = s.oracleNonce (projectId, oracle) + 1) "invalid nonce"
  let window ← s.expectWindow projectId
  ensure (window.finalized = false) "window already finalized"
  ensure (window.phase = .commit) "not in commit phase"
  ensure (s.commitment (projectId, oracle) = none) "oracle already committed"
  return { s with
    oracleNonce := update s.oracleNonce (projectId, oracle) nonce
    commitment := update s.commitment (projectId, oracle) (some { commitment, nonce }) }

/-- Open to anyone once the commit phase is over. -/
def beginRevealPhase (e : Env contract) (s : State) (projectId : ProjectId) : Result State := do
  let window ← s.expectWindow projectId
  ensure (window.finalized = false) "window already finalized"
  ensure (window.phase = .commit) "not in commit phase"
  ensure (window.openedAt + s.config.commitPhaseSecs ≤ e.timestamp) "commit phase not ended"
  ensure (∃ oracle ∈ s.oracleList, (s.commitment (projectId, oracle)).isSome = true)
    "no commits in window"
  return s.saveWindow projectId { window with phase := .reveal, revealOpenedLedger := e.sequence }

def recordReveal (s : State) (projectId : ProjectId) (window : WindowState)
    (sub : ReadingSubmission) : State :=
  { s with
    totalSubmissions := s.totalSubmissions + 1
    windowState := update s.windowState projectId (some window)
    oracleRevealed := update s.oracleRevealed (projectId, sub.oracle) true }

def revealReading (o : Outside W) (e : Env contract) (s : State) (oracle : Address)
    (projectId : ProjectId) (params : RevealParams) (w : W) :
    Result (Option VerificationResult × State × W) := do
  e.requireAuth oracle
  s.requireNotPaused
  s.requireOracle oracle
  let window ← s.expectWindow projectId
  ensure (window.finalized = false) "window already finalized"
  ensure (window.phase = .reveal) "not in reveal phase"
  ensure (window.revealOpenedLedger + s.config.minRevealLedgers ≤ e.sequence)
    "reveal submitted before the reveal window opened"
  ensure (e.sequence ≤ window.revealOpenedLedger + s.config.maxRevealLedgers)
    "reveal window has closed"
  let info ← orPanic (s.commitment (projectId, oracle)) "oracle did not commit"
  ensure (info.nonce = params.nonce) "nonce mismatch with commitment"
  ensure (s.oracleRevealed (projectId, oracle) = false) "oracle already revealed"
  ensure (sha256Commitment o params = info.commitment)
    "hash mismatch: revealed values do not match commitment"
  validateSensorReading params.toReading
  let sub : ReadingSubmission :=
    { params.toReading with oracle, nonce := params.nonce, timestamp := e.timestamp }
  let window := { window with submissions := window.submissions ++ [sub] }
  let s := s.recordReveal projectId window sub
  if s.config.minOracles.toNat ≤ window.submissions.length then
    s.finalizeReveals projectId o contract e.timestamp w
  else return (none, s, w)

/-- Slash an oracle that missed its reveal, when it has a stake. -/
def slashMissed (o : Outside W) (contract : Address) (timestamp : UInt64) (s : State)
    (oracle : Address) (w : W) : Result (State × W) := do
  let info := s.oracleStake oracle
  if 0 < info.amount then
    let amount ← computeSlashAmount info.amount s.config
    if 0 < amount then
      let w ← o.transfer s.config.stakingToken contract s.config.treasury amount w
      return ({ s with
        oracleStake := update s.oracleStake oracle { info with amount := info.amount - amount }
        oracleSlashed := update s.oracleSlashed oracle (some { reason := 3, timestamp }) }, w)
    else return (s, w)
  else return (s, w)

/-- Penalize the listed oracles that committed and did not reveal. -/
def penalizeLoop (o : Outside W) (contract : Address) (timestamp : UInt64) (projectId : ProjectId) :
    List Address → State → W → Result (State × W)
  | [], s, w => return (s, w)
  | oracle :: rest, s, w =>
    if (s.commitment (projectId, oracle)).isSome = true ∧
        s.oracleRevealed (projectId, oracle) = false then do
      let s := { s with
        oracleMissedReveals :=
          update s.oracleMissedReveals oracle (s.oracleMissedReveals oracle + 1) }
      let (s, w) ← s.slashMissed o contract timestamp oracle w
      penalizeLoop o contract timestamp projectId rest
        { s with commitment := update s.commitment (projectId, oracle) none } w
    else penalizeLoop o contract timestamp projectId rest s w

def penalizeNonRevealers (o : Outside W) (contract : Address) (timestamp : UInt64) (s : State)
    (projectId : ProjectId) (w : W) : Result (State × W) :=
  penalizeLoop o contract timestamp projectId s.oracleList s w

/-- Open to anyone once the reveal phase is over. -/
def finalizeWindow (o : Outside W) (e : Env contract) (s : State) (projectId : ProjectId) (w : W) :
    Result (Option VerificationResult × State × W) := do
  s.requireNotPaused
  let window ← s.expectWindow projectId
  ensure (window.finalized = false) "window already finalized"
  ensure (window.phase = .reveal) "not in reveal phase"
  ensure (window.revealOpenedLedger + s.config.maxRevealLedgers < e.sequence)
    "reveal phase not ended"
  let (s, w) ← s.penalizeNonRevealers o contract e.timestamp projectId w
  s.finalizeReveals projectId o contract e.timestamp w

end State

/-- The state-changing entry points with their arguments. -/
inductive Call
  | initialise (admin stakingToken treasury : Address)
  | transferAdmin (admin newAdmin : Address)
  | pause (caller : Address)
  | unpause (caller : Address)
  | setPauseGuardian (admin guardian : Address)
  | addOracle (admin oracle : Address)
  | removeOracle (admin oracle : Address)
  | submitReading (oracle : Address) (projectId : ProjectId) (nonce : UInt64) (reading : Reading)
  | setProjectConfig (admin : Address) (projectId : ProjectId) (config : ProjectConfig)
  | updateConfig (admin : Address) (config : OracleConfig)
  | resetWindow (admin : Address) (projectId : ProjectId)
  | stake (oracle : Address) (amount : I128)
  | unstake (oracle : Address) (amount : I128)
  | claimUnstake (oracle : Address)
  | slash (caller oracle : Address) (amount : I128) (reason : UInt32)
  | openWindow (admin : Address) (projectId : ProjectId)
  | commitReading (oracle : Address) (projectId : ProjectId) (nonce : UInt64)
      (commitment : BytesN 32)
  | beginRevealPhase (projectId : ProjectId)
  | revealReading (oracle : Address) (projectId : ProjectId) (params : RevealParams)
  | finalizeWindow (projectId : ProjectId)

/-- A call on the oracle, or a change of the world outside it. -/
inductive Event (contract : Address) (W : Type)
  | call (e : Env contract) (c : Call)
  | outside (w : W)

/-- A call that leaves the outside world alone. -/
def within (w : W) (x : Result State) : Result (State × W) := do
  let s ← x
  return (s, w)

@[simp] theorem within_eq_ok {w w' : W} {x : Result State} {s' : State} :
    within w x = .ok (s', w') ↔ x = .ok s' ∧ w = w' := by
  simp [within]

/-- Drop the return value of a call. -/
def discard {α : Type} (x : Result (α × State × W)) : Result (State × W) := do
  let (_, s, w) ← x
  return (s, w)

@[simp] theorem discard_eq_ok {α : Type} {x : Result (α × State × W)} {sw : State × W} :
    discard x = .ok sw ↔ ∃ r, x = .ok (r, sw.1, sw.2) := by
  simp only [discard, bind_eq_ok, pure_eq_ok]
  constructor
  · rintro ⟨⟨r, s, w⟩, h, rfl⟩
    exact ⟨r, h⟩
  · rintro ⟨r, h⟩
    exact ⟨_, h, rfl⟩

def execute (o : Outside W) (e : Env contract) (s : State) (w : W) : Call → Result (State × W)
  | .initialise admin stakingToken treasury =>
      within w (Oracle.initialise (some s) admin stakingToken treasury)
  | .transferAdmin admin newAdmin => within w (s.transferAdmin e admin newAdmin)
  | .pause caller => within w (s.pause e caller)
  | .unpause caller => within w (s.unpause e caller)
  | .setPauseGuardian admin guardian => within w (s.setPauseGuardian e admin guardian)
  | .addOracle admin oracle => within w (s.addOracle e admin oracle)
  | .removeOracle admin oracle => within w (s.removeOracle e admin oracle)
  | .submitReading oracle projectId nonce reading =>
      discard (s.submitReading o e oracle projectId nonce reading w)
  | .setProjectConfig admin projectId config =>
      within w (s.setProjectConfig e admin projectId config)
  | .updateConfig admin config => within w (s.updateConfig e admin config)
  | .resetWindow admin projectId => within w (s.resetWindow e admin projectId)
  | .stake oracle amount => s.stake o e oracle amount w
  | .unstake oracle amount => within w (s.unstake e oracle amount)
  | .claimUnstake oracle => s.claimUnstake o e oracle w
  | .slash caller oracle amount reason => s.slash o e caller oracle amount reason w
  | .openWindow admin projectId => within w (s.openWindow e admin projectId)
  | .commitReading oracle projectId nonce commitment =>
      within w (s.commitReading e oracle projectId nonce commitment)
  | .beginRevealPhase projectId => within w (s.beginRevealPhase e projectId)
  | .revealReading oracle projectId params =>
      discard (s.revealReading o e oracle projectId params w)
  | .finalizeWindow projectId => discard (s.finalizeWindow o e projectId w)

def step (o : Outside W) : Event contract W → State × W → Result (State × W)
  | .call e c, (s, w) => execute o e s w c
  | .outside w', (s, _) => .ok (s, w')

/-- An oracle deployed at `contract`, from its initialisation on. -/
def machine (contract : Address) (o : Outside W) :
    Machine (State × W) (Event contract W) Panic where
  init sw := ∃ admin stakingToken treasury : Address,
    Oracle.initialise none admin stakingToken treasury = .ok sw.1
  step := step o

end WaterCredits.Oracle
