import WaterCredits.Host
import Mathlib.Data.List.Basic

/-! # The storage of the verification oracle

One field per storage key of the contract, with the default that its reader
falls back to. Sensor values are grouped in a record that submissions and
reveals extend.
-/

namespace WaterCredits.Oracle

open Foundation

abbrev ProjectId := BytesN 32

/-- The seven sensor values of a submission. -/
structure Reading where
  ph : Int64
  turbidity : Int64
  dissolvedOxygen : Int64
  flowRate : Int64
  temperature : Int64
  totalNitrogen : Int64
  totalPhosphorus : Int64
  deriving DecidableEq, Repr

structure ReadingSubmission extends Reading where
  oracle : Address
  nonce : UInt64
  timestamp : UInt64
  deriving DecidableEq, Repr

structure RevealParams extends Reading where
  nonce : UInt64
  salt : BytesN 32
  deriving DecidableEq, Repr

structure ProjectConfig where
  tokenContract : Address
  beneficiary : Address
  baselineN : Int64
  baselineP : Int64
  baselineTemp : Int64

structure VerificationResult where
  projectId : ProjectId
  nRemovalKg : I128
  pRemovalKg : I128
  qualityPenalty : Int64
  volumetricCredit : I128
  totalCredits : I128
  creditsMinted : I128
  protocolFeeMinted : I128
  oracleCount : UInt32
  finalizedAt : UInt64
  deriving DecidableEq

structure VerificationSummary where
  totalCredits : I128
  creditsMinted : I128
  oracleCount : UInt32
  finalizedAt : UInt64
  deriving DecidableEq

structure OracleConfig where
  minOracles : UInt32 := 3
  maxOracles : UInt32 := 10
  qualityThresholdPh : Int64 := 600
  qualityThresholdPhMax : Int64 := 700
  qualityThresholdTurbidity : Int64 := 50
  qualityThresholdDo : Int64 := 50
  qualityThresholdTemp : Int64 := 300
  creditPerKgN : I128 := 10
  creditPerKgP : I128 := 20
  stakingToken : Address
  treasury : Address
  minStake : I128 := 0
  unstakeCooldownSecs : UInt64 := 86400
  commitPhaseSecs : UInt64 := 300
  minRevealLedgers : UInt32 := 0
  maxRevealLedgers : UInt32 := 60
  slashPctBps : UInt32 := 1000
  minSlashAmount : I128 := 0
  maxSlashAmount : I128 := I128.MAX
  windowSecs : UInt64 := 3600
  maxOpenWindows : UInt32 := 20
  feeBps : UInt32 := 0

inductive WindowPhase
  | commit
  | reveal
  | finalized
  deriving DecidableEq, Repr

structure WindowState where
  phase : WindowPhase
  openedAt : UInt64
  revealOpenedLedger : UInt32 := 0
  submissions : List ReadingSubmission := []
  finalized : Bool := false
  deriving DecidableEq, Repr

structure SlashReason where
  reason : UInt32
  timestamp : UInt64

structure StakeInfo where
  amount : I128 := 0
  unstakeRequest : Option UInt64 := none

structure CommitInfo where
  commitment : BytesN 32
  nonce : UInt64
  deriving DecidableEq, Repr

structure State where
  admin : Address
  oracleCount : UInt32 := 0
  oracleList : List Address := []
  config : OracleConfig
  totalSubmissions : UInt64 := 0
  paused : Bool := false
  pauseGuardian : Option Address := none
  oracleActive : Address → Bool := fun _ => false
  oracleNonce : ProjectId × Address → UInt64 := fun _ => 0
  lastResult : ProjectId → Option VerificationResult := fun _ => none
  resultAt : ProjectId × UInt64 → Option VerificationResult := fun _ => none
  resultSummaryAt : ProjectId × UInt64 → Option VerificationSummary := fun _ => none
  resultCount : ProjectId → UInt64 := fun _ => 0
  projectConfig : ProjectId → Option ProjectConfig := fun _ => none
  oracleSubmitCount : Address → UInt64 := fun _ => 0
  oracleFinalizedCount : Address → UInt64 := fun _ => 0
  oracleStake : Address → StakeInfo := fun _ => {}
  oracleSlashed : Address → Option SlashReason := fun _ => none
  oracleMissedReveals : Address → UInt64 := fun _ => 0
  openProjects : List ProjectId := []
  windowState : ProjectId → Option WindowState := fun _ => none
  commitment : ProjectId × Address → Option CommitInfo := fun _ => none
  oracleSubmitted : ProjectId × Address → Bool := fun _ => false
  oracleRevealed : ProjectId × Address → Bool := fun _ => false

namespace State

variable {contract : Address}

def requireNotPaused (s : State) : Result Unit := ensure (s.paused = false) "contract is paused"

def requireAdmin (e : Env contract) (s : State) (admin : Address) : Result Unit := do
  e.requireAuth admin
  ensure (admin = s.admin) "unauthorized"

def requirePauser (e : Env contract) (s : State) (caller : Address) : Result Unit := do
  e.requireAuth caller
  ensure (caller = s.admin ∨ s.pauseGuardian = some caller) "unauthorized"

/-- The guard of every reading: an active oracle with enough stake. -/
def requireOracle (s : State) (oracle : Address) : Result Unit := do
  ensure (s.oracleActive oracle = true) "oracle not active"
  ensure (0 < s.config.minStake → s.config.minStake ≤ (s.oracleStake oracle).amount)
    "insufficient stake"

def expectWindow (s : State) (projectId : ProjectId) : Result WindowState :=
  orPanic (s.windowState projectId) "no window open"

@[simp] theorem requireNotPaused_eq_ok {s : State} {u : Unit} :
    s.requireNotPaused = .ok u ↔ s.paused = false := by simp [requireNotPaused]

@[simp] theorem requireAdmin_eq_ok {e : Env contract} {s : State} {a : Address} {u : Unit} :
    s.requireAdmin e a = .ok u ↔ e.auth a = true ∧ a = s.admin := by simp [requireAdmin]

@[simp] theorem requirePauser_eq_ok {e : Env contract} {s : State} {a : Address} {u : Unit} :
    s.requirePauser e a = .ok u ↔
      e.auth a = true ∧ (a = s.admin ∨ s.pauseGuardian = some a) := by simp [requirePauser]

@[simp] theorem requireOracle_eq_ok {s : State} {oracle : Address} {u : Unit} :
    s.requireOracle oracle = .ok u ↔
      s.oracleActive oracle = true ∧
        (0 < s.config.minStake → s.config.minStake ≤ (s.oracleStake oracle).amount) := by
  simp [requireOracle]

@[simp] theorem expectWindow_eq_ok {s : State} {projectId : ProjectId} {window : WindowState} :
    s.expectWindow projectId = .ok window ↔ s.windowState projectId = some window := by
  simp [expectWindow]

end State

end WaterCredits.Oracle
