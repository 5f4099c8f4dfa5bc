import WaterCredits.Foundation.Bytes
import WaterCredits.Oracle.State

/-! # Readings, medians and credits

The pure functions of the oracle: the bytes under a commitment, the checks of a
reading, the median of a column, the slash amount and the credit formula.
Products are checked and abort; the other sums of wide integers wrap.
-/

namespace WaterCredits.Oracle

open Foundation

def preimage (params : RevealParams) : List (BitVec 8) :=
  bytes 8 params.nonce.toBitVec ++ (bytes 8 params.ph.toBitVec ++
    (bytes 8 params.turbidity.toBitVec ++ (bytes 8 params.dissolvedOxygen.toBitVec ++
      (bytes 8 params.flowRate.toBitVec ++ (bytes 8 params.temperature.toBitVec ++
        (bytes 8 params.totalNitrogen.toBitVec ++ (bytes 8 params.totalPhosphorus.toBitVec ++
          bytes 32 params.salt)))))))

theorem preimage_injective : Function.Injective preimage := by
  intro a b h
  simp only [preimage, bytes_append_inj] at h
  obtain ⟨h1, h2, h3, h4, h5, h6, h7, h8, h9⟩ := h
  have h9 := bytes_injective h9
  rw [UInt64.toBitVec_inj] at h1
  rw [Int64.toBitVec_inj] at h2 h3 h4 h5 h6 h7 h8
  obtain ⟨⟨_, _, _, _, _, _, _⟩, _, _⟩ := a
  obtain ⟨⟨_, _, _, _, _, _, _⟩, _, _⟩ := b
  simp_all

/-- Reject values that no sensor can produce. -/
def validateSensorReading (r : Reading) : Result Unit := do
  ensure (0 ≤ r.ph ∧ r.ph ≤ 1400) "ph out of valid range [0, 1400]"
  ensure (0 ≤ r.flowRate) "flow_rate must be non-negative"
  ensure (0 ≤ r.totalNitrogen) "total_nitrogen must be non-negative"
  ensure (0 ≤ r.totalPhosphorus) "total_phosphorus must be non-negative"
  ensure (0 ≤ r.dissolvedOxygen) "dissolved_oxygen must be non-negative"
  ensure (0 ≤ r.turbidity ∧ r.turbidity ≤ 10000) "turbidity out of valid range [0, 10000]"
  ensure (0 ≤ r.temperature ∧ r.temperature ≤ 500) "temperature out of valid range [0, 500]"

def MAX_ORACLES_HARD_LIMIT : UInt32 := 10

def MEDIAN_BUFFER_LEN : ℕ := MAX_ORACLES_HARD_LIMIT.toNat

/-- Move a key below the larger elements of a sorted prefix, held in reverse. -/
def sink (key : Int64) : List Int64 → List Int64
  | [] => [key]
  | x :: rest => if key < x then x :: sink key rest else key :: x :: rest

def insertionSort (values : List Int64) : List Int64 :=
  (values.foldl (fun sorted key => sink key sorted) []).reverse

def medianI64 (values : List Int64) : Result Int64 := do
  let n := values.length
  ensure (n ≠ 0) "median of empty vec"
  ensure (n ≤ MEDIAN_BUFFER_LEN) "median input exceeds oracle buffer capacity"
  let arr := insertionSort values
  if n % 2 = 0 then
    let a := ofI64 (arr.getD (n / 2 - 1) 0)
    let b := ofI64 (arr.getD (n / 2) 0)
    return Int64.ofInt ((a + b) / 2).val
  else
    return arr.getD (n / 2) 0

/-- The penalty of a missed reveal, never more than the stake. -/
def computeSlashAmount (stake : I128) (config : OracleConfig) : Result I128 :=
  if stake ≤ 0 then return 0 else do
    let product ← orPanic (stake.checkedMul (ofU32 config.slashPctBps))
      "slash amount multiplication overflow"
    let raw := product / 10000
    ensure (config.minSlashAmount ≤ config.maxSlashAmount) "assertion failed: min <= max"
    let clamped :=
      if raw < config.minSlashAmount then config.minSlashAmount
      else if config.maxSlashAmount < raw then config.maxSlashAmount else raw
    return min clamped stake

/-- The baselines of a project; a stored zero stands for the default. -/
structure Baselines where
  n : I128
  p : I128
  temp : I128

def resolveBaselines (s : State) (projectId : ProjectId) : Baselines :=
  let resolve (field : ProjectConfig → Int64) (default : I128) : I128 :=
    match s.projectConfig projectId with
    | some pc => if field pc ≠ 0 then ofI64 (field pc) else default
    | none => default
  { n := resolve (·.baselineN) 10
    p := resolve (·.baselineP) 2
    temp := resolve (·.baselineTemp) 300 }

structure FinalizationResult where
  nRemoved : I128
  pRemoved : I128
  penalty : Int64
  volumetricCredit : I128
  total : I128

def removed (nutrient : String) (med flow : Int64) (baseline : I128) (windowSecs : UInt64) :
    Result I128 :=
  if ofI64 med < baseline then do
    let product ← orPanic ((baseline - ofI64 med).checkedMul (ofI64 flow))
      (nutrient ++ " removal: flow multiplication overflow")
    let product ← orPanic (product.checkedMul (ofU64 windowSecs))
      (nutrient ++ " removal: time-window multiplication overflow")
    return product / 1000000
  else return 0

def qualityPenalty (config : OracleConfig) (med : Reading) (tempThreshold : I128) : Int64 :=
  let penalty : Int64 :=
    if med.ph < config.qualityThresholdPh ∨ config.qualityThresholdPhMax < med.ph then 2000 else 0
  let penalty :=
    if config.qualityThresholdTurbidity < med.turbidity then penalty + 2000 else penalty
  let penalty := if med.dissolvedOxygen < config.qualityThresholdDo then penalty + 2000 else penalty
  let penalty := if tempThreshold < ofI64 med.temperature then penalty + 1000 else penalty
  if 8000 < penalty then 8000 else penalty

def volumetric (flow : Int64) : Result I128 :=
  if 0 < flow then do
    let product ← orPanic ((ofI64 flow).checkedMul 100) "volumetric credit multiplication overflow"
    return product / 1000
  else return 0

def computeFinalization (config : OracleConfig) (med : Reading) (baselines : Baselines)
    (windowSecs : UInt64) : Result FinalizationResult := do
  let nRemoved ← removed "n" med.totalNitrogen med.flowRate baselines.n windowSecs
  let pRemoved ← removed "p" med.totalPhosphorus med.flowRate baselines.p windowSecs
  let penalty := qualityPenalty config med baselines.temp
  let volumetricCredit ← volumetric med.flowRate
  let nCredit ← orPanic (nRemoved.checkedMul config.creditPerKgN) "n credit multiplication overflow"
  let pCredit ← orPanic (pRemoved.checkedMul config.creditPerKgP) "p credit multiplication overflow"
  let gross ← orPanic ((nCredit.checkedAdd pCredit).bind (·.checkedAdd volumetricCredit))
    "gross credit addition overflow"
  let product ← orPanic (gross.checkedMul (10000 - ofI64 penalty))
    "total credit multiplication overflow"
  return { nRemoved, pRemoved, penalty, volumetricCredit, total := max (product / 10000) 0 }

end WaterCredits.Oracle
