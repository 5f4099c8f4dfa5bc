import WaterCredits.Oracle.Formula

/-! # Finalizing a window

Medians of the submissions give a result, the credits are minted through the
token contract under its cap, and the result is recorded. The contracts that the
oracle calls, and the hash of the host, are a parameter.
-/

namespace WaterCredits.Oracle

open Foundation Function

/-- What the oracle calls outside its own storage: token contracts over a world, and a hash. -/
structure Outside (W : Type) where
  totalSupply : (token : Address) → W → Result (I128 × W)
  maxSupply : (token : Address) → W → Result (I128 × W)
  mintTo : (token minter recipient : Address) → I128 → W → Result W
  transfer : (token sender recipient : Address) → I128 → W → Result W
  sha256 : List (BitVec 8) → BytesN 32

variable {W : Type}

/-- Mint through the token, unless the amount is zero. -/
def mintPositive (o : Outside W) (token minter recipient : Address) (amount : I128) (w : W) :
    Result W :=
  if 0 < amount then o.mintTo token minter recipient amount w else return w

/-- The part of the credits that the cap of the token leaves room for. -/
def mintable (totalSupply maxSupply totalCredits : I128) : I128 :=
  if 0 < maxSupply then
    let remaining := maxSupply - totalSupply
    if remaining ≤ 0 then 0 else min remaining totalCredits
  else totalCredits

def feeOf (config : OracleConfig) (amount : I128) : Result I128 :=
  if 0 < config.feeBps then do
    let product ← orPanic (amount.checkedMul (ofU32 config.feeBps)) "fee overflow"
    return product / 10000
  else return 0

def mintCreditsRespectingCap (o : Outside W) (contract : Address) (config : OracleConfig)
    (token beneficiary : Address) (totalCredits : I128) (w : W) : Result (I128 × I128 × W) :=
  if totalCredits ≤ 0 then return (0, 0, w) else do
    let (totalSupply, w) ← o.totalSupply token w
    let (maxSupply, w) ← o.maxSupply token w
    let amount := mintable totalSupply maxSupply totalCredits
    if amount ≤ 0 then return (0, 0, w) else do
      let fee ← feeOf config amount
      let net := amount - fee
      let w ← mintPositive o token contract beneficiary net w
      let w ← mintPositive o token contract config.treasury fee w
      return (net, fee, w)

def medians (subs : List ReadingSubmission) : Result Reading := do
  let ph ← medianI64 (subs.map (·.ph))
  let turbidity ← medianI64 (subs.map (·.turbidity))
  let dissolvedOxygen ← medianI64 (subs.map (·.dissolvedOxygen))
  let temperature ← medianI64 (subs.map (·.temperature))
  let flowRate ← medianI64 (subs.map (·.flowRate))
  let totalNitrogen ← medianI64 (subs.map (·.totalNitrogen))
  let totalPhosphorus ← medianI64 (subs.map (·.totalPhosphorus))
  return { ph, turbidity, dissolvedOxygen, flowRate, temperature, totalNitrogen, totalPhosphorus }

namespace State

variable (s : State) (projectId : ProjectId)

def computeResult (timestamp : UInt64) (subs : List ReadingSubmission) :
    Result VerificationResult := do
  let med ← medians subs
  let fin ← computeFinalization s.config med (resolveBaselines s projectId) s.config.windowSecs
  return {
    projectId
    nRemovalKg := fin.nRemoved
    pRemovalKg := fin.pRemoved
    qualityPenalty := fin.penalty
    volumetricCredit := fin.volumetricCredit
    totalCredits := fin.total
    creditsMinted := 0
    protocolFeeMinted := 0
    oracleCount := UInt32.ofNat subs.length
    finalizedAt := timestamp }

def mintResult (o : Outside W) (contract : Address) (result : VerificationResult) (w : W) :
    Result (VerificationResult × W) :=
  match s.projectConfig projectId with
  | some pc => do
    let (net, fee, w) ← mintCreditsRespectingCap o contract s.config pc.tokenContract pc.beneficiary
      result.totalCredits w
    return ({ result with creditsMinted := net, protocolFeeMinted := fee }, w)
  | none => return (result, w)

def appendResultHistory (result : VerificationResult) : State :=
  let histPos := s.resultCount projectId
  { s with
    resultAt := update s.resultAt (projectId, histPos) (some result)
    resultSummaryAt := update s.resultSummaryAt (projectId, histPos) (some {
      totalCredits := result.totalCredits
      creditsMinted := result.creditsMinted
      oracleCount := result.oracleCount
      finalizedAt := result.finalizedAt })
    resultCount := update s.resultCount projectId (histPos + 1) }

def countContribution (s : State) (sub : ReadingSubmission) : State :=
  { s with
    oracleSubmitCount := update s.oracleSubmitCount sub.oracle (s.oracleSubmitCount sub.oracle + 1)
    oracleFinalizedCount :=
      update s.oracleFinalizedCount sub.oracle (s.oracleFinalizedCount sub.oracle + 1) }

def recordFinalizedContributions (subs : List ReadingSubmission) : State :=
  subs.foldl countContribution s

def recordResult (result : VerificationResult) (subs : List ReadingSubmission) : State :=
  (({ s with lastResult := update s.lastResult projectId (some result) } :
    State).appendResultHistory projectId result).recordFinalizedContributions subs

def saveWindow (window : WindowState) : State :=
  { s with windowState := update s.windowState projectId (some window) }

def addOpenProject : Result State :=
  if projectId ∈ s.openProjects then return s else do
    ensure (s.openProjects.length < s.config.maxOpenWindows.toNat) "max open windows reached"
    return { s with openProjects := s.openProjects ++ [projectId] }

def removeOpenProject : State :=
  { s with openProjects := s.openProjects.filter (· ≠ projectId) }

/-- Remove the commitment and reveal markers of some oracles in a window. -/
def clearMarkers (oracles : List Address) : State :=
  { s with
    commitment := fun k => if k.1 = projectId ∧ k.2 ∈ oracles then none else s.commitment k
    oracleRevealed := fun k =>
      if k.1 = projectId ∧ k.2 ∈ oracles then false else s.oracleRevealed k }

def verifyWindow (o : Outside W) (contract : Address) (timestamp : UInt64)
    (subs : List ReadingSubmission) (w : W) : Result (VerificationResult × W) := do
  let result ← s.computeResult projectId timestamp subs
  s.mintResult projectId o contract result w

/-- The end of the commit-reveal path. -/
def finalizeReveals (o : Outside W) (contract : Address) (timestamp : UInt64) (w : W) :
    Result (Option VerificationResult × State × W) := do
  let window ← s.expectWindow projectId
  if window.finalized = true then return (none, s, w)
  else if window.submissions.length < s.config.minOracles.toNat then return (none, s, w)
  else do
    let (result, w) ← s.verifyWindow projectId o contract timestamp window.submissions w
    let s := s.recordResult projectId result window.submissions
    let s := s.saveWindow projectId { window with phase := .finalized, finalized := true }
    let s := s.removeOpenProject projectId
    return (some result, s.clearMarkers projectId s.oracleList, w)

/-- The end of the direct path, which leaves the phase and the markers as they are. -/
def finalizeDirect (o : Outside W) (contract : Address) (timestamp : UInt64) (window : WindowState)
    (w : W) : Result (VerificationResult × State × W) := do
  let (result, w) ← s.verifyWindow projectId o contract timestamp window.submissions w
  let s := s.recordResult projectId result window.submissions
  let s := s.saveWindow projectId { window with finalized := true }
  return (result, s.removeOpenProject projectId, w)

end State

end WaterCredits.Oracle
