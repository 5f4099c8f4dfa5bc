import WaterCredits.Foundation.Machine
import WaterCredits.Token.State

/-! # The public calls of a credit token

Each entry point returns the storage it leaves behind. Plain `+` and `-` wrap,
as in the release build; `checkedAdd` aborts. Retirement may hand control to the
retirement registry, whose world is a parameter.
-/

namespace WaterCredits.Token

open Foundation (Machine)

/-- The call that a retirement makes on the registry contract. -/
structure Registry (W : Type) where
  recordRetirement : (registry creditToken retiree : Address) → BytesN 32 → I128 →
    (purpose metadataUri : String) → W → Result (UInt64 × W)

variable {contract : Address} {W : Type}

/-- Fails once an admin is stored. -/
def initialise (e : Env contract) (stored : Option State) (admin : Address) (name symbol : String)
    (projectId : BytesN 32) (methodology : String) : Result State := do
  ensure (stored.isNone) "already initialized"
  return {
    admin, name, symbol
    metadata := {
      projectId, methodology
      vintage := e.timestamp
      issuanceDate := e.timestamp } }

theorem initialise_eq_ok {e : Env contract} {stored : Option State} {admin : Address}
    {name symbol : String} {projectId : BytesN 32} {methodology : String} {s : State} :
    initialise e stored admin name symbol projectId methodology = .ok s ↔
      stored = none ∧ s = {
        admin, name, symbol
        metadata := {
          projectId, methodology
          vintage := e.timestamp
          issuanceDate := e.timestamp } } := by
  simp [initialise, @eq_comm _ s]

namespace State

def proposeAdmin (e : Env contract) (s : State) (admin newAdmin : Address) (delaySecs : UInt64) :
    Result State := do
  s.requireAdmin e admin
  return { s with
    pendingAdmin := some newAdmin
    pendingAdminActiveAfter := some (e.timestamp + delaySecs) }

/-- The alias of `proposeAdmin` without a delay. -/
def setAdmin (e : Env contract) (s : State) (admin newAdmin : Address) : Result State :=
  s.proposeAdmin e admin newAdmin 0

def acceptAdmin (e : Env contract) (s : State) (newAdmin : Address) : Result State := do
  e.requireAuth newAdmin
  let pending ← Foundation.expect s.pendingAdmin (.message "no pending admin")
  ensure (pending = newAdmin) "unauthorized"
  let time ← Foundation.expect s.pendingAdminActiveAfter (.message "no pending admin")
  ensure (time ≤ e.timestamp) "timelock not expired"
  return { s with admin := newAdmin, pendingAdmin := none, pendingAdminActiveAfter := none }

def cancelAdminProposal (e : Env contract) (s : State) (admin : Address) : Result State := do
  s.requireAdmin e admin
  return { s with pendingAdmin := none, pendingAdminActiveAfter := none }

def setMinter (e : Env contract) (s : State) (admin minter : Address) : Result State := do
  s.requireAdmin e admin
  return { s with minter := some minter }

def setRetirementRegistry (e : Env contract) (s : State) (admin registry : Address) :
    Result State := do
  s.requireAdmin e admin
  return { s with retirementRegistry := some registry }

def setRequireRegistry (e : Env contract) (s : State) (admin : Address) (required : Bool) :
    Result State := do
  s.requireAdmin e admin
  return { s with requireRegistry := required }

def pause (e : Env contract) (s : State) (caller : Address) : Result State := do
  s.requirePauser e caller
  return { s with paused := true }

def unpause (e : Env contract) (s : State) (caller : Address) : Result State := do
  s.requirePauser e caller
  return { s with paused := false }

def setMaxSupply (e : Env contract) (s : State) (admin : Address) (max : I128) : Result State := do
  s.requireAdmin e admin
  ensure (0 ≤ max) "max supply must be non-negative"
  return { s with maxSupply := max }

def setPauseGuardian (e : Env contract) (s : State) (admin guardian : Address) : Result State := do
  s.requireAdmin e admin
  return { s with pauseGuardian := some guardian }

def setBridge (e : Env contract) (s : State) (admin bridge : Address) : Result State := do
  s.requireAdmin e admin
  return { s with bridge := some bridge }

/-- The cap check of a single mint, which counts the credits bridged away. -/
def requireMintable (s : State) (amount : I128) : Result Unit :=
  if 0 < s.maxSupply then do
    let held ← orOverflow (s.totalSupply.checkedAdd s.bridgedToEvm)
    let next ← orOverflow (held.checkedAdd amount)
    ensure (next ≤ s.maxSupply) "max supply exceeded"
  else pure ()

/-- A mint by the bridge takes its amount from the bridged credits. -/
def drawBridged (s : State) (minter : Address) (amount : I128) : Result State :=
  if s.bridge = some minter then do
    ensure (amount ≤ s.bridgedToEvm) "insufficient bridged amount"
    return { s with bridgedToEvm := s.bridgedToEvm - amount }
  else pure s

def mintTo (e : Env contract) (s : State) (minter recipient : Address) (amount : I128) :
    Result State := do
  ensure (0 < amount) "amount must be positive"
  s.requireNotPaused
  s.requireMinter e minter
  s.requireMintable amount
  let s ← s.drawBridged minter amount
  let balance ← orOverflow ((s.balance recipient).checkedAdd amount)
  let total ← orOverflow (s.totalSupply.checkedAdd amount)
  let ever ← orOverflow (s.everMinted.checkedAdd amount)
  return { s.saveBalance recipient balance with totalSupply := total, everMinted := ever }

/-- The loop of `batchMintTo`, with its running total and mint counter. -/
def batchMintLoop (max : I128) : List (Address × I128) → State → I128 → I128 → Result (State × I128)
  | [], s, _, ever => return (s, ever)
  | (recipient, amount) :: rest, s, total, ever => do
    ensure (0 < amount) "amount must be positive"
    let next ← orOverflow (total.checkedAdd amount)
    ensure (0 < max → next ≤ max) "max supply exceeded"
    let balance ← orOverflow ((s.balance recipient).checkedAdd amount)
    let ever ← orOverflow (ever.checkedAdd amount)
    batchMintLoop max rest { s.saveBalance recipient balance with totalSupply := next } next ever

def batchMintTo (e : Env contract) (s : State) (minter : Address) (recipients : List Address)
    (amounts : List I128) : Result State := do
  ensure (recipients.length = amounts.length) "recipients and amounts length mismatch"
  ensure (recipients ≠ []) "empty batch"
  s.requireNotPaused
  s.requireMinter e minter
  let (s, ever) ←
    batchMintLoop s.maxSupply (recipients.zip amounts) s s.totalSupply s.everMinted
  return { s with everMinted := ever }

/-- Take credits out of circulation and count them as burned. -/
def destroy (s : State) (holder : Address) (amount : I128) : Result State := do
  ensure (amount ≤ s.balance holder) "insufficient balance"
  let burned ← orOverflow (s.totalBurned.checkedAdd amount)
  return { s.saveBalance holder (s.balance holder - amount) with
    totalSupply := s.totalSupply - amount
    totalBurned := burned }

def burn (e : Env contract) (s : State) (caller holder : Address) (amount : I128) :
    Result State := do
  ensure (0 < amount) "amount must be positive"
  e.requireAuth caller
  if s.bridge = some caller then
    ensure (holder = caller) "unauthorized: bridge can only burn from itself"
    let s ← s.destroy holder amount
    let bridged ← orOverflow (s.bridgedToEvm.checkedAdd amount)
    return { s with bridgedToEvm := bridged }
  else
    ensure (caller = s.admin) "unauthorized"
    s.destroy holder amount

/-- The reason is only published. -/
def burnWithReason (e : Env contract) (s : State) (admin holder : Address) (amount : I128)
    (_reason : String) : Result State := do
  ensure (0 < amount) "amount must be positive"
  s.requireAdmin e admin
  s.destroy holder amount

/-- Both balances are read before either is written. -/
def moveBalance (s : State) (sender recipient : Address) (amount : I128) : Result State := do
  let senderBalance := s.balance sender
  ensure (amount ≤ senderBalance) "insufficient balance"
  let recipientBalance := s.balance recipient
  let s := s.saveBalance sender (senderBalance - amount)
  let credited ← orOverflow (recipientBalance.checkedAdd amount)
  return s.saveBalance recipient credited

def transfer (e : Env contract) (s : State) (sender recipient : Address) (amount : I128) :
    Result State := do
  ensure (0 < amount) "amount must be positive"
  s.requireNotPaused
  e.requireAuth sender
  s.moveBalance sender recipient amount

/-- The total that `batchTransfer` deducts from the sender. -/
def batchTotal : List I128 → I128 → Result I128
  | [], total => return total
  | amount :: rest, total => do
    ensure (0 < amount) "amount must be positive"
    let total ← orOverflow (total.checkedAdd amount)
    batchTotal rest total

/-- The crediting loop of `batchTransfer`, which reads each balance afresh. -/
def creditLoop : List (Address × I128) → State → Result State
  | [], s => return s
  | (recipient, amount) :: rest, s => do
    let balance ← orOverflow ((s.balance recipient).checkedAdd amount)
    creditLoop rest (s.saveBalance recipient balance)

def batchTransfer (e : Env contract) (s : State) (sender : Address) (recipients : List Address)
    (amounts : List I128) : Result State := do
  ensure (recipients.length = amounts.length) "recipients and amounts length mismatch"
  ensure (recipients ≠ []) "empty batch"
  s.requireNotPaused
  e.requireAuth sender
  let total ← batchTotal amounts 0
  ensure (total ≤ s.balance sender) "insufficient balance"
  creditLoop (recipients.zip amounts) (s.saveBalance sender (s.balance sender - total))

def transferFrom (e : Env contract) (s : State) (spender sender recipient : Address)
    (amount : I128) :
    Result State := do
  ensure (0 < amount) "amount must be positive"
  s.requireNotPaused
  e.requireAuth spender
  let allowance := s.allowance (sender, spender)
  ensure (amount ≤ allowance) "insufficient allowance"
  let expiration := s.allowanceExpiration (sender, spender)
  ensure (¬ (0 < expiration ∧ expiration ≤ e.sequence)) "allowance expired"
  let s ← s.moveBalance sender recipient amount
  return { s with allowance := Function.update s.allowance (sender, spender) (allowance - amount) }

def approve (e : Env contract) (s : State) (owner spender : Address) (amount : I128)
    (expirationLedger : UInt32) : Result State := do
  ensure (0 ≤ amount) "amount must be non-negative"
  ensure (¬ (0 < expirationLedger ∧ expirationLedger < e.sequence)) "expiration already passed"
  e.requireAuth owner
  return { s with
    allowance := Function.update s.allowance (owner, spender) amount
    allowanceExpiration :=
      Function.update s.allowanceExpiration (owner, spender) expirationLedger }

/-- The registry is asked for a record number when one is configured. -/
def recordRetirement (R : Registry W) (contract : Address) (s : State) (holder : Address)
    (amount : I128) (purpose metadataUri : String) (w : W) : Result (Option UInt64 × W) :=
  match s.retirementRegistry with
  | some registry => do
    let (recordId, w) ← R.recordRetirement registry contract holder s.metadata.projectId amount
      purpose metadataUri w
    return (some recordId, w)
  | none => return (none, w)

/-- The accounting is written before the registry is called. -/
def retire (R : Registry W) (e : Env contract) (s : State) (holder : Address) (amount : I128)
    (purpose metadataUri : String) (w : W) : Result (RetirementCertificate × State × W) := do
  ensure (0 < amount) "amount must be positive"
  s.requireNotPaused
  e.requireAuth holder
  ensure (amount ≤ s.balance holder) "insufficient balance"
  Foundation.require (¬ (s.retirementRegistry = none ∧ s.requireRegistry = true)) (.contractError 1)
  let s := { s.saveBalance holder (s.balance holder - amount) with
    totalSupply := s.totalSupply - amount
    totalRetired := s.totalRetired + amount }
  let (registryRecordId, w) ← s.recordRetirement R contract holder amount purpose metadataUri w
  let cert : RetirementCertificate := {
    retiree := holder
    projectId := s.metadata.projectId
    amount, purpose
    timestamp := e.timestamp
    metadataUri, registryRecordId }
  return (cert, { s with
    cert := Function.update s.cert s.certCount (some cert)
    certCount := s.certCount + 1 }, w)

end State

/-- The state-changing entry points with their arguments. -/
inductive Call
  | initialise (admin : Address) (name symbol : String) (projectId : BytesN 32)
      (methodology : String)
  | setAdmin (admin newAdmin : Address)
  | proposeAdmin (admin newAdmin : Address) (delaySecs : UInt64)
  | acceptAdmin (newAdmin : Address)
  | cancelAdminProposal (admin : Address)
  | setMinter (admin minter : Address)
  | setRetirementRegistry (admin registry : Address)
  | setRequireRegistry (admin : Address) (required : Bool)
  | pause (caller : Address)
  | unpause (caller : Address)
  | setMaxSupply (admin : Address) (max : I128)
  | setPauseGuardian (admin guardian : Address)
  | setBridge (admin bridge : Address)
  | mintTo (minter recipient : Address) (amount : I128)
  | batchMintTo (minter : Address) (recipients : List Address) (amounts : List I128)
  | burn (caller holder : Address) (amount : I128)
  | burnWithReason (admin holder : Address) (amount : I128) (reason : String)
  | transfer (sender recipient : Address) (amount : I128)
  | batchTransfer (sender : Address) (recipients : List Address) (amounts : List I128)
  | transferFrom (spender sender recipient : Address) (amount : I128)
  | approve (owner spender : Address) (amount : I128) (expirationLedger : UInt32)
  | retire (holder : Address) (amount : I128) (purpose metadataUri : String)

/-- A call that leaves the registry's world alone. -/
def within (w : W) (x : Result State) : Result (State × W) := do
  let s ← x
  return (s, w)

@[simp] theorem within_eq_ok {w w' : W} {x : Result State} {s' : State} :
    within w x = .ok (s', w') ↔ x = .ok s' ∧ w = w' := by
  simp [within]

def step (R : Registry W) : Env contract × Call → State × W → Result (State × W)
  | (e, .initialise admin name symbol projectId methodology), (s, w) =>
      within w (Token.initialise e (some s) admin name symbol projectId methodology)
  | (e, .setAdmin admin newAdmin), (s, w) => within w (s.setAdmin e admin newAdmin)
  | (e, .proposeAdmin admin newAdmin delaySecs), (s, w) =>
      within w (s.proposeAdmin e admin newAdmin delaySecs)
  | (e, .acceptAdmin newAdmin), (s, w) => within w (s.acceptAdmin e newAdmin)
  | (e, .cancelAdminProposal admin), (s, w) => within w (s.cancelAdminProposal e admin)
  | (e, .setMinter admin minter), (s, w) => within w (s.setMinter e admin minter)
  | (e, .setRetirementRegistry admin registry), (s, w) =>
      within w (s.setRetirementRegistry e admin registry)
  | (e, .setRequireRegistry admin required), (s, w) =>
      within w (s.setRequireRegistry e admin required)
  | (e, .pause caller), (s, w) => within w (s.pause e caller)
  | (e, .unpause caller), (s, w) => within w (s.unpause e caller)
  | (e, .setMaxSupply admin max), (s, w) => within w (s.setMaxSupply e admin max)
  | (e, .setPauseGuardian admin guardian), (s, w) =>
      within w (s.setPauseGuardian e admin guardian)
  | (e, .setBridge admin bridge), (s, w) => within w (s.setBridge e admin bridge)
  | (e, .mintTo minter recipient amount), (s, w) => within w (s.mintTo e minter recipient amount)
  | (e, .batchMintTo minter recipients amounts), (s, w) =>
      within w (s.batchMintTo e minter recipients amounts)
  | (e, .burn caller holder amount), (s, w) => within w (s.burn e caller holder amount)
  | (e, .burnWithReason admin holder amount reason), (s, w) =>
      within w (s.burnWithReason e admin holder amount reason)
  | (e, .transfer sender recipient amount), (s, w) =>
      within w (s.transfer e sender recipient amount)
  | (e, .batchTransfer sender recipients amounts), (s, w) =>
      within w (s.batchTransfer e sender recipients amounts)
  | (e, .transferFrom spender sender recipient amount), (s, w) =>
      within w (s.transferFrom e spender sender recipient amount)
  | (e, .approve owner spender amount expirationLedger), (s, w) =>
      within w (s.approve e owner spender amount expirationLedger)
  | (e, .retire holder amount purpose metadataUri), (s, w) => do
      let (_, s, w) ← s.retire R e holder amount purpose metadataUri w
      return (s, w)

/-- A token deployed at `contract`, from its initialisation on. -/
def machine (contract : Address) (R : Registry W) :
    Machine (State × W) (Env contract × Call) Panic where
  init sw := ∃ (e : Env contract) (admin : Address) (name symbol : String) (projectId : BytesN 32)
    (methodology : String),
    Token.initialise e none admin name symbol projectId methodology = .ok sw.1
  step := step R

end WaterCredits.Token
