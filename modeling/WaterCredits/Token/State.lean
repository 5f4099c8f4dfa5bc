import WaterCredits.Host

/-! # The storage of a credit token

One field per storage key of the contract, with the default that its reader
falls back to. Balances, allowances and certificates are total functions.
-/

namespace WaterCredits.Token

structure CreditMetadata where
  projectId : BytesN 32
  methodology : String
  vintage : UInt64
  issuanceDate : UInt64
  deriving DecidableEq, Repr

structure RetirementCertificate where
  retiree : Address
  projectId : BytesN 32
  amount : I128
  purpose : String
  timestamp : UInt64
  metadataUri : String
  registryRecordId : Option UInt64
  deriving DecidableEq

structure State where
  admin : Address
  pendingAdmin : Option Address := none
  pendingAdminActiveAfter : Option UInt64 := none
  minter : Option Address := none
  retirementRegistry : Option Address := none
  totalSupply : I128 := 0
  totalRetired : I128 := 0
  totalBurned : I128 := 0
  everMinted : I128 := 0
  name : String
  symbol : String
  decimals : UInt32 := 7
  metadata : CreditMetadata
  cert : UInt64 → Option RetirementCertificate := fun _ => none
  certCount : UInt64 := 0
  paused : Bool := false
  maxSupply : I128 := 0
  pauseGuardian : Option Address := none
  requireRegistry : Bool := false
  bridge : Option Address := none
  bridgedToEvm : I128 := 0
  balance : Address → I128 := fun _ => 0
  allowance : Address × Address → I128 := fun _ => 0
  allowanceExpiration : Address × Address → UInt32 := fun _ => 0

namespace State

variable {contract : Address}

def readMinter (s : State) : Address := s.minter.getD s.admin

def requireNotPaused (s : State) : Result Unit := ensure (s.paused = false) "contract is paused"

def requireMinter (e : Env contract) (s : State) (caller : Address) : Result Unit := do
  e.requireAuth caller
  ensure (caller = s.readMinter ∨ caller = s.admin) "unauthorized minter"

def requireAdmin (e : Env contract) (s : State) (admin : Address) : Result Unit := do
  e.requireAuth admin
  ensure (admin = s.admin) "unauthorized"

def requirePauser (e : Env contract) (s : State) (caller : Address) : Result Unit := do
  e.requireAuth caller
  ensure (caller = s.admin ∨ s.pauseGuardian = some caller) "unauthorized"

@[simp] theorem requireNotPaused_eq_ok {s : State} {u : Unit} :
    s.requireNotPaused = .ok u ↔ s.paused = false := by simp [requireNotPaused]

@[simp] theorem requireMinter_eq_ok {e : Env contract} {s : State} {a : Address} {u : Unit} :
    s.requireMinter e a = .ok u ↔ e.auth a = true ∧ (a = s.readMinter ∨ a = s.admin) := by
  simp [requireMinter]

@[simp] theorem requireAdmin_eq_ok {e : Env contract} {s : State} {a : Address} {u : Unit} :
    s.requireAdmin e a = .ok u ↔ e.auth a = true ∧ a = s.admin := by simp [requireAdmin]

@[simp] theorem requirePauser_eq_ok {e : Env contract} {s : State} {a : Address} {u : Unit} :
    s.requirePauser e a = .ok u ↔
      e.auth a = true ∧ (a = s.admin ∨ s.pauseGuardian = some a) := by simp [requirePauser]

def saveBalance (s : State) (a : Address) (amount : I128) : State :=
  { s with balance := Function.update s.balance a amount }

end State

end WaterCredits.Token
