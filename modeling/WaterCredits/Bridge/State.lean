import WaterCredits.Host
import Mathlib.Data.List.Basic

/-! # The storage of the credit bridge

One field per storage key of the contract. A message from the other chain is a
record of fixed-width fields, and so is the event that a deposit publishes for
the relayers.
-/

namespace WaterCredits.Bridge

open Foundation

/-- A deposit on the other chain, as the relayers sign it. -/
structure InboundTransfer where
  sourceChain : UInt32
  destinationChain : UInt32
  nonce : UInt64
  tokenAddress : BytesN 32
  sender : BytesN 32
  recipientType : UInt32
  recipient : BytesN 32
  amount : I128
  deriving DecidableEq

structure DepositEvent where
  sender : Address
  evmRecipient : BytesN 32
  amount : I128
  nonce : UInt64
  deriving DecidableEq

structure State where
  admin : Address
  token : Address
  evmToken : BytesN 32
  governance : Address
  paused : Bool := false
  relayers : List (BytesN 32)
  threshold : UInt32
  processedMessages : BytesN 32 → Bool := fun _ => false
  nonce : UInt64 := 0

def bytesToAddress (addressType : UInt32) (payload : BytesN 32) : Result Address :=
  if addressType = 1 then return .contract payload
  else if addressType = 0 then return .account payload
  else throw (.message "invalid address type")

/-- The type and the payload of an address in a message. -/
def addressToBytes : Address → UInt32 × BytesN 32
  | .contract id => (1, id)
  | .account key => (0, key)

/-- The payload form of an address loses nothing. -/
theorem bytesToAddress_addressToBytes (a : Address) :
    bytesToAddress (addressToBytes a).1 (addressToBytes a).2 = .ok a := by
  cases a <;> rfl

namespace State

variable {contract : Address}

def requireAdmin (e : Env contract) (s : State) (admin : Address) : Result Unit := do
  e.requireAuth admin
  ensure (admin = s.admin) "unauthorized"

/-- The guard of the pause switch, open to the admin and the governance contract. -/
def requirePauser (e : Env contract) (s : State) (caller : Address) : Result Unit := do
  e.requireAuth caller
  ensure (caller = s.admin ∨ caller = s.governance) "unauthorized"

@[simp] theorem requireAdmin_eq_ok {e : Env contract} {s : State} {a : Address} {u : Unit} :
    s.requireAdmin e a = .ok u ↔ e.auth a = true ∧ a = s.admin := by simp [requireAdmin]

@[simp] theorem requirePauser_eq_ok {e : Env contract} {s : State} {a : Address} {u : Unit} :
    s.requirePauser e a = .ok u ↔ e.auth a = true ∧ (a = s.admin ∨ a = s.governance) := by
  simp [requirePauser]

end State

end WaterCredits.Bridge
