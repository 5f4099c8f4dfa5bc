import WaterCredits.Foundation.Machine
import WaterCredits.Bridge.State

/-! # The public calls of the credit bridge

A deposit burns credits and publishes an event; a withdrawal checks the relayer
signatures on a message and mints. The token contracts, over a world, and the
functions of the host are a parameter. Between two calls the world may change in
any way.
-/

namespace WaterCredits.Bridge

open Foundation Function

/-- What the bridge calls outside its own storage. -/
structure Outside (W : Type) where
  transfer : (token : Address) → Env token → (sender recipient : Address) → I128 → W → Result W
  burn : (token : Address) → Env token → (caller holder : Address) → I128 → W → Result W
  mintTo : (token : Address) → Env token → (minter recipient : Address) → I128 → W → Result W
  toXdr : InboundTransfer → List (BitVec 8)
  sha256 : List (BitVec 8) → BytesN 32
  ed25519Verify : (publicKey : BytesN 32) → (message : List (BitVec 8)) →
    (signature : BytesN 64) → Result Unit

variable {contract : Address} {W : Type}

/-- Fails once an admin is stored. -/
def initialise (stored : Option State) (admin token : Address) (evmToken : BytesN 32)
    (governance : Address) (relayers : List (BytesN 32)) (threshold : UInt32) : Result State := do
  ensure (stored.isNone) "already initialized"
  ensure (¬ (threshold = 0 ∨ relayers.length < threshold.toNat)) "invalid threshold"
  return { admin, token, evmToken, governance, relayers, threshold }

/-- The key under which a message is marked as processed. -/
def messageHash (o : Outside W) (transfer : InboundTransfer) : BytesN 32 :=
  o.sha256 (o.toXdr transfer)

/-- Check the signers in order: sorted, listed and with a valid signature. -/
def verifySigners (o : Outside W) (relayers : List (BytesN 32)) (message : List (BitVec 8)) :
    Option (BytesN 32) → List (BytesN 32 × BytesN 64) → ℕ → Result ℕ
  | _, [], validSigs => return validSigs
  | lastSigner, (signer, sig) :: rest, validSigs => do
    ensure (lastSigner.all (· < signer)) "signers not sorted or not unique"
    ensure (signer ∈ relayers) "unauthorized signer"
    o.ed25519Verify signer message sig
    verifySigners o relayers message (some signer) rest (validSigs + 1)

namespace State

def updateRelayers (e : Env contract) (s : State) (admin : Address)
    (newRelayers : List (BytesN 32)) (newThreshold : UInt32) : Result State := do
  s.requireAdmin e admin
  ensure (¬ (newThreshold = 0 ∨ newRelayers.length < newThreshold.toNat)) "invalid threshold"
  return { s with relayers := newRelayers, threshold := newThreshold }

def setToken (e : Env contract) (s : State) (admin newToken : Address) : Result State := do
  s.requireAdmin e admin
  return { s with token := newToken }

def pause (e : Env contract) (s : State) (caller : Address) : Result State := do
  s.requirePauser e caller
  return { s with paused := true }

def unpause (e : Env contract) (s : State) (caller : Address) : Result State := do
  s.requirePauser e caller
  return { s with paused := false }

/-- The tokens pass through the balance of the bridge, which burns them. -/
def deposit (o : Outside W) (e : Env contract) (s : State) (sender : Address) (amount : I128)
    (evmRecipient : BytesN 32) (w : W) : Result (DepositEvent × State × W) := do
  ensure (0 < amount) "amount must be positive"
  ensure (s.paused = false) "contract is paused"
  e.requireAuth sender
  let w ← o.transfer s.token (e.invoke s.token) sender contract amount w
  let w ← o.burn s.token (e.invoke s.token) contract contract amount w
  return ({ sender, evmRecipient, amount, nonce := s.nonce }, { s with nonce := s.nonce + 1 }, w)

/-- The message is marked before the signatures are checked and the mint is made. -/
def withdraw (o : Outside W) (e : Env contract) (s : State) (transfer : InboundTransfer)
    (signers : List (BytesN 32)) (signatures : List (BytesN 64)) (w : W) : Result (State × W) := do
  ensure (s.paused = false) "contract is paused"
  ensure (transfer.destinationChain = 1) "invalid destination chain"
  ensure (transfer.tokenAddress = s.evmToken) "invalid token address"
  let key := messageHash o transfer
  ensure (s.processedMessages key = false) "already processed"
  let s := { s with processedMessages := update s.processedMessages key true }
  ensure (signers.length = signatures.length) "length mismatch"
  ensure (s.threshold.toNat ≤ signers.length) "insufficient signers"
  let validSigs ← verifySigners o s.relayers (o.toXdr transfer) none (signers.zip signatures) 0
  ensure (s.threshold.toNat ≤ validSigs) "insufficient valid signatures"
  let recipient ← bytesToAddress transfer.recipientType transfer.recipient
  let w ← o.mintTo s.token (e.invoke s.token) contract recipient transfer.amount w
  return (s, w)

end State

/-- The state-changing entry points with their arguments. -/
inductive Call
  | initialise (admin token : Address) (evmToken : BytesN 32) (governance : Address)
      (relayers : List (BytesN 32)) (threshold : UInt32)
  | updateRelayers (admin : Address) (newRelayers : List (BytesN 32)) (newThreshold : UInt32)
  | setToken (admin newToken : Address)
  | pause (caller : Address)
  | unpause (caller : Address)
  | deposit (sender : Address) (amount : I128) (evmRecipient : BytesN 32)
  | withdraw (transfer : InboundTransfer) (signers : List (BytesN 32))
      (signatures : List (BytesN 64))

/-- A call on the bridge, or a change of the world outside it. -/
inductive Event (contract : Address) (W : Type)
  | call (e : Env contract) (c : Call)
  | outside (w : W)

/-- A call that leaves the outside world alone. -/
def within (w : W) (x : Result State) : Result (State × W) := do
  let s ← x
  return (s, w)

@[simp] theorem within_eq_ok {w w' : W} {x : Result State} {s' : State} :
    within w x = .ok (s', w') ↔ x = .ok s' ∧ w = w' := by
  simp [within]

def execute (o : Outside W) (e : Env contract) (s : State) (w : W) : Call → Result (State × W)
  | .initialise admin token evmToken governance relayers threshold =>
      within w (Bridge.initialise (some s) admin token evmToken governance relayers threshold)
  | .updateRelayers admin newRelayers newThreshold =>
      within w (s.updateRelayers e admin newRelayers newThreshold)
  | .setToken admin newToken => within w (s.setToken e admin newToken)
  | .pause caller => within w (s.pause e caller)
  | .unpause caller => within w (s.unpause e caller)
  | .deposit sender amount evmRecipient => do
      let (_, s, w) ← s.deposit o e sender amount evmRecipient w
      return (s, w)
  | .withdraw transfer signers signatures => s.withdraw o e transfer signers signatures w

def step (o : Outside W) : Event contract W → State × W → Result (State × W)
  | .call e c, (s, w) => execute o e s w c
  | .outside w', (s, _) => .ok (s, w')

/-- A bridge deployed at `contract`, from its initialisation on. -/
def machine (contract : Address) (o : Outside W) :
    Machine (State × W) (Event contract W) Panic where
  init sw := ∃ (admin token : Address) (evmToken : BytesN 32) (governance : Address)
    (relayers : List (BytesN 32)) (threshold : UInt32),
    Bridge.initialise none admin token evmToken governance relayers threshold = .ok sw.1
  step := step o

end WaterCredits.Bridge
