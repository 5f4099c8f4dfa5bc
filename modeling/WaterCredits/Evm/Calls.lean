import WaterCredits.Foundation.Machine
import WaterCredits.Evm.State

/-! # The external calls of the bridged token

Each function returns the storage it leaves behind. The hash function and the
recovery of signers are a parameter, and encodings are byte strings.
-/

namespace WaterCredits.Evm

open Foundation Function

/-- The functions of the chain that the contract calls. -/
structure Chain where
  keccak256 : List (BitVec 8) → Word
  ecrecover : (hash : Word) → (v : BitVec 8) → (r s : Word) → Account

/-- The word with these bytes, the most significant first. -/
def wordOfBytes (l : List (BitVec 8)) : Word :=
  l.foldl (fun acc b => acc <<< 8 ||| b.setWidth (8 * 32)) 0

def encodePacked (contract : Account) (m : Message) : List (BitVec 8) :=
  bytes 20 contract ++ (bytes 4 m.sourceChain.toBitVec ++ (bytes 4 m.destinationChain.toBitVec ++
    (bytes 8 m.nonce.toBitVec ++ (bytes 32 m.sender ++ (bytes 20 m.recipient ++
      bytes 32 m.amount)))))

def signedPrefix : List (BitVec 8) :=
  "\x19Ethereum Signed Message:\n32".toList.map fun c => BitVec.ofNat 8 c.toNat

def msgHash (h : Chain) (contract : Account) (m : Message) : Word :=
  h.keccak256 (encodePacked contract m)

def ethSignedMsgHash (h : Chain) (hash : Word) : Word := h.keccak256 (signedPrefix ++ bytes 32 hash)

def recoverSigner (h : Chain) (hash : Word) (sig : List (BitVec 8)) : Result Account := do
  ensure (sig.length = 65) "Invalid signature length"
  let r := wordOfBytes (sig.take 32)
  let s := wordOfBytes ((sig.drop 32).take 32)
  return h.ecrecover hash (sig.getD 64 0) r s

def addRelayers : List Account → State → Result State
  | [], s => return s
  | relayer :: rest, s => do
    ensure (relayer ≠ 0) "Invalid relayer"
    ensure (s.isRelayer relayer = false) "Duplicate relayer"
    addRelayers rest { s with
      isRelayer := update s.isRelayer relayer true
      relayers := s.relayers ++ [relayer] }

def deploy (name symbol : String) (admin governance : Account) (relayers : List Account)
    (threshold : Word) : Result State := do
  ensure (0 < threshold ∧ threshold.toNat ≤ relayers.length) "Invalid threshold"
  addRelayers relayers { name, symbol, admin, governance, threshold }

/-- Check the recovered signers in order: relayers, and sorted. -/
def verifySignatures (h : Chain) (s : State) (hash : Word) :
    Account → List (List (BitVec 8)) → ℕ → Result ℕ
  | _, [], validSigs => return validSigs
  | lastSigner, sig :: rest, validSigs => do
    let signer ← recoverSigner h hash sig
    ensure (s.isRelayer signer = true) "Invalid relayer signature"
    ensure (lastSigner < signer) "Signatures must be sorted and unique"
    verifySignatures h s hash signer rest (validSigs + 1)

namespace State

/-- Move an amount between two balances, which may be the same. -/
def moveBalance (s : State) (sender recipient : Account) (amount : Word) : Result State := do
  let debited ← checkedSub (s.balanceOf sender) amount
  let s := s.saveBalance sender debited
  let credited ← checkedAdd (s.balanceOf recipient) amount
  return s.saveBalance recipient credited

def transfer (s : State) (msgSender recipient : Account) (amount : Word) : Result State := do
  s.whenNotPaused
  ensure (recipient ≠ 0) "Invalid address"
  ensure (amount ≤ s.balanceOf msgSender) "Insufficient balance"
  s.moveBalance msgSender recipient amount

def approve (s : State) (msgSender spender : Account) (amount : Word) : Result State := do
  s.whenNotPaused
  return { s with
    allowance := update s.allowance msgSender (update (s.allowance msgSender) spender amount) }

def transferFrom (s : State) (msgSender holder recipient : Account) (amount : Word) :
    Result State := do
  s.whenNotPaused
  ensure (recipient ≠ 0) "Invalid address"
  ensure (amount ≤ s.balanceOf holder) "Insufficient balance"
  ensure (amount ≤ s.allowance holder msgSender) "Insufficient allowance"
  let left ← checkedSub (s.allowance holder msgSender) amount
  let s := { s with
    allowance := update s.allowance holder (update (s.allowance holder) msgSender left) }
  s.moveBalance holder recipient amount

def pause (s : State) (msgSender : Account) : Result State := do
  ensure (msgSender = s.governance ∨ msgSender = s.admin) "Unauthorized"
  return { s with paused := true }

def unpause (s : State) (msgSender : Account) : Result State := do
  ensure (msgSender = s.governance ∨ msgSender = s.admin) "Unauthorized"
  return { s with paused := false }

def deposit (s : State) (msgSender : Account) (amount : Word) (recipientType : UInt8)
    (recipient : Word) : Result (DepositEvent × State) := do
  s.whenNotPaused
  ensure (0 < amount) "Amount must be positive"
  ensure (amount ≤ s.balanceOf msgSender) "Insufficient balance"
  ensure (recipientType = 0 ∨ recipientType = 1) "Invalid recipient type"
  ensure (recipient ≠ 0) "Invalid recipient"
  let debited ← checkedSub (s.balanceOf msgSender) amount
  let total ← checkedSub s.totalSupply amount
  let next ← checkedAdd s.depositNonce 1
  return ({ sender := msgSender, recipientType, recipient, amount, nonce := s.depositNonce },
    { s.saveBalance msgSender debited with totalSupply := total, depositNonce := next })

/-- The message is marked before the signatures are checked. -/
def withdraw (h : Chain) (contract : Account) (s : State) (m : Message)
    (signatures : List (List (BitVec 8))) : Result State := do
  s.whenNotPaused
  ensure (m.destinationChain = 2) "Invalid destination chain"
  ensure (0 < m.amount) "Amount must be positive"
  ensure (m.recipient ≠ 0) "Invalid recipient"
  let hash := msgHash h contract m
  ensure (s.processedMessages hash = false) "Message already processed"
  let s := { s with processedMessages := update s.processedMessages hash true }
  ensure (s.threshold.toNat ≤ signatures.length) "Insufficient signatures"
  let validSigs ← verifySignatures h s (ethSignedMsgHash h hash) 0 signatures 0
  ensure (s.threshold.toNat ≤ validSigs) "Threshold not met"
  let credited ← checkedAdd (s.balanceOf m.recipient) m.amount
  let total ← checkedAdd s.totalSupply m.amount
  return { s.saveBalance m.recipient credited with totalSupply := total }

end State

/-- The external functions with their arguments. -/
inductive Call
  | transfer (recipient : Account) (amount : Word)
  | approve (spender : Account) (amount : Word)
  | transferFrom (holder recipient : Account) (amount : Word)
  | pause
  | unpause
  | deposit (amount : Word) (recipientType : UInt8) (recipient : Word)
  | withdraw (m : Message) (signatures : List (List (BitVec 8)))

def execute (h : Chain) (contract msgSender : Account) (s : State) : Call → Result State
  | .transfer recipient amount => s.transfer msgSender recipient amount
  | .approve spender amount => s.approve msgSender spender amount
  | .transferFrom holder recipient amount => s.transferFrom msgSender holder recipient amount
  | .pause => s.pause msgSender
  | .unpause => s.unpause msgSender
  | .deposit amount recipientType recipient => do
      let (_, s) ← s.deposit msgSender amount recipientType recipient
      return s
  | .withdraw m signatures => s.withdraw h contract m signatures

/-- A contract deployed at `contract`, from its constructor on. -/
def machine (h : Chain) (contract : Account) : Machine State (Account × Call) Revert where
  init s := ∃ (name symbol : String) (admin governance : Account) (relayers : List Account)
    (threshold : Word), deploy name symbol admin governance relayers threshold = .ok s
  step := fun (msgSender, c) s => execute h contract msgSender s c

end WaterCredits.Evm
