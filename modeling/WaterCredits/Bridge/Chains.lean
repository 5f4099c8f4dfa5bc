import WaterCredits.Foundation.Channel
import WaterCredits.Token.Calls
import WaterCredits.Bridge.Calls
import WaterCredits.Evm.Calls

/-! # The two chains together

A token and its bridge on one chain, the bridged token on the other one, and
between them the deposits that the relayers carry over. Users call all three
contracts in any order.
-/

namespace WaterCredits.Bridge

open Foundation

variable {W : Type}

/-- The host functions that the bridge calls. -/
structure Host where
  toXdr : InboundTransfer → List (BitVec 8)
  sha256 : List (BitVec 8) → BytesN 32
  ed25519Verify : (publicKey : BytesN 32) → (message : List (BitVec 8)) →
    (signature : BytesN 64) → Bool

/-- A call on the token at `home`, which is the only token there is. -/
def onToken (home : Address) (R : Token.Registry W) (c : Token.Call) (token : Address)
    (e : Env token) (t : Token.State × W) : Result (Token.State × W) :=
  if token = home then Token.step R (e, c) t else throw .invokeFailed

/-- The outside world of a bridge that consists of the token at `home`. -/
def Host.linked (h : Host) (home : Address) (R : Token.Registry W) : Outside (Token.State × W) where
  transfer token e sender recipient amount :=
    onToken home R (.transfer sender recipient amount) token e
  burn token e caller holder amount := onToken home R (.burn caller holder amount) token e
  mintTo token e minter recipient amount :=
    onToken home R (.mintTo minter recipient amount) token e
  toXdr := h.toXdr
  sha256 := h.sha256
  ed25519Verify publicKey message signature :=
    Foundation.require (h.ed25519Verify publicKey message signature = true) .invokeFailed

/-- The messages that relayers sign for deposits, which keep the amounts. -/
structure Relay where
  toEvm : DepositEvent → Evm.Message
  toStellar : Evm.DepositEvent → InboundTransfer
  toEvm_amount : ∀ ev, 0 < ev.amount.val → ((toEvm ev).amount.toNat : ℤ) = ev.amount.val
  toStellar_amount : ∀ ev, ev.amount.toNat < 2 ^ 127 → (toStellar ev).amount.val = ev.amount.toNat

/-- The addresses of the three contracts, and what they call outside of them. -/
structure Deployment (W : Type) where
  token : Address
  bridge : Address
  erc20 : Evm.Account
  registry : Token.Registry W
  host : Host
  chain : Evm.Chain

/-- The storage of the three contracts, and the deposits of both chains. -/
structure Chains (W : Type) where
  token : Token.State × W
  bridge : State
  erc20 : Evm.State
  toEvm : Channel DepositEvent Evm.Message := {}
  toStellar : Channel Evm.DepositEvent InboundTransfer := {}

namespace Deployment

/-- A call on one of the three contracts. -/
inductive Action (d : Deployment W)
  | token (e : Env d.token) (c : Token.Call)
  | bridge (e : Env d.bridge) (c : Call)
  | erc20 (msgSender : Evm.Account) (c : Evm.Call)

/-- The ways a call fails. -/
inductive Failure
  | panic (p : Panic)
  | revert (r : Evm.Revert)

variable (d : Deployment W)

/-- What the bridge calls. -/
abbrev outside : Outside (Token.State × W) := d.host.linked d.token d.registry

/-- A deposit is sent, and a message that is withdrawn is received. -/
def bridgeStep (e : Env d.bridge) (s : Chains W) : Call → Result (Chains W)
  | .deposit sender amount evmRecipient => do
    let (ev, bridge, token) ← s.bridge.deposit d.outside e sender amount evmRecipient s.token
    return { s with bridge, token, toEvm := s.toEvm.send ev }
  | .withdraw transfer signers signatures => do
    let (bridge, token) ← s.bridge.withdraw d.outside e transfer signers signatures s.token
    return { s with bridge, token, toStellar := s.toStellar.receive transfer }
  | c => do
    let (bridge, token) ← execute d.outside e s.bridge s.token c
    return { s with bridge, token }

@[inherit_doc bridgeStep]
def erc20Step (msgSender : Evm.Account) (s : Chains W) : Evm.Call → Evm.Result (Chains W)
  | .deposit amount recipientType recipient => do
    let (ev, erc20) ← s.erc20.deposit msgSender amount recipientType recipient
    return { s with erc20, toStellar := s.toStellar.send ev }
  | .withdraw m signatures => do
    let erc20 ← s.erc20.withdraw d.chain d.erc20 m signatures
    return { s with erc20, toEvm := s.toEvm.receive m }
  | c => do
    let erc20 ← Evm.execute d.chain d.erc20 msgSender s.erc20 c
    return { s with erc20 }

def step : d.Action → Chains W → Except Failure (Chains W)
  | .token e c, s => Except.mapError .panic do
    let token ← Token.step d.registry (e, c) s.token
    return { s with token }
  | .bridge e c, s => (d.bridgeStep e s c).mapError .panic
  | .erc20 msgSender c, s => (d.erc20Step msgSender s c).mapError .revert

/-- Fresh contracts, after the token has been told its bridge. -/
def machine : Machine (Chains W) d.Action Failure where
  init s :=
    (∃ t, (Token.machine d.token d.registry).init t ∧ s.token.2 = t.2 ∧
      ∃ (e : Env d.token) (admin : Address), t.1.setBridge e admin d.bridge = .ok s.token.1) ∧
    (Bridge.machine d.bridge d.outside).init (s.bridge, s.token) ∧ s.bridge.token = d.token ∧
    (Evm.machine d.chain d.erc20).init s.erc20 ∧ s.toEvm = {} ∧ s.toStellar = {}
  step := d.step

/--
The token and the bridge keep each other's address, only the bridge acts as the
bridge, and messages are withdrawn only for deposits of the other chain.
-/
def genuine (r : Relay) : Guard (Chains W) d.Action := fun _ s l =>
  match l with
  | .token e (.setBridge _ bridge) => e.auth d.bridge = false ∧ bridge = d.bridge
  | .token e _ => e.auth d.bridge = false
  | .bridge _ (.setToken _ newToken) => newToken = d.token
  | .bridge _ (.withdraw transfer _ _) => transfer ∈ s.toStellar.sent.map r.toStellar
  | .erc20 _ (.withdraw m _) => m ∈ s.toEvm.sent.map r.toEvm
  | _ => True

end Deployment

end WaterCredits.Bridge
