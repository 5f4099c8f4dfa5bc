import WaterCredits.Market.Footprint
import WaterCredits.Oracle.Footprint
import WaterCredits.Registry.System
import WaterCredits.Token.Consent

/-! # The contracts together

The marketplace and the oracle are called in any order with any number of
credit tokens and their registry. What the two contracts ask of a token is a
call on that token, which they make in their own name.
-/

namespace WaterCredits.Protocol

open Foundation Function
open Registry (System seenBy)

variable {registry market oracle token : Address}

def callToken (registry : Address) {token : Address} (e : Env token) (c : Token.Call) (w : System) :
    Result System :=
  Registry.step (Registry.Action.token token e c : Registry.Action registry) w

def tokens (registry : Address) : Market.Tokens System where
  transfer _ e sender recipient amount w :=
    callToken registry e (.transfer sender recipient amount) w
  transferFrom _ e spender sender recipient amount w :=
    callToken registry e (.transferFrom spender sender recipient amount) w

/-- The tokens as the oracle sees them during a call. -/
def outside (registry : Address) (e : Env oracle) (sha256 : List (BitVec 8) → BytesN 32) :
    Oracle.Outside System where
  totalSupply token w := do
    let t ← unwrap (w.token token)
    return (t.totalSupply, w)
  maxSupply token w := do
    let t ← unwrap (w.token token)
    return (t.maxSupply, w)
  mintTo token minter recipient amount w :=
    callToken registry (e.invoke token) (.mintTo minter recipient amount) w
  transfer token sender recipient amount w :=
    callToken registry (e.invoke token) (.transfer sender recipient amount) w
  sha256 := sha256

/-- The storage of all contracts. -/
structure State where
  ledger : System
  market : Market.State
  oracle : Oracle.State

inductive Action (registry market oracle : Address)
  | ledger (a : Registry.Action registry)
  | market (e : Env market) (c : Market.Call)
  | oracle (e : Env oracle) (c : Oracle.Call)

def step (sha256 : List (BitVec 8) → BytesN 32) : Action registry market oracle → State →
    Result State
  | .ledger a, s => do
    let ledger ← Registry.step a s.ledger
    return { s with ledger }
  | .market e c, s => do
    let (m, ledger) ← Market.execute (tokens registry) e s.market s.ledger c
    return { s with ledger, market := m }
  | .oracle e c, s => do
    let (o, ledger) ← Oracle.execute (outside registry e sha256) e s.oracle s.ledger c
    return { s with ledger, oracle := o }

/-- The system from the initialisation of its fixed contracts on. -/
def machine (registry market oracle : Address) (sha256 : List (BitVec 8) → BytesN 32) :
    Machine State (Action registry market oracle) Panic where
  init s := (Registry.machine registry).init s.ledger ∧
    (∃ (admin : Address) (feeBps : UInt32) (feeRecipient : Address),
      Market.initialise none admin feeBps feeRecipient = .ok s.market) ∧
    ∃ admin stakingToken treasury : Address,
      Oracle.initialise none admin stakingToken treasury = .ok s.oracle
  step := step sha256

def Action.auth (a : Address) : Action registry market oracle → Bool
  | .ledger (.deploy _ e _ _ _ _ _) => e.auth a
  | .ledger (.token _ e _) => e.auth a
  | .ledger (.registry e _) => e.auth a
  | .market e _ => e.auth a
  | .oracle e _ => e.auth a

def Action.onToken (token : Address) : Action registry market oracle → Option Token.Call
  | .ledger (.token t _ c) => if t = token then some c else none
  | _ => none

/--
Contracts authorise the calls that they make themselves, and no call of a user:
neither the marketplace nor the oracle signs an action.
-/
def Unsigned (market oracle : Address) (l : Action registry market oracle) : Prop :=
  l.auth market = false ∧ l.auth oracle = false

section Calls

variable {w w' : System} {e : Env token} {c : Token.Call} {Rel : System → System → Prop}

theorem callToken_cases (h : callToken registry e c w = .ok w') :
    ∃ s s', w.token token = some s ∧
      Token.step (seenBy registry e) (e, c) (s, w.registry) = .ok (s', w'.registry) ∧
      w'.token = update w.token token (some s') := by
  simp only [callToken, Registry.step, unwrap, bind_eq_ok, expect_eq_ok, pure_eq_ok] at h
  obtain ⟨s, hs, ⟨s', r⟩, hstep, rfl⟩ := h
  exact ⟨s, s', hs, hstep, rfl⟩

/-- The tokens only read for the supplies, so the oracle respects what its other calls respect. -/
theorem respects_of_calls {e : Env oracle} {sha256 : List (BitVec 8) → BytesN 32}
    {P Q : Address → Prop} (refl : ∀ w, Rel w w)
    (trans : ∀ {w v u}, Rel w v → Rel v u → Rel w u)
    (mintTo : ∀ {t recipient amount w w'}, P t →
      callToken registry (e.invoke t) (.mintTo oracle recipient amount) w = .ok w' → Rel w w')
    (deposit : ∀ {t sender amount w w'}, sender ≠ oracle →
      callToken registry (e.invoke t) (.transfer sender oracle amount) w = .ok w' → Rel w w')
    (payout : ∀ {t recipient amount w w'}, Q recipient →
      callToken registry (e.invoke t) (.transfer oracle recipient amount) w = .ok w' → Rel w w') :
    Oracle.Respects (outside registry e sha256) oracle P Q Rel where
  refl := refl
  trans := trans
  totalSupply {t w x w'} h := by
    simp only [outside, bind_eq_ok, pure_eq_ok, Prod.mk.injEq] at h
    obtain ⟨u, -, -, rfl⟩ := h
    exact refl _
  maxSupply {t w x w'} h := by
    simp only [outside, bind_eq_ok, pure_eq_ok, Prod.mk.injEq] at h
    obtain ⟨u, -, -, rfl⟩ := h
    exact refl _
  mintTo := mintTo
  deposit := deposit
  payout := payout

end Calls

section Sample

/-- The sample deploys the registry, the marketplace and the oracle at these addresses. -/
abbrev archiveAt : Address := .contract 2

@[inherit_doc archiveAt]
abbrev marketAt : Address := .contract 3

@[inherit_doc archiveAt]
abbrev oracleAt : Address := .contract 4

abbrev sampleMachine := machine archiveAt marketAt oracleAt fun _ => 0

def founded : State where
  ledger := { registry := { admin := .account 0 } }
  market := { admin := .account 0, feeBps := 0, feeRecipient := .account 0 }
  oracle := {
    admin := .account 0
    config := { stakingToken := .contract 1, treasury := .account 0 } }

theorem founded_init : sampleMachine.init founded :=
  ⟨⟨rfl, .account 0, by rfl⟩, ⟨.account 0, 0, .account 0, by rfl⟩,
    ⟨.account 0, .contract 1, .account 0, by rfl⟩⟩

/-- The account with this key calls the token at `contract 1`. -/
def onToken (key : BytesN 32) (c : Token.Call) : Action archiveAt marketAt oracleAt :=
  .ledger (.token (.contract 1) (.signed 0 0 (.account key) (by simp)) c)

def onMarket (key : BytesN 32) (c : Market.Call) : Action archiveAt marketAt oracleAt :=
  .market (.signed 0 0 (.account key) (by simp)) c

def onOracle (key : BytesN 32) (c : Oracle.Call) : Action archiveAt marketAt oracleAt :=
  .oracle (.signed 0 0 (.account key) (by simp)) c

def issuing : Action archiveAt marketAt oracleAt :=
  .ledger (.deploy (.contract 1) (.signed 0 0 (.account 0) (by simp)) (.account 0)
    "Water Credit" "WCR" 7 "VCS")

end Sample

end WaterCredits.Protocol
