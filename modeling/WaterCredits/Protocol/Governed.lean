import WaterCredits.Governance.Footprint
import WaterCredits.Governance.Provenance
import WaterCredits.Protocol.Emergency
import WaterCredits.Protocol.Offices

/-! # The protocol under governance

Governance executes calls on the tokens, the registry, the marketplace and the
oracle in its own name. When it holds their offices, nobody else can administer
them: the first change of the administration is the effect of a proposal that
the members have approved, or of the emergency switch of governance itself.
-/

namespace WaterCredits.Protocol

open Foundation Function
open Governance (Val)

variable {registry market oracle gov caller target : Address} {S S' S₀ : State}
  {sha256 : List (BitVec 8) → BytesN 32} {function : String} {args : List Val}

/-- The ledger that the calls of governance see, with the deployed contracts. -/
structure World where
  timestamp : UInt64
  sequence : UInt32
  contracts : State

/-- The authorisation that one contract gives to the call that it makes on another. -/
def World.env (w : World) (caller callee : Address) : Option (Env callee) :=
  if h : caller = callee then none else some (.signed w.timestamp w.sequence caller h)

/-- How the host finds the entry point of each contract, and the value that a call returns. -/
structure Interface where
  token : String → List Val → Option Token.Call
  registry : String → List Val → Option Registry.Call
  market : String → List Val → Option Market.Call
  oracle : String → List Val → Option Oracle.Call
  value : Address → String → List Val → State → Val

/-- The action that a call by name stands for, if one of the contracts has the entry point. -/
def Interface.action (i : Interface) (w : World) (caller target : Address) (function : String)
    (args : List Val) : Option (Action registry market oracle) :=
  if target = registry then do
    let e ← w.env caller registry
    let c ← i.registry function args
    return .ledger (.registry e c)
  else if target = market then do
    let e ← w.env caller market
    let c ← i.market function args
    return .market e c
  else if target = oracle then do
    let e ← w.env caller oracle
    let c ← i.oracle function args
    return .oracle e c
  else if (w.contracts.ledger.token target).isSome = true then do
    let e ← w.env caller target
    let c ← i.token function args
    return .ledger (.token target e c)
  else none

/-- The contracts as governance calls them, up to their queries and the contracts of others. -/
def callable (registry market oracle : Address) (sha256 : List (BitVec 8) → BytesN 32)
    (i : Interface) (rest : Governance.Contracts World) : Governance.Contracts World where
  invoke caller target function args w :=
    match (i.action w caller target function args : Option (Action registry market oracle)) with
    | some l => do
      let contracts ← step sha256 l w.contracts
      return (i.value target function args w.contracts, { w with contracts })
    | none => rest.invoke caller target function args w

/-- The contracts sign no action of others. -/
def ByOthers (gov oracle : Address) (l : Action registry market oracle) : Prop :=
  l.auth gov = false ∧ l.auth oracle = false

/-- Others act on the contracts, in their own names. -/
def Aside (registry market oracle gov : Address) (sha256 : List (BitVec 8) → BytesN 32)
    (S S' : State) : Prop :=
  ((machine registry market oracle sha256).startedIn S).Reach (fun _ _ => ByOthers gov oracle) S'

/-- The queries are no actions, and what else governance calls acts in its own name. -/
structure Interface.Sound (i : Interface) (registry market oracle gov : Address)
    (sha256 : List (BitVec 8) → BytesN 32) (rest : Governance.Contracts World) : Prop where
  balance : ∀ w t a, (i.action w gov t "balance" [.address a] :
    Option (Action registry market oracle)) = none
  supply : ∀ w t, (i.action w gov t "total_supply" [] :
    Option (Action registry market oracle)) = none
  rest : ∀ t f as w val w', rest.invoke gov t f as w = .ok (val, w') →
    Aside registry market oracle gov sha256 w.contracts w'.contracts

/-- Governance holds the offices; the oracle may be the minter of the tokens. -/
def Governs (gov oracle : Address) (S : State) : Prop := ∀ a, Officer S a → a = gov ∨ a = oracle

theorem Aside.refl : Aside registry market oracle gov sha256 S S := ⟨_, .init rfl⟩

theorem Aside.trans {S'' : State} (h : Aside registry market oracle gov sha256 S S')
    (h' : Aside registry market oracle gov sha256 S' S'') :
    Aside registry market oracle gov sha256 S S'' := by
  obtain ⟨tr, hr⟩ := h
  obtain ⟨tr', hr'⟩ := h'
  exact ⟨tr' ++ tr, hr.append hr'⟩

/-- What others do is done without the officers. -/
theorem Aside.unofficial (hg : Governs gov oracle S₀)
    (h : Aside registry market oracle gov sha256 S S') :
    ((machine registry market oracle sha256).startedIn S).Reach (unofficial S₀) S' := by
  obtain ⟨tr, hr⟩ := h
  refine ⟨tr, hr.mono fun _ _ l hl a ha => ?_⟩
  rcases hg a ha with rfl | rfl
  · exact hl.1
  · exact hl.2

section Decisions

variable (registry market oracle gov) (i : Interface)

/-- The call stands for an action on the contracts in some state of theirs. -/
def Interface.Acts (target : Address) (function : String) (args : List Val) : Prop :=
  ∃ w, (i.action w gov target function args : Option (Action registry market oracle)).isSome = true

/-- The action of a proposal sweeps the contracts or calls one of them. -/
def Interface.Orders (action : Governance.GovernanceAction) : Prop :=
  action.protocolAction ≠ .none ∨
    i.Acts registry market oracle gov action.target action.function action.args

/-- The step is a decision of governance, given the run before it. -/
inductive Decides (C : Governance.Contracts World)
    (tr : Trace (Governance.State × World) (Governance.Event gov World))
    (st : Step (Governance.State × World) (Governance.Event gov World)) : Prop
  | proposal {e : Env gov} {caller : Address} {id : UInt64} {p : Governance.Proposal}
      {action : Governance.GovernanceAction} : st.label = .call e (.execute caller id) →
      Governance.Enacts C tr st e caller id p → action ∈ p.actions →
      i.Orders registry market oracle gov action → Decides C tr st
  | emergency {e : Env gov} (paused : Bool) {admin : Address} :
      st.label = .call e (emergency paused admin) → e.auth admin = true →
      admin = st.before.1.admin → Decides C tr st

end Decisions

variable {i : Interface} {rest : Governance.Contracts World}
  {tr pre post : Trace (Governance.State × World) (Governance.Event gov World)}
  {st : Step (Governance.State × World) (Governance.Event gov World)}
  {sw : Governance.State × World}

/-- The contracts have run on without the officers of an earlier state. -/
def Undisturbed (registry market oracle : Address) (sha256 : List (BitVec 8) → BytesN 32)
    (S₀ S : State) : Prop :=
  ∃ tr, ((machine registry market oracle sha256).startedIn S₀).Run (unofficial S₀) tr S ∧
    Administered S₀ tr S

theorem Undisturbed.start : Undisturbed registry market oracle sha256 S₀ S₀ :=
  ⟨[], .init rfl, .start⟩

section Sample

abbrev governorAt : Address := .contract 5

/-- Governance can set the cap of a token, and no other contract is there. -/
def capping : Interface where
  token function args :=
    match args with
    | [.address a, .i128 n] =>
      if function = "set_max_supply" then some (.setMaxSupply a n) else none
    | _ => none
  registry _ _ := none
  market _ _ := none
  oracle _ _ := none
  value _ _ _ _ := .void

@[inherit_doc capping]
def nobody : Governance.Contracts World := ⟨fun _ _ _ _ _ => .error .invokeFailed⟩

def entrusted : State where
  ledger := { registry := { admin := governorAt } }
  market := { admin := governorAt, feeBps := 0, feeRecipient := .account 0 }
  oracle := {
    admin := governorAt
    config := { stakingToken := .contract 1, treasury := .account 0 } }

def endowing : Action archiveAt marketAt oracleAt :=
  .ledger (.deploy (.contract 1) (.signed 0 0 (.account 0) account_ne_contract) governorAt
    "Water Credit" "WCR" 7 "VCS")

def endowed : State := sampleMachine.call entrusted endowing

def onGovernor (timestamp : UInt64) (key : BytesN 32) (c : Governance.Call) :
    Governance.Event governorAt World :=
  .call (.signed timestamp 0 (.account key) account_ne_contract) c

/-- Others have left the contracts in this state. -/
def meanwhile (timestamp : UInt64) (S : State) : Governance.Event governorAt World :=
  .outside ⟨timestamp, 0, S⟩

/-- The cap of the token is to be five hundred units. -/
def capProposal : Governance.Call :=
  .propose (.account 1) "cap" "" [⟨.contract 1, "set_max_supply",
    [.address governorAt, .i128 500], .none⟩] false

abbrev governedMachine :=
  Governance.machine governorAt (callable archiveAt marketAt oracleAt (fun _ => 0) capping nobody)

/-- Two members have voted for the cap, and a day has passed. -/
def capApproved : Governance.State × World :=
  governedMachine.calls (Governance.founded.1, ⟨0, 0, entrusted⟩)
    [meanwhile 0 endowed, onGovernor 0 1 capProposal,
      onGovernor 0 1 (.vote (.account 1) 1 true), onGovernor 0 2 (.vote (.account 2) 1 true),
      meanwhile 86400 endowed]

def capped : Governance.State × World :=
  governedMachine.call capApproved (onGovernor 86400 3 (.execute (.account 3) 1))

end Sample

end WaterCredits.Protocol
