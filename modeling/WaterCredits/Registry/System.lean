import WaterCredits.Foundation.Machine
import WaterCredits.Registry.Calls
import WaterCredits.Token.Calls

/-! # Tokens that share a registry

Any number of tokens and one registry, deployed at its own address, are called in
any order. A token that retires credits calls the registry in its own name.
-/

namespace WaterCredits.Registry

open Foundation Function

variable {registry : Address}

/-- The storage of all contracts. -/
structure System where
  token : Address → Option Token.State := fun _ => none
  registry : State

/-- The registry as a token's call sees it, at the time of that call. -/
def seenBy {token : Address} (registry : Address) (e : Env token) : Token.Registry State where
  recordRetirement callee creditToken retiree projectId amount purpose metadataUri s :=
    if callee = registry then
      s.recordRetirement (e.invoke registry) creditToken retiree projectId amount purpose
        metadataUri
    else throw .invokeFailed

inductive Action (registry : Address)
  | deploy (token : Address) (e : Env token) (admin : Address) (name symbol : String)
      (projectId : BytesN 32) (methodology : String)
  | token (token : Address) (e : Env token) (c : Token.Call)
  | registry (e : Env registry) (c : Call)

def step : Action registry → System → Result System
  | .deploy token e admin name symbol projectId methodology, s => do
      let t ← Token.initialise e (s.token token) admin name symbol projectId methodology
      return { s with token := update s.token token (some t) }
  | .token token e c, s => do
      let t ← unwrap (s.token token)
      let (t, r) ← Token.step (seenBy registry e) (e, c) (t, s.registry)
      return { token := update s.token token (some t), registry := r }
  | .registry e c, s => do
      let r ← execute e s.registry c
      return { s with registry := r }

/-- The system from the initialisation of its registry on. -/
def machine (registry : Address) : Machine System (Action registry) Panic where
  init s := s.token = (fun _ => none) ∧ ∃ admin, Registry.initialise none admin = .ok s.registry
  step := step

/-- Retiring tokens have the registry configured, and nobody else records. -/
def tokensRecord : Guard System (Action registry)
  | _, s, .token token _ (.retire ..) =>
      ∀ t, s.token token = some t → t.retirementRegistry = some registry
  | _, _, .registry _ (.recordRetirement ..) => False
  | _, _, _ => True

def Action.retires : Action registry → Bool
  | .token _ _ (.retire ..) => true
  | _ => false

def retirements (tr : Trace System (Action registry)) : ℕ := tr.countP fun st => st.label.retires

end WaterCredits.Registry
