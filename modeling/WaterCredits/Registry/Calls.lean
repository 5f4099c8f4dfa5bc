import WaterCredits.Registry.State

/-! # The public calls of the retirement registry

The counters of the records are advanced with plain `+`, which wraps, while the
total of the retired credits is checked.
-/

namespace WaterCredits.Registry

open Foundation Function

variable {contract : Address}

/-- Fails once an admin is stored. -/
def initialise (stored : Option State) (admin : Address) : Result State := do
  ensure (stored.isNone) "already initialized"
  return { admin }

theorem initialise_eq_ok {stored : Option State} {admin : Address} {s : State} :
    initialise stored admin = .ok s ↔ stored = none ∧ s = { admin } := by
  simp [initialise, @eq_comm _ s]

namespace State

/-- Open to the admin and to the authorised callers, which are the tokens. -/
def recordRetirement (e : Env contract) (s : State) (caller retiree : Address)
    (projectId : BytesN 32) (amount : I128) (purpose metadataUri : String) :
    Result (UInt64 × State) := do
  e.requireAuth caller
  ensure (caller = s.admin ∨ s.authorizedCaller caller = true) "unauthorized"
  ensure (0 < amount) "amount must be positive"
  let newTotal ← orPanic (s.totalRetired.checkedAdd amount) "total_retired overflow"
  let recordId := s.recordCount + 1
  let record : RetirementRecord := {
    id := recordId
    creditToken := caller
    timestamp := e.timestamp
    retiree, projectId, amount, purpose, metadataUri }
  let retireePos := s.retireeCount retiree
  let projectPos := s.projectCount projectId
  return (recordId, { s with
    record := update s.record recordId (some record)
    retireeIndex := update s.retireeIndex (retiree, retireePos) (some recordId)
    retireeCount := update s.retireeCount retiree (retireePos + 1)
    projectIndex := update s.projectIndex (projectId, projectPos) (some recordId)
    projectCount := update s.projectCount projectId (projectPos + 1)
    totalRetired := newTotal
    recordCount := recordId })

def setAuthorizedCaller (e : Env contract) (s : State) (admin caller : Address)
    (authorized : Bool) : Result State := do
  e.requireAuth admin
  ensure (admin = s.admin) "unauthorized"
  return { s with authorizedCaller := update s.authorizedCaller caller authorized }

end State

/-- The state-changing entry points with their arguments. -/
inductive Call
  | initialise (admin : Address)
  | recordRetirement (caller retiree : Address) (projectId : BytesN 32) (amount : I128)
      (purpose metadataUri : String)
  | setAuthorizedCaller (admin caller : Address) (authorized : Bool)

def execute (e : Env contract) (s : State) : Call → Result State
  | .initialise admin => Registry.initialise (some s) admin
  | .recordRetirement caller retiree projectId amount purpose metadataUri => do
      let (_, s) ← s.recordRetirement e caller retiree projectId amount purpose metadataUri
      return s
  | .setAuthorizedCaller admin caller authorized => s.setAuthorizedCaller e admin caller authorized

theorem recordRetirement_cases {e : Env contract} {s s' : State} {caller retiree : Address}
    {projectId : BytesN 32} {amount : I128} {purpose metadataUri : String} {recordId : UInt64}
    (h : s.recordRetirement e caller retiree projectId amount purpose metadataUri =
      .ok (recordId, s')) :
    0 < amount.val ∧ recordId = s.recordCount + 1 ∧ s'.recordCount = recordId ∧
      s'.totalRetired.val = s.totalRetired.val + amount.val ∧
      s'.record = update s.record recordId (some {
        id := recordId
        creditToken := caller
        timestamp := e.timestamp
        retiree, projectId, amount, purpose, metadataUri }) := by
  simp only [State.recordRetirement, bind_eq_ok, Env.requireAuth_eq_ok, ensure_eq_ok, orPanic_eq_ok,
    I128.checkedAdd_eq_some, pure_eq_ok, Prod.mk.injEq] at h
  obtain ⟨_, -, _, -, _, h0, newTotal, htotal, rfl, rfl⟩ := h
  exact ⟨h0, rfl, rfl, htotal, rfl⟩

theorem recordRetirement_ok {contract caller retiree : Address} {e : Env contract} {r : State}
    {projectId : BytesN 32} {amount : I128} {purpose metadataUri : String}
    (he : e.auth caller = true) (hc : r.authorizedCaller caller = true) (h0 : 0 < amount)
    (hfits : I128.Fits (r.totalRetired.val + amount.val)) :
    ∃ recordId r', r.recordRetirement e caller retiree projectId amount purpose metadataUri =
      .ok (recordId, r') ∧ r'.authorizedCaller = r.authorizedCaller := by
  simp only [State.recordRetirement, bind_eq_ok, Env.requireAuth_eq_ok, ensure_eq_ok, orPanic_eq_ok,
    I128.checkedAdd_eq_some, pure_eq_ok, Prod.mk.injEq]
  exact ⟨_, _, ⟨(), he, (), .inr hc, (), h0, r.totalRetired + amount, I128.val_add hfits, rfl, rfl⟩,
    rfl⟩

end WaterCredits.Registry
