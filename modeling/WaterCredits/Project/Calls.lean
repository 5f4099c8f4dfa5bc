import WaterCredits.Foundation.Machine
import WaterCredits.Project.State

/-! # The calls of the factory and of the project registries

One factory deploys a token for every project and, while a registry is
configured, repeats each registration and update there in its own name. The
tokens, and the hash of the host, are a parameter.
-/

namespace WaterCredits.Project

open Foundation Function

namespace Registry

variable {contract : Address}

/-- Fails once an admin is stored. -/
def initialise (stored : Option State) (admin : Address) : Result State := do
  ensure (stored.isNone) "already initialized"
  return { admin }

theorem initialise_eq_ok {stored : Option State} {admin : Address} {s : State} :
    initialise stored admin = .ok s ↔ stored = none ∧ s = { admin } := by
  simp [initialise, @eq_comm _ s]

namespace State

/-- Does not look for an entry that is already there under the identifier. -/
def register (sha256 : List (BitVec 8) → BytesN 32) (e : Env contract) (s : State)
    (caller : Address) (name : String) (latitude longitude : Int64) (methodology : String)
    (owner : Address) (areaHectares : UInt64) : Result (BytesN 32 × State) := do
  e.requireAuth caller
  ensure (s.Trusts caller) "unauthorized"
  ensure (name.utf8ByteSize ≠ 0) "name must not be empty"
  ensure (name.utf8ByteSize ≤ 128) "name too long"
  ensure (methodology.utf8ByteSize ≤ 128) "methodology too long"
  ensure (areaHectares ≠ 0) "area must be positive"
  let id ← generateProjectId sha256 s.projectCount name methodology latitude longitude areaHectares
  let entry : ProjectEntry := {
    id, name, owner, latitude, longitude, methodology, areaHectares
    status := "registered"
    registeredAt := e.timestamp }
  return (id, { s with
    project := update s.project id (some entry)
    projectIdAt := update s.projectIdAt s.projectCount (some id)
    projectCount := s.projectCount + 1 })

def updateStatus (e : Env contract) (s : State) (caller : Address) (projectId : BytesN 32)
    (status : String) : Result State := do
  e.requireAuth caller
  ensure (s.Trusts caller) "unauthorized"
  ensure (isValidStatus status = true) "invalid status"
  let project ← orPanic (s.project projectId) "project not found"
  if project.status = status then return s
  else do
    ensure (isValidStatusTransition project.status status = true) "invalid status transition"
    return { s with project := update s.project projectId (some { project with status }) }

def setAuthorizedCaller (e : Env contract) (s : State) (admin caller : Address)
    (authorized : Bool) : Result State := do
  e.requireAuth admin
  ensure (admin = s.admin) "unauthorized"
  return { s with authorizedCaller := update s.authorizedCaller caller authorized }

def updateOwner (e : Env contract) (s : State) (caller : Address) (projectId : BytesN 32)
    (newOwner : Address) : Result State := do
  e.requireAuth caller
  let project ← orPanic (s.project projectId) "project not found"
  ensure (caller = s.admin ∨ caller = project.owner ∨ s.authorizedCaller caller = true)
    "unauthorized"
  return { s with project := update s.project projectId (some { project with owner := newOwner }) }

end State

/-- The state-changing entry points with their arguments. -/
inductive Call
  | initialise (admin : Address)
  | register (caller : Address) (name : String) (latitude longitude : Int64) (methodology : String)
      (owner : Address) (areaHectares : UInt64)
  | updateStatus (caller : Address) (projectId : BytesN 32) (status : String)
  | setAuthorizedCaller (admin caller : Address) (authorized : Bool)
  | updateOwner (caller : Address) (projectId : BytesN 32) (newOwner : Address)

def execute (sha256 : List (BitVec 8) → BytesN 32) (e : Env contract) (s : State) :
    Call → Result State
  | .initialise admin => Registry.initialise (some s) admin
  | .register caller name latitude longitude methodology owner areaHectares =>
      Prod.snd <$> s.register sha256 e caller name latitude longitude methodology owner areaHectares
  | .updateStatus caller projectId status => s.updateStatus e caller projectId status
  | .setAuthorizedCaller admin caller authorized => s.setAuthorizedCaller e admin caller authorized
  | .updateOwner caller projectId newOwner => s.updateOwner e caller projectId newOwner

end Registry

/-- What the factory calls outside the registries: the host and the tokens that it deploys. -/
structure Outside (W : Type) where
  sha256 : List (BitVec 8) → BytesN 32
  deploy : (salt wasmHash : BytesN 32) → W → Result (Address × W)
  initialise : (token : Address) → Env token → (admin : Address) → (name symbol : String) →
    (projectId : BytesN 32) → (methodology : String) → W → Result W
  setMinter : (token : Address) → Env token → (admin minter : Address) → W → Result W

abbrev Registries := Address → Option Registry.State

/-- A call on the registry at an address, which fails where none is deployed. -/
def Registries.invoke {α : Type} (rs : Registries) (registry : Address)
    (call : Registry.State → Result (α × Registry.State)) : Result (α × Registries) := do
  let r ← Foundation.expect (rs registry) .invokeFailed
  let (a, r) ← call r
  return (a, update rs registry (some r))

@[simp] theorem Registries.invoke_eq_ok {α : Type} {rs rs' : Registries} {registry : Address}
    {call : Registry.State → Result (α × Registry.State)} {a : α} :
    rs.invoke registry call = .ok (a, rs') ↔ ∃ r r', rs registry = some r ∧ call r = .ok (a, r') ∧
      update rs registry (some r') = rs' := by
  simp only [invoke, bind_eq_ok, expect_eq_ok, pure_eq_ok, Prod.exists, Prod.mk.injEq]
  constructor
  · rintro ⟨r, hr, b, r', hc, rfl, rfl⟩
    exact ⟨r, r', hr, hc, rfl⟩
  · rintro ⟨r, r', hr, hc, rfl⟩
    exact ⟨r, hr, a, r', hc, rfl, rfl⟩

namespace Factory

variable {contract : Address} {W : Type}

/-- Fails once an admin is stored. -/
def initialise (stored : Option State) (admin : Address) : Result State := do
  ensure (stored.isNone) "already initialized"
  return { admin }

namespace State

def setProjectRegistry (e : Env contract) (s : State) (admin : Address)
    (registry : Option Address) : Result State := do
  s.requireAdmin e admin
  return { s with projectRegistry := registry }

/-- Repeat a call on the configured registry, if there is one. -/
def crossCall {α : Type} (s : State) (rs : Registries)
    (call : (registry : Address) → Registry.State → Result (α × Registry.State)) :
    Result Registries :=
  match s.projectRegistry with
  | some registry => Prod.snd <$> rs.invoke registry (call registry)
  | none => return rs

/-- The identifier that the registry returns is dropped. -/
def registerProject (o : Outside W) (e : Env contract) (s : State) (admin : Address)
    (name : String) (latitude longitude : Int64) (methodology : String) (owner : Address)
    (areaHectares : UInt64) (creditTokenWasmHash : BytesN 32) (minter : Option Address)
    (rs : Registries) (w : W) : Result (BytesN 32 × State × Registries × W) := do
  s.requireAdmin e admin
  ensure (name.utf8ByteSize ≠ 0) "name must not be empty"
  ensure (name.utf8ByteSize ≤ 128) "name too long"
  ensure (methodology.utf8ByteSize ≤ 128) "methodology too long"
  ensure (-90000000 ≤ latitude ∧ latitude ≤ 90000000) "invalid latitude"
  ensure (-180000000 ≤ longitude ∧ longitude ≤ 180000000) "invalid longitude"
  ensure (areaHectares ≠ 0) "area must be positive"
  let projectId ←
    generateProjectId o.sha256 s.projectCount name methodology latitude longitude areaHectares
  ensure ((s.project projectId).isNone) "project id collision"
  let (tokenAddress, w) ← o.deploy projectId creditTokenWasmHash w
  let w ← o.initialise tokenAddress (e.invoke tokenAddress) admin name "WC" projectId methodology w
  let w ← minter.elim (pure w) fun minter =>
    o.setMinter tokenAddress (e.invoke tokenAddress) admin minter w
  let rs ← s.crossCall rs fun registry r =>
    r.register o.sha256 (e.invoke registry) contract name latitude longitude methodology owner
      areaHectares
  let project : ProjectInfo := {
    id := projectId
    name, latitude, longitude, methodology, owner, areaHectares
    status := "registered"
    creditToken := tokenAddress
    registrationDate := e.timestamp }
  return (projectId, { s with
    project := update s.project projectId (some project)
    projectCount := s.projectCount + 1 }, rs, w)

/-- The registry is updated first, with the checks of its own. -/
def updateProjectStatus (e : Env contract) (s : State) (admin : Address) (projectId : BytesN 32)
    (status : String) (rs : Registries) : Result (State × Registries) := do
  s.requireAdmin e admin
  let rs ← s.crossCall rs fun registry r =>
    ((), ·) <$> r.updateStatus (e.invoke registry) contract projectId status
  ensure (isValidStatus status = true) "invalid status"
  let project ← orPanic (s.project projectId) "project not found"
  if project.status = status then return (s, rs)
  else do
    ensure (isValidStatusTransition project.status status = true) "invalid status transition"
    return ({ s with project := update s.project projectId (some { project with status }) }, rs)

def updateProjectOwner (e : Env contract) (s : State) (caller : Address) (projectId : BytesN 32)
    (newOwner : Address) (rs : Registries) : Result (State × Registries) := do
  e.requireAuth caller
  let project ← orPanic (s.project projectId) "project not found"
  ensure (caller = s.admin ∨ caller = project.owner) "unauthorized"
  let rs ← s.crossCall rs fun registry r =>
    ((), ·) <$> r.updateOwner (e.invoke registry) contract projectId newOwner
  return ({ s with
    project := update s.project projectId (some { project with owner := newOwner }) }, rs)

end State

/-- The state-changing entry points with their arguments. -/
inductive Call
  | initialise (admin : Address)
  | setProjectRegistry (admin : Address) (registry : Option Address)
  | registerProject (admin : Address) (name : String) (latitude longitude : Int64)
      (methodology : String) (owner : Address) (areaHectares : UInt64)
      (creditTokenWasmHash : BytesN 32) (minter : Option Address)
  | updateProjectStatus (admin : Address) (projectId : BytesN 32) (status : String)
  | updateProjectOwner (caller : Address) (projectId : BytesN 32) (newOwner : Address)

end Factory

/-- The storage of the factory and of the registries, and the world outside them. -/
structure System (W : Type) where
  factory : Factory.State
  registries : Registries := fun _ => none
  world : W

/-- A call on one of the contracts, a deployment of a registry, or a change of the outside world. -/
inductive Action (factory : Address) (W : Type)
  | factory (e : Env factory) (c : Factory.Call)
  | deploy (registry : Address) (admin : Address)
  | registry (registry : Address) (e : Env registry) (c : Registry.Call)
  | outside (w : W)

namespace System

variable {factory : Address} {W : Type}

def execute (o : Outside W) (e : Env factory) (s : System W) : Factory.Call → Result (System W)
  | .initialise admin => do
      let f ← Factory.initialise (some s.factory) admin
      return { s with factory := f }
  | .setProjectRegistry admin registry => do
      let f ← s.factory.setProjectRegistry e admin registry
      return { s with factory := f }
  | .registerProject admin name latitude longitude methodology owner areaHectares
      creditTokenWasmHash minter => do
      let (_, f, rs, w) ← s.factory.registerProject o e admin name latitude longitude methodology
        owner areaHectares creditTokenWasmHash minter s.registries s.world
      return { factory := f, registries := rs, world := w }
  | .updateProjectStatus admin projectId status => do
      let (f, rs) ← s.factory.updateProjectStatus e admin projectId status s.registries
      return { s with factory := f, registries := rs }
  | .updateProjectOwner caller projectId newOwner => do
      let (f, rs) ← s.factory.updateProjectOwner e caller projectId newOwner s.registries
      return { s with factory := f, registries := rs }

def step (o : Outside W) : Action factory W → System W → Result (System W)
  | .factory e c, s => s.execute o e c
  | .deploy registry admin, s => do
      let r ← Registry.initialise (s.registries registry) admin
      return { s with registries := update s.registries registry (some r) }
  | .registry registry e c, s => do
      let r ← unwrap (s.registries registry)
      let r ← Registry.execute o.sha256 e r c
      return { s with registries := update s.registries registry (some r) }
  | .outside w, s => return { s with world := w }

/-- The contracts from the initialisation of the factory on, before any registry is deployed. -/
def machine (factory : Address) (o : Outside W) : Machine (System W) (Action factory W) Panic where
  init s := s.registries = (fun _ => none) ∧ ∃ admin, Factory.initialise none admin = .ok s.factory
  step := step o

end System

end WaterCredits.Project
