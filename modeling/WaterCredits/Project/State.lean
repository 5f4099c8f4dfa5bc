import WaterCredits.Foundation.Bytes
import WaterCredits.Host

/-! # The storage of the project contracts

What the factory and the project registries share, the status graph and the
identifiers of projects, and the storage of both with one field per key.
-/

namespace WaterCredits.Project

open Foundation

/-- Same-status updates count as transitions. -/
def isValidStatusTransition (currentStatus newStatus : String) : Bool :=
  currentStatus = newStatus ∨
    (currentStatus = "registered" ∧ newStatus = "active") ∨
    (currentStatus = "active" ∧ newStatus = "completed") ∨
    (currentStatus = "active" ∧ newStatus = "suspended") ∨
    (currentStatus = "completed" ∧ newStatus = "active") ∨
    (currentStatus = "suspended" ∧ newStatus = "registered")

def isValidStatus (status : String) : Bool :=
  status = "registered" ∨ status = "active" ∨ status = "completed" ∨ status = "suspended"

def utf8 (text : String) : List (BitVec 8) := text.toUTF8.data.toList.map (·.toBitVec)

/-- The bytes that a project identifier hashes; texts carry their lengths. -/
def preimage (count : UInt64) (name methodology : String) (latitude longitude : Int64)
    (areaHectares : UInt64) : List (BitVec 8) :=
  bytes 8 count.toBitVec ++
    (bytes 4 (UInt32.ofNat name.utf8ByteSize).toBitVec ++ (utf8 name ++
      (bytes 4 (UInt32.ofNat methodology.utf8ByteSize).toBitVec ++ (utf8 methodology ++
        (bytes 8 latitude.toBitVec ++ (bytes 8 longitude.toBitVec ++
          bytes 8 areaHectares.toBitVec))))))

/-- The counter of the registering contract is part of the identifier. -/
def generateProjectId (sha256 : List (BitVec 8) → BytesN 32) (count : UInt64)
    (name methodology : String) (latitude longitude : Int64) (areaHectares : UInt64) :
    Result (BytesN 32) := do
  ensure (name.utf8ByteSize ≤ 128) "name too long"
  ensure (methodology.utf8ByteSize ≤ 128) "methodology too long"
  return sha256 (preimage count name methodology latitude longitude areaHectares)

@[simp] theorem generateProjectId_eq_ok {sha256 : List (BitVec 8) → BytesN 32} {count : UInt64}
    {name methodology : String} {latitude longitude : Int64} {areaHectares : UInt64}
    {id : BytesN 32} :
    generateProjectId sha256 count name methodology latitude longitude areaHectares = .ok id ↔
      name.utf8ByteSize ≤ 128 ∧ methodology.utf8ByteSize ≤ 128 ∧
        sha256 (preimage count name methodology latitude longitude areaHectares) = id := by
  simp [generateProjectId]

theorem preimage_count {count count' : UInt64} {name methodology : String}
    {latitude longitude : Int64} {areaHectares : UInt64} :
    preimage count name methodology latitude longitude areaHectares =
      preimage count' name methodology latitude longitude areaHectares ↔ count = count' := by
  simp only [preimage, bytes_append_inj, and_true]
  exact UInt64.toBitVec_inj

/-- A project as the factory stores it. -/
structure ProjectInfo where
  id : BytesN 32
  name : String
  latitude : Int64
  longitude : Int64
  methodology : String
  owner : Address
  status : String
  creditToken : Address
  registrationDate : UInt64
  areaHectares : UInt64
  deriving DecidableEq

structure ProjectEntry where
  id : BytesN 32
  name : String
  owner : Address
  latitude : Int64
  longitude : Int64
  methodology : String
  areaHectares : UInt64
  status : String
  registeredAt : UInt64
  deriving DecidableEq

namespace Registry

structure State where
  admin : Address
  projectCount : UInt64 := 0
  project : BytesN 32 → Option ProjectEntry := fun _ => none
  projectIdAt : UInt64 → Option (BytesN 32) := fun _ => none
  authorizedCaller : Address → Bool := fun _ => false

def State.Trusts (s : State) (caller : Address) : Prop :=
  caller = s.admin ∨ s.authorizedCaller caller = true

instance (s : State) (caller : Address) : Decidable (s.Trusts caller) :=
  inferInstanceAs (Decidable (_ ∨ _))

end Registry

namespace Factory

structure State where
  admin : Address
  projectCount : UInt64 := 0
  projectRegistry : Option Address := none
  project : BytesN 32 → Option ProjectInfo := fun _ => none

def State.requireAdmin {contract : Address} (e : Env contract) (s : State) (admin : Address) :
    Result Unit := do
  e.requireAuth admin
  ensure (admin = s.admin) "unauthorized"

@[simp] theorem State.requireAdmin_eq_ok {contract : Address} {e : Env contract} {s : State}
    {a : Address} {u : Unit} : s.requireAdmin e a = .ok u ↔ e.auth a = true ∧ a = s.admin := by
  simp [State.requireAdmin]

end Factory

end WaterCredits.Project
