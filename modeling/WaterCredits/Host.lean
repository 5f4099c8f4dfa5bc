import WaterCredits.Foundation.I128
import WaterCredits.Foundation.Result
import Mathlib.Logic.Function.Basic

/-! # The contract host

Addresses, fixed-length byte strings, aborts and the environment that a
contract call reads. Storage writes of an aborted call are rolled back, so a
call returns its new storage or the abort. Entry lifetimes and published
events are not part of the model.
-/

namespace WaterCredits

export Foundation (I128)

/-- A byte string of fixed length, read as a big-endian number. -/
abbrev BytesN (n : ℕ) := BitVec (8 * n)

inductive Address
  | account (key : BytesN 32)
  | contract (id : BytesN 32)
  deriving DecidableEq, Repr

theorem account_ne_contract {key id : BytesN 32} : Address.account key ≠ .contract id := by simp

/-- The ways a call aborts. -/
inductive Panic
  | message (text : String)
  | unwrapNone
  | contractError (code : UInt32)
  | missingAuth
  | invokeFailed
  deriving DecidableEq, Repr

abbrev Result := Except Panic

/-- The cast of a smaller integer to the 128-bit type. -/
def ofI64 (x : Int64) : I128 := Foundation.I128.wrap x.toInt

@[inherit_doc ofI64]
def ofU64 (x : UInt64) : I128 := Foundation.I128.wrap x.toNat

@[inherit_doc ofI64]
def ofU32 (x : UInt32) : I128 := Foundation.I128.wrap x.toNat

theorem val_ofI64 (x : Int64) : (ofI64 x).val = x.toInt := by
  have hl := x.le_toInt
  have hu := x.toInt_lt
  exact Foundation.I128.val_wrap ⟨by omega, by omega⟩

theorem val_ofU64 (x : UInt64) : (ofU64 x).val = x.toNat := by
  have := x.toNat_lt
  exact Foundation.I128.val_wrap ⟨by omega, by omega⟩

theorem val_ofU32 (x : UInt32) : (ofU32 x).val = x.toNat := by
  have := x.toNat_lt
  exact Foundation.I128.val_wrap ⟨by omega, by omega⟩

/-- Abort with a message unless the condition holds. -/
def ensure (c : Prop) [Decidable c] (text : String) : Result Unit :=
  Foundation.require c (.message text)

/-- The value of a checked operation that must not overflow. -/
def orOverflow {α : Type} (o : Option α) : Result α := Foundation.expect o (.message "overflow")

/-- The value of an option, or an abort with a message. -/
def orPanic {α : Type} (o : Option α) (text : String) : Result α :=
  Foundation.expect o (.message text)

/-- Read an entry that must be present. -/
def unwrap {α : Type} (o : Option α) : Result α := Foundation.expect o .unwrapNone

@[simp] theorem ensure_eq_ok {c : Prop} [Decidable c] {text : String} {u : Unit} :
    ensure c text = .ok u ↔ c := Foundation.require_eq_ok

@[simp] theorem orOverflow_eq_ok {α : Type} {o : Option α} {a : α} :
    orOverflow o = .ok a ↔ o = some a := Foundation.expect_eq_ok

@[simp] theorem orPanic_eq_ok {α : Type} {o : Option α} {text : String} {a : α} :
    orPanic o text = .ok a ↔ o = some a := Foundation.expect_eq_ok

section Errors

variable {c : Prop} [Decidable c] {text : String} {p : Panic} {α : Type} {o : Option α}

@[simp] theorem ensure_eq_error : ensure c text = .error p ↔ ¬ c ∧ .message text = p :=
  Foundation.require_eq_error

@[simp] theorem orOverflow_eq_error :
    orOverflow o = .error p ↔ o = none ∧ .message "overflow" = p :=
  Foundation.expect_eq_error

variable {bad : Panic → Prop}

@[simp] theorem avoids_ensure :
    Foundation.Avoids bad (ensure c text) ↔ ¬ c → ¬ bad (.message text) := Foundation.avoids_require

@[simp] theorem avoids_orPanic :
    Foundation.Avoids bad (orPanic o text) ↔ o = none → ¬ bad (.message text) :=
  Foundation.avoids_expect

end Errors

/--
The ledger and the authorisations that a call on `contract` sees. The
host admits no re-entry, so a contract never authorises a call on itself.
-/
structure Env (contract : Address) where
  timestamp : UInt64
  sequence : UInt32
  auth : Address → Bool
  auth_self : auth contract = false

namespace Env

variable {contract : Address}

def requireAuth (e : Env contract) (a : Address) : Result Unit :=
  Foundation.require (e.auth a = true) .missingAuth

@[simp] theorem requireAuth_eq_ok {e : Env contract} {a : Address} {u : Unit} :
    e.requireAuth a = .ok u ↔ e.auth a = true := Foundation.require_eq_ok

@[simp] theorem requireAuth_eq_error {e : Env contract} {a : Address} {p : Panic} :
    e.requireAuth a = .error p ↔ ¬ e.auth a = true ∧ .missingAuth = p := Foundation.require_eq_error

@[simp] theorem avoids_requireAuth {e : Env contract} {a : Address} {bad : Panic → Prop} :
    Foundation.Avoids bad (e.requireAuth a) ↔ ¬ e.auth a = true → ¬ bad .missingAuth :=
  Foundation.avoids_require

theorem ne_self {e : Env contract} {a : Address} (h : e.auth a = true) : a ≠ contract := by
  rintro rfl
  exact absurd h (by simp [e.auth_self])

/-- The environment of a call that `contract` makes on another contract, which it authorises. -/
def invoke (e : Env contract) (callee : Address) : Env callee where
  timestamp := e.timestamp
  sequence := e.sequence
  auth a := decide (a ≠ callee) && (decide (a = contract) || e.auth a)
  auth_self := by simp

/-- The environment of a call that exactly one address authorises. -/
def signed (timestamp : UInt64) (sequence : UInt32) (signer : Address) (h : signer ≠ contract) :
    Env contract where
  timestamp := timestamp
  sequence := sequence
  auth a := decide (a = signer)
  auth_self := by simpa using fun he : contract = signer => h he.symm

end Env

end WaterCredits
