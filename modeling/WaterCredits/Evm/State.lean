import WaterCredits.Foundation.Bytes
import WaterCredits.Foundation.Result
import Mathlib.Logic.Function.Basic

/-! # The storage of the bridged token

The token on the other chain has one field per storage variable. Words have 256
bits, and sums and differences of words revert outside their range.
-/

namespace WaterCredits.Evm

open Foundation

abbrev Word := BitVec (8 * 32)

abbrev Account := BitVec (8 * 20)

/-- The ways a call reverts. -/
inductive Revert
  | reason (text : String)
  | arithmetic
  deriving DecidableEq, Repr

abbrev Result := Except Revert

def ensure (c : Prop) [Decidable c] (text : String) : Result Unit :=
  Foundation.require c (.reason text)

@[simp] theorem ensure_eq_ok {c : Prop} [Decidable c] {text : String} {u : Unit} :
    ensure c text = .ok u ↔ c := Foundation.require_eq_ok

def word (n : ℤ) : Result Word :=
  if 0 ≤ n ∧ n < 2 ^ 256 then return BitVec.ofInt _ n else throw .arithmetic

theorem word_eq_ok {n : ℤ} {x : Word} : word n = .ok x ↔ (x.toNat : ℤ) = n := by
  unfold word
  constructor
  · intro h
    split at h
    · rename_i hn
      rw [pure_eq_ok] at h
      rw [← h, BitVec.toNat_ofInt]
      have hm : n % ((2 ^ (8 * 32) : ℕ) : ℤ) = n := Int.emod_eq_of_lt hn.1 (by norm_num; exact hn.2)
      rw [hm]
      exact Int.toNat_of_nonneg hn.1
    · cases h
  · rintro rfl
    have hlt : x.toNat < 2 ^ (8 * 32) := x.isLt
    rw [if_pos ⟨by omega, by norm_num at hlt ⊢; exact_mod_cast hlt⟩]
    simp

/-- Checked addition and subtraction of words. -/
def checkedAdd (a b : Word) : Result Word := word (a.toNat + b.toNat)

@[inherit_doc checkedAdd]
def checkedSub (a b : Word) : Result Word := word (a.toNat - b.toNat)

@[simp] theorem checkedAdd_eq_ok {a b c : Word} :
    checkedAdd a b = .ok c ↔ c.toNat = a.toNat + b.toNat := by
  rw [checkedAdd, word_eq_ok]
  omega

@[simp] theorem checkedSub_eq_ok {a b c : Word} :
    checkedSub a b = .ok c ↔ b.toNat ≤ a.toNat ∧ c.toNat = a.toNat - b.toNat := by
  rw [checkedSub, word_eq_ok]
  omega

/-- A deposit on the other chain, as the relayers sign it. -/
structure Message where
  sourceChain : UInt32
  destinationChain : UInt32
  nonce : UInt64
  sender : Word
  recipient : Account
  amount : Word
  deriving DecidableEq

structure DepositEvent where
  sender : Account
  recipientType : UInt8
  recipient : Word
  amount : Word
  nonce : Word
  deriving DecidableEq

structure State where
  name : String
  symbol : String
  totalSupply : Word := 0
  balanceOf : Account → Word := fun _ => 0
  allowance : Account → Account → Word := fun _ _ => 0
  admin : Account
  governance : Account
  paused : Bool := false
  threshold : Word
  isRelayer : Account → Bool := fun _ => false
  relayers : List Account := []
  processedMessages : Word → Bool := fun _ => false
  depositNonce : Word := 0

namespace State

def saveBalance (s : State) (a : Account) (amount : Word) : State :=
  { s with balanceOf := Function.update s.balanceOf a amount }

def whenNotPaused (s : State) : Result Unit := ensure (s.paused = false) "Paused"

@[simp] theorem whenNotPaused_eq_ok {s : State} {u : Unit} :
    s.whenNotPaused = .ok u ↔ s.paused = false := by simp [whenNotPaused]

end State

end WaterCredits.Evm
