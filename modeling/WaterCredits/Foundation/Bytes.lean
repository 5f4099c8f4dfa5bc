import Mathlib.Data.List.Basic
import Mathlib.Data.Nat.Digits.Defs
import Mathlib.Tactic.Ring

/-! # Big-endian encodings

A word of `n` bytes is written with its most significant byte first. Fields of
fixed widths, and fields that carry their lengths, can be read back from their
concatenation.
-/

namespace Foundation

/-- The bytes of a word, the most significant first. -/
def bytes (n : ℕ) (x : BitVec (8 * n)) : List (BitVec 8) :=
  (List.range n).reverse.map fun i => x.extractLsb' (8 * i) 8

variable {n : ℕ} {x y : BitVec (8 * n)} {l l' r r' : List (BitVec 8)}

@[simp] theorem length_bytes : (bytes n x).length = n := by simp [bytes]

theorem bytes_injective (h : bytes n x = bytes n y) : x = y := by
  apply BitVec.eq_of_getLsbD_eq
  intro i hi
  have hb : x.extractLsb' (8 * (i / 8)) 8 = y.extractLsb' (8 * (i / 8)) 8 := by
    unfold bytes at h
    have hm := List.map_inj_left.mp h
    apply hm
    simp only [List.mem_reverse, List.mem_range]
    omega
  have hg := congrArg (fun b => b.getLsbD (i % 8)) hb
  have hlt : i % 8 < 8 := Nat.mod_lt _ (by decide)
  simp only [BitVec.getLsbD_extractLsb', hlt, decide_true, Bool.true_and] at hg
  rwa [Nat.div_add_mod] at hg

theorem bytes_append_inj :
    bytes n x ++ l = bytes n y ++ l' ↔ x = y ∧ l = l' := by
  constructor
  · intro h
    obtain ⟨hx, hl⟩ := List.append_inj h (by simp)
    exact ⟨bytes_injective hx, hl⟩
  · rintro ⟨rfl, rfl⟩
    rfl

section Values

/-- The number that some bytes write. -/
def value (l : List (BitVec 8)) : ℕ := Nat.ofDigits 256 (l.reverse.map BitVec.toNat)

/-- The word of `n` bytes that some bytes write. -/
def ofBytes (n : ℕ) (l : List (BitVec 8)) : BitVec (8 * n) := .ofNat _ (value l)

theorem value_bytes : value (bytes n x) = x.toNat := by
  have hdigits : ∀ k, Nat.ofDigits 256 ((List.range k).map fun i =>
      (x.extractLsb' (8 * i) 8).toNat) = x.toNat % 256 ^ k := by
    intro k
    induction k with
    | zero => simp [Nat.mod_one]
    | succ k ih =>
      have hbyte : (x.extractLsb' (8 * k) 8).toNat = x.toNat / 256 ^ k % 256 := by
        rw [BitVec.extractLsb'_toNat, Nat.shiftRight_eq_div_pow, pow_mul]
        rfl
      rw [List.range_succ, List.map_append, Nat.ofDigits_append, ih, List.map_singleton,
        Nat.ofDigits_singleton, List.length_map, List.length_range, hbyte, Nat.mod_pow_succ]
  have hlt : x.toNat < 256 ^ n := by
    have hlt := x.isLt
    rwa [pow_mul] at hlt
  rw [value, bytes, ← List.map_reverse, List.reverse_reverse, List.map_map]
  exact (hdigits n).trans (Nat.mod_eq_of_lt hlt)

@[simp] theorem ofBytes_bytes : ofBytes n (bytes n x) = x := by
  rw [ofBytes, value_bytes, BitVec.ofNat_toNat, BitVec.setWidth_eq]

end Values

section Prefixed

/-- Some bytes after their number, in four bytes. -/
def prefixed (l : List (BitVec 8)) : List (BitVec 8) := bytes 4 (.ofNat _ l.length) ++ l

theorem prefixed_append_inj (h : l.length < 2 ^ 32) (h' : l'.length < 2 ^ 32) :
    prefixed l ++ r = prefixed l' ++ r' ↔ l = l' ∧ r = r' := by
  constructor
  · intro heq
    rw [prefixed, prefixed, List.append_assoc, List.append_assoc, bytes_append_inj] at heq
    obtain ⟨hnumber, heq⟩ := heq
    have hlength := congrArg BitVec.toNat hnumber
    rw [BitVec.toNat_ofNat, BitVec.toNat_ofNat, Nat.mod_eq_of_lt h, Nat.mod_eq_of_lt h'] at hlength
    exact List.append_inj heq hlength
  · rintro ⟨rfl, rfl⟩
    rfl

end Prefixed

end Foundation
