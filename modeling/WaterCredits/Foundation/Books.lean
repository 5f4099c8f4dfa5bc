import WaterCredits.Foundation.FiniteSum
import Mathlib.Logic.Relation

/-! # Books of a circulating asset

Units are issued to holders, move between them, and leave circulation by being
retired or burned. A custodian may burn units that it expects to issue again on
this side; the books count those as bridged. The total of the balances is the
circulating supply, and circulating, retired and burned units add up to all
units ever issued.
-/

namespace Foundation

open Function Relation

/-- Balances of the holders and the counters that summarise them. -/
structure Books (α : Type*) where
  balance : α → ℤ
  supply : ℤ
  retired : ℤ
  burned : ℤ
  minted : ℤ
  bridged : ℤ

namespace Books

variable {α : Type*}

/-- Totals agree with balances that are non-negative and finitely many. -/
abbrev Funded (b : Books α) : Prop := Backed b.balance b.supply

/-- Funded books whose counters account for every unit ever issued. -/
structure Balanced (b : Books α) : Prop extends Backed b.balance b.supply where
  conserved : b.supply + b.retired + b.burned = b.minted
  retired_nonneg : 0 ≤ b.retired
  burned_nonneg : 0 ≤ b.burned
  bridged_nonneg : 0 ≤ b.bridged

variable {b b' : Books α}

theorem Balanced.minted_nonneg (h : b.Balanced) : 0 ≤ b.minted := by
  have := h.total_nonneg
  have := h.retired_nonneg
  have := h.burned_nonneg
  have := h.conserved
  omega

theorem balanced_empty : (⟨fun _ => 0, 0, 0, 0, 0, 0⟩ : Books α).Balanced where
  toBacked := backed_zero
  conserved := rfl
  retired_nonneg := le_rfl
  burned_nonneg := le_rfl
  bridged_nonneg := le_rfl

variable [DecidableEq α]

/-- Credit one holder with a signed amount, in and out of circulation. -/
def post (b : Books α) (a : α) (d : ℤ) : Books α :=
  { b with balance := update b.balance a (b.balance a + d), supply := b.supply + d }

def mint (b : Books α) (a : α) (n : ℤ) : Books α := { b.post a n with minted := b.minted + n }

def burn (b : Books α) (a : α) (n : ℤ) : Books α := { b.post a (-n) with burned := b.burned + n }

def retire (b : Books α) (a : α) (n : ℤ) : Books α :=
  { b.post a (-n) with retired := b.retired + n }

/-- The recipient is credited after the sender is debited. -/
def move (b : Books α) (a c : α) (n : ℤ) : Books α := (b.post a (-n)).post c n

/-- The elementary entries. -/
inductive Entry : Books α → Books α → Prop
  | mint (b : Books α) (a : α) {n : ℤ} : 0 < n → Entry b (b.mint a n)
  | mintBridged (b : Books α) (a : α) {n : ℤ} : 0 < n → n ≤ b.bridged →
      Entry b { b.mint a n with bridged := b.bridged - n }
  | burn (b : Books α) (a : α) {n : ℤ} : 0 < n → n ≤ b.balance a → Entry b (b.burn a n)
  | burnBridged (b : Books α) (a : α) {n : ℤ} : 0 < n → n ≤ b.balance a →
      Entry b { b.burn a n with bridged := b.bridged + n }
  | retire (b : Books α) (a : α) {n : ℤ} : 0 < n → n ≤ b.balance a → Entry b (b.retire a n)
  | move (b : Books α) (a c : α) {n : ℤ} : 0 < n → n ≤ b.balance a → Entry b (b.move a c n)

abbrev Entries : Books α → Books α → Prop := ReflTransGen Entry

theorem Funded.post (h : b.Funded) (a : α) {d : ℤ} (hd : 0 ≤ b.balance a + d) :
    (b.post a d).Funded := Backed.post h a hd

theorem Funded.move (h : b.Funded) (a c : α) {n : ℤ} (hn : 0 < n) (hb : n ≤ b.balance a) :
    (b.move a c n).Funded := by
  have hf : (b.post a (-n)).Funded := Funded.post h a (by omega)
  have hc := hf.nonneg c
  exact Funded.post hf c (by omega)

theorem Balanced.entry (h : b.Balanced) (he : Entry b b') : b'.Balanced := by
  have hc := h.conserved
  have hr := h.retired_nonneg
  have hu := h.burned_nonneg
  have hg := h.bridged_nonneg
  have credit : ∀ a {n : ℤ}, 0 < n → (b.post a n).Funded := fun a n hn =>
    Funded.post h.toBacked a (by have := h.nonneg a; omega)
  have debit : ∀ a {n : ℤ}, n ≤ b.balance a → (b.post a (-n)).Funded := fun a n hn =>
    Funded.post h.toBacked a (by omega)
  cases he with
  | mint a hn =>
    obtain ⟨hf, h0, ht⟩ := credit a hn
    exact ⟨⟨hf, h0, ht⟩, by simp only [Books.mint, Books.post]; omega, hr, hu, hg⟩
  | mintBridged a hn hb =>
    obtain ⟨hf, h0, ht⟩ := credit a hn
    exact ⟨⟨hf, h0, ht⟩, by simp only [Books.mint, Books.post]; omega, hr, hu, by simp; omega⟩
  | burn a hn hb =>
    obtain ⟨hf, h0, ht⟩ := debit a hb
    exact ⟨⟨hf, h0, ht⟩, by simp only [Books.burn, Books.post]; omega, hr,
      by simp only [Books.burn]; omega, hg⟩
  | burnBridged a hn hb =>
    obtain ⟨hf, h0, ht⟩ := debit a hb
    exact ⟨⟨hf, h0, ht⟩, by simp only [Books.burn, Books.post]; omega, hr,
      by simp only [Books.burn]; omega, by simp; omega⟩
  | retire a hn hb =>
    obtain ⟨hf, h0, ht⟩ := debit a hb
    exact ⟨⟨hf, h0, ht⟩, by simp only [Books.retire, Books.post]; omega,
      by simp only [Books.retire]; omega, hu, hg⟩
  | move a c hn hb =>
    exact ⟨Funded.move h.toBacked a c hn hb, by simp only [Books.move, Books.post]; omega, hr, hu,
      hg⟩

theorem Balanced.entries (h : b.Balanced) (he : Entries b b') : b'.Balanced := by
  induction he with
  | refl => exact h
  | tail _ he ih => exact ih.entry he

theorem Entry.minted_le (he : Entry b b') : b.minted ≤ b'.minted := by
  cases he <;> simp only [Books.mint, Books.burn, Books.retire, Books.move, Books.post] <;> omega

/-- The number of units ever issued never decreases. -/
theorem Entries.minted_le (he : Entries b b') : b.minted ≤ b'.minted := by
  induction he with
  | refl => exact le_rfl
  | tail _ he ih => exact ih.trans he.minted_le

end Books

end Foundation
