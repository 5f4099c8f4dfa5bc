import Mathlib.Algebra.BigOperators.Group.List.Basic
import Mathlib.Data.List.Nodup
import Mathlib.Tactic.Linarith

/-! # Messages between two ledgers

One ledger records what it sends, and the other one the messages that it has
received. While every entry sent has a message of its own, a receipt takes
exactly one entry out of flight.
-/

namespace Foundation

/-- The entries sent and the messages received, the most recent first. -/
structure Channel (α β : Type*) where
  sent : List α := []
  received : List β := []

namespace Channel

variable {α β : Type*} {msg : α → β} {c : Channel α β} {a : α} {m : β}

def send (c : Channel α β) (a : α) : Channel α β := { c with sent := a :: c.sent }

def receive (c : Channel α β) (m : β) : Channel α β := { c with received := m :: c.received }

/-- No two entries have the same message. -/
def Distinct (msg : α → β) (c : Channel α β) : Prop := (c.sent.map msg).Nodup

/-- Only messages of entries are received. -/
def Genuine (msg : α → β) (c : Channel α β) : Prop := c.received ⊆ c.sent.map msg

theorem Genuine.send (h : c.Genuine msg) : (c.send a).Genuine msg :=
  fun _ hm => List.mem_cons_of_mem _ (h hm)

theorem Genuine.receive (h : c.Genuine msg) (hm : m ∈ c.sent.map msg) : (c.receive m).Genuine msg :=
  List.cons_subset.mpr ⟨hm, h⟩

section InFlight

variable [DecidableEq β] {f : α → ℤ} {sent : List α} {received : List β}

/-- The entries whose message is still to be received. -/
def inFlight (msg : α → β) (c : Channel α β) : List α := c.sent.filter fun a => msg a ∉ c.received

/-- The value of the entries in flight. -/
def due (msg : α → β) (f : α → ℤ) (c : Channel α β) : ℤ := ((c.inFlight msg).map f).sum

theorem due_empty : due msg f {} = 0 := rfl

theorem mem_inFlight : a ∈ c.inFlight msg ↔ a ∈ c.sent ∧ msg a ∉ c.received := by simp [inFlight]

theorem due_cons : due msg f ⟨a :: sent, received⟩ =
    (if msg a ∈ received then 0 else f a) + due msg f ⟨sent, received⟩ := by
  split <;> simp [due, inFlight, *]

theorem due_send (hd : (c.send a).Distinct msg) (hg : c.Genuine msg) :
    (c.send a).due msg f = c.due msg f + f a := by
  have hn : msg a ∉ c.received := fun h => (List.nodup_cons.mp hd).1 (hg h)
  rw [send, due_cons, if_neg hn, add_comm]

theorem due_other (hm : m ∉ sent.map msg) :
    due msg f ⟨sent, m :: received⟩ = due msg f ⟨sent, received⟩ := by
  induction sent with
  | nil => rfl
  | cons b sent ih =>
    rw [List.map_cons, List.mem_cons, not_or] at hm
    obtain ⟨hb, hm⟩ := hm
    have hiff : msg b ∈ m :: received ↔ msg b ∈ received := by simp [Ne.symm hb]
    simp only [due_cons, hiff, ih hm]

theorem due_receive (hd : c.Distinct msg) (ha : a ∈ c.sent) (hn : msg a ∉ c.received) :
    (c.receive (msg a)).due msg f = c.due msg f - f a := by
  obtain ⟨sent, received⟩ := c
  change due msg f ⟨sent, msg a :: received⟩ = _
  induction sent with
  | nil => cases ha
  | cons b sent ih =>
    obtain ⟨hb, hd⟩ := List.nodup_cons.mp hd
    rcases List.mem_cons.mp ha with rfl | ha
    · have hn : msg a ∉ received := hn
      rw [due_cons, due_cons, due_other hb, if_pos List.mem_cons_self, if_neg hn]
      omega
    · have hne : msg b ≠ msg a := fun he => hb (he ▸ List.mem_map_of_mem ha)
      have hiff : msg b ∈ msg a :: received ↔ msg b ∈ received := by simp [hne]
      have ih : due msg f ⟨sent, msg a :: received⟩ = due msg f ⟨sent, received⟩ - f a :=
        ih hd ha hn
      simp only [due_cons, hiff]
      omega

theorem due_nonneg (h0 : ∀ a ∈ c.sent, 0 ≤ f a) : 0 ≤ c.due msg f := by
  obtain ⟨sent, received⟩ := c
  induction sent with
  | nil => exact le_rfl
  | cons b sent ih =>
    obtain ⟨hb, hrest⟩ := List.forall_mem_cons.mp h0
    have ih := ih hrest
    rw [due_cons]
    split <;> omega

theorem le_due (hd : c.Distinct msg) (h0 : ∀ a ∈ c.sent, 0 ≤ f a) (ha : a ∈ c.inFlight msg) :
    f a ≤ c.due msg f := by
  obtain ⟨hs, hn⟩ := mem_inFlight.mp ha
  have hr := due_receive (f := f) hd hs hn
  have h0 : 0 ≤ (c.receive (msg a)).due msg f := due_nonneg h0
  omega

end InFlight

end Channel

end Foundation
