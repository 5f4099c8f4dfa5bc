import WaterCredits.Foundation.Slot
import WaterCredits.Token.Cap

/-! # Handing over the administration of a token

The admin proposes a successor, who may accept once a delay is over. The time of
the earliest acceptance is an unchecked sum, so the delay is kept exactly when
no accepted proposal has a sum that wraps around.
-/

namespace WaterCredits.Token

open Foundation Function

variable {contract : Address} {W : Type} {e : Env contract} {R : Registry W}
  {s s' : State} {w w' : W} {tr : Trace (State × W) (Env contract × Call)}

structure AdminProposal where
  admin : Address
  newAdmin : Address
  proposedAt : UInt64
  delaySecs : UInt64

/-- The earliest time of acceptance, as an exact sum. -/
def AdminProposal.due (p : AdminProposal) : ℕ := p.proposedAt.toNat + p.delaySecs.toNat

def proposal : Env contract × Call → Slot AdminProposal
  | (e, .setAdmin admin newAdmin) => .put ⟨admin, newAdmin, e.timestamp, 0⟩
  | (e, .proposeAdmin admin newAdmin delaySecs) =>
      .put ⟨admin, newAdmin, e.timestamp, delaySecs⟩
  | (_, .acceptAdmin _) | (_, .cancelAdminProposal _) => .clear
  | _ => .keep

def State.Stores (s : State) : Option AdminProposal → Prop
  | some p => s.admin = p.admin ∧ s.pendingAdmin = some p.newAdmin ∧
      s.pendingAdminActiveAfter = some (p.proposedAt + p.delaySecs)
  | none => s.pendingAdmin = none ∧ s.pendingAdminActiveAfter = none

/-- Who hands over the administration, to whom and when. -/
def State.handover (s : State) : Address × Option Address × Option UInt64 :=
  (s.admin, s.pendingAdmin, s.pendingAdminActiveAfter)

theorem State.Stores.congr {old : Option AdminProposal} (h : s.Stores old)
    (hs : s'.handover = s.handover) : s'.Stores old := by
  obtain ⟨ha, hs⟩ := Prod.mk.inj hs
  obtain ⟨hp, ht⟩ := Prod.mk.inj hs
  cases old with
  | none => exact ⟨hp.trans h.1, ht.trans h.2⟩
  | some p => exact ⟨ha.trans h.1, hp.trans h.2.1, ht.trans h.2.2⟩

theorem step_handover_eq {c : Call} (hc : proposal (e, c) = .keep)
    (h : step R (e, c) (s, w) = .ok (s', w')) : s'.handover = s.handover := by
  cases ha : c.accounting with
  | false =>
    rw [step_administered ha h]
    cases c <;> first | rfl | cases hc
  | true =>
    cases hr : c.retiring with
    | false =>
      rw [step_frame ha hr h]
      rfl
    | true =>
      rw [step_retiring hr h]
      rfl

theorem proposeAdmin_eq_ok {admin newAdmin : Address} {delaySecs : UInt64} :
    s.proposeAdmin e admin newAdmin delaySecs = .ok s' ↔
      (e.auth admin = true ∧ admin = s.admin) ∧ s' = { s with
        pendingAdmin := some newAdmin
        pendingAdminActiveAfter := some (e.timestamp + delaySecs) } := by
  simp [State.proposeAdmin, @eq_comm _ s']

theorem acceptAdmin_eq_ok {newAdmin : Address} :
    s.acceptAdmin e newAdmin = .ok s' ↔
      e.auth newAdmin = true ∧ s.pendingAdmin = some newAdmin ∧
        (∃ time, s.pendingAdminActiveAfter = some time ∧ time ≤ e.timestamp) ∧
        s' = { s with
          admin := newAdmin, pendingAdmin := none, pendingAdminActiveAfter := none } := by
  simp only [State.acceptAdmin, bind_eq_ok, ensure_eq_ok, expect_eq_ok, pure_eq_ok,
    Env.requireAuth_eq_ok, exists_and_left, exists_const]
  constructor
  · rintro ⟨hauth, pending, hp, rfl, time, ht, hle, rfl⟩
    exact ⟨hauth, hp, ⟨time, ht, hle⟩, rfl⟩
  · rintro ⟨hauth, hp, ⟨time, ht, hle⟩, rfl⟩
    exact ⟨hauth, _, hp, rfl, time, ht, hle, rfl⟩

theorem step_propose {c : Call} {p : AdminProposal} (hc : proposal (e, c) = .put p)
    (h : step R (e, c) (s, w) = .ok (s', w')) :
    s.admin = p.admin ∧ e.auth p.admin = true ∧ s'.Stores (some p) := by
  cases c <;> simp only [proposal, reduceCtorEq, Slot.put.injEq] at hc
  case setAdmin =>
    obtain ⟨⟨hauth, ha⟩, rfl⟩ := proposeAdmin_eq_ok.mp (within_eq_ok.mp h).1
    subst hc
    exact ⟨ha.symm, hauth, ha.symm, rfl, rfl⟩
  case proposeAdmin =>
    obtain ⟨⟨hauth, ha⟩, rfl⟩ := proposeAdmin_eq_ok.mp (within_eq_ok.mp h).1
    subst hc
    exact ⟨ha.symm, hauth, ha.symm, rfl, rfl⟩

theorem stores_step {c : Call} {old : Option AdminProposal} (hs : s.Stores old)
    (h : step R (e, c) (s, w) = .ok (s', w')) : s'.Stores ((proposal (e, c)).apply old) := by
  cases hc : proposal (e, c) with
  | put p => exact (step_propose hc h).2.2
  | keep => exact hs.congr (step_handover_eq hc h)
  | clear =>
    cases c <;> simp only [proposal, reduceCtorEq] at hc
    case acceptAdmin =>
      rw [step_administered rfl h]
      exact ⟨rfl, rfl⟩
    case cancelAdminProposal =>
      rw [step_administered rfl h]
      exact ⟨rfl, rfl⟩

theorem stores_run {sw : State × W} (h : (machine contract R).Run Machine.anyCall tr sw) :
    sw.1.Stores ((Slot.content proposal tr).map Prod.snd) := by
  refine Slot.stored (I := fun sw : State × W => sw.1.Stores) ?_ ?_ h
  · rintro ⟨s, w⟩ ⟨e, admin, name, symbol, projectId, methodology, hs⟩
    obtain ⟨-, rfl⟩ := initialise_eq_ok.mp hs
    exact ⟨rfl, rfl⟩
  · rintro ⟨s, w⟩ ⟨e, c⟩ ⟨s', w'⟩ old hs hstores
    exact stores_step hstores hs

/--
The administration changes hands by acceptance only. Each acceptance uses a
proposal of its own, the last one, which neither was cancelled nor is early.
-/
structure TimelockKept (tr : Trace (State × W) (Env contract × Call)) : Prop where
  changed : ∀ st ∈ tr, st.after.1.admin ≠ st.before.1.admin →
    ∃ newAdmin, st.label.2 = .acceptAdmin newAdmin
  proposed : ∀ st ∈ tr, ∀ p, proposal st.label = .put p →
    st.before.1.admin = p.admin ∧ st.label.1.auth p.admin = true
  accepted : ∀ post st pre newAdmin, tr = post ++ st :: pre →
    st.label.2 = .acceptAdmin newAdmin →
    st.label.1.auth newAdmin = true ∧ st.after.1.admin = newAdmin ∧
      ∃ k p, Slot.Holds proposal pre k p ∧ p.newAdmin = newAdmin ∧ p.admin = st.before.1.admin ∧
        p.due ≤ st.label.1.timestamp.toNat
  once : ∀ post st pre post' st' pre' newAdmin newAdmin' k p p',
    tr = post ++ st :: pre → tr = post' ++ st' :: pre' →
    st.label.2 = .acceptAdmin newAdmin → st'.label.2 = .acceptAdmin newAdmin' →
    Slot.Holds proposal pre k p → Slot.Holds proposal pre' k p' → post = post'

/-- No accepted proposal has an earliest time that wraps around. -/
def ExactDue (tr : Trace (State × W) (Env contract × Call)) : Prop :=
  ∀ post st pre newAdmin k p, tr = post ++ st :: pre → st.label.2 = .acceptAdmin newAdmin →
    Slot.Holds proposal pre k p → p.due < 2 ^ 64

theorem exactDue_of_forall
    (h : ∀ st ∈ tr, ∀ p, proposal st.label = .put p → p.due < 2 ^ 64) : ExactDue tr := by
  rintro post st pre newAdmin k p rfl - hp
  obtain ⟨st', hst', hput⟩ := hp.exists_mem
  exact h st' (List.mem_append_right _ (List.mem_cons_of_mem _ hst')) p hput

theorem acceptAdmin_changes {l : Env contract × Call} {newAdmin : Address}
    (h : l.2 = .acceptAdmin newAdmin) : proposal l ≠ .keep := by
  obtain ⟨e, c⟩ := l
  obtain rfl : c = .acceptAdmin newAdmin := h
  intro heq
  cases heq

/-- Nothing but an acceptance changes the admin. -/
theorem exists_acceptAdmin {c : Call} (h : step R (e, c) (s, w) = .ok (s', w'))
    (hne : s'.admin ≠ s.admin) : ∃ newAdmin, c = .acceptAdmin newAdmin := by
  cases hc : proposal (e, c) with
  | keep => exact absurd (congrArg Prod.fst (step_handover_eq hc h)) hne
  | put p =>
    obtain ⟨hold, -, hnew, -⟩ := step_propose hc h
    exact absurd (hnew.trans hold.symm) hne
  | clear =>
    cases c <;> simp only [proposal, reduceCtorEq] at hc
    case acceptAdmin newAdmin => exact ⟨newAdmin, rfl⟩
    case cancelAdminProposal =>
      rw [step_administered rfl h] at hne
      exact absurd rfl hne

theorem acceptAdmin_uses {newAdmin : Address} {old : Option (ℕ × AdminProposal)}
    (hs : s.Stores (old.map Prod.snd)) (h : s.acceptAdmin e newAdmin = .ok s') :
    e.auth newAdmin = true ∧ s'.admin = newAdmin ∧
      ∃ k p, old = some (k, p) ∧ p.newAdmin = newAdmin ∧ p.admin = s.admin ∧
        (p.due < 2 ^ 64 → p.due ≤ e.timestamp.toNat) := by
  obtain ⟨hauth, hp, ⟨time, ht, hle⟩, rfl⟩ := acceptAdmin_eq_ok.mp h
  refine ⟨hauth, rfl, ?_⟩
  cases old with
  | none =>
    have hnone : s.pendingAdmin = none := hs.1
    rw [hp] at hnone
    cases hnone
  | some kp =>
    obtain ⟨k, p⟩ := kp
    obtain ⟨hadmin, hnew, htime⟩ := hs
    rw [hp] at hnew
    rw [ht] at htime
    obtain rfl : time = p.proposedAt + p.delaySecs := Option.some.inj htime
    refine ⟨k, p, rfl, (Option.some.inj hnew).symm, hadmin.symm, fun hfits => ?_⟩
    have hsum : (p.proposedAt + p.delaySecs).toNat = p.due := by
      rw [UInt64.toNat_add]
      exact Nat.mod_eq_of_lt hfits
    rw [← hsum]
    exact UInt64.le_iff_toNat_le.mp hle

/-- The delays of a run are kept exactly when no accepted one wraps around. -/
theorem timelock_kept_iff {sw : State × W} (h : (machine contract R).Run Machine.anyCall tr sw) :
    TimelockKept tr ↔ ExactDue tr := by
  constructor
  · rintro hkept post st pre newAdmin k p htr hc hp
    obtain ⟨-, -, k', p', hp', -, -, hdue⟩ := hkept.accepted post st pre newAdmin htr hc
    obtain ⟨-, rfl⟩ := hp.unique hp'
    exact hdue.trans_lt st.label.1.timestamp.toNat_lt
  · intro hexact
    constructor
    · rintro ⟨⟨s, w⟩, ⟨e, c⟩, ⟨s', w'⟩⟩ hst hne
      obtain ⟨_, -, -, hs⟩ := h.mem _ hst
      exact exists_acceptAdmin hs hne
    · rintro ⟨⟨s, w⟩, ⟨e, c⟩, ⟨s', w'⟩⟩ hst p hc
      obtain ⟨_, -, -, hs⟩ := h.mem _ hst
      obtain ⟨hadmin, hauth, -⟩ := step_propose hc hs
      exact ⟨hadmin, hauth⟩
    · rintro post ⟨⟨s, w⟩, ⟨e, c⟩, ⟨s', w'⟩⟩ pre newAdmin rfl hc
      obtain rfl : c = .acceptAdmin newAdmin := hc
      obtain ⟨hpre, -, hs⟩ := h.split
      obtain ⟨hauth, hadmin, k, p, hp, hnew, hold, hdue⟩ :=
        acceptAdmin_uses (stores_run hpre) (within_eq_ok.mp hs).1
      have hp := Slot.content_eq_some.mp hp
      have hfits : p.due < 2 ^ 64 := hexact post _ pre newAdmin k p rfl rfl hp
      exact ⟨hauth, hadmin, k, p, hp, hnew, hold, hdue hfits⟩
    · rintro post st pre post' st' pre' newAdmin newAdmin' k p p' htr htr' hc hc' hp hp'
      have hsame := htr.symm.trans htr'
      exact hp.eq_of_change hp' (acceptAdmin_changes hc) (acceptAdmin_changes hc') hsame

section Sample

/-- A sample call at a time in seconds. -/
def signedAt (timestamp : UInt64) (key : BytesN 32) (c : Call) : Env home × Call :=
  (.signed timestamp 0 (.account key) account_ne_contract, c)

def longestDelay : Env home × Call :=
  signedAt 1 0 (.proposeAdmin (.account 0) (.account 1) 18446744073709551615)

def overtaken : State × Unit :=
  (machine home closedRegistry).calls deployed
    [longestDelay, signedAt 1 1 (.acceptAdmin (.account 1))]

theorem longest_delay_ignored : ∃ tr,
    (machine home closedRegistry).Run Machine.anyCall tr overtaken ∧
      overtaken.1.admin = .account 1 ∧ ¬ TimelockKept tr := by
  have h0 := Machine.Run.init (m := machine home closedRegistry) (G := Machine.anyCall)
    deployed_init
  have h1 := h0.call (l := longestDelay) trivial (by decide)
  have h2 := h1.call (l := signedAt 1 1 (.acceptAdmin (.account 1))) trivial (by decide)
  refine ⟨_, h2, by decide, fun hkept => ?_⟩
  obtain ⟨-, -, k, p, hp, -, -, hdue⟩ := hkept.accepted [] _ _ (.account 1) rfl rfl
  have hlong := Slot.content_eq_some.mpr hp
  cases hlong
  exact absurd hdue (by decide)

def succeeded : State × Unit :=
  (machine home closedRegistry).calls deployed
    [signedAt 10 0 (.proposeAdmin (.account 0) (.account 1) 86400),
      signedAt 86410 1 (.acceptAdmin (.account 1))]

theorem timelock_kept_iff_succeeded : ∃ tr,
    (machine home closedRegistry).Run Machine.anyCall tr succeeded ∧
      succeeded.1.admin = .account 1 ∧ TimelockKept tr := by
  have h0 := Machine.Run.init (m := machine home closedRegistry) (G := Machine.anyCall)
    deployed_init
  have h1 := h0.call (l := signedAt 10 0 (.proposeAdmin (.account 0) (.account 1) 86400)) trivial
    (by decide)
  have h2 := h1.call (l := signedAt 86410 1 (.acceptAdmin (.account 1))) trivial (by decide)
  refine ⟨_, h2, by decide, (timelock_kept_iff h2).mpr (exactDue_of_forall ?_)⟩
  intro st hst p hp
  rcases List.mem_cons.mp hst with rfl | hst
  · cases hp
  · obtain rfl := List.mem_singleton.mp hst
    cases hp
    decide

end Sample

end WaterCredits.Token
