import WaterCredits.Evm.Calls
import Mathlib.Data.Set.Function

/-! # Withdrawals on the other chain

A withdrawal stands on signatures of a threshold of distinct relayers over its
message, and a message is withdrawn once. The relayers never change.
-/

namespace WaterCredits.Evm

open Foundation Function

variable {h : Chain} {contract msgSender : Account} {s s' : State} {c : Call} {m : Message}
  {hash : Word} {sigs : List (List (BitVec 8))} {D : Set Message}
  {Signs : Account → Message → Prop} {tr : Trace State (Account × Call)}

def signedHash (h : Chain) (contract : Account) (m : Message) : Word :=
  ethSignedMsgHash h (msgHash h contract m)

/--
The hash has no collision on the messages in use, and a signature of a relayer
that verifies for one of them was given by that relayer to a message with its
hash.
-/
structure SoundSignatures (h : Chain) (contract : Account) (isRelayer : Account → Bool)
    (D : Set Message) (Signs : Account → Message → Prop) : Prop where
  injective : Set.InjOn (signedHash h contract) D
  sound : ∀ m ∈ D, ∀ sig k, isRelayer k = true →
    recoverSigner h (signedHash h contract m) sig = .ok k →
      ∃ m' ∈ D, Signs k m' ∧ signedHash h contract m' = signedHash h contract m

/-- Distinct relayers, at least as many as the threshold, signed exactly this message. -/
structure Authorised (h : Chain) (contract : Account) (Signs : Account → Message → Prop) (s : State)
    (m : Message) (sigs : List (List (BitVec 8))) (signers : List Account) : Prop where
  valid : List.Forall₂ (fun sig k => recoverSigner h (signedHash h contract m) sig = .ok k) sigs
    signers
  quorum : s.threshold.toNat ≤ signers.length
  distinct : signers.Nodup
  listed : ∀ k ∈ signers, s.isRelayer k = true
  signed : ∀ k ∈ signers, Signs k m

theorem exists_partner {α β : Type} {R : α → β → Prop} {l₁ : List α} {l₂ : List β}
    (hall : List.Forall₂ R l₁ l₂) {b : β} (hb : b ∈ l₂) : ∃ a ∈ l₁, R a b := by
  induction hall with
  | nil => exact absurd hb List.not_mem_nil
  | cons hr _ ih =>
    rcases List.mem_cons.mp hb with rfl | hb
    · exact ⟨_, List.mem_cons_self, hr⟩
    · obtain ⟨a, ha, hr⟩ := ih hb
      exact ⟨a, List.mem_cons_of_mem _ ha, hr⟩

theorem verifySignatures_eq_ok {last : Account} {n n' : ℕ}
    (hv : verifySignatures h s hash last sigs n = .ok n') :
    ∃ signers, List.Forall₂ (fun sig k => recoverSigner h hash sig = .ok k) sigs signers ∧
      n' = n + signers.length ∧ (last :: signers).Pairwise (· < ·) ∧
      ∀ k ∈ signers, s.isRelayer k = true := by
  induction sigs generalizing last n with
  | nil =>
    simp only [verifySignatures, pure_eq_ok] at hv
    exact ⟨[], .nil, by simp [hv], by simp, by simp⟩
  | cons sig rest ih =>
    simp only [verifySignatures, bind_eq_ok, ensure_eq_ok] at hv
    obtain ⟨k, hk, _, hr, _, hlt, hv⟩ := hv
    obtain ⟨signers, hall, hlen, hsort, hlist⟩ := ih hv
    refine ⟨k :: signers, .cons hk hall, ?_, ?_, List.forall_mem_cons.mpr ⟨hr, hlist⟩⟩
    · rw [List.length_cons]
      omega
    · refine List.pairwise_cons.mpr ⟨?_, hsort⟩
      obtain ⟨hfirst, -⟩ := List.pairwise_cons.mp hsort
      exact List.forall_mem_cons.mpr ⟨hlt, fun b hb => BitVec.lt_trans hlt (hfirst b hb)⟩

theorem withdraw_cases (hw : s.withdraw h contract m sigs = .ok s') :
    s.paused = false ∧ m.destinationChain = 2 ∧ 0 < m.amount ∧ m.recipient ≠ 0 ∧
      s.processedMessages (msgHash h contract m) = false ∧
      (∃ signers, List.Forall₂ (fun sig k => recoverSigner h (signedHash h contract m) sig = .ok k)
          sigs signers ∧ s.threshold.toNat ≤ signers.length ∧ signers.Nodup ∧
        ∀ k ∈ signers, s.isRelayer k = true) ∧
      ∃ credited total : Word, credited.toNat = (s.balanceOf m.recipient).toNat + m.amount.toNat ∧
        total.toNat = s.totalSupply.toNat + m.amount.toNat ∧
        s' = { s with
          processedMessages := update s.processedMessages (msgHash h contract m) true
          balanceOf := update s.balanceOf m.recipient credited
          totalSupply := total } := by
  simp only [State.withdraw, bind_eq_ok, ensure_eq_ok, State.whenNotPaused_eq_ok,
    checkedAdd_eq_ok, pure_eq_ok] at hw
  obtain ⟨_, hp, _, hd, _, ha, _, hr, _, hn, _, -, n, hv, _, hq, credited, hc, total, ht, rfl⟩ := hw
  obtain ⟨signers, hall, rfl, hsort, hlist⟩ := verifySignatures_eq_ok hv
  refine ⟨hp, hd, ha, hr, hn, ⟨signers, hall, by simpa using hq, ?_, hlist⟩, credited, total, hc,
    ht,
    rfl⟩
  exact (List.pairwise_cons.mp hsort).2.imp fun hlt => BitVec.ne_of_lt hlt

/-- The storage that only the constructor writes. -/
def State.fixed (s : State) : Word × (Account → Bool) × Account × Account :=
  (s.threshold, s.isRelayer, s.admin, s.governance)

theorem moveBalance_cases {sender recipient : Account} {amount : Word}
    (hm : s.moveBalance sender recipient amount = .ok s') :
    ∃ debited credited : Word, amount.toNat ≤ (s.balanceOf sender).toNat ∧
      debited.toNat = (s.balanceOf sender).toNat - amount.toNat ∧
      credited.toNat = (update s.balanceOf sender debited recipient).toNat + amount.toNat ∧
      s' = { s with
        balanceOf := update (update s.balanceOf sender debited) recipient credited } := by
  simp only [State.moveBalance, bind_eq_ok, checkedSub_eq_ok, checkedAdd_eq_ok, pure_eq_ok] at hm
  obtain ⟨debited, ⟨hle, hd⟩, credited, hc, rfl⟩ := hm
  exact ⟨debited, credited, hle, hd, hc, rfl⟩

theorem deposit_cases {amount : Word} {recipientType : UInt8} {recipient : Word} {ev : DepositEvent}
    (hd : s.deposit msgSender amount recipientType recipient = .ok (ev, s')) :
    0 < amount ∧ ev = ⟨msgSender, recipientType, recipient, amount, s.depositNonce⟩ ∧
      (recipientType = 0 ∨ recipientType = 1) ∧
      ∃ debited total next : Word, amount.toNat ≤ (s.balanceOf msgSender).toNat ∧
        debited.toNat = (s.balanceOf msgSender).toNat - amount.toNat ∧
        amount.toNat ≤ s.totalSupply.toNat ∧
        total.toNat = s.totalSupply.toNat - amount.toNat ∧
        next.toNat = s.depositNonce.toNat + 1 ∧
        s' = { s with
          balanceOf := update s.balanceOf msgSender debited
          totalSupply := total
          depositNonce := next } := by
  simp only [State.deposit, bind_eq_ok, ensure_eq_ok, State.whenNotPaused_eq_ok, checkedSub_eq_ok,
    checkedAdd_eq_ok, pure_eq_ok, Prod.mk.injEq] at hd
  obtain ⟨_, -, _, h0, _, -, _, ht, _, -, debited, ⟨hle, hb⟩, total, ⟨hle', hs⟩, next, hn, rfl,
    rfl⟩ := hd
  exact ⟨h0, rfl, ht, debited, total, next, hle, hb, hle', hs, by simpa using hn, rfl⟩

theorem execute_keeps (hs : execute h contract msgSender s c = .ok s') :
    s'.fixed = s.fixed ∧ ∀ x, s.processedMessages x = true → s'.processedMessages x = true := by
  cases c with
  | withdraw m sigs =>
    obtain ⟨-, -, -, -, -, -, credited, total, -, -, rfl⟩ := withdraw_cases hs
    refine ⟨rfl, fun x hx => ?_⟩
    simp only [update_apply]
    split <;> simp [hx]
  | deposit amount recipientType recipient =>
    simp only [execute, bind_eq_ok, pure_eq_ok] at hs
    obtain ⟨⟨ev, t⟩, hd, rfl⟩ := hs
    obtain ⟨-, -, -, _, _, _, -, -, -, -, -, rfl⟩ := deposit_cases hd
    exact ⟨rfl, fun _ hx => hx⟩
  | transfer recipient amount =>
    simp only [execute, State.transfer, bind_eq_ok] at hs
    obtain ⟨_, -, _, -, _, -, hm⟩ := hs
    obtain ⟨_, _, -, -, -, rfl⟩ := moveBalance_cases hm
    exact ⟨rfl, fun _ hx => hx⟩
  | transferFrom holder recipient amount =>
    simp only [execute, State.transferFrom, bind_eq_ok] at hs
    obtain ⟨_, -, _, -, _, -, _, -, left, -, hm⟩ := hs
    obtain ⟨_, _, -, -, -, rfl⟩ := moveBalance_cases hm
    exact ⟨rfl, fun _ hx => hx⟩
  | approve | pause | unpause =>
    simp only [execute, State.approve, State.pause, State.unpause, bind_eq_ok, pure_eq_ok] at hs
    obtain ⟨_, -, rfl⟩ := hs
    exact ⟨rfl, fun _ hx => hx⟩

def withdraws (m : Message) : Account × Call → Bool
  | (_, .withdraw m' _) => m' = m
  | _ => false

def messagesIn (D : Set Message) : Guard State (Account × Call) := fun _ _ l =>
  match l.2 with
  | .withdraw m _ => m ∈ D
  | _ => True

/-- The law of withdrawals along a run that ends in `s`. -/
structure Secure (h : Chain) (contract : Account) (Signs : Account → Message → Prop)
    (tr : Trace State (Account × Call)) (s : State) : Prop where
  authorised : ∀ st ∈ tr, ∀ msgSender m sigs, st.label = (msgSender, .withdraw m sigs) →
    ∃ signers, Authorised h contract Signs st.before m sigs signers
  fixed : ∀ st ∈ tr, st.before.fixed = s.fixed
  once : ∀ m, tr.countP (fun st => withdraws m st.label) ≤ 1
  failed : ∀ msgSender m sigs r, s.withdraw h contract m sigs = .error r →
    (machine h contract).call s (msgSender, .withdraw m sigs) = s

theorem fixed_run {G : Guard State (Account × Call)} (hr : (machine h contract).Run G tr s) :
    ∀ st ∈ tr, st.before.fixed = s.fixed := by
  induction hr with
  | init => simp
  | step _ _ hs ih =>
    have hk := (execute_keeps hs).1
    exact List.forall_mem_cons.mpr ⟨hk.symm, fun st hst => (ih st hst).trans hk.symm⟩

theorem withdraw_once {G : Guard State (Account × Call)} (hr : (machine h contract).Run G tr s)
    (m : Message) : tr.countP (fun st => withdraws m st.label) ≤ 1 := by
  refine (hr.once (P := fun s => s.processedMessages (msgHash h contract m) = true) ?_ ?_).1
  · rintro ⟨msgSender, c⟩ s s' hq hs
    unfold withdraws at hq
    split at hq
    · rename_i heq
      cases heq
      obtain rfl : _ = m := of_decide_eq_true hq
      obtain ⟨-, -, -, -, hn, -, _, _, -, -, rfl⟩ := withdraw_cases hs
      exact ⟨by simp [hn], by simp⟩
    · cases hq
  · rintro tr s ⟨msgSender, c⟩ s' - - hs hp
    exact (execute_keeps hs).2 _ hp

theorem isRelayer_run (hr : (machine h contract).Run (messagesIn D) tr s) {st : Step State _}
    (hst : st ∈ tr) : s.isRelayer = st.before.isRelayer :=
  (congrArg (fun f => f.2.1) (fixed_run hr st hst)).symm

theorem secure_run (hr : (machine h contract).Run (messagesIn D) tr s)
    (hs : SoundSignatures h contract s.isRelayer D Signs) : Secure h contract Signs tr s := by
  refine ⟨?_, fixed_run hr, withdraw_once hr, ?_⟩
  · rintro st hst msgSender m sigs hl
    obtain ⟨tr', -, hg, hstep⟩ := hr.mem st hst
    rw [hl] at hg hstep
    obtain ⟨-, -, -, -, -, ⟨signers, hall, hq, hd, hlist⟩, -⟩ := withdraw_cases hstep
    refine ⟨signers, hall, hq, hd, hlist, fun k hk => ?_⟩
    obtain ⟨sig, -, hsig⟩ := exists_partner hall hk
    obtain ⟨m', hm', hsign, heq⟩ := hs.sound m hg sig k (isRelayer_run hr hst ▸ hlist k hk) hsig
    exact hs.injective hm' hg heq ▸ hsign
  · intro msgSender m sigs r hw
    simp [Machine.call, machine, execute, hw]

end WaterCredits.Evm
