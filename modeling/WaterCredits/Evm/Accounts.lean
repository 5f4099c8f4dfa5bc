import WaterCredits.Evm.Supply
import Mathlib.Algebra.BigOperators.Group.Finset.Basic

/-! # Accounts of the bridged token

Every balance is what an account has received less what it has sent. Only the
account itself and the spenders that it approved send its tokens, and a spender
uses up its allowance. Sums and differences of words stay in range, except that
relayers may sign more than a word holds and the deposits may run out of nonces.
-/

namespace WaterCredits.Evm

open Foundation Function

variable {h : Chain} {contract msgSender holder spender a : Account} {s s' s₀ : State} {c : Call}
  {l : Account × Call} {tr : Trace State (Account × Call)}

def sent (a : Account) : Account × Call → ℕ
  | (msgSender, .transfer _ amount) => if msgSender = a then amount.toNat else 0
  | (_, .transferFrom holder _ amount) => if holder = a then amount.toNat else 0
  | (msgSender, .deposit amount _ _) => if msgSender = a then amount.toNat else 0
  | _ => 0

def received (a : Account) : Account × Call → ℕ
  | (_, .transfer recipient amount) => if recipient = a then amount.toNat else 0
  | (_, .transferFrom _ recipient amount) => if recipient = a then amount.toNat else 0
  | (_, .withdraw m _) => if m.recipient = a then m.amount.toNat else 0
  | _ => 0

def drawn (holder spender : Account) : Account × Call → ℕ
  | (msgSender, .transferFrom holder' _ amount) =>
      if holder' = holder ∧ msgSender = spender then amount.toNat else 0
  | _ => 0

def approves (holder spender : Account) : Account × Call → Bool
  | (msgSender, .approve spender' _) => decide (msgSender = holder ∧ spender' = spender)
  | _ => false

def totalOf (f : Account × Call → ℕ) (tr : Trace State (Account × Call)) : ℕ :=
  (tr.map fun st => f st.label).sum

@[simp] theorem totalOf_nil (f : Account × Call → ℕ) : totalOf f [] = 0 := rfl

@[simp] theorem totalOf_cons (f : Account × Call → ℕ) (st : Step State (Account × Call)) :
    totalOf f (st :: tr) = f st.label + totalOf f tr := List.sum_cons ..

theorem moveBalance_account {sender recipient : Account} {amount : Word}
    (hm : s.moveBalance sender recipient amount = .ok s') (a : Account) :
    (s'.balanceOf a).toNat + (if sender = a then amount.toNat else 0) =
        (s.balanceOf a).toNat + (if recipient = a then amount.toNat else 0) ∧
      s'.allowance = s.allowance := by
  obtain ⟨debited, credited, hle, hd, hc, rfl⟩ := moveBalance_cases hm
  refine ⟨?_, rfl⟩
  by_cases hr : a = recipient
  · subst hr
    by_cases hs : a = sender
    · subst hs
      simp only [update_self, if_true] at hc ⊢
      omega
    · simp only [update_self, update_of_ne hs, if_neg (Ne.symm hs), if_true] at hc ⊢
      omega
  · by_cases hs : a = sender
    · subst hs
      simp only [update_of_ne hr, update_self, if_neg (Ne.symm hr), if_true]
      omega
    · simp only [update_of_ne hr, update_of_ne hs, if_neg (Ne.symm hr), if_neg (Ne.symm hs)]

theorem execute_account (hs : execute h contract msgSender s c = .ok s') (a : Account) :
    (s'.balanceOf a).toNat + sent a (msgSender, c) =
      (s.balanceOf a).toNat + received a (msgSender, c) := by
  cases c with
  | transfer recipient amount =>
    simp only [execute, State.transfer, bind_eq_ok] at hs
    obtain ⟨_, -, _, -, _, -, hm⟩ := hs
    exact (moveBalance_account hm a).1
  | transferFrom holder recipient amount =>
    simp only [execute, State.transferFrom, bind_eq_ok] at hs
    obtain ⟨_, -, _, -, _, -, _, -, left, -, hm⟩ := hs
    exact (moveBalance_account hm a).1
  | deposit amount recipientType recipient =>
    simp only [execute, bind_eq_ok, pure_eq_ok] at hs
    obtain ⟨⟨ev, t⟩, hd, rfl⟩ := hs
    obtain ⟨-, -, -, debited, total, next, hle, hb, -, -, -, rfl⟩ := deposit_cases hd
    by_cases ha : a = msgSender
    · subst ha
      simp only [sent, received, update_self, if_true]
      omega
    · simp [sent, received, update_of_ne ha, Ne.symm ha]
  | withdraw m sigs =>
    obtain ⟨-, -, -, -, -, -, credited, total, hc, -, rfl⟩ := withdraw_cases hs
    by_cases ha : a = m.recipient
    · subst ha
      simp only [sent, received, update_self, if_true]
      omega
    · simp [sent, received, update_of_ne ha, Ne.symm ha]
  | approve | pause | unpause =>
    simp only [execute, State.approve, State.pause, State.unpause, bind_eq_ok, pure_eq_ok] at hs
    obtain ⟨_, -, rfl⟩ := hs
    rfl

theorem execute_allowance (hs : execute h contract msgSender s c = .ok s')
    (ha : approves holder spender (msgSender, c) = false) :
    (s'.allowance holder spender).toNat + drawn holder spender (msgSender, c) =
      (s.allowance holder spender).toNat := by
  cases c with
  | transferFrom holder' recipient amount =>
    simp only [execute, State.transferFrom, bind_eq_ok, checkedSub_eq_ok] at hs
    obtain ⟨_, -, _, -, _, -, _, -, left, ⟨hle, hleft⟩, hm⟩ := hs
    rw [(moveBalance_account hm holder).2]
    by_cases hh : holder = holder'
    · subst hh
      by_cases hsp : spender = msgSender
      · subst hsp
        simp only [drawn, update_self, and_self, if_true]
        omega
      · simp [drawn, update_self, update_of_ne hsp, Ne.symm hsp]
    · simp [drawn, update_of_ne hh, Ne.symm hh]
  | transfer recipient amount =>
    simp only [execute, State.transfer, bind_eq_ok] at hs
    obtain ⟨_, -, _, -, _, -, hm⟩ := hs
    rw [(moveBalance_account hm holder).2]
    rfl
  | deposit amount recipientType recipient =>
    simp only [execute, bind_eq_ok, pure_eq_ok] at hs
    obtain ⟨⟨ev, t⟩, hd, rfl⟩ := hs
    obtain ⟨-, -, -, _, _, _, -, -, -, -, -, rfl⟩ := deposit_cases hd
    rfl
  | withdraw m sigs =>
    obtain ⟨-, -, -, -, -, -, _, _, -, -, rfl⟩ := withdraw_cases hs
    rfl
  | approve spender' amount =>
    simp only [execute, State.approve, bind_eq_ok, pure_eq_ok] at hs
    obtain ⟨_, -, rfl⟩ := hs
    simp only [approves, decide_eq_false_iff_not, not_and] at ha
    by_cases hh : holder = msgSender
    · subst hh
      simp [drawn, update_self, update_of_ne (Ne.symm (ha rfl))]
    · simp [drawn, update_of_ne hh]
  | pause | unpause =>
    simp only [execute, State.pause, State.unpause, bind_eq_ok, pure_eq_ok] at hs
    obtain ⟨_, -, rfl⟩ := hs
    rfl

def callers (tr : Trace State (Account × Call)) : Finset Account :=
  (tr.map (·.label.1)).toFinset

theorem sent_eq_drawn (ha : l.1 ≠ a) : sent a l = drawn a l.1 l := by
  obtain ⟨msgSender, c⟩ := l
  cases c <;> simp_all [sent, drawn]

theorem drawn_of_ne (hs : l.1 ≠ spender) : drawn holder spender l = 0 := by
  obtain ⟨msgSender, c⟩ := l
  cases c <;> simp_all [drawn]

theorem totalOf_sent {S : Finset Account} (hS : ∀ st ∈ tr, st.label.1 ∈ S)
    (ha : ∀ st ∈ tr, st.label.1 ≠ a) :
    totalOf (sent a) tr = ∑ spender ∈ S, totalOf (drawn a spender) tr := by
  induction tr with
  | nil => simp
  | cons st tr ih =>
    obtain ⟨hfirst, hS⟩ := List.forall_mem_cons.mp hS
    obtain ⟨hne, ha⟩ := List.forall_mem_cons.mp ha
    have hdraw : ∑ spender ∈ S, drawn a spender st.label = sent a st.label := by
      rw [sent_eq_drawn hne]
      exact Finset.sum_eq_single_of_mem _ hfirst fun b _ hb => drawn_of_ne (Ne.symm hb)
    simp only [totalOf_cons, Finset.sum_add_distrib, hdraw, ih hS ha]

/-- The accounts after a run that starts in `s₀`. -/
structure Settled (s₀ : State) (tr : Trace State (Account × Call)) (s : State) : Prop where
  account : ∀ a, (s.balanceOf a).toNat + totalOf (sent a) tr =
    (s₀.balanceOf a).toNat + totalOf (received a) tr
  allowance : ∀ holder spender, (∀ st ∈ tr, approves holder spender st.label = false) →
    (s.allowance holder spender).toNat + totalOf (drawn holder spender) tr =
      (s₀.allowance holder spender).toNat

theorem settled_run {G : Guard State (Account × Call)}
    (hr : ((machine h contract).startedIn s₀).Run G tr s) : Settled s₀ tr s := by
  refine Machine.Run.invariant (I := Settled s₀) ?_ ?_ hr
  · rintro s rfl
    exact ⟨fun a => rfl, fun holder spender _ => rfl⟩
  · rintro tr s ⟨msgSender, c⟩ s' - hi - hs
    constructor
    · intro a
      have hnow := execute_account hs a
      have hbefore := hi.account a
      simp only [totalOf_cons]
      omega
    · intro holder spender hn
      obtain ⟨hfirst, hn⟩ := List.forall_mem_cons.mp hn
      have hnow := execute_allowance hs hfirst
      have hbefore := hi.allowance holder spender hn
      simp only [totalOf_cons]
      omega

/--
Every balance is accounted for by the calls of a run, every allowance by the
draws on it, and an account that makes no calls loses at most what it has
allowed the callers to draw.
-/
theorem accounts_settled {G : Guard State (Account × Call)}
    (hr : ((machine h contract).startedIn s₀).Run G tr s) :
    Settled s₀ tr s ∧ ∀ a, (∀ st ∈ tr, st.label.1 ≠ a) →
      (s₀.balanceOf a).toNat ≤ (s.balanceOf a).toNat +
        ∑ spender ∈ callers tr, (s₀.allowance a spender).toNat := by
  have hsettled := settled_run hr
  refine ⟨hsettled, fun a ha => ?_⟩
  have hnone (spender : Account) : ∀ st ∈ tr, approves a spender st.label = false := by
    rintro ⟨before, ⟨msgSender, c⟩, after⟩ hst
    cases c <;> simp [approves, ha _ hst]
  have hdrawn : totalOf (sent a) tr ≤ ∑ spender ∈ callers tr, (s₀.allowance a spender).toNat := by
    rw [totalOf_sent (S := callers tr) (fun st hst => ?_) ha]
    · refine Finset.sum_le_sum fun spender _ => ?_
      have hspender := hsettled.allowance a spender (hnone spender)
      omega
    · exact List.mem_toFinset.mpr (List.mem_map_of_mem hst)
  have haccount := hsettled.account a
  omega

section Range

def Call.deposits : Call → Bool
  | .deposit .. => true
  | _ => false

def deposits (tr : Trace State (Account × Call)) : ℕ := tr.countP fun st => st.label.2.deposits

theorem execute_nonce (hs : execute h contract msgSender s c = .ok s') :
    s'.depositNonce.toNat = s.depositNonce.toNat + if c.deposits = true then 1 else 0 := by
  cases c with
  | deposit amount recipientType recipient =>
    simp only [execute, bind_eq_ok, pure_eq_ok] at hs
    obtain ⟨⟨ev, t⟩, hd, rfl⟩ := hs
    obtain ⟨-, -, -, _, _, next, -, -, -, -, hn, rfl⟩ := deposit_cases hd
    exact hn
  | transfer recipient amount =>
    simp only [execute, State.transfer, bind_eq_ok] at hs
    obtain ⟨_, -, _, -, _, -, hm⟩ := hs
    obtain ⟨_, _, -, -, -, rfl⟩ := moveBalance_cases hm
    rfl
  | transferFrom holder recipient amount =>
    simp only [execute, State.transferFrom, bind_eq_ok] at hs
    obtain ⟨_, -, _, -, _, -, _, -, left, -, hm⟩ := hs
    obtain ⟨_, _, -, -, -, rfl⟩ := moveBalance_cases hm
    rfl
  | withdraw m sigs =>
    obtain ⟨-, -, -, -, -, -, _, _, -, -, rfl⟩ := withdraw_cases hs
    rfl
  | approve | pause | unpause =>
    simp only [execute, State.approve, State.pause, State.unpause, bind_eq_ok, pure_eq_ok] at hs
    obtain ⟨_, -, rfl⟩ := hs
    rfl

theorem addRelayers_nonce {rs : List Account} (ha : addRelayers rs s = .ok s') :
    s'.depositNonce = s.depositNonce := by
  induction rs generalizing s with
  | nil =>
    simp only [addRelayers, pure_eq_ok] at ha
    rw [ha]
  | cons r rs ih =>
    simp only [addRelayers, bind_eq_ok] at ha
    obtain ⟨_, -, _, -, ha⟩ := ha
    have ht := ih ha
    exact ht

theorem counted_run {G : Guard State (Account × Call)} (hr : (machine h contract).Run G tr s) :
    s.depositNonce.toNat = deposits tr ∧ s.Whole := by
  refine Machine.Run.invariant
    (I := fun tr s => s.depositNonce.toNat = deposits tr ∧ s.Whole) ?_ ?_ hr
  · intro s hi
    refine ⟨?_, (init_whole hi).1⟩
    obtain ⟨name, symbol, admin, governance, relayers, threshold, hd⟩ := hi
    simp only [deploy, bind_eq_ok] at hd
    obtain ⟨_, -, ha⟩ := hd
    rw [addRelayers_nonce ha]
    rfl
  · rintro tr s ⟨msgSender, c⟩ s' - ⟨hn, hw⟩ - hs
    have hs : execute h contract msgSender s c = .ok s' := hs
    refine ⟨?_, (execute_whole hw hs).1⟩
    rw [execute_nonce hs, hn]
    simp only [deposits, List.countP_cons]

/-- The revert of a sum or a difference out of range. -/
def Overflow (r : Revert) : Prop := r = .arithmetic

theorem avoids_ensure {p : Prop} [Decidable p] {text : String} :
    Avoids Overflow (ensure p text) := avoids_require.mpr fun _ h => by cases h

theorem avoids_word {n : ℤ} (h0 : 0 ≤ n) (hn : n < 2 ^ 256) : Avoids Overflow (word n) := by
  unfold word
  rw [if_pos ⟨h0, hn⟩]
  exact avoids_pure

theorem avoids_checkedAdd {x y : Word} (hlt : x.toNat + y.toNat < 2 ^ 256) :
    Avoids Overflow (checkedAdd x y) := avoids_word (by omega) (by exact_mod_cast hlt)

theorem avoids_checkedSub {x y : Word} (hle : y.toNat ≤ x.toNat) :
    Avoids Overflow (checkedSub x y) := by
  have hlt : x.toNat < 2 ^ 256 := x.isLt
  refine avoids_word (by omega) ?_
  have hlt : (x.toNat : ℤ) < 2 ^ 256 := by exact_mod_cast hlt
  omega

theorem avoids_moveBalance {sender recipient : Account} {amount : Word} (hw : s.Whole)
    (hle : amount ≤ s.balanceOf sender) :
    Avoids Overflow (s.moveBalance sender recipient amount) := by
  have hle : amount.toNat ≤ (s.balanceOf sender).toNat := hle
  simp only [State.moveBalance, avoids_bind, checkedSub_eq_ok, avoids_pure, implies_true, and_true]
  refine ⟨avoids_checkedSub hle, ?_⟩
  rintro debited ⟨-, hd⟩
  apply avoids_checkedAdd
  have hrest := (Backed.rewrite hw (a := sender) (v := debited) (d := -amount.toNat)
    (by omega)).le recipient
  have htotal : s.totalSupply.toNat < 2 ^ 256 := s.totalSupply.isLt
  have hcredited : (((s.saveBalance sender debited).balanceOf recipient).toNat : ℤ) ≤
    s.totalSupply.toNat + -amount.toNat := hrest
  omega

theorem avoids_verifySignatures {hash : Word} {last : Account} {sigs : List (List (BitVec 8))}
    {n : ℕ} : Avoids Overflow (verifySignatures h s hash last sigs n) := by
  induction sigs generalizing last n with
  | nil => exact avoids_pure
  | cons sig rest ih =>
    simp only [verifySignatures, recoverSigner, avoids_bind, avoids_ensure, avoids_pure, ih,
      implies_true, and_true]

theorem avoids_execute (hw : s.Whole)
    (hwithdraw : ∀ m sigs, c = .withdraw m sigs → s.totalSupply.toNat + m.amount.toNat < 2 ^ 256)
    (hdeposit : c.deposits = true → s.depositNonce.toNat + 1 < 2 ^ 256) :
    Avoids Overflow (execute h contract msgSender s c) := by
  cases c with
  | transfer recipient amount =>
    simp only [execute, State.transfer, State.whenNotPaused, avoids_bind, avoids_ensure,
      ensure_eq_ok, true_and]
    intro _ _ _ _ _ hle
    exact avoids_moveBalance hw hle
  | transferFrom holder recipient amount =>
    simp only [execute, State.transferFrom, State.whenNotPaused, avoids_bind, avoids_ensure,
      ensure_eq_ok, true_and]
    intro _ _ _ _ _ hle _ hallowed
    have hallowed : amount.toNat ≤ (s.allowance holder msgSender).toNat := hallowed
    exact ⟨avoids_checkedSub hallowed, fun left _ => avoids_moveBalance hw hle⟩
  | deposit amount recipientType recipient =>
    simp only [execute, State.deposit, State.whenNotPaused, avoids_bind, avoids_ensure,
      ensure_eq_ok, avoids_pure, true_and, implies_true, and_true]
    intro _ _ _ _ _ hle _ _ _ _
    have hle : amount.toNat ≤ (s.balanceOf msgSender).toNat := hle
    have hbalance : ((s.balanceOf msgSender).toNat : ℤ) ≤ s.totalSupply.toNat := hw.le msgSender
    refine ⟨avoids_checkedSub hle, fun _ _ => ⟨avoids_checkedSub (by omega), fun _ _ => ?_⟩⟩
    exact avoids_checkedAdd (hdeposit rfl)
  | withdraw m sigs =>
    simp only [execute, State.withdraw, State.whenNotPaused, avoids_bind, avoids_ensure,
      ensure_eq_ok, avoids_pure, true_and, implies_true, and_true]
    intro _ _ _ _ _ _ _ _ _ _ _ _
    have htotal := hwithdraw m sigs rfl
    have hbalance : ((s.balanceOf m.recipient).toNat : ℤ) ≤ s.totalSupply.toNat := hw.le m.recipient
    refine ⟨avoids_verifySignatures, fun _ _ _ _ => ?_⟩
    exact ⟨avoids_checkedAdd (by omega), fun _ _ => avoids_checkedAdd htotal⟩
  | approve | pause | unpause =>
    simp only [execute, State.approve, State.pause, State.unpause, State.whenNotPaused, avoids_bind,
      avoids_ensure, avoids_pure, true_and, implies_true]

/-- What the words of a reachable state count, and how they can get out of range. -/
structure InRange (h : Chain) (contract : Account) (tr : Trace State (Account × Call))
    (s : State) : Prop where
  nonce : s.depositNonce.toNat = deposits tr
  overflow : ∀ msgSender c, execute h contract msgSender s c = .error .arithmetic →
    (∃ m sigs, c = .withdraw m sigs ∧ 2 ^ 256 ≤ s.totalSupply.toNat + m.amount.toNat) ∨
      c.deposits = true ∧ deposits tr + 1 = 2 ^ 256

/--
The checked arithmetic stops no transfer, and no deposit before the nonces are
used up. It stops a withdrawal only if the supply itself does not fit.
-/
theorem words_in_range {G : Guard State (Account × Call)} (hr : (machine h contract).Run G tr s) :
    InRange h contract tr s := by
  obtain ⟨hnonce, hw⟩ := counted_run hr
  refine ⟨hnonce, fun msgSender c he => ?_⟩
  by_contra hn
  obtain ⟨hwithdraw, hdeposit⟩ := not_or.mp hn
  have hlt : s.depositNonce.toNat < 2 ^ 256 := s.depositNonce.isLt
  refine avoids_execute hw (fun m sigs hc => ?_) (fun hc => ?_) .arithmetic he rfl
  · by_contra hlarge
    exact hwithdraw ⟨m, sigs, hc, not_lt.mp hlarge⟩
  · by_contra hlast
    exact hdeposit ⟨hc, by omega⟩

end Range

section Sample

/-- The last byte of a signature names its signer. -/
def plainChain : Chain where
  keccak256 _ := 0
  ecrecover _ v _ _ := v.setWidth _

def launched : State :=
  { name := "Water Credit", symbol := "WCR", admin := 3, governance := 4, threshold := 1
    isRelayer := update (fun _ => false) 1 true, relayers := [1] }

theorem launched_init : (machine plainChain 9).init launched :=
  ⟨"Water Credit", "WCR", 3, 4, [1], 1, by rfl⟩

def arrival : Account × Call :=
  (8, .withdraw
    { sourceChain := 1, destinationChain := 2, nonce := 0, sender := 4, recipient := 5
      amount := 100 } [List.replicate 64 0 ++ [1]])

/-- The account `5` lets the account `6` draw fifty of them. -/
def granting : Account × Call := (5, .approve 6 50)

/-- The account `6` draws thirty and returns ten of them to the other chain. -/
def spending : List (Account × Call) := [(6, .transferFrom 5 6 30), (6, .deposit 10 0 7)]

def granted : State := (machine plainChain 9).calls launched [arrival, granting]

def spent : State := (machine plainChain 9).calls granted spending

set_option maxRecDepth 2000 in
theorem accounts_settled_spent : ∃ tr, Settled granted tr spent ∧
    (granted.balanceOf 5).toNat = 100 ∧ (spent.balanceOf 5).toNat = 70 ∧
    100 ≤ 70 + ∑ spender ∈ callers tr, (granted.allowance 5 spender).toNat := by
  have h0 := Machine.Run.init (m := (machine plainChain 9).startedIn granted)
    (G := Machine.anyCall) rfl
  have h1 := h0.call (l := (6, .transferFrom 5 6 30)) trivial (by decide)
  have h2 := h1.call (l := (6, .deposit 10 0 7)) trivial (by decide)
  obtain ⟨hsettled, hloss⟩ := accounts_settled h2
  refine ⟨_, hsettled, by decide, by decide, hloss 5 ?_⟩
  simp

set_option maxRecDepth 2000 in
theorem words_in_range_spent : ∃ tr, InRange plainChain 9 tr spent ∧ deposits tr = 1 := by
  have h1 := (Machine.Run.init (G := Machine.anyCall) launched_init).call (l := arrival) trivial
    (by decide)
  have h2 := h1.call (l := granting) trivial (by decide)
  have h3 := h2.call (l := (6, .transferFrom 5 6 30)) trivial (by decide)
  have h4 := h3.call (l := (6, .deposit 10 0 7)) trivial (by decide)
  exact ⟨_, words_in_range h4, by decide⟩

end Sample

end WaterCredits.Evm
