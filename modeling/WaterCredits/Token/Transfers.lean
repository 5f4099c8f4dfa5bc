import WaterCredits.Token.Batch

/-! # Batch transfers and single transfers

A batch debits its sender once and then credits each recipient; single transfers
debit and credit in turn. They accept the same batches and leave the same
balances when the sender is not a recipient.
-/

namespace WaterCredits.Token

open Foundation Function

variable {contract : Address} {W : Type} {e : Env contract} {R : Registry W}
  {s s' t : State} {sw : State × W} {sender recipient a : Address} {amount total : I128}
  {amounts : List I128} {pairs rest : List (Address × I128)}

def State.transferEach (e : Env contract) (sender : Address) :
    List (Address × I128) → State → Result State
  | [], s => return s
  | (recipient, amount) :: rest, s => do
    let s ← s.transfer e sender recipient amount
    transferEach e sender rest s

def State.transferBatch (e : Env contract) (s : State) (sender : Address)
    (pairs : List (Address × I128)) : Result State :=
  s.batchTransfer e sender (pairs.map Prod.fst) (pairs.map Prod.snd)

/-- The sum of the amounts that a batch pays to others than its sender. -/
def paidToOthers (sender : Address) (pairs : List (Address × I128)) : ℤ :=
  pairsTotal (pairs.filter fun p => p.1 ≠ sender)

section Balances

theorem creditLoop_balance (h : State.creditLoop pairs s = .ok t) (a : Address) :
    (t.balance a).val = (s.balance a).val + paidTo a pairs := by
  induction pairs generalizing s with
  | nil =>
    simp only [State.creditLoop, pure_eq_ok] at h
    rw [h, paidTo, add_zero]
  | cons p rest ih =>
    obtain ⟨recipient, amount⟩ := p
    simp only [State.creditLoop, bind_eq_ok, orOverflow_eq_ok, I128.checkedAdd_eq_some] at h
    obtain ⟨balance, hb, h⟩ := h
    rw [ih h, paidTo]
    simp only [State.saveBalance, update_apply, eq_comm (a := a)]
    split
    · rename_i ha
      rw [hb, ha]
      omega
    · omega

theorem paidTo_add_others (sender : Address) (pairs : List (Address × I128)) :
    paidTo sender pairs + paidToOthers sender pairs = pairsTotal pairs := by
  induction pairs with
  | nil => rfl
  | cons p rest ih =>
    unfold paidToOthers at ih ⊢
    rw [paidTo, List.filter_cons, pairsTotal_cons, ← ih]
    by_cases hp : p.1 = sender
    · simp [hp]
      omega
    · simp [hp]
      omega

/-- The total is computed exactly when the amounts are positive and their sum fits. -/
theorem batchTotal_accepts {total' : I128} (hpos : ∀ n ∈ amounts, 0 < n.val)
    (hsum : total'.val = total.val + (amounts.map I128.val).sum) :
    State.batchTotal amounts total = .ok total' := by
  induction amounts generalizing total with
  | nil =>
    rw [State.batchTotal, pure_eq_ok]
    exact I128.ext (by simpa using hsum.symm)
  | cons n rest ih =>
    obtain ⟨hn, hrest⟩ := List.forall_mem_cons.mp hpos
    rw [List.map_cons, List.sum_cons] at hsum
    have hnonneg : 0 ≤ (rest.map I128.val).sum := by
      apply List.sum_nonneg
      intro m hm
      obtain ⟨x, hx, rfl⟩ := List.mem_map.mp hm
      exact (hrest x hx).le
    have hfits : I128.Fits (total.val + n.val) := by
      have hl := total.le_val
      have hu := total'.val_lt
      exact ⟨by omega, by omega⟩
    have hnext : (total + n).val = total.val + n.val := I128.val_add hfits
    simp only [State.batchTotal, bind_eq_ok, ensure_eq_ok, orOverflow_eq_ok,
      I128.checkedAdd_eq_some]
    exact ⟨(), hn, total + n, hnext, ih hrest (by omega)⟩

theorem transferBatch_eq_ok : s.transferBatch e sender pairs = .ok t ↔
    pairs ≠ [] ∧ s.paused = false ∧ e.auth sender = true ∧ (∀ p ∈ pairs, 0 < p.2.val) ∧
      ∃ total : I128, total.val = pairsTotal pairs ∧ total ≤ s.balance sender ∧
        State.creditLoop pairs (s.saveBalance sender (s.balance sender - total)) = .ok t := by
  have hzip : (pairs.map Prod.fst).zip (pairs.map Prod.snd) = pairs :=
    (List.zip_of_prod rfl rfl).symm
  have hsum : ((pairs.map Prod.snd).map I128.val).sum = pairsTotal pairs := by
    simp [pairsTotal, Function.comp_def]
  have hmem : (∀ n ∈ pairs.map Prod.snd, 0 < n.val) ↔ ∀ p ∈ pairs, 0 < p.2.val :=
    List.forall_mem_map
  simp only [State.transferBatch, State.batchTransfer, bind_eq_ok, ensure_eq_ok,
    State.requireNotPaused_eq_ok, Env.requireAuth_eq_ok, hzip]
  constructor
  · rintro ⟨_, -, _, hne, _, hp, _, ha, total, htotal, _, hle, h⟩
    obtain ⟨hpos, htotal⟩ := batchTotal_eq_ok htotal
    rw [hsum, I128.val_zero, zero_add] at htotal
    exact ⟨by simpa using hne, hp, ha, hmem.mp hpos, total, htotal, hle, h⟩
  · rintro ⟨hne, hp, ha, hpos, total, htotal, hle, h⟩
    have hbatch : State.batchTotal (pairs.map Prod.snd) 0 = .ok total :=
      batchTotal_accepts (hmem.mpr hpos) (by rw [hsum, htotal, I128.val_zero, zero_add])
    exact ⟨(), by simp, (), by simpa using hne, (), hp, (), ha, total, hbatch, (), hle, h⟩

end Balances

section Single

theorem transferEach_checks (hno : ∀ p ∈ pairs, p.1 ≠ sender)
    (h : State.transferEach e sender pairs s = .ok t) :
    (pairs ≠ [] → s.paused = false ∧ e.auth sender = true ∧
      pairsTotal pairs ≤ (s.balance sender).val) ∧ ∀ p ∈ pairs, 0 < p.2.val := by
  induction pairs generalizing s with
  | nil => simp
  | cons p rest ih =>
    obtain ⟨recipient, amount⟩ := p
    obtain ⟨hr, hrest⟩ := List.forall_mem_cons.mp hno
    simp only [State.transferEach, State.transfer, bind_eq_ok, ensure_eq_ok,
      State.requireNotPaused_eq_ok, Env.requireAuth_eq_ok, moveBalance_eq_ok] at h
    obtain ⟨u, ⟨_, h0, _, hp, _, ha, hle, credited, -, rfl⟩, h⟩ := h
    have h0 : 0 < amount.val := h0
    have hbalance : (((s.saveBalance sender (s.balance sender - amount)).saveBalance recipient
        credited).balance sender).val = (s.balance sender).val - amount.val := by
      rw [← I128.val_sub_of_le h0.le hle]
      simp [State.saveBalance, update_of_ne (Ne.symm hr)]
    obtain ⟨hchecks, hpos⟩ := ih hrest h
    refine ⟨fun _ => ⟨hp, ha, ?_⟩, List.forall_mem_cons.mpr ⟨h0, hpos⟩⟩
    rw [pairsTotal_cons]
    by_cases hnil : rest = []
    · rw [hnil]
      simpa [pairsTotal] using hle
    · have hsum := (hchecks hnil).2.2
      rw [hbalance] at hsum
      simp only
      omega

/-- The storage after a transfer that leaves its recipient with `credited`. -/
def State.moved (s : State) (sender recipient : Address) (amount credited : I128) : State :=
  (s.saveBalance sender (s.balance sender - amount)).saveBalance recipient credited

theorem moved_sender {credited : I128} (hr : recipient ≠ sender) :
    (s.moved sender recipient amount credited).balance sender = s.balance sender - amount := by
  simp [State.moved, State.saveBalance, update_of_ne (Ne.symm hr)]

/-- A transfer that its checks let through credits its recipient, unless the credit overflows. -/
theorem transfer_eq_credit (hp : s.paused = false) (ha : e.auth sender = true)
    (h0 : 0 < amount.val) (hle : amount.val ≤ (s.balance sender).val) :
    s.transfer e sender recipient amount =
      s.moved sender recipient amount <$> orOverflow ((s.balance recipient).checkedAdd amount) := by
  have hpos : (0 : I128) < amount := h0
  have hle : amount ≤ s.balance sender := hle
  simp [State.transfer, State.moveBalance, State.requireNotPaused, Env.requireAuth, ensure, require,
    hp, ha, hpos, hle, ok_bind]
  rfl

theorem moved_paid {credited : I128} (hr : recipient ≠ sender) (h0 : 0 ≤ amount.val)
    (hfirst : amount.val ≤ total.val) (hle : total.val ≤ (s.balance sender).val) :
    (s.moved sender recipient amount credited).saveBalance sender
        ((s.moved sender recipient amount credited).balance sender - (total - amount)) =
      (s.saveBalance sender (s.balance sender - total)).saveBalance recipient credited := by
  rw [moved_sender hr, I128.sub_sub_sub_of_le h0 hfirst hle]
  simp only [State.moved, State.saveBalance, update_comm hr, update_idem]

theorem transferEach_eq_loop (hp : s.paused = false) (ha : e.auth sender = true)
    (hno : ∀ p ∈ pairs, p.1 ≠ sender) (hpos : ∀ p ∈ pairs, 0 < p.2.val)
    (htotal : total.val = pairsTotal pairs) (hle : total.val ≤ (s.balance sender).val) :
    State.transferEach e sender pairs s =
      State.creditLoop pairs (s.saveBalance sender (s.balance sender - total)) := by
  induction pairs generalizing s total with
  | nil =>
    have hzero : total = 0 := I128.ext htotal
    have hsame : s.balance sender - total = s.balance sender := by
      rw [hzero]
      exact I128.sub_zero _
    rw [State.transferEach, State.creditLoop, hsame]
    simp [State.saveBalance]
  | cons p rest ih =>
    obtain ⟨recipient, amount⟩ := p
    obtain ⟨hr, hno⟩ := List.forall_mem_cons.mp hno
    obtain ⟨h0, hpos⟩ := List.forall_mem_cons.mp hpos
    have htotal : total.val = amount.val + pairsTotal rest := htotal.trans (pairsTotal_cons _)
    have h0 : 0 < amount.val := h0
    have hnonneg := pairsTotal_nonneg hpos
    have hfirst : amount.val ≤ total.val := by omega
    have hrecipient : (s.saveBalance sender (s.balance sender - total)).balance recipient =
        s.balance recipient := update_of_ne hr ..
    rw [State.transferEach, State.creditLoop, hrecipient,
      transfer_eq_credit hp ha h0 (hfirst.trans hle)]
    cases orOverflow ((s.balance recipient).checkedAdd amount) with
    | error => rfl
    | ok credited =>
      have hleft : (total - amount).val = total.val - amount.val := I128.val_sub_of_le h0.le hfirst
      have hpaid : ((s.moved sender recipient amount credited).balance sender).val =
          (s.balance sender).val - amount.val := by
        rw [moved_sender hr]
        exact I128.val_sub_of_le h0.le (hfirst.trans hle)
      have hloop := @ih (s.moved sender recipient amount credited) (total - amount) hp hno hpos
        (by omega) (by omega)
      rw [moved_paid hr h0.le hfirst hle] at hloop
      exact hloop

end Single

structure State.BatchPays (R : Registry W) (e : Env contract) (sw : State × W) (sender : Address)
    (pairs : List (Address × I128)) : Prop where
  others : ∀ t, sw.1.transferBatch e sender pairs = .ok t → ∀ a, a ≠ sender →
    (t.balance a).val = (sw.1.balance a).val + paidTo a pairs
  debit : ∀ t, sw.1.transferBatch e sender pairs = .ok t →
    (t.balance sender).val = (sw.1.balance sender).val - paidToOthers sender pairs
  failing : (∀ t, sw.1.transferBatch e sender pairs ≠ .ok t) →
    (machine contract R).call sw
      (e, .batchTransfer sender (pairs.map Prod.fst) (pairs.map Prod.snd)) = sw

/-- How a batch transfer of some pairs compares with single transfers. -/
structure State.BatchMoves (R : Registry W) (e : Env contract) (sw : State × W) (sender : Address)
    (pairs : List (Address × I128)) : Prop extends State.BatchPays R e sw sender pairs where
  agrees : (∀ p ∈ pairs, p.1 ≠ sender) → ∀ t, sw.1.transferBatch e sender pairs = .ok t ↔
    State.transferEach e sender pairs sw.1 = .ok t

theorem batchTransfer_pays (R : Registry W) (e : Env contract) (sw : State × W)
    (sender : Address) : State.BatchPays R e sw sender pairs := by
  constructor
  · intro t h a hne
    obtain ⟨-, -, -, -, total, -, -, h⟩ := transferBatch_eq_ok.mp h
    rw [creditLoop_balance h]
    simp only [State.saveBalance, update_of_ne hne]
  · intro t h
    obtain ⟨-, -, -, hpos, total, htotal, hle, h⟩ := transferBatch_eq_ok.mp h
    have hnonneg := pairsTotal_nonneg hpos
    have hsum := paidTo_add_others sender pairs
    rw [creditLoop_balance h]
    simp only [State.saveBalance, update_self]
    rw [I128.val_sub_of_le (htotal ▸ hnonneg) hle]
    omega
  · intro hno
    rcases Machine.call_cases (m := machine contract R) sw
      (e, .batchTransfer sender (pairs.map Prod.fst) (pairs.map Prod.snd)) with hc | hc
    · exact hc
    · exact absurd (within_eq_ok.mp hc).1 (hno _)

/-- A batch of at least one pair does what single transfers do, and an empty one is rejected. -/
theorem batchTransfer_moves (R : Registry W) (e : Env contract) (sw : State × W)
    (sender : Address) (pairs : List (Address × I128)) :
    State.BatchPays R e sw sender pairs ∧
      (pairs ≠ [] → State.BatchMoves R e sw sender pairs) ∧
      sw.1.transferBatch e sender [] = .error (.message "empty batch") := by
  refine ⟨batchTransfer_pays R e sw sender, fun hne => ⟨batchTransfer_pays R e sw sender, ?_⟩, rfl⟩
  intro hno t
  constructor
  · intro h
    obtain ⟨-, hp, ha, hpos, total, htotal, hle, h⟩ := transferBatch_eq_ok.mp h
    rwa [transferEach_eq_loop hp ha hno hpos htotal hle]
  · intro h
    obtain ⟨hchecks, hpos⟩ := transferEach_checks hno h
    obtain ⟨hp, ha, hle⟩ := hchecks hne
    have hnonneg := pairsTotal_nonneg hpos
    have hlt := (sw.1.balance sender).val_lt
    have htotal : (I128.wrap (pairsTotal pairs)).val = pairsTotal pairs :=
      I128.val_wrap ⟨by omega, by omega⟩
    rw [transferEach_eq_loop hp ha hno hpos htotal (htotal.trans_le hle)] at h
    exact transferBatch_eq_ok.mpr ⟨hne, hp, ha, hpos, _, htotal, htotal.trans_le hle, h⟩

section Sample

/-- The environment of a sample call by the account `1`. -/
abbrev payerEnv : Env home := (signedBy 1 (.acceptAdmin home)).1

/-- The account `2` is paid twice. -/
theorem batchTransfer_moves_funded :
    State.BatchMoves closedRegistry payerEnv funded (.account 1)
        [(.account 2, 3), (.account 2, 4)] ∧
      ∃ t, State.transferEach payerEnv (.account 1) [(.account 2, 3), (.account 2, 4)] funded.1 =
        .ok t ∧ (t.balance (.account 2)).val = 7 := by
  have h : State.BatchMoves closedRegistry payerEnv funded (.account 1)
      [(.account 2, 3), (.account 2, 4)] :=
    (batchTransfer_moves _ _ _ _ _).2.1 (by decide)
  obtain ⟨t, ht⟩ : ∃ t, funded.1.transferBatch payerEnv (.account 1)
      [(.account 2, 3), (.account 2, 4)] = .ok t := ⟨_, rfl⟩
  have hpaid : (t.balance (.account 2)).val =
      (funded.1.balance (.account 2)).val +
        paidTo (.account 2) [(.account 2, 3), (.account 2, 4)] :=
    h.others t ht (.account 2) (by decide)
  exact ⟨h, t, (h.agrees (by decide) t).mp ht, hpaid.trans (by decide)⟩

/-- No transfer is made by an empty list, which a batch rejects. -/
theorem empty_batch_rejected :
    ¬ State.BatchMoves closedRegistry adminEnv deployed (.account 0) [] := by
  intro h
  have hsingle : State.transferEach adminEnv (.account 0) [] deployed.1 = .ok deployed.1 := rfl
  have hbatch := (h.agrees (by simp) deployed.1).mpr hsingle
  exact (transferBatch_eq_ok.mp hbatch).1 rfl

end Sample

end WaterCredits.Token
