import WaterCredits.Market.Book

/-! # Solvency of the marketplace

Each call moves the reserves of the orders and the balances of the contract
together, so that the balances cover the reserves in every run. What an order
has paid out and what it still reserves is never more than what was escrowed
for it.
-/

namespace WaterCredits.Market

open Foundation Function

variable {contract : Address} {W : Type} {T : Tokens W} {e : Env contract} {s s' : State}
  {w w' : W} {id : UInt64} {o : Order} {held : W → Address → ℤ} {taker : Address} {n : I128}
  {sw sw' : State × W} {p p' d d' : UInt64 → ℤ}
  {tr : Trace (State × W) (Event contract W)}

instance finite_uint64 :
    Finite UInt64 := Finite.of_injective UInt64.toFin fun _ _ => UInt64.toFin_inj.mp

/-- An amount that concerns one order only. -/
def entry (id : UInt64) (x : ℤ) : UInt64 → ℤ := fun i => if id = i then x else 0

@[simp] theorem entry_zero (id : UInt64) : entry id 0 = 0 := by
  ext i
  exact ite_self 0

namespace State

def reserved (s : State) (id : UInt64) : ℤ :=
  match s.order id with
  | some o => o.reserve
  | none => 0

def owed (s : State) (token : Address) (id : UInt64) : ℤ :=
  match s.order id with
  | some o => if o.escrowToken = token then o.reserve else 0
  | none => 0

/-- What an order needed in escrow when it was created. -/
def placed (s : State) (id : UInt64) : ℤ :=
  match s.order id with
  | some o => o.cover o.amount.val
  | none => 0

/-- What filling some credits of an order takes from the escrow: for a buy order, payout and fee. -/
def fillPayment (s : State) (id : UInt64) (n : I128) : ℤ :=
  match s.order id with
  | none => 0
  | some o =>
    match o.side with
    | .sell => n.val
    | .buy =>
      match s.quote o n with
      | .ok (payout, fee) => payout.val + fee.val
      | .error _ => 0

/-- What cancelling an order takes from the escrow. -/
def refund (s : State) (id : UInt64) : ℤ :=
  match s.order id with
  | none => 0
  | some o =>
    match o.side with
    | .sell => o.remaining
    | .buy => o.costOf o.remaining

end State

def Call.paid (s : State) : Call → UInt64 → ℤ
  | .fillOrder _ orderId fillAmount => entry orderId (s.fillPayment orderId fillAmount)
  | .batchFillOrders _ orderIds fillAmounts =>
      ((orderIds.zip fillAmounts).map fun p => entry p.1 (s.fillPayment p.1 p.2)).sum
  | .cancelOrder _ orderId => entry orderId (s.refund orderId)
  | _ => 0

def Call.escrowed (s : State) : Call → UInt64 → ℤ
  | .createSellOrder _ _ _ amount _ => entry (s.orderCount + 1) amount.val
  | .createBuyOrder _ _ _ amount pricePerCredit =>
      match calculateCost amount pricePerCredit with
      | .ok totalCost => entry (s.orderCount + 1) totalCost.val
      | .error _ => 0
  | _ => 0

def Event.paid (s : State) : Event contract W → UInt64 → ℤ
  | .call _ c => c.paid s
  | .outside _ => 0

def Event.escrowed (s : State) : Event contract W → UInt64 → ℤ
  | .call _ c => c.escrowed s
  | .outside _ => 0

/-- The payments of a run out of the escrow of each order. -/
def paidOut (tr : Trace (State × W) (Event contract W)) : UInt64 → ℤ :=
  (tr.map fun st => st.label.paid st.before.1).sum

/-- The deposits of a run into the escrow of each order. -/
def paidIn (tr : Trace (State × W) (Event contract W)) : UInt64 → ℤ :=
  (tr.map fun st => st.label.escrowed st.before.1).sum

/-- Outside its own calls nobody takes from the balances of the contract. -/
def Undisturbed (held : W → Address → ℤ) : Guard (State × W) (Event contract W)
  | _, _, .call _ _ => True
  | _, sw, .outside w' => ∀ t, held sw.2 t ≤ held w' t

section Excess

variable {token : Address} {balance : W → ℤ}

/-- What the contract holds of a token beyond the reserves of the orders. -/
noncomputable def excess (balance : W → ℤ) (token : Address) (sw : State × W) : ℤ :=
  balance sw.2 - ∑ᶠ id, sw.1.owed token id

theorem excess_idle (ho : s'.order = s.order) (hw : balance w ≤ balance w') :
    excess balance token (s, w) ≤ excess balance token (s', w') := by
  have howed : s'.owed token = s.owed token := by
    ext id
    simp only [State.owed, ho]
  unfold excess
  simp only [howed]
  omega

theorem excess_one (ho : s'.order = update s.order id (some o))
    (hw : balance w - s.owed token id + (if o.escrowToken = token then o.reserve else 0) ≤
      balance w') :
    excess balance token (s, w) ≤ excess balance token (s', w') := by
  have howed : s'.owed token =
      update (s.owed token) id (if o.escrowToken = token then o.reserve else 0) := by
    ext i
    rcases eq_or_ne i id with rfl | hne
    · simp [State.owed, ho]
    · simp [State.owed, ho, update_of_ne hne]
  unfold excess
  simp only [howed, finsum_update (Set.toFinite _)]
  omega

variable (hc : Steward contract T token balance)

include hc

theorem internalFillOrder_excess (ht : taker ≠ contract) (hr : s.Ready)
    (h : s.internalFillOrder T e taker id n w = .ok (s', w')) :
    excess balance token (s, w) ≤ excess balance token (s', w') := by
  obtain ⟨hn, o, payout, fee, filledAmount, ho, hlive, -, hq, hsettle, hfill, -, -, hs, -⟩ :=
    internalFillOrder_cases h
  rw [(hr.valid id o ho).key] at hs
  have hpart := Order.reserve_fill hlive hfill
  have hheld := settle_held hc ht hr.fee hn hq hsettle
  have htoken : (o.fill filledAmount).escrowToken = o.escrowToken := rfl
  apply excess_one hs
  rw [State.owed, ho, htoken]
  simp only
  split_ifs at hheld ⊢ <;> omega

theorem fillLoop_excess (ht : taker ≠ contract) {fills : List (UInt64 × I128)} (hr : s.Ready)
    (h : State.fillLoop T e taker fills s w = .ok (s', w')) :
    excess balance token (s, w) ≤ excess balance token (s', w') := by
  refine (fillLoop_invariant (I := fun s₁ w₁ => s₁.Ready ∧
    excess balance token (s, w) ≤ excess balance token (s₁, w₁)) ?_ ⟨hr, le_rfl⟩ h).2
  rintro s₁ w₁ id n s₂ w₂ ⟨hr, hle⟩ h1
  exact ⟨internalFillOrder_ready hr h1, hle.trans (internalFillOrder_excess hc ht hr h1)⟩

theorem createOrder_excess {side : OrderSide} {maker creditToken paymentToken : Address}
    {amount price : I128} {newId : UInt64} (hr : s.Ready)
    (h : s.createOrder T e side maker creditToken paymentToken amount price w =
      .ok (newId, s', w')) :
    excess balance token (s, w) ≤ excess balance token (s', w') := by
  obtain ⟨hauth, hcount, totalCost, hcost, o, hnew, -, -, -, -, hw, -, -, hs, -⟩ :=
    createOrder_cases h
  have hfree : s.order (s.orderCount + 1) = none := hr.fresh _ (lt_next hcount)
  apply excess_one hs
  rw [State.owed, hfree, hnew.reserve_eq, hnew.cover_eq]
  simpa using hc.deposited (e.ne_self hauth) hw

theorem cancelOrder_excess {maker : Address} (hr : s.Ready)
    (h : s.cancelOrder T e maker id w = .ok (s', w')) :
    excess balance token (s, w) ≤ excess balance token (s', w') := by
  obtain ⟨o, refund, ho, hlive, hval, -, -, hw, -, -, hs, -⟩ := cancelOrder_cases h
  have hv := hr.valid id o ho
  rw [hv.key] at hs
  apply excess_one hs
  rw [State.owed, ho]
  simp only [Order.reserve_cancel, ite_self, add_zero, ← hval]
  rcases ifPositive_cases hw with ⟨h0, hw⟩ | ⟨h0, rfl⟩
  · exact hc.outgoing h0.le hw
  · have h0' := hv.reserve_nonneg
    split <;> omega

end Excess

/-- A change that keeps what is held beyond the reserves, while `p` is paid and `d` deposited. -/
structure Moves (held : W → Address → ℤ) (p d : UInt64 → ℤ) (sw sw' : State × W) : Prop where
  ready : sw'.1.Ready
  surplus : ∀ t, held sw.2 t - ∑ᶠ id, sw.1.owed t id ≤ held sw'.2 t - ∑ᶠ id, sw'.1.owed t id
  reserved : ∀ id, p id + sw'.1.reserved id ≤ sw.1.reserved id + d id
  placed : ∀ id, sw'.1.placed id = sw.1.placed id + d id

namespace Moves

theorem refl (hr : sw.1.Ready) : Moves held 0 0 sw sw :=
  ⟨hr, fun _ => le_rfl, fun _ => by simp, fun _ => by simp⟩

theorem trans {sw'' : State × W} (h : Moves held p d sw sw')
    (h' : Moves held p' d' sw' sw'') :
    Moves held (p + p') (d + d') sw sw'' := by
  constructor
  · exact h'.ready
  · exact fun t => (h.surplus t).trans (h'.surplus t)
  · intro id
    have h1 := h.reserved id
    have h2 := h'.reserved id
    simp only [Pi.add_apply]
    omega
  · intro id
    rw [h'.placed, h.placed, Pi.add_apply, add_assoc]

theorem idle (hr : s.Ready) (ho : s'.order = s.order) (hc : s'.orderCount = s.orderCount)
    (hf : s'.feeBps ≤ MAX_FEE_BPS) (hw : ∀ t, held w t ≤ held w' t) :
    Moves held 0 0 (s, w) (s', w') := by
  constructor
  · exact ⟨hf, ho ▸ hr.valid, by rw [ho, hc]; exact hr.fresh⟩
  · intro t
    have hexcess : excess (held · t) t (s, w) ≤ excess (held · t) t (s', w') :=
      excess_idle ho (hw t)
    exact hexcess
  · intro id
    simp [State.reserved, ho]
  · intro id
    simp [State.placed, ho]

theorem one {x y : ℤ} (hr : s'.Ready) (ho : s'.order = update s.order id (some o))
    (hexcess : ∀ t, excess (held · t) t (s, w) ≤ excess (held · t) t (s', w'))
    (hx : x + o.reserve ≤ s.reserved id + y) (hy : o.cover o.amount.val = s.placed id + y) :
    Moves held (entry id x) (entry id y) (s, w) (s', w') := by
  constructor
  · exact hr
  · exact hexcess
  · intro i
    rcases eq_or_ne i id with rfl | hne
    · simpa [entry, State.reserved, ho] using hx
    · simp [entry, State.reserved, ho, update_of_ne hne, hne.symm]
  · intro i
    rcases eq_or_ne i id with rfl | hne
    · simpa [entry, State.placed, ho] using hy
    · simp [entry, State.placed, ho, update_of_ne hne, hne.symm]

end Moves

theorem fillPayment_eq {payout fee : I128} (hb : s.feeBps ≤ MAX_FEE_BPS)
    (ho : s.order id = some o) (hq : s.quote o n = .ok (payout, fee)) :
    s.fillPayment id n = o.cover n.val := by
  obtain ⟨-, -, hsum⟩ := quote_cases hb hq
  unfold State.fillPayment Order.cover
  rw [ho]
  cases hside : o.side with
  | sell => simp [hside]
  | buy => simp [hside, hq, hsum]

theorem internalFillOrder_moves (hc : Custody contract T held) (ht : taker ≠ contract)
    (hr : s.Ready) (h : s.internalFillOrder T e taker id n w = .ok (s', w')) :
    Moves held (entry id (s.fillPayment id n)) 0 (s, w) (s', w') := by
  have hr' := internalFillOrder_ready hr h
  have hexcess (t : Address) := internalFillOrder_excess (hc.of t).steward ht hr h
  obtain ⟨-, o, payout, fee, filledAmount, ho, hlive, -, hq, -, hfill, -, -, hs, -⟩ :=
    internalFillOrder_cases h
  rw [(hr.valid id o ho).key] at hs
  have hpart := Order.reserve_fill hlive hfill
  have hpay := fillPayment_eq hr.fee ho hq
  rw [← entry_zero id]
  apply Moves.one hr' hs hexcess
  · rw [hpay, State.reserved, ho]
    simp only
    omega
  · rw [State.placed, ho, add_zero]
    rfl

theorem internalFillOrder_order (hr : s.Ready)
    (h : s.internalFillOrder T e taker id n w = .ok (s', w')) :
    (∀ oi m, s'.quote oi m = s.quote oi m) ∧ ∀ i, s'.order i = s.order i ∨
      ∃ o f, s.order i = some o ∧ s'.order i = some (Order.fill o f) := by
  obtain ⟨-, o, payout, fee, f, ho, -, -, -, -, -, hfee, -, hs, -⟩ := internalFillOrder_cases h
  rw [(hr.valid id o ho).key] at hs
  refine ⟨fun oi m => by simp only [State.quote, hfee], fun i => ?_⟩
  rw [hs]
  by_cases hi : i = id
  · subst hi
    exact .inr ⟨o, f, ho, update_self ..⟩
  · exact .inl (update_of_ne hi ..)

theorem fillPayment_stable (hr : s.Ready)
    (h : s.internalFillOrder T e taker id n w = .ok (s', w')) : s'.fillPayment = s.fillPayment := by
  obtain ⟨hquote, horder⟩ := internalFillOrder_order hr h
  ext i m
  unfold State.fillPayment
  simp only [hquote]
  rcases horder i with hi | ⟨o, f, ho, hi⟩
  · rw [hi]
  · rw [hi, ho]
    rfl

theorem fillLoop_moves (hc : Custody contract T held) (ht : taker ≠ contract)
    {fills : List (UInt64 × I128)} (hr : s.Ready)
    (h : State.fillLoop T e taker fills s w = .ok (s', w')) :
    Moves held (fills.map fun p => entry p.1 (s.fillPayment p.1 p.2)).sum 0 (s, w) (s', w') := by
  induction fills generalizing s w with
  | nil =>
    cases h
    exact .refl hr
  | cons p rest ih =>
    obtain ⟨id, n⟩ := p
    simp only [State.fillLoop, bind_eq_ok] at h
    obtain ⟨⟨s₁, w₁⟩, h1, h2⟩ := h
    have hfirst := internalFillOrder_moves hc ht hr h1
    have hrest := ih hfirst.ready h2
    rw [fillPayment_stable hr h1] at hrest
    have hboth := hfirst.trans hrest
    rwa [add_zero] at hboth

theorem createOrder_moves {side : OrderSide} {maker creditToken paymentToken : Address}
    {amount price : I128} {newId : UInt64} (hc : Custody contract T held) (hr : s.Ready)
    (h : s.createOrder T e side maker creditToken paymentToken amount price w =
      .ok (newId, s', w')) :
    ∃ totalCost, calculateCost amount price = .ok totalCost ∧
      Moves held 0 (entry (s.orderCount + 1) (side.deposit amount totalCost).val) (s, w)
        (s', w') := by
  have hready := createOrder_ready hr h
  have hexcess (t : Address) := createOrder_excess (hc.of t).steward hr h
  obtain ⟨-, hcount, totalCost, hcost, o, hnew, -, -, -, -, -, -, -, ho, -⟩ :=
    createOrder_cases h
  have hfree : s.order (s.orderCount + 1) = none := hr.fresh _ (lt_next hcount)
  refine ⟨totalCost, hcost, ?_⟩
  rw [← entry_zero (s.orderCount + 1)]
  apply Moves.one hready ho hexcess
  · rw [State.reserved, hfree, hnew.reserve_eq, hnew.cover_eq]
  · rw [State.placed, hfree, hnew.cover_eq]
    simp

theorem cancelOrder_moves {maker : Address} (hc : Custody contract T held) (hr : s.Ready)
    (h : s.cancelOrder T e maker id w = .ok (s', w')) :
    Moves held (entry id (s.refund id)) 0 (s, w) (s', w') := by
  have hr' := cancelOrder_ready hr h
  have hexcess (t : Address) := cancelOrder_excess (hc.of t).steward hr h
  obtain ⟨o, refund, ho, hlive, -, -, -, -, -, -, hs, -⟩ := cancelOrder_cases h
  rw [(hr.valid id o ho).key] at hs
  have hrefund : s.refund id = o.reserve := by
    rw [State.refund, ho, Order.reserve, if_pos hlive]
    unfold Order.cover
    cases hside : o.side <;> simp [hside]
  rw [← entry_zero id]
  apply Moves.one hr' hs hexcess
  · rw [hrefund, State.reserved, ho, Order.reserve_cancel]
  · rw [State.placed, ho, add_zero]
    rfl

theorem execute_moves {c : Call} (hc : Custody contract T held) (hr : s.Ready)
    (h : execute T e s w c = .ok (s', w')) :
    Moves held (c.paid s) (c.escrowed s) (s, w) (s', w') := by
  cases c with
  | initialise => simp [execute, Market.initialise] at h
  | setAdmin | setFee | pause | unpause =>
    obtain ⟨ho, hcount, -, hfee, rfl⟩ := execute_administers rfl h
    exact .idle hr ho hcount (hfee.elim (fun heq => heq ▸ hr.fee) fun hle => hle) fun _ => le_rfl
  | createSellOrder =>
    obtain ⟨_, h⟩ := discard_eq_ok.mp h
    obtain ⟨_, -, hmoves⟩ := createOrder_moves hc hr h
    exact hmoves
  | createBuyOrder =>
    obtain ⟨_, h⟩ := discard_eq_ok.mp h
    obtain ⟨_, hcost, hmoves⟩ := createOrder_moves hc hr h
    simp only [Call.escrowed, hcost]
    exact hmoves
  | fillOrder =>
    simp only [execute, State.fillOrder, bind_eq_ok, Env.requireAuth_eq_ok] at h
    obtain ⟨_, -, _, hauth, h⟩ := h
    exact internalFillOrder_moves hc (e.ne_self hauth) hr h
  | batchFillOrders =>
    simp only [execute, State.batchFillOrders, bind_eq_ok, Env.requireAuth_eq_ok] at h
    obtain ⟨_, -, _, hauth, _, -, _, -, h⟩ := h
    exact fillLoop_moves hc (e.ne_self hauth) hr h
  | cancelOrder => exact cancelOrder_moves hc hr h

theorem step_moves {ev : Event contract W} (hc : Custody contract T held) (hr : sw.1.Ready)
    (hg : Undisturbed held tr sw ev) (h : step T ev sw = .ok sw') :
    Moves held (ev.paid sw.1) (ev.escrowed sw.1) sw sw' := by
  cases ev with
  | call e c => exact execute_moves hc hr h
  | outside w =>
    cases h
    exact .idle hr rfl rfl hr.fee hg

/-- What holds of a marketplace after a run. -/
structure Sound (held : W → Address → ℤ) (tr : Trace (State × W) (Event contract W))
    (sw : State × W) : Prop where
  ready : sw.1.Ready
  covered : ∀ t, ∑ᶠ id, sw.1.owed t id ≤ held sw.2 t
  paid : ∀ id, paidOut tr id + sw.1.reserved id ≤ paidIn tr id
  placed : ∀ id, paidIn tr id = sw.1.placed id

theorem Moves.sound {ev : Event contract W} (h : Sound held tr sw)
    (hm : Moves held (ev.paid sw.1) (ev.escrowed sw.1) sw sw') :
    Sound held (⟨sw, ev, sw'⟩ :: tr) sw' := by
  constructor
  · exact hm.ready
  · intro t
    have hc := h.covered t
    have hs := hm.surplus t
    omega
  · intro id
    have hp := h.paid id
    have hr := hm.reserved id
    simp only [paidOut, paidIn, List.map_cons, List.sum_cons, Pi.add_apply] at hp ⊢
    omega
  · intro id
    have hp := h.placed id
    rw [hm.placed id, ← hp]
    simp only [paidIn, List.map_cons, List.sum_cons, Pi.add_apply, add_comm]

theorem sound_init (hc : Custody contract T held) (h : (machine contract T).init sw) :
    Sound held ([] : Trace (State × W) (Event contract W)) sw := by
  obtain ⟨s, w⟩ := sw
  obtain ⟨admin, feeBps, feeRecipient, h⟩ := h
  obtain ⟨-, hfee, rfl⟩ := initialise_eq_ok.mp h
  constructor
  · exact ⟨hfee, fun _ _ ho => absurd ho.symm (Option.some_ne_none _), fun _ _ => rfl⟩
  · intro t
    simp only [State.owed, finsum_zero]
    exact hc.nonneg w t
  · exact fun _ => le_rfl
  · exact fun _ => rfl

/--
The balances of the contract cover the reserves of all orders, and no order pays
out more than was escrowed for it when it was created.
-/
theorem escrow_solvent (hc : Custody contract T held)
    (h : (machine contract T).Run (Undisturbed held) tr sw) :
    (∀ t, ∑ᶠ id, sw.1.owed t id ≤ held sw.2 t) ∧
      ∀ id o, sw.1.order id = some o →
        paidIn tr id = o.cover o.amount.val ∧ paidOut tr id ≤ o.cover o.amount.val := by
  have hsound : Sound held tr sw := h.invariant (I := Sound held) (fun _ => sound_init hc)
    fun _ _ _ _ _ hi hg hs => (step_moves hc hi.ready hg hs).sound hi
  refine ⟨hsound.covered, fun id o ho => ?_⟩
  have hpaid := hsound.paid id
  have hplaced := hsound.placed id
  have hreserve := (hsound.ready.valid id o ho).reserve_nonneg
  rw [State.reserved, ho] at hpaid
  rw [State.placed, ho] at hplaced
  simp only at hpaid hplaced
  exact ⟨hplaced, by omega⟩

section Sample

def heldBy (holder : Address) (w : Holdings) (token : Address) : ℤ := w token holder

theorem move_held {w w' : Holdings} {holder token sender recipient : Address} {amount : I128}
    (h : w.move token sender recipient amount = .ok w') :
    heldBy holder w' token = heldBy holder w token - (if sender = holder then amount.val else 0) +
        (if recipient = holder then amount.val else 0) ∧
      ∀ t, t ≠ token → heldBy holder w t ≤ heldBy holder w' t := by
  simp only [Holdings.move, bind_eq_ok, ensure_eq_ok, pure_eq_ok] at h
  obtain ⟨_, ⟨h0, hle⟩, rfl⟩ := h
  constructor
  · simp only [heldBy, update_self]
    rw [Int.toNat_of_nonneg]
    rcases eq_or_ne sender holder with rfl | hne
    · simp only [if_true]
      split <;> omega
    · rw [if_neg hne]
      split <;> omega
  · intro t ht
    simp only [heldBy, update_of_ne ht, le_refl]

theorem plainTokens_custody : Custody market plainTokens (heldBy market) where
  nonneg _ _ := Int.natCast_nonneg _
  transfer _ _ _ _ _ _ _ h := move_held h
  transferFrom _ _ _ _ _ _ _ _ h := move_held h

/-- An order for ten credits at one and a half is filled in two parts, and then cancelled. -/
def traded : State × Holdings :=
  (machine market plainTokens).calls opened [
    signedBy 1 (.createBuyOrder (.account 1) (.contract 7) (.contract 8) 10 15000000),
    signedBy 2 (.fillOrder (.account 2) 1 3), signedBy 2 (.fillOrder (.account 2) 1 3),
    signedBy 1 (.cancelOrder (.account 1) 1)]

theorem traded_run : ∃ tr,
    (machine market plainTokens).Run (Undisturbed (heldBy market)) tr traded ∧
      paidIn tr 1 = 15 ∧ paidOut tr 1 = 14 := by
  have h0 := Machine.Run.init (m := machine market plainTokens)
    (G := Undisturbed (heldBy market)) (s := opened) ⟨.account 0, 1000, .account 0, by rfl⟩
  have h1 := h0.call
    (l := signedBy 1 (.createBuyOrder (.account 1) (.contract 7) (.contract 8) 10 15000000))
    trivial (by rfl)
  have h2 := h1.call (l := signedBy 2 (.fillOrder (.account 2) 1 3)) trivial (by rfl)
  have h3 := h2.call (l := signedBy 2 (.fillOrder (.account 2) 1 3)) trivial (by rfl)
  have h4 := h3.call (l := signedBy 1 (.cancelOrder (.account 1) 1)) trivial (by rfl)
  exact ⟨_, h4, by rfl, by rfl⟩

theorem escrow_solvent_traded : heldBy market traded.2 (.contract 8) = 1 ∧
    ∃ tr, (machine market plainTokens).Run (Undisturbed (heldBy market)) tr traded ∧
      (∀ t, ∑ᶠ id, traded.1.owed t id ≤ heldBy market traded.2 t) ∧
      ∀ id o, traded.1.order id = some o →
        paidIn tr id = o.cover o.amount.val ∧ paidOut tr id ≤ o.cover o.amount.val := by
  obtain ⟨tr, h, -, -⟩ := traded_run
  exact ⟨by rfl, tr, h, escrow_solvent plainTokens_custody h⟩

end Sample

end WaterCredits.Market
