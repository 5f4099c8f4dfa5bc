import WaterCredits.Foundation.Rounding
import WaterCredits.Market.Solvency

/-! # Rounding of fills

Every fill rounds its cost down, and so does the refund of a cancellation. The
books of an order over a run tell its fills and what was paid for them. They
add up to the cost of the whole order exactly when its fills split it evenly.
-/

namespace WaterCredits.Market

open Foundation Function

variable {contract : Address} {W : Type} {T : Tokens W} {e : Env contract} {s s' : State}
  {w w' : W} {id : UInt64} {o : Order} {taker maker : Address} {n f : I128}
  {sw sw' : State × W} {tr : Trace (State × W) (Event contract W)}

/-- What filling some credits of a sell order brings to the maker and the fee recipient. -/
def State.proceeds (s : State) (id : UInt64) (n : I128) : ℤ :=
  match s.order id with
  | none => 0
  | some o =>
    match o.side with
    | .buy => 0
    | .sell =>
      match s.quote o n with
      | .ok (payout, fee) => payout.val + fee.val
      | .error _ => 0

/-- What an accepted call brings to the sellers of orders and the fee recipient. -/
def Call.received (s : State) : Call → UInt64 → ℤ
  | .fillOrder _ orderId fillAmount => entry orderId (s.proceeds orderId fillAmount)
  | .batchFillOrders _ orderIds fillAmounts =>
      ((orderIds.zip fillAmounts).map fun p => entry p.1 (s.proceeds p.1 p.2)).sum
  | _ => 0

def fillsIn (id : UInt64) (fills : List (UInt64 × I128)) : List ℤ :=
  fills.filterMap fun p => if p.1 = id then some p.2.val else none

def Call.fills (id : UInt64) : Call → List ℤ
  | .fillOrder _ orderId fillAmount => fillsIn id [(orderId, fillAmount)]
  | .batchFillOrders _ orderIds fillAmounts => fillsIn id (orderIds.zip fillAmounts)
  | _ => []

def Event.received (s : State) : Event contract W → UInt64 → ℤ
  | .call _ c => c.received s
  | .outside _ => 0

def Event.fills (id : UInt64) : Event contract W → List ℤ
  | .call _ c => c.fills id
  | .outside _ => []

/-- What a run brings to the sellers of orders and the fee recipient. -/
def received (tr : Trace (State × W) (Event contract W)) : UInt64 → ℤ :=
  (tr.map fun st => st.label.received st.before.1).sum

/-- The fills of one order in a run, the first one first. -/
def fillsOf (id : UInt64) (tr : Trace (State × W) (Event contract W)) : List ℤ :=
  tr.reverse.flatMap fun st => st.label.fills id

theorem fillsOf_cons (st : Step (State × W) (Event contract W)) :
    fillsOf id (st :: tr) = fillsOf id tr ++ st.label.fills id := by
  simp [fillsOf]

/-- The books of one order: its fills, and what was paid, escrowed and received for it. -/
@[ext] structure Account where
  fills : List ℤ
  paid : ℤ
  escrowed : ℤ
  received : ℤ

/-- The books of an order over a run. -/
def account (id : UInt64) (tr : Trace (State × W) (Event contract W)) : Account :=
  ⟨fillsOf id tr, paidOut tr id, paidIn tr id, received tr id⟩

/-- What an accepted call enters in the books of an order. -/
def Call.account (s : State) (id : UInt64) (c : Call) : Account :=
  ⟨c.fills id, c.paid s id, c.escrowed s id, c.received s id⟩

namespace Account

def zero : Account := ⟨[], 0, 0, 0⟩

/-- Books continued by further entries. -/
def append (a b : Account) : Account :=
  ⟨a.fills ++ b.fills, a.paid + b.paid, a.escrowed + b.escrowed, a.received + b.received⟩

theorem append_zero (a : Account) : a.append zero = a := by
  ext <;> simp [append, zero]

theorem append_assoc (a b c : Account) : (a.append b).append c = a.append (b.append c) := by
  ext <;> simp [append, add_assoc]

def fill (s : State) (id orderId : UInt64) (n : I128) : Account :=
  ⟨fillsIn id [(orderId, n)], entry orderId (s.fillPayment orderId n) id, 0,
    entry orderId (s.proceeds orderId n) id⟩

def fillAll (s : State) (id : UInt64) (fills : List (UInt64 × I128)) : Account :=
  ⟨fillsIn id fills, (fills.map fun p => entry p.1 (s.fillPayment p.1 p.2)).sum id, 0,
    (fills.map fun p => entry p.1 (s.proceeds p.1 p.2)).sum id⟩

theorem fillAll_cons (p : UInt64 × I128) (rest : List (UInt64 × I128)) :
    fillAll s id (p :: rest) = (fill s id p.1 p.2).append (fillAll s id rest) := by
  ext1
  · by_cases hp : p.1 = id <;> simp [fillAll, fill, append, fillsIn, hp]
  · simp [fillAll, fill, append]
  · rfl
  · simp [fillAll, fill, append]

end Account

/-- The books of an order agree with what is stored of it. -/
structure Settled (o : Order) (a : Account) : Prop where
  filled : o.filledAmount.val = a.fills.sum
  paid : a.paid = (a.fills.map o.cover).sum +
    if o.status = .cancelled then o.cover o.remaining else 0
  escrowed : a.escrowed = o.cover o.amount.val
  received : a.received = if o.side = .sell then (a.fills.map o.costOf).sum else 0

/-- The books of an order that may not exist yet. -/
structure Kept (s : State) (id : UInt64) (a : Account) : Prop where
  absent : s.order id = none → a = .zero
  stored : ∀ o, s.order id = some o → Settled o a

variable {a : Account} {orderId : UInt64}

theorem proceeds_eq {payout fee : I128} (hb : s.feeBps ≤ MAX_FEE_BPS) (ho : s.order id = some o)
    (hq : s.quote o n = .ok (payout, fee)) :
    s.proceeds id n = if o.side = .sell then o.costOf n.val else 0 := by
  obtain ⟨-, -, hsum⟩ := quote_cases hb hq
  unfold State.proceeds
  rw [ho]
  cases hside : o.side with
  | sell => simp [hside, hq, hsum]
  | buy => simp [hside]

theorem proceeds_stable (hr : s.Ready)
    (h : s.internalFillOrder T e taker id n w = .ok (s', w')) : s'.proceeds = s.proceeds := by
  obtain ⟨hquote, horder⟩ := internalFillOrder_order hr h
  ext i m
  unfold State.proceeds
  simp only [hquote]
  rcases horder i with hi | ⟨o, f, ho, hi⟩
  · rw [hi]
  · rw [hi, ho]
    rfl

theorem Account.fill_of_ne (h : orderId ≠ id) : Account.fill s id orderId n = .zero := by
  ext1 <;> simp [Account.fill, Account.zero, fillsIn, entry, h]

namespace Settled

theorem paid_live (h : Settled o a) (hlive : o.status.live = true) :
    a.paid = (a.fills.map o.cover).sum := by
  have hne : o.status ≠ .cancelled := by
    intro hc
    rw [hc] at hlive
    cases hlive
  rw [h.paid, if_neg hne, add_zero]

theorem fill (h : Settled o a) (hlive : o.status.live = true)
    (hf : f.val = o.filledAmount.val + n.val) {b : Account} (hfills : b.fills = [n.val])
    (hpaid : b.paid = o.cover n.val) (hesc : b.escrowed = 0)
    (hrec : b.received = if o.side = .sell then o.costOf n.val else 0) :
    Settled (o.fill f) (a.append b) := by
  have hafter : (o.fill f).status ≠ .cancelled := by
    unfold Order.fill
    split <;> simp
  have hpaid₀ := h.paid_live hlive
  have hrec₀ := h.received
  constructor
  · simp [Order.fill, Account.append, hfills, hf, h.filled]
  · rw [if_neg hafter, add_zero]
    simp only [Account.append, hpaid₀, hpaid, hfills, List.map_append, List.sum_append,
      List.map_cons, List.map_nil, List.sum_cons, List.sum_nil, add_zero]
    rfl
  · simp only [Account.append, h.escrowed, hesc, add_zero]
    rfl
  · have hcost : (o.fill f).costOf = o.costOf := rfl
    have hside : (o.fill f).side = o.side := rfl
    rw [hcost, hside, Account.append, hrec₀, hrec, hfills]
    split <;> simp

theorem cancel (h : Settled o a) (hlive : o.status.live = true) {b : Account}
    (hfills : b.fills = []) (hpaid : b.paid = o.cover o.remaining) (hesc : b.escrowed = 0)
    (hrec : b.received = 0) : Settled o.cancel (a.append b) := by
  have hpaid₀ := h.paid_live hlive
  constructor
  · simp [Order.cancel, Account.append, hfills, h.filled]
  · simp only [Account.append, hpaid₀, hpaid, hfills, List.append_nil]
    rfl
  · simp only [Account.append, h.escrowed, hesc, add_zero]
    rfl
  · simp only [Account.append, h.received, hrec, hfills, List.append_nil, add_zero]
    rfl

theorem opened {d : I128} (h : o.Opened d) (hfills : a.fills = []) (hpaid : a.paid = 0)
    (hesc : a.escrowed = d.val) (hrec : a.received = 0) : Settled o a where
  filled := by rw [hfills, h.unfilled, List.sum_nil]
  paid := by simp [hfills, hpaid, h.status]
  escrowed := hesc.trans h.cover_eq.symm
  received := by simp [hfills, hrec]

end Settled

theorem internalFillOrder_kept (hr : s.Ready)
    (h : s.internalFillOrder T e taker orderId n w = .ok (s', w')) (hk : Kept s id a) :
    Kept s' id (a.append (.fill s id orderId n)) := by
  obtain ⟨-, o, payout, fee, f, ho, hlive, -, hq, -, hf, -, -, hs, -⟩ := internalFillOrder_cases h
  rw [(hr.valid orderId o ho).key] at hs
  by_cases hid : orderId = id
  · subst hid
    have ho' : s'.order orderId = some (o.fill f) := by rw [hs, update_self]
    have hsettled : Settled (o.fill f) (a.append (.fill s orderId orderId n)) := by
      refine (hk.stored o ho).fill hlive hf ?_ ?_ rfl ?_
      · simp [Account.fill, fillsIn]
      · simp [Account.fill, entry, fillPayment_eq hr.fee ho hq]
      · simp [Account.fill, entry, proceeds_eq hr.fee ho hq]
    constructor
    · intro hn
      rw [ho'] at hn
      cases hn
    · intro o₁ ho₁
      cases ho'.symm.trans ho₁
      exact hsettled
  · have hsame : s'.order id = s.order id := by rw [hs, update_of_ne (Ne.symm hid)]
    rw [Account.fill_of_ne hid, Account.append_zero]
    exact ⟨hsame ▸ hk.absent, hsame ▸ hk.stored⟩

theorem fillLoop_kept {fills : List (UInt64 × I128)} (hr : s.Ready)
    (h : State.fillLoop T e taker fills s w = .ok (s', w')) (hk : Kept s id a) :
    Kept s' id (a.append (.fillAll s id fills)) := by
  induction fills generalizing s w a with
  | nil =>
    cases h
    rwa [show Account.fillAll s' id [] = .zero from rfl, Account.append_zero]
  | cons p rest ih =>
    simp only [State.fillLoop, bind_eq_ok] at h
    obtain ⟨⟨s₁, w₁⟩, h1, h2⟩ := h
    have hrest := ih (internalFillOrder_ready hr h1) h2 (internalFillOrder_kept hr h1 hk)
    have hstable : Account.fillAll s₁ id rest = Account.fillAll s id rest := by
      unfold Account.fillAll
      rw [fillPayment_stable hr h1, proceeds_stable hr h1]
    rw [hstable, Account.append_assoc] at hrest
    rwa [Account.fillAll_cons]

theorem createOrder_kept {side : OrderSide} {creditToken paymentToken : Address}
    {amount price : I128} {newId : UInt64} (hr : s.Ready)
    (h : s.createOrder T e side maker creditToken paymentToken amount price w =
      .ok (newId, s', w')) (hk : Kept s id a) :
    ∃ totalCost, calculateCost amount price = .ok totalCost ∧
      Kept s' id (a.append
        ⟨[], 0, entry (s.orderCount + 1) (side.deposit amount totalCost).val id, 0⟩) := by
  obtain ⟨-, hcount, totalCost, hcost, o, hnew, -, -, -, -, -, -, -, hs, -⟩ := createOrder_cases h
  refine ⟨totalCost, hcost, ?_⟩
  by_cases hid : s.orderCount + 1 = id
  · subst hid
    have hfree : s.order (s.orderCount + 1) = none := hr.fresh _ (lt_next hcount)
    have ho : s'.order (s.orderCount + 1) = some o := by rw [hs, update_self]
    rw [hk.absent hfree]
    constructor
    · intro hn
      rw [ho] at hn
      cases hn
    · intro o₁ ho₁
      cases ho.symm.trans ho₁
      exact .opened hnew rfl rfl (by simp [Account.append, Account.zero, entry]) rfl
  · have hsame : s'.order id = s.order id := by rw [hs, update_of_ne (Ne.symm hid)]
    have hzero : (⟨[], 0, entry (s.orderCount + 1) (side.deposit amount totalCost).val id, 0⟩ :
        Account) = .zero := by
      simp [Account.zero, entry, hid]
    rw [hzero, Account.append_zero]
    exact ⟨hsame ▸ hk.absent, hsame ▸ hk.stored⟩

theorem cancelOrder_kept (hr : s.Ready)
    (h : s.cancelOrder T e maker orderId w = .ok (s', w')) (hk : Kept s id a) :
    Kept s' id (a.append ⟨[], entry orderId (s.refund orderId) id, 0, 0⟩) := by
  obtain ⟨o, refund, ho, hlive, -, -, -, -, -, -, hs, -⟩ := cancelOrder_cases h
  rw [(hr.valid orderId o ho).key] at hs
  by_cases hid : orderId = id
  · subst hid
    have ho' : s'.order orderId = some o.cancel := by rw [hs, update_self]
    have hrefund : s.refund orderId = o.cover o.remaining := by
      rw [State.refund, ho]
      unfold Order.cover
      cases hside : o.side <;> simp [hside]
    constructor
    · intro hn
      rw [ho'] at hn
      cases hn
    · intro o₁ ho₁
      cases ho'.symm.trans ho₁
      exact (hk.stored o ho).cancel hlive rfl (by simp [entry, hrefund]) rfl rfl
  · have hsame : s'.order id = s.order id := by rw [hs, update_of_ne (Ne.symm hid)]
    have hzero : (⟨[], entry orderId (s.refund orderId) id, 0, 0⟩ : Account) = .zero := by
      simp [Account.zero, entry, hid]
    rw [hzero, Account.append_zero]
    exact ⟨hsame ▸ hk.absent, hsame ▸ hk.stored⟩

theorem execute_kept {c : Call} (hr : s.Ready) (h : execute T e s w c = .ok (s', w'))
    (hk : Kept s id a) : Kept s' id (a.append (c.account s id)) := by
  have idle (hc : c.account s id = .zero) (ho : s'.order = s.order) :
      Kept s' id (a.append (c.account s id)) := by
    rw [hc, Account.append_zero]
    exact ⟨ho ▸ hk.absent, ho ▸ hk.stored⟩
  cases c with
  | initialise => simp [execute, Market.initialise] at h
  | setAdmin | setFee | pause | unpause => exact idle rfl (execute_administers rfl h).1
  | createSellOrder =>
    obtain ⟨_, h⟩ := discard_eq_ok.mp h
    obtain ⟨_, -, hkept⟩ := createOrder_kept hr h hk
    exact hkept
  | createBuyOrder =>
    obtain ⟨_, h⟩ := discard_eq_ok.mp h
    obtain ⟨_, hcost, hkept⟩ := createOrder_kept hr h hk
    simp only [Call.account, Call.escrowed, hcost]
    exact hkept
  | fillOrder =>
    simp only [execute, State.fillOrder, bind_eq_ok] at h
    obtain ⟨_, -, _, -, h⟩ := h
    exact internalFillOrder_kept hr h hk
  | batchFillOrders =>
    simp only [execute, State.batchFillOrders, bind_eq_ok] at h
    obtain ⟨_, -, _, -, _, -, _, -, h⟩ := h
    exact fillLoop_kept hr h hk
  | cancelOrder => exact cancelOrder_kept hr h hk

theorem kept_run {G : Guard (State × W) (Event contract W)} (h : (machine contract T).Run G tr sw) :
    Kept sw.1 id (account id tr) := by
  refine h.invariant (I := fun tr sw => Kept sw.1 id (account id tr)) ?_ ?_
  · rintro sw ⟨admin, feeBps, feeRecipient, hs⟩
    rw [(initialise_eq_ok.mp hs).2.2]
    exact ⟨fun _ => rfl, fun o ho => by cases ho⟩
  · rintro tr sw ev sw' hr hk - hs
    have haccount : account id (⟨sw, ev, sw'⟩ :: tr) = (account id tr).append
        ⟨ev.fills id, ev.paid sw.1 id, ev.escrowed sw.1 id, ev.received sw.1 id⟩ := by
      ext1
      · exact fillsOf_cons _
      · exact add_comm _ _
      · exact add_comm _ _
      · exact add_comm _ _
    rw [haccount]
    cases ev with
    | call e c => exact execute_kept (book_run hr).1.ready hs hk
    | outside w =>
      cases hs
      exact (Account.append_zero _).symm ▸ hk

/-- The fills of an order split its cost without loss. -/
def Order.Even (o : Order) (fills : List ℤ) : Prop :=
  EvenSplit o.pricePerCredit.val PRICE_PRECISION.val o.amount.val fills

instance decidableEven (o : Order) (fills : List ℤ) : Decidable (o.Even fills) :=
  decidableEvenSplit _ _ _ _

/-- The costs of the fills and of the rest make up the cost exactly when the fills are even. -/
theorem Order.costs_eq_iff {fills : List ℤ} :
    (fills.map o.costOf).sum + o.costOf (o.amount.val - fills.sum) = o.costOf o.amount.val ↔
      o.Even fills :=
  share_split_eq_iff (by decide)

theorem Settled.paid_buy (h : Settled o a) (hp : o.Proper id) (hb : o.side = .buy)
    (hs : o.status = .filled ∨ o.status = .cancelled) :
    a.paid = (a.fills.map o.costOf).sum + o.costOf (o.amount.val - a.fills.sum) := by
  have hcover : o.cover = o.costOf := by
    ext n
    simp [Order.cover, hb]
  rw [h.paid, hcover, ← h.filled]
  rcases hs with hs | hs
  · have hfull := hp.filled_iff.mp hs
    simp [hs, hfull, Order.costOf]
  · rw [if_pos hs]
    rfl

theorem Settled.received_sell (h : Settled o a) (hp : o.Proper id) (hb : o.side = .sell)
    (hs : o.status = .filled) :
    a.received = (a.fills.map o.costOf).sum + o.costOf (o.amount.val - a.fills.sum) := by
  have hfull := hp.filled_iff.mp hs
  rw [h.received, if_pos hb, ← h.filled, hfull, sub_self]
  simp [Order.costOf]

end WaterCredits.Market
