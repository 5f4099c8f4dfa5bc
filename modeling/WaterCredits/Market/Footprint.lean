import WaterCredits.Market.Escrow

/-! # The footprint of the marketplace

The marketplace touches the outside world through transfers of its own and
through transfers of makers and takers. A relation between worlds that both
respect is respected by every public call. Its own settings change by the calls
of the admin alone.
-/

namespace WaterCredits.Market

open Foundation Function

variable {contract : Address} {W : Type} {T : Tokens W} {e : Env contract} {s s' : State}
  {w w' : W} {id : UInt64} {o : Order} {taker : Address} {amount payout fee n : I128}
  {Rel : W → W → Prop}

def State.offices (s : State) : Address × UInt32 × Address × Bool :=
  (s.admin, s.feeBps, s.feeRecipient, s.paused)

theorem internalFillOrder_offices (h : s.internalFillOrder T e taker id n w = .ok (s', w')) :
    s'.offices = s.offices := by
  simp only [State.internalFillOrder, bind_eq_ok] at h
  obtain ⟨_, -, o, -, _, -, _, -, _, -, _, -, _, -, _, -, h⟩ := h
  split at h <;>
    · cases h
      rfl

/-- A relation between worlds that the transfers of a call respect, if the parties meet `P`. -/
structure Respects (T : Tokens W) (e : Env contract) (P : Address → Address → Prop)
    (Rel : W → W → Prop) : Prop where
  refl : ∀ w, Rel w w
  trans : ∀ {w v u}, Rel w v → Rel v u → Rel w u
  transfer : ∀ {token recipient amount w w'}, P contract recipient →
    T.transfer token (e.invoke token) contract recipient amount w = .ok w' → Rel w w'
  transferFrom : ∀ {token sender recipient amount w w'}, sender ≠ contract → P sender recipient →
    T.transferFrom token (e.invoke token) contract sender recipient amount w = .ok w' → Rel w w'

/-- The parties of a trade with an order meet `P` whenever one pays the other. -/
def State.Trades (P : Address → Address → Prop) (contract : Address) (s : State) (taker : Address)
    (o : Order) : Prop :=
  P taker o.maker ∧ P contract taker ∧
    match o.side with
    | .sell => P taker s.feeRecipient
    | .buy => P contract s.feeRecipient

/-- The parties of a call meet `P` whenever one pays the other. -/
def State.Permits (P : Address → Address → Prop) (contract : Address) (s : State) : Call → Prop
  | .createSellOrder maker .. | .createBuyOrder maker .. => P maker contract
  | .fillOrder taker id _ => ∀ o, s.order id = some o → s.Trades P contract taker o
  | .batchFillOrders taker ids _ => ∀ id ∈ ids, ∀ o, s.order id = some o →
      s.Trades P contract taker o
  | .cancelOrder maker _ => P contract maker
  | _ => True

theorem permits_any {c : Call} : s.Permits (fun _ _ => True) contract c := by
  have htrades (taker : Address) (o : Order) : s.Trades (fun _ _ => True) contract taker o := by
    unfold State.Trades
    cases o.side <;> exact ⟨trivial, trivial, trivial⟩
  cases c <;> simp [State.Permits, htrades]

namespace Respects

variable {P : Address → Address → Prop} (hR : Respects T e P Rel)

include hR

theorem ifPositive {pay : W → Result W} (hp : ∀ {w w'}, pay w = .ok w' → Rel w w')
    (h : Market.ifPositive amount pay w = .ok w') : Rel w w' := by
  rcases ifPositive_cases h with ⟨-, h⟩ | ⟨-, rfl⟩
  · exact hp h
  · exact hR.refl _

theorem settle (ht : taker ≠ contract) (hp : s.Trades P contract taker o)
    (h : s.settle T e taker o n payout fee w = .ok w') : Rel w w' := by
  unfold State.settle at h
  unfold State.Trades at hp
  cases ho : o.side with
  | sell =>
    simp only [ho, bind_eq_ok] at h hp
    obtain ⟨w₁, h1, w₂, h2, h3⟩ := h
    have hpaid := hR.ifPositive (hR.transferFrom ht hp.1) h1
    have hfee := hR.ifPositive (hR.transferFrom ht hp.2.2) h2
    exact hR.trans (hR.trans hpaid hfee) (hR.transfer hp.2.1 h3)
  | buy =>
    simp only [ho, bind_eq_ok] at h hp
    obtain ⟨w₁, h1, w₂, h2, h3⟩ := h
    have hpaid := hR.ifPositive (hR.transfer hp.2.1) h2
    have hfee := hR.ifPositive (hR.transfer hp.2.2) h3
    exact hR.trans (hR.transferFrom ht hp.1 h1) (hR.trans hpaid hfee)

theorem fillLoop (ht : taker ≠ contract) {fills : List (UInt64 × I128)}
    (hp : ∀ id ∈ fills.map Prod.fst, ∀ o, s.order id = some o → s.Trades P contract taker o)
    (h : State.fillLoop T e taker fills s w = .ok (s', w')) : Rel w w' := by
  induction fills generalizing s w with
  | nil =>
    cases h
    exact hR.refl _
  | cons fill rest ih =>
    obtain ⟨id, n⟩ := fill
    simp only [State.fillLoop, bind_eq_ok] at h
    obtain ⟨⟨s₁, w₁⟩, h1, h2⟩ := h
    obtain ⟨hfirst, hrest⟩ := List.forall_mem_cons.mp hp
    obtain ⟨-, o, payout, fee, f, ho, -, -, -, hsettle, -, -, -, horder, -⟩ :=
      internalFillOrder_cases h1
    have hoffices : s₁.offices = s.offices := internalFillOrder_offices h1
    have hrecipient : s₁.feeRecipient = s.feeRecipient := congrArg (fun x => x.2.2.1) hoffices
    refine hR.trans (hR.settle ht (hfirst o ho) hsettle) (ih (fun i hi o' ho' => ?_) h2)
    rw [State.Trades, hrecipient]
    rw [horder, update_apply] at ho'
    split at ho'
    · cases ho'
      exact hfirst o ho
    · exact hrest i hi o' ho'

end Respects

theorem execute_respects {P : Address → Address → Prop} {c : Call} (hR : Respects T e P Rel)
    (hP : s.Permits P contract c) (h : execute T e s w c = .ok (s', w')) : Rel w w' := by
  cases c with
  | initialise => simp [execute, Market.initialise] at h
  | setAdmin | setFee | pause | unpause =>
    obtain ⟨-, rfl⟩ := within_eq_ok.mp h
    exact hR.refl _
  | createSellOrder | createBuyOrder =>
    obtain ⟨id, h⟩ := discard_eq_ok.mp h
    obtain ⟨hauth, -, totalCost, -, o, -, -, -, -, -, hw, -⟩ := createOrder_cases h
    exact hR.transferFrom (e.ne_self hauth) hP hw
  | fillOrder taker orderId fillAmount =>
    simp only [execute, State.fillOrder, bind_eq_ok, Env.requireAuth_eq_ok] at h
    obtain ⟨_, -, _, hauth, h⟩ := h
    have hloop : State.fillLoop T e taker [(orderId, fillAmount)] s w = .ok (s', w') := by
      simp [State.fillLoop, h]
    refine hR.fillLoop (e.ne_self hauth) (fun id hid => ?_) hloop
    obtain rfl := List.mem_singleton.mp hid
    exact hP
  | batchFillOrders taker =>
    simp only [execute, State.batchFillOrders, bind_eq_ok, Env.requireAuth_eq_ok] at h
    obtain ⟨_, -, _, hauth, _, -, _, -, h⟩ := h
    refine hR.fillLoop (e.ne_self hauth) (fun id hid => hP id ?_) h
    obtain ⟨⟨id, n⟩, hmem, rfl⟩ := List.mem_map.mp hid
    exact (List.of_mem_zip hmem).1
  | cancelOrder maker orderId =>
    obtain ⟨o, refund, -, -, -, -, -, hw, -⟩ := cancelOrder_cases h
    exact hR.ifPositive (hR.transfer hP) hw

/-- The trade with an order has somebody pay itself. -/
def State.SelfPays (contract : Address) (s : State) (taker : Address) (o : Order) : Prop :=
  taker = o.maker ∨ s.feeRecipient = if o.side = .sell then taker else contract

/-- The calls in which somebody would pay itself. -/
def State.selfTrades (contract : Address) (s : State) : Call → Prop
  | .fillOrder taker id _ => ∃ o, s.order id = some o ∧ s.SelfPays contract taker o
  | .batchFillOrders taker ids _ => ∃ id ∈ ids, ∃ o, s.order id = some o ∧
      s.SelfPays contract taker o
  | _ => False

/-- Apart from these trades nobody pays itself, since the contract authorises no call on itself. -/
theorem permits_apart {c : Call} (hc : ¬ s.selfTrades contract c)
    (h : execute T e s w c = .ok (s', w')) : s.Permits (· ≠ ·) contract c := by
  have htrades {taker : Address} (ht : taker ≠ contract) {o : Order}
      (hn : ¬ s.SelfPays contract taker o) : s.Trades (· ≠ ·) contract taker o := by
    obtain ⟨hmaker, hfee⟩ := not_or.mp hn
    unfold State.Trades
    cases ho : o.side <;> simp only [ho, reduceCtorEq, if_true, if_false] at hfee
    · exact ⟨hmaker, ht.symm, Ne.symm hfee⟩
    · exact ⟨hmaker, ht.symm, Ne.symm hfee⟩
  cases c with
  | initialise | setAdmin | setFee | pause | unpause => trivial
  | createSellOrder | createBuyOrder =>
    obtain ⟨id, h⟩ := discard_eq_ok.mp h
    exact e.ne_self (createOrder_cases h).1
  | fillOrder taker orderId fillAmount =>
    simp only [execute, State.fillOrder, bind_eq_ok, Env.requireAuth_eq_ok] at h
    obtain ⟨_, -, _, hauth, -⟩ := h
    exact fun o ho => htrades (e.ne_self hauth) fun hself => hc ⟨o, ho, hself⟩
  | batchFillOrders taker ids =>
    simp only [execute, State.batchFillOrders, bind_eq_ok, Env.requireAuth_eq_ok] at h
    obtain ⟨_, -, _, hauth, -⟩ := h
    exact fun id hid o ho => htrades (e.ne_self hauth) fun hself => hc ⟨id, hid, o, ho, hself⟩
  | cancelOrder maker =>
    simp only [execute, State.cancelOrder, bind_eq_ok, Env.requireAuth_eq_ok] at h
    obtain ⟨_, hauth, -⟩ := h
    exact (e.ne_self hauth).symm

/-- Without the admin a call changes neither the office nor a setting. -/
theorem execute_offices {c : Call} (ha : e.auth s.admin = false)
    (h : execute T e s w c = .ok (s', w')) : s'.offices = s.offices := by
  cases c with
  | initialise => simp [execute, Market.initialise] at h
  | setAdmin | setFee | pause | unpause =>
    simp only [execute, within_eq_ok, State.setAdmin, State.setFee, State.pause, State.unpause,
      bind_eq_ok, State.requireAdmin_eq_ok] at h
    obtain ⟨⟨_, ⟨hauth, rfl⟩, -⟩, -⟩ := h
    exact absurd (hauth.symm.trans ha) Bool.true_eq_false.mp
  | createSellOrder | createBuyOrder =>
    obtain ⟨id, h⟩ := discard_eq_ok.mp h
    simp only [State.createSellOrder, State.createBuyOrder, State.createOrder, bind_eq_ok,
      State.addMakerOrder_eq_ok, pure_eq_ok, Prod.mk.injEq] at h
    obtain ⟨_, -, _, -, _, -, _, -, _, -, _, -, _, -, _, ⟨-, rfl⟩, -, rfl, -⟩ := h
    rfl
  | fillOrder =>
    simp only [execute, State.fillOrder, bind_eq_ok] at h
    obtain ⟨_, -, _, -, h⟩ := h
    exact internalFillOrder_offices h
  | batchFillOrders =>
    simp only [execute, State.batchFillOrders, bind_eq_ok] at h
    obtain ⟨_, -, _, -, _, -, _, -, h⟩ := h
    refine fillLoop_invariant (I := fun t _ => t.offices = s.offices) ?_ rfl h
    exact fun hi hfill => (internalFillOrder_offices hfill).trans hi
  | cancelOrder =>
    simp only [execute, State.cancelOrder, bind_eq_ok] at h
    obtain ⟨_, -, o, -, _, -, _, -, _, -, h⟩ := h
    split at h <;> simp only [bind_eq_ok, pure_eq_ok, Prod.mk.injEq] at h
    · obtain ⟨v, -, rfl, -⟩ := h
      rfl
    · obtain ⟨_, -, v, -, rfl, -⟩ := h
      rfl

end WaterCredits.Market
