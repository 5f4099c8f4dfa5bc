import WaterCredits.Protocol.Supplies
import WaterCredits.Protocol.Trading

/-! # Closing the orders

If nobody pays itself and nothing is burned of the escrow, the marketplace can
pay what its orders are owed. Whenever the tokens are not paused, the makers
get it back in whatever order they ask for it, even if the marketplace itself is
paused. Only orders whose rest is worth nothing stay behind.
-/

namespace WaterCredits.Protocol

open Foundation Function
open Registry (System)

variable {registry market oracle : Address} {w w' : System} {S S' : State}
  {sha256 : List (BitVec 8) → BytesN 32} {tr : Trace State (Action registry market oracle)}

def Running (w : System) : Prop := ∀ t s, w.token t = some s → s.paused = false

section Payment

variable {t : Address} {e : Env t} {sender recipient : Address} {n : I128}

theorem transfer_paid {s : Token.State} (hb : s.books.Funded) (hp : s.paused = false)
    (hauth : e.auth sender = true) (h0 : 0 < n.val) (hle : n.val ≤ (s.balance sender).val)
    (hne : sender ≠ recipient) : ∃ s', s.transfer e sender recipient n = .ok s' := by
  have hcredited := (hb.move sender recipient h0 hle).le recipient
  have hnonneg := hb.nonneg recipient
  have hfits := s.totalSupply.fits
  simp only [Books.move, Books.post, update_self, update_of_ne hne.symm] at hcredited
  simp only [Token.State.books] at hcredited hnonneg
  have hval : (I128.wrap ((s.balance recipient).val + n.val)).val =
      (s.balance recipient).val + n.val := I128.val_wrap ⟨by omega, by have := hfits.2; omega⟩
  obtain ⟨s', hmove⟩ : ∃ s', s.moveBalance sender recipient n = .ok s' :=
    ⟨_, Token.moveBalance_eq_ok.mpr ⟨hle, _, hval, rfl⟩⟩
  refine ⟨s', ?_⟩
  simp only [Token.State.transfer, bind_eq_ok, ensure_eq_ok, Token.State.requireNotPaused_eq_ok,
    Env.requireAuth_eq_ok]
  exact ⟨(), h0, (), hp, (), hauth, hmove⟩

def gain (sender recipient : Address) (n : ℤ) (a : Address) : ℤ :=
  (if a = recipient then n else 0) - if a = sender then n else 0

/-- One token has moved an amount, and nothing else about the tokens has changed. -/
structure Moved (t sender recipient : Address) (n : ℤ) (w w' : System) : Prop where
  running : Running w → Running w'
  vacant : ∀ t', w.token t' = none → w'.token t' = none
  holding : ∀ t' a, holding w' t' a =
    holding w t' a + if t' = t then gain sender recipient n a else 0

theorem callToken_moved (hne : sender ≠ recipient)
    (h : callToken registry e (.transfer sender recipient n) w = .ok w') :
    Moved t sender recipient n.val w w' := by
  obtain ⟨s, s', hs, hstep, hw⟩ := callToken_cases h
  simp only [Token.step, Token.within_eq_ok, Token.State.transfer, bind_eq_ok,
    ensure_eq_ok] at hstep
  obtain ⟨⟨_, h0, _, -, _, -, hmove⟩, -⟩ := hstep
  obtain ⟨hle, credited, hcredited, rfl⟩ := Token.moveBalance_eq_ok.mp hmove
  have hdebit := I128.val_sub_of_le (a := s.balance sender) h0.le hle
  constructor
  · intro hr t' u hu
    rw [hw, update_apply] at hu
    split at hu
    · cases hu
      exact hr t s hs
    · exact hr t' u hu
  · intro t' hnone
    have ht : t' ≠ t := by
      rintro rfl
      cases hs.symm.trans hnone
    rw [hw, update_of_ne ht, hnone]
  · intro t' a
    rcases eq_or_ne t' t with rfl | ht
    · rw [holding_eq hs, holding_eq (by rw [hw, update_self]), if_pos rfl]
      simp only [Token.State.saveBalance, update_apply, gain]
      by_cases hr : a = recipient
      · have hs' : a ≠ sender := fun ha => hne (ha.symm.trans hr)
        rw [if_pos hr, if_pos hr, if_neg hs', sub_zero, hcredited, hr]
      · rw [if_neg hr, if_neg hr]
        split_ifs with hs'
        · rw [hdebit, hs', zero_sub, Int.sub_eq_add_neg]
        · rw [sub_zero, add_zero]
    · rw [if_neg ht, add_zero]
      exact holding_congr (by rw [hw, update_of_ne ht])

end Payment

/-- A cancellation that a maker is about to ask for. -/
structure Refund (market : Address) where
  env : Env market
  id : UInt64
  order : Market.Order

variable {c : Refund market} {cs : List (Refund market)}

def Refund.action (c : Refund market) : Action registry market oracle :=
  .market c.env (.cancelOrder c.order.maker c.id)

/-- The order is open, its rest has a price, and its maker authorises the cancellation. -/
structure Refund.Due (S : State) (c : Refund market) : Prop where
  stored : S.market.order c.id = some c.order
  live : c.order.status.live = true
  refundable : c.order.Refundable
  auth : c.env.auth c.order.maker = true

def Refund.gain (t a : Address) (c : Refund market) : ℤ :=
  if t = c.order.escrowToken then Protocol.gain market c.order.maker c.order.reserve a else 0

/-- The marketplace can pay what its orders are owed. -/
structure Liquid (market : Address) (S : State) : Prop where
  book : Market.Book S.market
  sound : Sound S.ledger
  covered : ∀ t, ∑ᶠ id, S.market.owed t id ≤ holding S.ledger t market
  running : Running S.ledger
  apart : S.ledger.token market = none

structure Refunded (c : Refund market) (S S' : State) : Prop where
  order : S'.market.order = update S.market.order c.id (some c.order.cancel)
  holding : ∀ t a, holding S'.ledger t a = holding S.ledger t a + c.gain t a

namespace Liquid

theorem pays (hl : Liquid market S) (hd : c.Due S) {refund : I128}
    (hrefund : refund.val = c.order.reserve) : ∃ w',
      (tokens registry).transfer c.order.escrowToken (c.env.invoke c.order.escrowToken) market
        c.order.maker refund S.ledger = .ok w' := by
  have hpos : 0 < c.order.reserve :=
    ((hl.book.proper c.id c.order hd.stored).reserve_pos_iff hd.live).mpr hd.refundable
  have hle : c.order.reserve ≤ holding S.ledger c.order.escrowToken market :=
    (Market.reserve_le_owed hl.book.ready hd.stored).trans (hl.covered _)
  cases hs : S.ledger.token c.order.escrowToken with
  | none =>
    simp only [holding, hs, Option.elim_none] at hle
    omega
  | some s =>
    rw [holding_eq hs] at hle
    have hne : market ≠ c.order.escrowToken := by
      intro heq
      cases (heq ▸ hl.apart).symm.trans hs
    have hauth : (c.env.invoke c.order.escrowToken).auth market = true := by
      simp [Env.invoke, hne]
    obtain ⟨s', hs'⟩ := transfer_paid (hl.sound _ s hs).toBacked (hl.running _ s hs) hauth
      (hrefund ▸ hpos) (hrefund ▸ hle) (c.env.ne_self hd.auth).symm
    simp [tokens, callToken, Registry.step, hs, unwrap, Token.step, hs', bind_eq_ok]

theorem refund (hl : Liquid market S) (hd : c.Due S) : ∃ S',
    (machine registry market oracle sha256).step c.action S = .ok S' ∧ Liquid market S' ∧
      Refunded c S S' := by
  obtain ⟨⟨m, w⟩, refund, hamount, hdone⟩ := Market.cancels_of_paid (T := tokens registry) hl.book
    hd.stored hd.live hd.refundable hd.auth fun _ hrefund => hl.pays hd hrefund
  have hmoved : Moved c.order.escrowToken market c.order.maker c.order.reserve S.ledger w :=
    hamount ▸ callToken_moved (c.env.ne_self hd.auth).symm hdone.paid
  have hstep : (machine registry market oracle sha256).step c.action S =
      .ok { S with ledger := w, market := m } := by
    simp [machine, Protocol.step, Refund.action, hdone.accepted]
  obtain ⟨o, -, ho, -, -, -, -, -, -, -, horder, -⟩ := Market.cancelOrder_cases hdone.accepted
  cases hd.stored.symm.trans ho
  rw [(hl.book.proper c.id c.order hd.stored).key] at horder
  refine ⟨_, hstep, ⟨?_, ?_, fun t => ?_, hmoved.running hl.running, hmoved.vacant _ hl.apart⟩,
    horder, fun t a => ?_⟩
  · exact (Market.execute_turns hl.book hdone.accepted).book
  · have hothers : paysOthers ([] : Trace State (Action registry market oracle)) S c.action := id
    exact sound_step hl.sound hothers hstep
  · have hexcess := Market.execute_excess (tokens_steward market t) hl.book.ready hdone.accepted
    have hcovered := hl.covered t
    simp only [Market.excess] at hexcess
    simp only
    omega
  · exact hmoved.holding t a

end Liquid

def gains (cs : List (Refund market)) (t a : Address) : ℤ := (cs.map (Refund.gain t a)).sum

/-- The listed orders are refunded, and nothing else has changed. -/
structure Returned (cs : List (Refund market)) (S S' : State) : Prop where
  order : ∀ id, S'.market.order id = if id ∈ cs.map (·.id) then
    (S.market.order id).map Market.Order.cancel else S.market.order id
  holding : ∀ t a, holding S'.ledger t a = holding S.ledger t a + gains cs t a

theorem Liquid.refunds (hl : Liquid market S) (hn : (cs.map (·.id)).Nodup)
    (hd : ∀ c ∈ cs, c.Due S) : ∃ (tr : Trace State (Action registry market oracle)) (S' : State),
      ((machine registry market oracle sha256).startedIn S).Run Machine.anyCall tr S' ∧
        tr.map (·.label) = (cs.map Refund.action).reverse ∧ Liquid market S' ∧
        Returned cs S S' := by
  induction cs generalizing S with
  | nil => exact ⟨[], S, .init rfl, rfl, hl, fun id => rfl, fun t a => (add_zero _).symm⟩
  | cons c cs ih =>
    rw [List.map_cons] at hn
    obtain ⟨hnew, hn⟩ := List.nodup_cons.mp hn
    obtain ⟨hfirst, hrest⟩ := List.forall_mem_cons.mp hd
    obtain ⟨S₁, hstep, hl₁, hone⟩ : ∃ S₁, (machine registry market oracle sha256).step c.action S =
        .ok S₁ ∧ Liquid market S₁ ∧ Refunded c S S₁ := hl.refund hfirst
    have hkept {id : UInt64} (hid : id ≠ c.id) : S₁.market.order id = S.market.order id := by
      rw [hone.order, update_of_ne hid]
    obtain ⟨tr, S', hrun, hlabels, hl', hreturned⟩ := ih hl₁ hn fun c' hc' => by
      have hid : c'.id ≠ c.id := fun heq => hnew (heq ▸ List.mem_map_of_mem hc')
      obtain ⟨hstored, hlive, hr, hauth⟩ := hrest c' hc'
      exact ⟨(hkept hid).trans hstored, hlive, hr, hauth⟩
    have hstart : ((machine registry market oracle sha256).startedIn S).Run Machine.anyCall
        [⟨S, c.action, S₁⟩] S₁ := .step (.init rfl) trivial hstep
    refine ⟨_, S', hstart.append hrun, by simp [hlabels], hl', ?_, ?_⟩
    · intro id
      rw [hreturned.order]
      rcases eq_or_ne id c.id with rfl | hid
      · rw [if_neg hnew, if_pos (by simp), hone.order, update_self, hfirst.stored]
        rfl
      · simp only [hkept hid, List.map_cons, List.mem_cons, hid, false_or]
    · intro t a
      rw [hreturned.holding, hone.holding, gains, gains, List.map_cons, List.sum_cons, add_assoc]

/-- Orders that cannot be refunded are owed nothing. -/
theorem Returned.nothing_owed (h : Returned cs S S') (hb : Market.Book S.market)
    (hall : ∀ id o, S.market.order id = some o → o.status.live = true → o.Refundable →
      id ∈ cs.map (·.id)) (t : Address) (id : UInt64) : S'.market.owed t id = 0 := by
  unfold Market.State.owed
  rw [h.order]
  cases ho : S.market.order id with
  | none => simp
  | some o =>
    by_cases hid : id ∈ cs.map (·.id)
    · simp [hid]
    · have hreserve : o.reserve = 0 := by
        cases hlive : o.status.live with
        | false => simp [Market.Order.reserve, hlive]
        | true =>
          have hn : ¬ 0 < o.reserve := fun hpos =>
            hid (hall id o ho hlive (((hb.proper id o ho).reserve_pos_iff hlive).mp hpos))
          exact le_antisymm (not_lt.mp hn) (hb.ready.valid id o ho).reserve_nonneg
      simp [hid, hreserve]

/--
In every run in which nobody pays itself and nothing is burned of the escrow,
the refundable orders are paid back in whatever order their makers cancel them,
if the tokens are running. When all of them are cancelled, nothing is owed.
-/
theorem escrow_returned (hne : market ≠ oracle)
    (h : (machine registry market oracle sha256).Run (fun tr S l =>
      Unsigned market oracle l ∧ paysOthers tr S l) tr S)
    (hburned : ∀ t, burnedOf t market tr = 0) (hr : Running S.ledger)
    (hapart : S.ledger.token market = none) (hn : (cs.map (·.id)).Nodup)
    (hd : ∀ c ∈ cs, c.Due S) :
    ∃ (tr' : Trace State (Action registry market oracle)) (S' : State),
      ((machine registry market oracle sha256).startedIn S).Run Machine.anyCall tr' S' ∧
        tr'.map (·.label) = (cs.map Refund.action).reverse ∧ Returned cs S S' ∧
        ((∀ id o, S.market.order id = some o → o.status.live = true → o.Refundable →
          id ∈ cs.map (·.id)) → ∀ t id, S'.market.owed t id = 0) := by
  have hsecured := secured_run hne (h.mono fun _ _ _ hg => hg.1)
  have hliquid : Liquid market S := by
    refine ⟨hsecured.book, sound_reach ⟨tr, h.mono fun _ _ _ hg => hg.2⟩, fun t => ?_, hr, hapart⟩
    simpa only [hburned, add_zero] using hsecured.covered t
  obtain ⟨tr', S', hrun, hlabels, -, hreturned⟩ := hliquid.refunds hn hd
  exact ⟨tr', S', hrun, hlabels, hreturned, hreturned.nothing_owed hsecured.book⟩

section Sample

def bidding : State :=
  sampleMachine.calls founded [issuing,
    onToken 0 (.mintTo (.account 0) (.account 1) 100),
    onToken 1 (.transfer (.account 1) (.account 2) 50),
    onToken 1 (.approve (.account 1) marketAt 10 9),
    onToken 2 (.approve (.account 2) marketAt 5 9),
    onMarket 1 (.createSellOrder (.account 1) (.contract 1) (.contract 1) 10 10000000),
    onMarket 2 (.createBuyOrder (.account 2) (.contract 1) (.contract 1) 5 10000000)]

def sale : Market.Order where
  id := 1
  maker := .account 1
  side := .sell
  creditToken := .contract 1
  paymentToken := .contract 1
  amount := 10
  pricePerCredit := 10000000
  createdAt := 0

def bid : Market.Order := { sale with id := 2, maker := .account 2, side := .buy, amount := 5 }

def asking (key : BytesN 32) (id : UInt64) (order : Market.Order) : Refund marketAt where
  env := .signed 0 0 (.account key) account_ne_contract
  id := id
  order := order

theorem bidding_token (t : Address) (s : Token.State) (hs : bidding.ledger.token t = some s) :
    t = .contract 1 := by
  have htokens : ∃ s₁ s₂ s₃ s₄ s₅ s₆ s₇, bidding.ledger.token =
      update (update (update (update (update (update (update (fun _ => none) (.contract 1)
        s₁) (.contract 1) s₂) (.contract 1) s₃) (.contract 1) s₄) (.contract 1) s₅)
        (.contract 1) s₆) (.contract 1) s₇ := ⟨_, _, _, _, _, _, _, rfl⟩
  obtain ⟨s₁, s₂, s₃, s₄, s₅, s₆, s₇, htoken⟩ := htokens
  rw [htoken] at hs
  simp only [update_idem] at hs
  by_contra hne
  rw [update_of_ne hne] at hs
  cases hs

theorem bidding_order (id : UInt64) (o : Market.Order) (ho : bidding.market.order id = some o) :
    id ∈ [1, 2] := by
  have horders : ∃ o₁ o₂, bidding.market.order =
      update (update (fun _ => none) 1 o₁) 2 o₂ := ⟨_, _, rfl⟩
  obtain ⟨o₁, o₂, horder⟩ := horders
  rw [horder] at ho
  by_contra hne
  obtain ⟨h1, h2⟩ := not_or.mp (by simpa using hne)
  rw [update_of_ne h2, update_of_ne h1] at ho
  cases ho

theorem burned_onToken {key : BytesN 32} {c : Token.Call} (hc : c.destroys = none) (t a : Address) :
    burned t a (onToken key c) = 0 := by
  simp only [burned, Action.onToken, onToken]
  split
  · simp [destroyed, hc]
  · rfl

theorem bidding_run : ∃ tr : Trace State (Action archiveAt marketAt oracleAt),
    sampleMachine.Run (fun tr S l => Unsigned marketAt oracleAt l ∧ paysOthers tr S l) tr bidding ∧
      ∀ t, burnedOf t marketAt tr = 0 := by
  have h0 := Machine.Run.init (m := sampleMachine)
    (G := fun tr S l => Unsigned marketAt oracleAt l ∧ paysOthers tr S l) founded_init
  have h1 := h0.call (l := issuing) ⟨⟨by rfl, by rfl⟩, trivial⟩ (by rfl)
  have h2 := h1.call (l := onToken 0 (.mintTo (.account 0) (.account 1) 100))
    ⟨⟨by rfl, by rfl⟩, id⟩ (by rfl)
  have h3 := h2.call (l := onToken 1 (.transfer (.account 1) (.account 2) 50))
    ⟨⟨by rfl, by rfl⟩, by simp [paysOthers, onToken, Token.Call.toSelf]⟩ (by rfl)
  have h4 := h3.call (l := onToken 1 (.approve (.account 1) marketAt 10 9))
    ⟨⟨by rfl, by rfl⟩, id⟩ (by rfl)
  have h5 := h4.call (l := onToken 2 (.approve (.account 2) marketAt 5 9))
    ⟨⟨by rfl, by rfl⟩, id⟩ (by rfl)
  have h6 := h5.call
    (l := onMarket 1 (.createSellOrder (.account 1) (.contract 1) (.contract 1) 10 10000000))
    ⟨⟨by rfl, by rfl⟩, id⟩ (by rfl)
  have h7 := h6.call
    (l := onMarket 2 (.createBuyOrder (.account 2) (.contract 1) (.contract 1) 5 10000000))
    ⟨⟨by rfl, by rfl⟩, id⟩ (by rfl)
  refine ⟨_, h7, fun t => ?_⟩
  simp only [burnedOf_cons]
  rw [burned_onToken, burned_onToken, burned_onToken, burned_onToken]
  all_goals rfl

theorem escrow_returned_bidding : ∃ S,
    Returned [asking 1 1 sale, asking 2 2 bid] bidding S ∧
      gains [asking 1 1 sale, asking 2 2 bid] (.contract 1) (.account 1) = 10 ∧
      gains [asking 1 1 sale, asking 2 2 bid] (.contract 1) (.account 2) = 5 ∧
      ∀ t id, S.market.owed t id = 0 := by
  obtain ⟨tr, hrun, hburned⟩ := bidding_run
  have hrunning : Running bidding.ledger := by
    intro t s hs
    obtain rfl := bidding_token t s hs
    cases hs
    rfl
  have hdue : ∀ c ∈ [asking 1 1 sale, asking 2 2 bid], c.Due bidding := by
    intro c hc
    simp only [List.mem_cons, List.not_mem_nil, or_false] at hc
    rcases hc with rfl | rfl
    · exact ⟨by rfl, by rfl, by decide, by rfl⟩
    · exact ⟨by rfl, by rfl, by decide, by rfl⟩
  obtain ⟨_, S, -, -, hreturned, hpaid⟩ := escrow_returned (by decide) hrun hburned hrunning
    (by rfl) (by decide) hdue
  exact ⟨S, hreturned, by decide, by decide, hpaid fun id o ho _ _ => bidding_order id o ho⟩

end Sample

end WaterCredits.Protocol
