import WaterCredits.Foundation.Index
import WaterCredits.Market.Escrow

/-! # The order book

Orders are numbered without gaps, their status follows from what was filled, and
the list of each maker indexes its live orders. Three changes of the storage
matter: a new order, a live order written back, and everything else.
-/

namespace WaterCredits.Market

open Foundation Function

variable {contract : Address} {W : Type} {T : Tokens W} {e : Env contract} {s s' s'' : State}
  {w w' : W} {id : UInt64} {o o' : Order} {taker maker : Address} {n f : I128}
  {sw sw' : State × W} {tr : Trace (State × W) (Event contract W)}

section Ready

/-- The fee is bounded, orders are well formed, and later identifiers are unused. -/
structure State.Ready (s : State) : Prop where
  fee : s.feeBps ≤ MAX_FEE_BPS
  valid : ∀ id o, s.order id = some o → o.Valid id
  fresh : ∀ id, s.orderCount < id → s.order id = none

theorem State.Ready.not_fresh (hr : s.Ready) (ho : s.order id = some o) : ¬ s.orderCount < id := by
  intro hlt
  rw [hr.fresh id hlt] at ho
  cases ho

theorem State.Ready.write {o' : Order} (hr : s.Ready) (ho : s.order id = some o)
    (hv : o'.Valid id) (hs : s'.order = update s.order id (some o'))
    (hc : s'.orderCount = s.orderCount) (hf : s'.feeBps = s.feeBps) : s'.Ready := by
  constructor
  · rw [hf]
    exact hr.fee
  · intro i oi hi
    rw [hs] at hi
    rcases eq_or_ne i id with rfl | hne
    · rw [update_self] at hi
      cases hi
      exact hv
    · rw [update_of_ne hne] at hi
      exact hr.valid i oi hi
  · intro i hlt
    rw [hc] at hlt
    have hne : i ≠ id := by
      rintro rfl
      exact hr.not_fresh ho hlt
    rw [hs, update_of_ne hne]
    exact hr.fresh i hlt

theorem lt_next (hc : s.orderCount.toNat + 1 < 2 ^ 64) : s.orderCount < s.orderCount + 1 := by
  rw [UInt64.lt_iff_toNat_lt, UInt64.toNat_add, UInt64.toNat_one, Nat.mod_eq_of_lt hc]
  exact Nat.lt_succ_self _

theorem le_of_le_next (hc : s.orderCount.toNat + 1 < 2 ^ 64) (h : id ≤ s.orderCount + 1)
    (hne : id ≠ s.orderCount + 1) : id ≤ s.orderCount := by
  have hne : id.toNat ≠ (s.orderCount + 1).toNat := fun heq => hne (UInt64.toNat_inj.mp heq)
  rw [UInt64.le_iff_toNat_le] at h ⊢
  rw [UInt64.toNat_add, UInt64.toNat_one, Nat.mod_eq_of_lt hc] at h hne
  omega

theorem State.Ready.insert (hr : s.Ready) (hcount : s.orderCount.toNat + 1 < 2 ^ 64)
    (hv : o.Valid (s.orderCount + 1))
    (hs : s'.order = update s.order (s.orderCount + 1) (some o))
    (hc : s'.orderCount = s.orderCount + 1) (hf : s'.feeBps = s.feeBps) : s'.Ready := by
  constructor
  · rw [hf]
    exact hr.fee
  · intro i oi hi
    rw [hs] at hi
    rcases eq_or_ne i (s.orderCount + 1) with rfl | hne
    · rw [update_self] at hi
      cases hi
      exact hv
    · rw [update_of_ne hne] at hi
      exact hr.valid i oi hi
  · intro i hi
    rw [hc] at hi
    rw [hs, update_of_ne (UInt64.ne_of_lt hi).symm]
    exact hr.fresh i (UInt64.lt_trans (lt_next hcount) hi)

theorem Order.Valid.fill (hv : o.Valid id) (hn : 0 < n.val) (hle : n.val ≤ o.remaining)
    (hf : f.val = o.filledAmount.val + n.val) : (o.fill f).Valid id := by
  have hfilled := hv.filled
  unfold Order.remaining at hle
  constructor
  · exact hv.key
  · exact hv.price
  · simp only [Order.fill, hf]
    omega
  · simp only [Order.fill, hf]
    omega

theorem Order.Valid.cancel (hv : o.Valid id) : o.cancel.Valid id :=
  ⟨hv.key, hv.price, hv.filled, hv.bounded⟩

theorem Order.Opened.valid {d : I128} (h : o.Opened d) (hid : o.id = id) : o.Valid id :=
  ⟨hid, h.price, h.unfilled.ge, h.unfilled.trans_le h.positive.le⟩

theorem internalFillOrder_ready (hr : s.Ready)
    (h : s.internalFillOrder T e taker id n w = .ok (s', w')) : s'.Ready := by
  obtain ⟨hn, o, payout, fee, f, ho, -, hle, -, -, hf, hfee, hcount, hs, -⟩ :=
    internalFillOrder_cases h
  have hv := hr.valid id o ho
  rw [hv.key] at hs
  exact hr.write ho (hv.fill hn hle hf) hs hcount hfee

theorem createOrder_ready {side : OrderSide} {creditToken paymentToken : Address}
    {amount price : I128} {newId : UInt64} (hr : s.Ready)
    (h : s.createOrder T e side maker creditToken paymentToken amount price w =
      .ok (newId, s', w')) : s'.Ready := by
  obtain ⟨-, hcount, _, -, o, hnew, hkey, -, -, -, -, hfee, hcount', ho, -⟩ := createOrder_cases h
  exact hr.insert hcount (hnew.valid hkey) ho hcount' hfee

theorem cancelOrder_ready (hr : s.Ready) (h : s.cancelOrder T e maker id w = .ok (s', w')) :
    s'.Ready := by
  obtain ⟨o, refund, ho, -, -, -, -, -, hfee, hcount, hs, -⟩ := cancelOrder_cases h
  have hv := hr.valid id o ho
  rw [hv.key] at hs
  exact hr.write ho hv.cancel hs hcount hfee

end Ready

/-- A stored order whose status follows from what was filled, unless it was cancelled. -/
structure Order.Proper (id : UInt64) (o : Order) : Prop extends Order.Valid id o where
  opened_iff : o.status = .opened ↔ o.filledAmount = 0 ∧ o.status ≠ .cancelled
  filled_iff : o.status = .filled ↔ o.filledAmount = o.amount
  priced : ∃ cost, calculateCost o.amount o.pricePerCredit = .ok cost

namespace Order.Proper

theorem remaining_pos (h : o.Proper id) (hlive : o.status.live = true) : 0 < o.remaining := by
  have hb := h.bounded
  have hne : o.filledAmount ≠ o.amount := by
    intro heq
    rw [h.filled_iff.mpr heq] at hlive
    cases hlive
  have hval : o.filledAmount.val ≠ o.amount.val := fun heq => hne (I128.ext heq)
  unfold Order.remaining
  omega

theorem fill (h : o.Proper id) (hn : 0 < n.val) (hle : n.val ≤ o.remaining)
    (hf : f.val = o.filledAmount.val + n.val) : (o.fill f).Proper id := by
  have hpos := h.filled
  have hne : f ≠ 0 := by
    rintro rfl
    rw [I128.val_zero] at hf
    omega
  refine ⟨h.toValid.fill hn hle hf, ?_, ?_, h.priced⟩
  · exact iff_of_false (by unfold Order.fill; split <;> simp) fun h0 => hne h0.1
  · by_cases hfull : f = o.amount <;> simp [Order.fill, hfull]

theorem cancel (h : o.Proper id) (hlive : o.status.live = true) : o.cancel.Proper id := by
  have hrem := h.remaining_pos hlive
  refine ⟨h.toValid.cancel, by simp [Order.cancel], ?_, h.priced⟩
  apply iff_of_false (by simp [Order.cancel])
  intro heq
  have heq : o.filledAmount.val = o.amount.val := congrArg I128.val heq
  unfold Order.remaining at hrem
  omega

end Order.Proper

theorem Order.Opened.proper {d : I128} (h : o.Opened d) (hid : o.id = id)
    (hp : ∃ cost, calculateCost o.amount o.pricePerCredit = .ok cost) : o.Proper id := by
  have h0 := h.unfilled
  have hpos := h.positive
  refine ⟨h.valid hid, iff_of_true h.status ⟨I128.ext h0, by simp [h.status]⟩, ?_, hp⟩
  apply iff_of_false (by simp [h.status])
  intro heq
  rw [heq] at h0
  omega

def State.Live (s : State) (maker : Address) (id : UInt64) : Prop :=
  ∃ o, s.order id = some o ∧ o.maker = maker ∧ o.status.live = true

/-- Orders are numbered without gaps, and each maker has a list of its live orders. -/
structure Book (s : State) : Prop where
  ready : s.Ready
  zero : s.order 0 = none
  stored : ∀ id, 0 < id → id ≤ s.orderCount → ∃ o, s.order id = some o
  proper : ∀ id o, s.order id = some o → o.Proper id
  index : ∀ maker, Indexes (s.Live maker) (s.makerOrders maker)
  short : ∀ maker, (s.makerOrders maker).length ≤ MAX_OPEN_ORDERS_PER_MAKER

/-- Orders keep their terms, are filled further, and rest once they are filled or cancelled. -/
def Advances (s s' : State) : Prop :=
  ∀ id o, s.order id = some o → ∃ f status,
    s'.order id = some { o with filledAmount := f, status } ∧ o.filledAmount ≤ f ∧
      (o.status.live = false → f = o.filledAmount ∧ status = o.status)

namespace Advances

theorem refl (s : State) : Advances s s := fun _ o ho => ⟨o.filledAmount, o.status, ho, le_rfl,
  fun _ => ⟨rfl, rfl⟩⟩

theorem trans (h : Advances s s') (h' : Advances s' s'') : Advances s s'' := by
  intro id o ho
  obtain ⟨f, status, ho₁, hle, hrest⟩ := h id o ho
  obtain ⟨f', status', ho₂, hle', hrest'⟩ := h' id _ ho₁
  refine ⟨f', status', ho₂, hle.trans hle', fun hlive => ?_⟩
  obtain ⟨rfl, rfl⟩ := hrest hlive
  exact hrest' hlive

theorem write (ho : s.order id = some o) (hlive : o.status.live = true) {status : OrderStatus}
    (hs : s'.order = update s.order id (some { o with filledAmount := f, status }))
    (hle : o.filledAmount ≤ f) : Advances s s' := by
  intro i oi hi
  by_cases hid : i = id
  · subst hid
    cases ho.symm.trans hi
    refine ⟨f, status, ?_, hle, fun hn => absurd (hlive.symm.trans hn) (by simp)⟩
    rw [hs, update_self]
  · refine ⟨oi.filledAmount, oi.status, ?_, le_rfl, fun _ => ⟨rfl, rfl⟩⟩
    rw [hs, update_of_ne hid, hi]

end Advances

section Update

variable (hs : s'.order = update s.order id (some o'))

include hs

theorem live_of_ne {i : UInt64} (hi : i ≠ id) : s'.Live maker i ↔ s.Live maker i := by
  rw [State.Live, State.Live, hs, update_of_ne hi]

theorem live_self : s'.Live maker id ↔ o'.maker = maker ∧ o'.status.live = true := by
  simp [State.Live, hs]

theorem proper_update (hp : o'.Proper id) (h : ∀ i o, s.order i = some o → o.Proper i) :
    ∀ i o, s'.order i = some o → o.Proper i := by
  intro i o hi
  rw [hs] at hi
  by_cases hid : i = id
  · rw [hid, update_self] at hi
    cases hi
    exact hid ▸ hp
  · rw [update_of_ne hid] at hi
    exact h i o hi

theorem index_keep (ho : s.order id = some o) (hlive : o.status.live = true)
    (hm : o'.maker = o.maker) (hlive' : o'.status.live = true)
    (hi : Indexes (s.Live maker) (s.makerOrders maker)) :
    Indexes (s'.Live maker) (s.makerOrders maker) := by
  apply hi.congr
  intro i
  by_cases hid : i = id
  · subst hid
    rw [live_self hs, hm]
    simp [State.Live, ho, hlive, hlive']
  · exact live_of_ne hs hid

theorem index_remove (ho : s.order id = some o) (hlive' : ¬ o'.status.live = true)
    (hi : Indexes (s.Live maker) (s.makerOrders maker)) :
    Indexes (s'.Live maker) ((s.removeMakerOrder o.maker id).makerOrders maker) := by
  have hgone : ¬ s'.Live maker id := fun h => hlive' ((live_self hs).mp h).2
  by_cases hmaker : maker = o.maker
  · subst hmaker
    simp only [State.removeMakerOrder, update_self]
    exact hi.erase hgone fun i hid => live_of_ne hs hid
  · simp only [State.removeMakerOrder, update_of_ne hmaker]
    apply hi.congr
    intro i
    by_cases hid : i = id
    · subst hid
      apply iff_of_false hgone
      rintro ⟨o₁, ho₁, rfl, -⟩
      cases ho.symm.trans ho₁
      exact hmaker rfl
    · exact live_of_ne hs hid

theorem index_add (hfree : s.order id = none) (hlive : o'.status.live = true)
    (hi : Indexes (s.Live maker) (s.makerOrders maker)) :
    Indexes (s'.Live maker)
      (update s.makerOrders o'.maker (s.makerOrders o'.maker ++ [id]) maker) := by
  have hbefore : ¬ s.Live maker id := by
    simp [State.Live, hfree]
  by_cases hmaker : maker = o'.maker
  · subst hmaker
    have hnot : id ∉ s.makerOrders o'.maker := fun hmem => hbefore ((hi.mem_iff _).mp hmem)
    have hins := hi.insert ((live_self hs).mpr ⟨rfl, hlive⟩) fun i hid => live_of_ne hs hid
    rw [if_neg hnot] at hins
    rwa [update_self]
  · rw [update_of_ne hmaker]
    apply hi.congr
    intro i
    by_cases hid : i = id
    · subst hid
      rw [live_self hs]
      exact iff_of_false (fun h => hmaker h.1.symm) hbefore
    · exact live_of_ne hs hid

end Update

theorem removeMakerOrder_length (o : Order) :
    ((s.removeMakerOrder o.maker id).makerOrders maker).length ≤ (s.makerOrders maker).length := by
  by_cases hmaker : maker = o.maker
  · subst hmaker
    simp only [State.removeMakerOrder, update_self]
    exact List.length_filter_le _ _
  · simp only [State.removeMakerOrder, update_of_ne hmaker]
    exact le_rfl

namespace Book

theorem idle (hb : Book s) (ho : s'.order = s.order) (hc : s'.orderCount = s.orderCount)
    (hm : s'.makerOrders = s.makerOrders) (hf : s'.feeBps ≤ MAX_FEE_BPS) : Book s' := by
  have hlive : s'.Live = s.Live := by
    ext maker i
    rw [State.Live, State.Live, ho]
  refine ⟨⟨hf, ?_, ?_⟩, ?_, ?_, ?_, fun maker => ?_, ?_⟩
  · rw [ho]
    exact hb.ready.valid
  · rw [ho, hc]
    exact hb.ready.fresh
  · rw [ho]
    exact hb.zero
  · rw [ho, hc]
    exact hb.stored
  · rw [ho]
    exact hb.proper
  · rw [hm, hlive]
    exact hb.index maker
  · rw [hm]
    exact hb.short

theorem write (hb : Book s) (hr : s'.Ready) (ho : s.order id = some o)
    (hlive : o.status.live = true) (hp : o'.Proper id) (hm : o'.maker = o.maker)
    (hs : s'.order = update s.order id (some o')) (hc : s'.orderCount = s.orderCount)
    (hmo : s'.makerOrders = if o'.status.live = true then s.makerOrders
      else (s.removeMakerOrder o.maker id).makerOrders) :
    Book s' := by
  refine ⟨hr, ?_, ?_, proper_update hs hp hb.proper, fun maker => ?_, fun maker => ?_⟩
  · have hne : (0 : UInt64) ≠ id := by
      rintro rfl
      rw [hb.zero] at ho
      cases ho
    rw [hs, update_of_ne hne]
    exact hb.zero
  · intro i h0 hle
    rw [hc] at hle
    by_cases hi : i = id
    · exact ⟨o', by rw [hs, hi, update_self]⟩
    · rw [hs, update_of_ne hi]
      exact hb.stored i h0 hle
  · rw [hmo]
    split
    · rename_i hlive'
      exact index_keep hs ho hlive hm hlive' (hb.index maker)
    · rename_i hlive'
      exact index_remove hs ho hlive' (hb.index maker)
  · rw [hmo]
    split
    · exact hb.short maker
    · exact (removeMakerOrder_length o).trans (hb.short maker)

theorem insert (hb : Book s) (hr : s'.Ready) (hcount : s.orderCount.toNat + 1 < 2 ^ 64)
    (hp : o.Proper (s.orderCount + 1)) (hlive : o.status.live = true)
    (hs : s'.order = update s.order (s.orderCount + 1) (some o))
    (hc : s'.orderCount = s.orderCount + 1)
    (hroom : (s.makerOrders o.maker).length < MAX_OPEN_ORDERS_PER_MAKER)
    (hmo : s'.makerOrders =
      update s.makerOrders o.maker (s.makerOrders o.maker ++ [s.orderCount + 1])) : Book s' := by
  have hlt := lt_next hcount
  have hfree : s.order (s.orderCount + 1) = none := hb.ready.fresh _ hlt
  refine ⟨hr, ?_, ?_, proper_update hs hp hb.proper, fun maker => ?_, fun maker => ?_⟩
  · have hne : (0 : UInt64) ≠ s.orderCount + 1 := by
      intro h0
      rw [← h0] at hlt
      exact absurd hlt (by simp)
    rw [hs, update_of_ne hne]
    exact hb.zero
  · intro i h0 hle
    rw [hc] at hle
    by_cases hi : i = s.orderCount + 1
    · exact ⟨o, by rw [hs, hi, update_self]⟩
    · rw [hs, update_of_ne hi]
      exact hb.stored i h0 (le_of_le_next hcount hle hi)
  · rw [hmo]
    exact index_add hs hfree hlive (hb.index maker)
  · rw [hmo]
    by_cases hmaker : maker = o.maker
    · subst hmaker
      rw [update_self, List.length_append]
      exact hroom
    · rw [update_of_ne hmaker]
      exact hb.short maker

end Book

/-- A change that keeps the book and advances its orders. -/
structure Turns (s s' : State) : Prop where
  book : Book s'
  advances : Advances s s'

theorem internalFillOrder_turns (hb : Book s)
    (h : s.internalFillOrder T e taker id n w = .ok (s', w')) : Turns s s' := by
  have hr := internalFillOrder_ready hb.ready h
  obtain ⟨hn, o, payout, fee, f, ho, hlive, hle, -, -, hf, -, hcount, hs, hmo⟩ :=
    internalFillOrder_cases h
  have hp := hb.proper id o ho
  rw [hp.key] at hs hmo
  constructor
  · refine hb.write hr ho hlive (hp.fill hn hle hf) rfl hs hcount (hmo.trans ?_)
    by_cases hfull : f = o.amount <;> simp [Order.fill, hfull, OrderStatus.live]
  · refine .write ho hlive hs ?_
    rw [I128.le_iff, hf]
    omega

theorem Turns.trans (h : Turns s s') (h' : Turns s' s'') : Turns s s'' :=
  ⟨h'.book, h.advances.trans h'.advances⟩

theorem fillLoop_turns {fills : List (UInt64 × I128)} (hb : Book s)
    (h : State.fillLoop T e taker fills s w = .ok (s', w')) : Turns s s' :=
  fillLoop_invariant (I := fun s₁ _ => Turns s s₁)
    (fun ht h1 => ht.trans (internalFillOrder_turns ht.book h1)) ⟨hb, .refl s⟩ h

theorem createOrder_turns {side : OrderSide} {creditToken paymentToken : Address}
    {amount price : I128} {newId : UInt64} (hb : Book s)
    (h : s.createOrder T e side maker creditToken paymentToken amount price w =
      .ok (newId, s', w')) : Turns s s' := by
  have hr := createOrder_ready hb.ready h
  obtain ⟨-, hcount, cost, hcost, o, hnew, hkey, rfl, rfl, rfl, -, -, hcount', hs, hroom, hmo⟩ :=
    createOrder_cases h
  have hlive : o.status.live = true := by
    rw [hnew.status]
    rfl
  constructor
  · exact hb.insert hr hcount (hnew.proper hkey ⟨cost, hcost⟩) hlive hs hcount' hroom hmo
  · intro i oi hi
    have hne : i ≠ s.orderCount + 1 := by
      rintro rfl
      exact hb.ready.not_fresh hi (lt_next hcount)
    refine ⟨oi.filledAmount, oi.status, ?_, le_rfl, fun _ => ⟨rfl, rfl⟩⟩
    rw [hs, update_of_ne hne, hi]

theorem cancelOrder_turns (hb : Book s) (h : s.cancelOrder T e maker id w = .ok (s', w')) :
    Turns s s' := by
  have hr := cancelOrder_ready hb.ready h
  obtain ⟨o, refund, ho, hlive, -, -, -, -, -, hcount, hs, hmo⟩ := cancelOrder_cases h
  have hp := hb.proper id o ho
  rw [hp.key] at hs hmo
  exact ⟨hb.write hr ho hlive (hp.cancel hlive) rfl hs hcount hmo, .write ho hlive hs le_rfl⟩

theorem execute_turns {c : Call} (hb : Book s) (h : execute T e s w c = .ok (s', w')) :
    Turns s s' := by
  rcases execute_cases h with ⟨ho, hc, hm, hf, -⟩ | ⟨_, _, _, _, _, _, _, h⟩ | ⟨_, _, -, h⟩ |
    ⟨_, _, h⟩
  · constructor
    · apply hb.idle ho hc hm
      rcases hf with hf | hf
      · exact hf ▸ hb.ready.fee
      · exact hf
    · exact fun i o hi => ⟨o.filledAmount, o.status, ho ▸ hi, le_rfl, fun _ => ⟨rfl, rfl⟩⟩
  · exact createOrder_turns hb h
  · exact fillLoop_turns hb h
  · exact cancelOrder_turns hb h

theorem book_init (h : (machine contract T).init sw) : Book sw.1 := by
  obtain ⟨admin, feeBps, feeRecipient, h⟩ := h
  obtain ⟨-, hfee, h⟩ := initialise_eq_ok.mp h
  rw [h]
  refine ⟨⟨hfee, fun i o ho => (by cases ho), fun _ _ => rfl⟩, rfl, ?_, ?_, fun maker => ?_, ?_⟩
  · intro i h0 hle
    exact absurd (lt_of_lt_of_le h0 hle) (lt_irrefl 0)
  · exact fun i o ho => by cases ho
  · apply Indexes.nil
    rintro i ⟨o, ho, -⟩
    cases ho
  · exact fun maker => Nat.zero_le _

theorem book_run {G : Guard (State × W) (Event contract W)} (h : (machine contract T).Run G tr sw) :
    Book sw.1 ∧ ∀ st ∈ tr, Advances st.before.1 sw.1 := by
  refine h.invariant (I := fun tr sw => Book sw.1 ∧ ∀ st ∈ tr, Advances st.before.1 sw.1) ?_ ?_
  · exact fun sw h => ⟨book_init h, by simp⟩
  · rintro tr sw ev sw' - ⟨hb, hadv⟩ - hs
    have hturn : Turns sw.1 sw'.1 := by
      cases ev with
      | call e c => exact execute_turns hb hs
      | outside w =>
        cases hs
        exact ⟨hb, .refl _⟩
    refine ⟨hturn.book, List.forall_mem_cons.mpr ⟨hturn.advances, fun st hst => ?_⟩⟩
    exact (hadv st hst).trans hturn.advances

theorem fillLoop_error {pre post : List (UInt64 × I128)} {s₁ : State} {w₁ : W} {x : Panic}
    (hpre : State.fillLoop T e taker pre s w = .ok (s₁, w₁))
    (h : s₁.internalFillOrder T e taker id n w₁ = .error x) :
    State.fillLoop T e taker (pre ++ (id, n) :: post) s w = .error x := by
  induction pre generalizing s w with
  | nil =>
    cases hpre
    simp only [List.nil_append, State.fillLoop, h]
    rfl
  | cons p rest ih =>
    simp only [State.fillLoop, bind_eq_ok] at hpre
    obtain ⟨⟨s₂, w₂⟩, h1, h2⟩ := hpre
    simp only [List.cons_append, State.fillLoop, h1]
    exact ih h2

/-- What holds of the stored orders and their index after a run. -/
structure OrderBook (contract : Address) (T : Tokens W)
    (tr : Trace (State × W) (Event contract W)) (sw : State × W) : Prop where
  ids : ∀ id, (∃ o, sw.1.order id = some o) ↔ 0 < id ∧ id ≤ sw.1.orderCount
  key : ∀ id o, sw.1.order id = some o → o.id = id
  filled : ∀ id o, sw.1.order id = some o → 0 ≤ o.filledAmount ∧ o.filledAmount ≤ o.amount
  opened_iff : ∀ id o, sw.1.order id = some o →
    (o.status = .opened ↔ o.filledAmount = 0 ∧ o.status ≠ .cancelled)
  filled_iff : ∀ id o, sw.1.order id = some o → (o.status = .filled ↔ o.filledAmount = o.amount)
  advances : ∀ st ∈ tr, Advances st.before.1 sw.1
  index : ∀ maker, Indexes (sw.1.Live maker) (sw.1.makerOrders maker)
  short : ∀ maker, (sw.1.makerOrders maker).length ≤ MAX_OPEN_ORDERS_PER_MAKER
  batch : ∀ (e : Env contract) taker orderIds fillAmounts pre id n post s w x,
    orderIds.zip fillAmounts = pre ++ (id, n) :: post →
      State.fillLoop T e taker pre sw.1 sw.2 = .ok (s, w) →
      s.internalFillOrder T e taker id n w = .error x →
      (machine contract T).call sw (.call e (.batchFillOrders taker orderIds fillAmounts)) = sw

theorem batch_rollback {taker : Address} {orderIds : List UInt64} {fillAmounts : List I128}
    {pre post : List (UInt64 × I128)} {x : Panic}
    (hz : orderIds.zip fillAmounts = pre ++ (id, n) :: post)
    (hpre : State.fillLoop T e taker pre sw.1 sw.2 = .ok (s, w))
    (h : s.internalFillOrder T e taker id n w = .error x) :
    (machine contract T).call sw (.call e (.batchFillOrders taker orderIds fillAmounts)) = sw := by
  rcases Machine.call_cases (m := machine contract T) sw
    (.call e (.batchFillOrders taker orderIds fillAmounts)) with heq | hstep
  · exact heq
  · have hbatch : execute T e sw.1 sw.2 (.batchFillOrders taker orderIds fillAmounts) = .ok _ :=
      hstep
    simp only [execute, State.batchFillOrders, bind_eq_ok] at hbatch
    obtain ⟨_, -, _, -, _, -, _, -, hloop⟩ := hbatch
    rw [hz, fillLoop_error hpre h] at hloop
    cases hloop

/-- The stored orders and their index agree after every run. -/
theorem order_book (h : (machine contract T).Run Machine.anyCall tr sw) :
    OrderBook contract T tr sw := by
  obtain ⟨hb, hadv⟩ := book_run h
  refine ⟨fun id => ⟨?_, fun hid => hb.stored id hid.1 hid.2⟩, ?_, ?_, ?_, ?_, hadv, hb.index,
    hb.short, ?_⟩
  · rintro ⟨o, ho⟩
    have hpos : 0 < id := by
      rw [UInt64.pos_iff_ne_zero]
      rintro rfl
      rw [hb.zero] at ho
      cases ho
    exact ⟨hpos, UInt64.not_lt.mp (hb.ready.not_fresh ho)⟩
  · exact fun id o ho => (hb.proper id o ho).key
  · exact fun id o ho => ⟨(hb.proper id o ho).filled, (hb.proper id o ho).bounded⟩
  · exact fun id o ho => (hb.proper id o ho).opened_iff
  · exact fun id o ho => (hb.proper id o ho).filled_iff
  · exact fun e taker ids amounts pre id n post s w x hz hpre hx => batch_rollback hz hpre hx

section Sample

/-- The balances of all tokens by token and holder. -/
abbrev Holdings := Address → Address → ℕ

def Holdings.move (w : Holdings) (token sender recipient : Address) (amount : I128) :
    Result Holdings := do
  ensure (0 ≤ amount.val ∧ amount.val ≤ w token sender) "insufficient balance"
  return update w token fun a =>
    (w token a - (if sender = a then amount.val else 0) +
      (if recipient = a then amount.val else 0)).toNat

def plainTokens : Tokens Holdings where
  transfer token _ sender recipient amount w := w.move token sender recipient amount
  transferFrom token _ _ sender recipient amount w := w.move token sender recipient amount

abbrev market : Address := .contract 9

def signedBy (key : BytesN 32) (c : Call) : Event market Holdings :=
  .call (.signed 0 0 (.account key) (by simp)) c

/-- Two accounts hold a hundred units of every token. -/
def opened : State × Holdings :=
  ({ admin := .account 0, feeBps := 1000, feeRecipient := .account 0 },
    fun _ holder => if holder = .account 1 ∨ holder = .account 2 then 100 else 0)

/-- A batch fills the first order twice, and the second one is cancelled. -/
def listed : State × Holdings :=
  (machine market plainTokens).calls opened [
    signedBy 1 (.createBuyOrder (.account 1) (.contract 7) (.contract 8) 10 15000000),
    signedBy 1 (.createSellOrder (.account 1) (.contract 7) (.contract 8) 4 20000000),
    signedBy 2 (.batchFillOrders (.account 2) [1, 1] [3, 4]),
    signedBy 1 (.cancelOrder (.account 1) 2)]

theorem order_book_listed : ∃ tr, (machine market plainTokens).Run Machine.anyCall tr listed ∧
    listed.1.makerOrders (.account 1) = [1] ∧ OrderBook market plainTokens tr listed := by
  have h0 := Machine.Run.init (m := machine market plainTokens) (G := Machine.anyCall)
    (s := opened) ⟨.account 0, 1000, .account 0, by rfl⟩
  obtain ⟨tr, h⟩ := Machine.Reachable.calls ⟨[], h0⟩ _
  exact ⟨tr, h, by rfl, order_book h⟩

end Sample

end WaterCredits.Market
