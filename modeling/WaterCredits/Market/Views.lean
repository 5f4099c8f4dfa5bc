import WaterCredits.Foundation.Scan
import WaterCredits.Market.Book

/-! # The views of the order book

The orders of a token are read in pages: a scan of the identifiers from a start
on, which anyone continues after the last order of the page before. All pages
together have every order of the token exactly once.
-/

namespace WaterCredits.Market

open Foundation Function

variable {contract creditToken : Address} {W : Type} {T : Tokens W} {s : State} {sw : State × W}
  {tr : Trace (State × W) (Event contract W)}

namespace State

def getOpenOrdersByMaker (s : State) (maker : Address) : List UInt64 := s.makerOrders maker

def orderFor (s : State) (creditToken : Address) (id : UInt64) : Option Order :=
  (s.order id).filter (·.creditToken = creditToken)

/-- Returns nothing if the loop runs out of fuel. -/
def getOrdersForToken (s : State) (fuel : ℕ) (creditToken : Address) (startId : UInt64)
    (limit : UInt32) : Option (List Order) :=
  if limit = 0 ∨ s.orderCount < startId ∨ s.orderCount = 0 then some []
  else scanLoop (s.orderFor creditToken) s.orderCount limit.toNat fuel startId []

end State

/--
The orders of a token, in the order of their identifiers. A page has those from
its start on, up to its limit, and the pages one after another have all of them;
an order is open exactly if the list of its maker has it.
-/
structure TokenPages (s : State) (creditToken : Address) (L : List Order) : Prop where
  mem_iff : ∀ o, o ∈ L ↔ s.order o.id = some o ∧ o.creditToken = creditToken
  ascending : L.Pairwise (·.id < ·.id)
  live_iff : ∀ o ∈ L, o.status.live = true ↔ o.id ∈ s.getOpenOrdersByMaker o.maker
  page : ∀ fuel startId limit, s.orderCount.toNat + 1 - startId.toNat < fuel →
    s.getOrdersForToken fuel creditToken startId limit =
      some ((L.filter (startId ≤ ·.id)).take limit.toNat)
  walked : ∀ fuel (limit : UInt32) n, 0 < limit → s.orderCount.toNat + 1 < fuel →
    L.length ≤ n * limit.toNat →
      walk (fun startId => (s.getOrdersForToken fuel creditToken startId limit).getD [])
        Order.id n 0 = L

theorem orderFor_eq_some {id : UInt64} {o : Order} :
    s.orderFor creditToken id = some o ↔ s.order id = some o ∧ o.creditToken = creditToken := by
  simp [State.orderFor]

section Book

variable (hb : Book s) (ht : s.orderCount.toNat + 1 < 2 ^ 64)

include hb

theorem Book.keyed : Keyed (s.orderFor creditToken) Order.id := fun id o ho =>
  (hb.proper id o (orderFor_eq_some.mp ho).1).key

include ht

theorem Book.getOrdersForToken_eq {fuel : ℕ} {startId : UInt64} {limit : UInt32}
    (hf : s.orderCount.toNat + 1 - startId.toNat < fuel) :
    s.getOrdersForToken fuel creditToken startId limit =
      some ((entriesFrom (s.orderFor creditToken) s.orderCount startId).take limit.toNat) := by
  unfold State.getOrdersForToken
  split
  · rename_i hnone
    rcases hnone with rfl | hlt | hz
    · rfl
    · rw [entriesFrom_nil hlt, List.take_nil]
    · have hempty : entriesFrom (s.orderFor creditToken) s.orderCount startId = [] := by
        refine List.eq_nil_iff_forall_not_mem.mpr fun o ho => ?_
        obtain ⟨i, -, hle, ho⟩ := (mem_entriesFrom ht).mp ho
        obtain ⟨ho, -⟩ := orderFor_eq_some.mp ho
        rw [hz] at hle
        obtain rfl : i = 0 := UInt64.le_zero_iff.mp hle
        cases hb.zero.symm.trans ho
      rw [hempty, List.take_nil]
  · exact scanLoop_eq ht hf (Nat.zero_le _)

theorem Book.mem_orders {o : Order} :
    o ∈ entriesFrom (s.orderFor creditToken) s.orderCount 0 ↔
      s.order o.id = some o ∧ o.creditToken = creditToken := by
  rw [mem_entriesFrom ht]
  constructor
  · rintro ⟨i, -, -, ho⟩
    obtain ⟨ho, htoken⟩ := orderFor_eq_some.mp ho
    have hid : o.id = i := (hb.proper i o ho).key
    exact ⟨hid ▸ ho, htoken⟩
  · rintro ⟨ho, htoken⟩
    exact ⟨o.id, UInt64.zero_le, UInt64.not_lt.mp (hb.ready.not_fresh ho),
      orderFor_eq_some.mpr ⟨ho, htoken⟩⟩

theorem Book.tokenPages :
    TokenPages s creditToken (entriesFrom (s.orderFor creditToken) s.orderCount 0) := by
  have hk : Keyed (s.orderFor creditToken) Order.id := hb.keyed
  constructor
  · exact fun o => hb.mem_orders ht
  · exact entriesFrom_pairwise ht hk
  · intro o ho
    obtain ⟨ho, -⟩ := (hb.mem_orders ht).mp ho
    rw [State.getOpenOrdersByMaker, (hb.index o.maker).mem_iff]
    constructor
    · exact fun hlive => ⟨o, ho, rfl, hlive⟩
    · rintro ⟨o', ho', -, hlive⟩
      obtain rfl : o = o' := Option.some.inj (ho.symm.trans ho')
      exact hlive
  · intro fuel startId limit hf
    rw [hb.getOrdersForToken_eq ht hf, entriesFrom_filter ht hk UInt64.zero_le]
  · intro fuel limit n hl hf hn
    rw [walk_eq ht hk (UInt32.lt_iff_toNat_lt.mp hl), List.take_of_length_le hn]
    intro i
    rw [hb.getOrdersForToken_eq ht (Nat.lt_of_le_of_lt (Nat.sub_le _ _) hf), Option.getD_some]

end Book

/--
In every reachable state whose number of orders leaves room for one more, the
pages of each token are exact.
-/
theorem orders_paged {G : Guard (State × W) (Event contract W)}
    (h : (machine contract T).Run G tr sw) (ht : sw.1.orderCount.toNat + 1 < 2 ^ 64)
    (creditToken : Address) : ∃ L, TokenPages sw.1 creditToken L :=
  ⟨_, (book_run h).1.tokenPages ht⟩

section Sample

/-- Two pages of one order each. -/
theorem orders_paged_listed :
    (listed.1.getOrdersForToken 3 (.contract 7) 0 1).map (·.map Order.id) = some [1] ∧
      (listed.1.getOrdersForToken 3 (.contract 7) 2 1).map (·.map Order.id) = some [2] ∧
      ∃ L, TokenPages listed.1 (.contract 7) L := by
  have h0 := Machine.Run.init (m := machine market plainTokens) (G := Machine.anyCall)
    (s := opened) ⟨.account 0, 1000, .account 0, by rfl⟩
  obtain ⟨tr, h⟩ := Machine.Reachable.calls ⟨[], h0⟩ _
  exact ⟨by rfl, by rfl, orders_paged h (by decide) _⟩

end Sample

end WaterCredits.Market
