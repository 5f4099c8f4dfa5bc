import WaterCredits.Market.Cancel
import WaterCredits.Protocol.Holdings

/-! # Orders are backed by the tokens

The credit tokens keep the balance of the marketplace as its escrow needs it: a
deposit arrives, and only the marketplace spends. What the orders are owed can
therefore exceed the balance only by what an admin burns of it.
-/

namespace WaterCredits.Protocol

open Foundation Function
open Registry (System)

variable {registry market oracle : Address} {w w' : System} {S S' : State}
  {sha256 : List (BitVec 8) → BytesN 32} {l : Action registry market oracle}
  {tr : Trace State (Action registry market oracle)}

theorem tokens_steward (market token : Address) :
    Market.Steward market (tokens registry) token (holding · token market) where
  incoming {t spender sender recipient e amount w w'} hs _ h := by
    have hd := callToken_holding h token market
    simpa [Token.Call.debit, hs] using hd
  deposited {t spender sender e amount w w'} _ h := callToken_delivers rfl h token
  outgoing {t sender recipient e amount w w'} h0 h := by
    have hd := callToken_holding h token market
    simp only [Token.Call.debit] at hd
    split_ifs at hd ⊢ <;> omega

/-- What holds of the marketplace and its tokens after a run. -/
structure Secured (tr : Trace State (Action registry market oracle)) (S : State) : Prop where
  book : Market.Book S.market
  vacant : Vacant S.ledger market
  covered : ∀ t, ∑ᶠ id, S.market.owed t id ≤ holding S.ledger t market + burnedOf t market tr

theorem secured_init (h : (machine registry market oracle sha256).init S) :
    Secured ([] : Trace State (Action registry market oracle)) S := by
  have hvacant : Vacant S.ledger market := init_vacant h
  obtain ⟨⟨htokens, -⟩, ⟨admin, feeBps, feeRecipient, hm⟩, -⟩ := h
  have hinit : (Market.machine market (tokens registry)).init (S.market, S.ledger) :=
    ⟨admin, feeBps, feeRecipient, hm⟩
  have hbook : Market.Book S.market := Market.book_init hinit
  obtain ⟨-, -, hm⟩ := Market.initialise_eq_ok.mp hm
  refine ⟨hbook, hvacant, fun t => ?_⟩
  simp [hm, Market.State.owed, holding, htokens, burnedOf]

theorem Secured.step (hne : market ≠ oracle) (hl : l.auth market = false) (h : Secured tr S)
    (hs : Protocol.step sha256 l S = .ok S') : Secured (⟨S, l, S'⟩ :: tr) S' := by
  have hvacant := step_vacant hl h.vacant hs
  have foreign (hx : l.executor ≠ some market) (hm : S'.market = S.market) (t : Address) :
      ∑ᶠ id, S'.market.owed t id ≤
        holding S'.ledger t market + burnedOf t market (⟨S, l, S'⟩ :: tr) := by
    have hhold := (step_keeps ⟨hl, hx⟩ h.vacant.allotted hs).holding_le h.vacant t
    have hc := h.covered t
    rw [hm, burnedOf_cons]
    simp only
    omega
  cases l with
  | ledger x =>
    have hm : S'.market = S.market := by
      simp only [Protocol.step, bind_eq_ok, pure_eq_ok] at hs
      obtain ⟨w, -, rfl⟩ := hs
      rfl
    exact ⟨hm ▸ h.book, hvacant, foreign (by simp [Action.executor]) hm⟩
  | oracle e c =>
    have hm : S'.market = S.market := by
      simp only [Protocol.step, bind_eq_ok, pure_eq_ok] at hs
      obtain ⟨w, -, rfl⟩ := hs
      rfl
    exact ⟨hm ▸ h.book, hvacant, foreign (by simp [Action.executor, hne.symm]) hm⟩
  | market e c =>
    simp only [Protocol.step, bind_eq_ok, pure_eq_ok] at hs
    obtain ⟨⟨m, w⟩, hx, rfl⟩ := hs
    refine ⟨(Market.execute_turns h.book hx).book, hvacant, fun t => ?_⟩
    have hexcess := Market.execute_excess (tokens_steward market t) h.book.ready hx
    have hc := h.covered t
    have hz : burned t market (.market e c : Action registry market oracle) = 0 := rfl
    simp only [Market.excess] at hexcess
    rw [burnedOf_cons, hz]
    simp only
    omega

theorem secured_run (hne : market ≠ oracle)
    (h : (machine registry market oracle sha256).Run (fun _ _ l => Unsigned market oracle l) tr S) :
    Secured tr S :=
  h.invariant (I := Secured) (fun _ => secured_init) fun _ _ _ _ _ hi hg hs => hi.step hne hg.1 hs

/--
In every run what the open orders are owed of a token exceeds what the
marketplace holds of it by at most what was burned of its holdings.
-/
theorem orders_backed (hne : market ≠ oracle)
    (h : (machine registry market oracle sha256).Run (fun _ _ l => Unsigned market oracle l) tr S)
    (t : Address) :
    ∑ᶠ id, S.market.owed t id ≤ holding S.ledger t market + burnedOf t market tr :=
  (secured_run hne h).covered t

section Sample

/-- The account `1` offers ten credits, and the admin burns two of them in the escrow. -/
def drained : State :=
  sampleMachine.calls founded [issuing,
    onToken 0 (.mintTo (.account 0) (.account 1) 10),
    onToken 1 (.approve (.account 1) marketAt 10 0),
    onMarket 1 (.createSellOrder (.account 1) (.contract 1) (.contract 1) 10 10000000),
    onToken 0 (.burn (.account 0) marketAt 2)]

theorem orders_backed_drained : ∃ tr : Trace State (Action archiveAt marketAt oracleAt),
    holding drained.ledger (.contract 1) marketAt = 8 ∧
      burnedOf (.contract 1) marketAt tr = 2 ∧
      ∑ᶠ id, drained.market.owed (.contract 1) id ≤
        holding drained.ledger (.contract 1) marketAt + burnedOf (.contract 1) marketAt tr := by
  have h0 := Machine.Run.init (m := sampleMachine)
    (G := fun _ _ l => Unsigned marketAt oracleAt l) founded_init
  have h1 := h0.call (l := issuing) ⟨rfl, rfl⟩ (by rfl)
  have h2 := h1.call (l := onToken 0 (.mintTo (.account 0) (.account 1) 10)) ⟨rfl, rfl⟩ (by rfl)
  have h3 := h2.call (l := onToken 1 (.approve (.account 1) marketAt 10 0)) ⟨rfl, rfl⟩ (by rfl)
  have h4 := h3.call
    (l := onMarket 1 (.createSellOrder (.account 1) (.contract 1) (.contract 1) 10 10000000))
    ⟨rfl, rfl⟩ (by rfl)
  have h5 := h4.call (l := onToken 0 (.burn (.account 0) marketAt 2)) ⟨rfl, rfl⟩ (by rfl)
  exact ⟨_, by rfl, by rfl, orders_backed (by decide) h5 _⟩

end Sample

end WaterCredits.Protocol
