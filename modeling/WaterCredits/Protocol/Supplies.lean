import WaterCredits.Protocol.Ledger
import WaterCredits.Token.Accounting

/-! # The supplies in the whole system

The balances of a token can outgrow its supply in one way only: somebody pays
itself. Users do so by a transfer to themselves, makers by taking their own
orders, and the contracts when a fee or a penalty is paid to them. In runs
without such payments all tokens stay balanced, whatever is traded and staked.
-/

namespace WaterCredits.Protocol

open Foundation Function
open Registry (System)

variable {registry market oracle token : Address} {w w' : System} {S S' : State}
  {sha256 : List (BitVec 8) → BytesN 32} {l : Action registry market oracle}
  {tr : Trace State (Action registry market oracle)}

def Sound (w : System) : Prop := ∀ t s, w.token t = some s → s.books.Balanced

theorem callToken_sound {e : Env token} {c : Token.Call} (hc : ¬ c.toSelf) (hw : Sound w)
    (h : callToken registry e c w = .ok w') : Sound w' := by
  obtain ⟨s, s', hs, hstep, hupdate⟩ := callToken_cases h
  intro t u hu
  rw [hupdate, update_apply] at hu
  split at hu
  · cases hu
    exact (hw token s hs).entries (Token.step_entries (hw token s hs) hc hstep)
  · exact hw t u hu

theorem transfer_sound {e : Env token} {sender recipient : Address} {amount : I128}
    (hne : sender ≠ recipient)
    (h : callToken registry e (.transfer sender recipient amount) w = .ok w') (hw : Sound w) :
    Sound w' :=
  callToken_sound (c := .transfer sender recipient amount) hne hw h

/-- The transfers of the contracts between different parties keep the books balanced. -/
theorem market_sound (e : Env market) :
    Market.Respects (tokens registry) e (· ≠ ·) fun w w' => Sound w → Sound w' where
  refl _ := id
  trans h h' := h' ∘ h
  transfer := transfer_sound
  transferFrom _ hne h hw := by
    refine callToken_sound ?_ hw h
    exact hne

@[inherit_doc market_sound]
theorem oracle_sound {e : Env oracle} {P Q : Address → Prop} (hQ : ∀ a, Q a → a ≠ oracle) :
    Oracle.Respects (outside registry e sha256) oracle P Q fun w w' => Sound w → Sound w' :=
  respects_of_calls (fun _ => id) (fun h h' => h' ∘ h) (fun _ h hw => callToken_sound id hw h)
    transfer_sound fun hq => transfer_sound (hQ _ hq).symm

/-- Nobody pays itself: no user, no party of a trade and not the oracle as its own treasury. -/
def paysOthers : Guard State (Action registry market oracle)
  | _, _, .ledger (.token _ _ c) => ¬ c.toSelf
  | _, S, .market _ c => ¬ S.market.selfTrades market c
  | _, S, .oracle _ _ => S.oracle.config.treasury ≠ oracle
  | _, _, _ => True

theorem sound_step (hw : Sound S.ledger) (hg : paysOthers tr S l)
    (hs : (machine registry market oracle sha256).step l S = .ok S') : Sound S'.ledger := by
  cases l with
  | ledger x =>
    simp only [machine, Protocol.step, bind_eq_ok, pure_eq_ok] at hs
    obtain ⟨w, hx, rfl⟩ := hs
    cases x with
    | deploy t e admin name symbol projectId methodology =>
      simp only [Registry.step, bind_eq_ok, pure_eq_ok] at hx
      obtain ⟨s, hinit, rfl⟩ := hx
      intro t' s' hs'
      simp only [update_apply] at hs'
      split at hs'
      · cases hs'
        obtain ⟨-, rfl⟩ := Token.initialise_eq_ok.mp hinit
        exact Books.balanced_empty
      · exact hw t' s' hs'
    | token t e c => exact callToken_sound hg hw hx
    | registry e c =>
      simp only [Registry.step, bind_eq_ok, pure_eq_ok] at hx
      obtain ⟨r, -, rfl⟩ := hx
      exact hw
  | market e c =>
    simp only [machine, Protocol.step, bind_eq_ok, pure_eq_ok] at hs
    obtain ⟨⟨m, w⟩, hx, rfl⟩ := hs
    exact Market.execute_respects (market_sound e) (Market.permits_apart hg hx) hx hw
  | oracle e c =>
    simp only [machine, Protocol.step, bind_eq_ok, pure_eq_ok] at hs
    obtain ⟨⟨o, w⟩, hx, rfl⟩ := hs
    have hpays (a : Address) (ha : Oracle.paysOut oracle S.oracle a) : a ≠ oracle := by
      rcases ha with rfl | ha
      · exact hg
      · exact ha
    exact Oracle.execute_respects (oracle_sound hpays) hx hw

theorem sound_reach (h : (machine registry market oracle sha256).Reach paysOthers S) :
    Sound S.ledger := by
  refine h.invariant (I := fun S => Sound S.ledger) ?_ fun _ _ _ _ hi hg hs => sound_step hi hg hs
  rintro S ⟨⟨htokens, -⟩, -⟩ t s hs
  rw [htokens] at hs
  cases hs

/--
In every run of the whole system in which nobody pays itself, the balances of
every token are not negative and add up to its supply, and the supply, the
retired and the burned credits add up to all credits ever minted.
-/
theorem supplies_balance (h : (machine registry market oracle sha256).Reach paysOthers S)
    {t : Address} {s : Token.State} (hs : S.ledger.token t = some s) :
    (∀ a, 0 ≤ (s.balance a).val) ∧ ∑ᶠ a, (s.balance a).val = s.totalSupply.val ∧
      s.totalSupply.val + s.totalRetired.val + s.totalBurned.val = s.everMinted.val := by
  have hb := sound_reach h t s hs
  exact ⟨hb.nonneg, hb.total, hb.conserved⟩

section Sample

/-- The account `1` offers ten of all hundred credits, for units of the same token. -/
def offered : State :=
  sampleMachine.calls founded [issuing,
    onToken 0 (.mintTo (.account 0) (.account 1) 100),
    onToken 1 (.approve (.account 1) marketAt 100 9),
    onMarket 1 (.createSellOrder (.account 1) (.contract 1) (.contract 1) 10 10000000)]

/-- The account `2` gets half of the credits and buys five more. -/
def traded : State :=
  sampleMachine.calls offered [onToken 1 (.transfer (.account 1) (.account 2) 50),
    onToken 2 (.approve (.account 2) marketAt 50 9),
    onMarket 2 (.fillOrder (.account 2) 1 5)]

def counts (S : State) (a : Address) : Option (ℤ × ℤ) :=
  (S.ledger.token (.contract 1)).map fun s => ((s.balance a).val, s.totalSupply.val)

/-- A maker that takes its own order is paid out of nothing. -/
example : counts (sampleMachine.calls offered
    [onMarket 1 (.fillOrder (.account 1) 1 10)]) (.account 1) = some (110, 100) := by rfl

theorem supplies_balance_traded : counts traded (.account 1) = some (45, 100) ∧
    ∀ s, traded.ledger.token (.contract 1) = some s →
      (∀ a, 0 ≤ (s.balance a).val) ∧ ∑ᶠ a, (s.balance a).val = s.totalSupply.val ∧
        s.totalSupply.val + s.totalRetired.val + s.totalBurned.val = s.everMinted.val := by
  have h0 := Machine.Run.init (m := sampleMachine) (G := paysOthers) founded_init
  have h1 := h0.call (l := issuing) trivial (by rfl)
  have h2 := h1.call (l := onToken 0 (.mintTo (.account 0) (.account 1) 100)) id (by rfl)
  have h3 := h2.call (l := onToken 1 (.approve (.account 1) marketAt 100 9)) id (by rfl)
  have h4 := h3.call
    (l := onMarket 1 (.createSellOrder (.account 1) (.contract 1) (.contract 1) 10 10000000)) id
    (by rfl)
  have h5 := h4.call (l := onToken 1 (.transfer (.account 1) (.account 2) 50))
    (by simp [paysOthers, onToken, Token.Call.toSelf]) (by rfl)
  have h6 := h5.call (l := onToken 2 (.approve (.account 2) marketAt 50 9)) id (by rfl)
  have h7 := h6.call (l := onMarket 2 (.fillOrder (.account 2) 1 5))
    (by
      rintro ⟨o, ho, hself⟩
      cases ho
      rcases hself with h | h <;> cases h)
    (by rfl)
  exact ⟨by rfl, fun s hs => supplies_balance ⟨_, h7⟩ hs⟩

end Sample

end WaterCredits.Protocol
