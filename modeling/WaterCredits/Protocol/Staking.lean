import WaterCredits.Oracle.Reserve
import WaterCredits.Protocol.Holdings

/-! # Stakes are backed by the staking token

While the staking token is a credit token and stays the same, the oracle holds
the stakes of all oracles, except for what an admin burns of them.
-/

namespace WaterCredits.Protocol

open Foundation Function
open Registry (System)

variable {registry market oracle token : Address} {S S' : State}
  {sha256 : List (BitVec 8) → BytesN 32} {l : Action registry market oracle}
  {tr : Trace State (Action registry market oracle)}

theorem outside_reserve (e : Env oracle) (token : Address) :
    Oracle.Reserve (outside registry e sha256) oracle token (holding · token oracle) where
  kept := by
    refine respects_of_calls (fun _ => le_rfl) (fun h h' => h.trans h') ?_ ?_ ?_
    · intro t recipient amount w w' _ h
      have hd := callToken_holding h token oracle
      simpa [Token.Call.debit] using hd
    · intro t sender amount w w' hne h
      have hd := callToken_holding h token oracle
      simpa [Token.Call.debit, hne] using hd
    · exact fun hf => hf.elim
  deposited _ h := by
    have hd := callToken_delivers rfl h token
    rwa [if_pos rfl] at hd
  spent h := by
    have hd := callToken_holding h token oracle
    simpa [Token.Call.debit] using hd

structure Collateral (token : Address) (tr : Trace State (Action registry market oracle))
    (S : State) : Prop where
  vacant : Vacant S.ledger oracle
  finite : (support S.oracle.stakeOf).Finite
  covered : S.oracle.staked ≤ holding S.ledger token oracle + burnedOf token oracle tr

theorem collateral_init (h : (machine registry market oracle sha256).init S) :
    Collateral token ([] : Trace State (Action registry market oracle)) S := by
  have hvacant : Vacant S.ledger oracle := init_vacant h
  obtain ⟨⟨htokens, -⟩, -, admin, stakingToken, treasury, ho⟩ := h
  obtain ⟨-, ho⟩ := Oracle.initialise_eq_ok.mp ho
  have hstake : S.oracle.stakeOf = fun _ => 0 := by
    rw [ho]
    rfl
  refine ⟨hvacant, hstake ▸ backed_zero.finite, ?_⟩
  unfold Oracle.State.staked
  rw [hstake]
  simp [holding, htokens, burnedOf]

theorem Collateral.step (hne : market ≠ oracle) (hl : l.auth oracle = false)
    (ht : S.oracle.config.stakingToken = token) (h : Collateral token tr S)
    (hs : Protocol.step sha256 l S = .ok S') : Collateral token (⟨S, l, S'⟩ :: tr) S' := by
  have hvacant := step_vacant hl h.vacant hs
  have foreign (hx : l.executor ≠ some oracle) (ho : S'.oracle = S.oracle) :
      Collateral token (⟨S, l, S'⟩ :: tr) S' := by
    have hhold := (step_keeps ⟨hl, hx⟩ h.vacant.allotted hs).holding_le h.vacant token
    have hc := h.covered
    refine ⟨hvacant, ho ▸ h.finite, ?_⟩
    rw [ho, burnedOf_cons]
    simp only
    omega
  cases l with
  | ledger x =>
    refine foreign (by simp [Action.executor]) ?_
    simp only [Protocol.step, bind_eq_ok, pure_eq_ok] at hs
    obtain ⟨w, -, rfl⟩ := hs
    rfl
  | market e c =>
    refine foreign (by simp [Action.executor, hne]) ?_
    simp only [Protocol.step, bind_eq_ok, pure_eq_ok] at hs
    obtain ⟨w, -, rfl⟩ := hs
    rfl
  | oracle e c =>
    simp only [Protocol.step, bind_eq_ok, pure_eq_ok] at hs
    obtain ⟨⟨o, w⟩, hx, rfl⟩ := hs
    obtain ⟨hf, hle⟩ := Oracle.execute_spares (outside_reserve e token) ht hx h.finite
    have hc := h.covered
    have hz : burned token oracle (.oracle e c : Action registry market oracle) = 0 := rfl
    refine ⟨hvacant, hf, ?_⟩
    rw [burnedOf_cons, hz]
    simp only at hle ⊢
    omega

/--
In every run that keeps a credit token as the staking token the stakes of all
oracles exceed what the oracle contract holds of it by at most what was burned
of its holdings.
-/
theorem stakes_backed (hne : market ≠ oracle)
    (h : (machine registry market oracle sha256).Run (fun _ S l =>
      Unsigned market oracle l ∧ S.oracle.config.stakingToken = token) tr S) :
    S.oracle.staked ≤ holding S.ledger token oracle + burnedOf token oracle tr := by
  have hcollateral : Collateral token tr S := h.invariant (I := Collateral token)
    (fun _ => collateral_init) fun _ _ _ _ _ hi hg hs => hi.step hne hg.1.2 hg.2 hs
  exact hcollateral.covered

section Sample

/-- The account `1` stakes six of its ten credits, loses two and asks one back; one is burned. -/
def collateral : State :=
  sampleMachine.calls founded [issuing,
    onToken 0 (.mintTo (.account 0) (.account 1) 10),
    onOracle 1 (.stake (.account 1) 6),
    onOracle 0 (.slash (.account 0) (.account 1) 2 1),
    onOracle 1 (.unstake (.account 1) 1),
    onToken 0 (.burn (.account 0) oracleAt 1)]

theorem stakes_backed_collateral : ∃ tr : Trace State (Action archiveAt marketAt oracleAt),
    (collateral.oracle.oracleStake (.account 1)).amount.val = 3 ∧
      holding collateral.ledger (.contract 1) oracleAt = 3 ∧
      burnedOf (.contract 1) oracleAt tr = 1 ∧
      collateral.oracle.staked ≤
        holding collateral.ledger (.contract 1) oracleAt + burnedOf (.contract 1) oracleAt tr := by
  have h0 := Machine.Run.init (m := sampleMachine) (G := fun _ S l =>
    Unsigned marketAt oracleAt l ∧ S.oracle.config.stakingToken = .contract 1) founded_init
  have h1 := h0.call (l := issuing) ⟨⟨rfl, rfl⟩, rfl⟩ (by rfl)
  have h2 := h1.call (l := onToken 0 (.mintTo (.account 0) (.account 1) 10))
    ⟨⟨rfl, rfl⟩, rfl⟩ (by rfl)
  have h3 := h2.call (l := onOracle 1 (.stake (.account 1) 6)) ⟨⟨rfl, rfl⟩, rfl⟩ (by rfl)
  have h4 := h3.call (l := onOracle 0 (.slash (.account 0) (.account 1) 2 1))
    ⟨⟨rfl, rfl⟩, rfl⟩ (by rfl)
  have h5 := h4.call (l := onOracle 1 (.unstake (.account 1) 1)) ⟨⟨rfl, rfl⟩, rfl⟩ (by rfl)
  have h6 := h5.call (l := onToken 0 (.burn (.account 0) oracleAt 1)) ⟨⟨rfl, rfl⟩, rfl⟩ (by rfl)
  exact ⟨_, by rfl, by rfl, by rfl, stakes_backed (by decide) h6⟩

end Sample

end WaterCredits.Protocol
