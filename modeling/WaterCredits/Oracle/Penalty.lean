import WaterCredits.Foundation.FiniteSum
import WaterCredits.Oracle.Moves

/-! # Stakes and penalties

What the calls do to the stakes, whatever the staking token is. A listed oracle
that has a commitment and has not revealed pays one penalty, which its stake
covers and an honest staking token moves to the treasury.
-/

namespace WaterCredits.Oracle

open Foundation Function

variable {contract : Address} {W : Type} {o : Outside W} {e : Env contract} {s s' : State}
  {w w' : W} {p : ProjectId} {a b : Address} {c : Call}

/-- The penalty never exceeds the stake. -/
theorem computeSlashAmount_le {stake n : I128} {config : OracleConfig}
    (h : computeSlashAmount stake config = .ok n) (h0 : 0 < stake.val) : n.val ≤ stake.val := by
  have hpos : ¬ stake ≤ 0 := not_le.mpr h0
  unfold computeSlashAmount at h
  rw [if_neg hpos] at h
  simp only [bind_eq_ok, pure_eq_ok] at h
  obtain ⟨product, -, u, -, rfl⟩ := h
  rw [I128.val_min]
  exact min_le_right _ _

/-- What a missed reveal costs a stake. -/
def missedPenalty (stake : I128) (config : OracleConfig) : ℤ :=
  if 0 < stake then
    match computeSlashAmount stake config with
    | .ok n => max 0 n.val
    | .error _ => 0
  else 0

/-- What the penalties of a project cost an oracle, when a list of oracles is looked at. -/
def penaltyIn (s : State) (p : ProjectId) (oracles : List Address) (a : Address) : ℤ :=
  if a ∈ oracles ∧ (s.commitment (p, a)).isSome = true ∧ s.oracleRevealed (p, a) = false then
    missedPenalty (s.oracleStake a).amount s.config
  else 0

section Update

variable {info : StakeInfo} (hs : s'.oracleStake = update s.oracleStake a info)

include hs

theorem stake_update {d : ℤ} (hd : info.amount.val = (s.oracleStake a).amount.val + d)
    (b : Address) :
    (s'.oracleStake b).amount.val = (s.oracleStake b).amount.val + if b = a then d else 0 := by
  rw [hs, update_apply]
  split
  · rename_i hba
    rw [hba, hd]
  · rw [add_zero]

theorem request_update (hr : info.unstakeRequest = (s.oracleStake a).unstakeRequest)
    (b : Address) : (s'.oracleStake b).unstakeRequest = (s.oracleStake b).unstakeRequest := by
  rw [hs, update_apply]
  split
  · rename_i hba
    rw [hba, hr]
  · rfl

end Update

theorem slashMissed_cases {timestamp : UInt64}
    (h : s.slashMissed o contract timestamp a w = .ok (s', w')) :
    (missedPenalty (s.oracleStake a).amount s.config = 0 ∧ s' = s ∧ w' = w) ∨
      ∃ n : I128, n.val = missedPenalty (s.oracleStake a).amount s.config ∧ 0 < n.val ∧
        n.val ≤ (s.oracleStake a).amount.val ∧
        o.transfer s.config.stakingToken contract s.config.treasury n w = .ok w' ∧
        s'.oracleStake = update s.oracleStake a
          { s.oracleStake a with amount := (s.oracleStake a).amount - n } := by
  simp only [State.slashMissed] at h
  split at h
  · rename_i hpos
    simp only [bind_eq_ok] at h
    obtain ⟨n, hn, h⟩ := h
    have hval : missedPenalty (s.oracleStake a).amount s.config = max 0 n.val := by
      unfold missedPenalty
      rw [if_pos hpos, hn]
    split at h
    · rename_i hn0
      have hn0 : 0 < n.val := hn0
      simp only [bind_eq_ok, pure_eq_ok, Prod.mk.injEq] at h
      obtain ⟨v, hv, rfl, rfl⟩ := h
      rw [hval, max_eq_right hn0.le]
      exact .inr ⟨n, rfl, hn0, computeSlashAmount_le hn hpos, hv, rfl⟩
    · rename_i hn0
      have hn0 : n.val ≤ 0 := not_lt.mp hn0
      simp only [pure_eq_ok, Prod.mk.injEq] at h
      rw [hval, max_eq_left hn0]
      exact .inl ⟨rfl, h.1.symm, h.2.symm⟩
  · rename_i hpos
    simp only [pure_eq_ok, Prod.mk.injEq] at h
    rw [missedPenalty, if_neg hpos]
    exact .inl ⟨rfl, h.1.symm, h.2.symm⟩

theorem slashMissed_stake {timestamp : UInt64}
    (h : s.slashMissed o contract timestamp a w = .ok (s', w')) (b : Address) :
    (s'.oracleStake b).amount.val = (s.oracleStake b).amount.val +
      if b = a then - missedPenalty (s.oracleStake a).amount s.config else 0 := by
  rcases slashMissed_cases h with ⟨hzero, rfl, -⟩ | ⟨n, hn, h0, hle, -, hs⟩
  · simp [hzero]
  · refine stake_update hs ?_ b
    rw [← hn]
    exact I128.val_sub_of_le h0.le hle

theorem slashMissed_request {timestamp : UInt64}
    (h : s.slashMissed o contract timestamp a w = .ok (s', w')) (b : Address) :
    (s'.oracleStake b).unstakeRequest = (s.oracleStake b).unstakeRequest := by
  rcases slashMissed_cases h with ⟨-, rfl, -⟩ | ⟨n, -, -, -, -, hs⟩
  · rfl
  · exact request_update hs rfl b

def Waiting (s : State) (p : ProjectId) (a : Address) : Prop :=
  (s.commitment (p, a)).isSome = true ∧ s.oracleRevealed (p, a) = false

instance (s : State) (p : ProjectId) (a : Address) : Decidable (Waiting s p a) :=
  inferInstanceAs (Decidable (_ ∧ _))

/-- A listed oracle whose commitment waits for its reveal. -/
def Missing (s : State) (p : ProjectId) (oracles : List Address) (a : Address) : Prop :=
  a ∈ oracles ∧ Waiting s p a

instance (s : State) (p : ProjectId) (oracles : List Address) (a : Address) :
    Decidable (Missing s p oracles a) := inferInstanceAs (Decidable (_ ∧ _))

theorem penaltyIn_eq {oracles : List Address} : penaltyIn s p oracles a =
    if Missing s p oracles a then missedPenalty (s.oracleStake a).amount s.config else 0 := rfl

/-- One round of the loop: an oracle is counted and slashed, and its commitment is cleared. -/
structure Penalised (o : Outside W) (contract : Address) (timestamp : UInt64) (p : ProjectId)
    (b : Address) (s : State) (w : W) (t : State) (v : W) : Prop where
  waiting : Waiting s p b
  config : t.config = s.config
  revealed : t.oracleRevealed = s.oracleRevealed
  commitment : t.commitment = update s.commitment (p, b) none
  counted : t.oracleMissedReveals =
    update s.oracleMissedReveals b (s.oracleMissedReveals b + 1)
  slashed : ∃ u u' : State, u.slashMissed o contract timestamp b w = .ok (u', v) ∧
    u.oracleStake = s.oracleStake ∧ u.config = s.config ∧ t.oracleStake = u'.oracleStake

theorem penalizeLoop_cons {timestamp : UInt64} {rest : List Address}
    (h : State.penalizeLoop o contract timestamp p (b :: rest) s w = .ok (s', w')) :
    (¬ Waiting s p b ∧ State.penalizeLoop o contract timestamp p rest s w = .ok (s', w')) ∨
      ∃ t v, Penalised o contract timestamp p b s w t v ∧
        State.penalizeLoop o contract timestamp p rest t v = .ok (s', w') := by
  unfold State.penalizeLoop at h
  split at h
  · rename_i hb
    simp only [bind_eq_ok] at h
    obtain ⟨⟨t, v⟩, hm, h⟩ := h
    have hframe := slashMissed_frame hm
    have hcon : t.config = s.config := by rw [hframe]
    have hrev : t.oracleRevealed = s.oracleRevealed := by rw [hframe]
    have hcom : t.commitment = s.commitment := by rw [hframe]
    have hmis : t.oracleMissedReveals =
        update s.oracleMissedReveals b (s.oracleMissedReveals b + 1) := by rw [hframe]
    exact .inr ⟨{ t with commitment := update t.commitment (p, b) none }, v,
      ⟨hb, hcon, hrev, congrArg (update · (p, b) none) hcom, hmis,
        _, t, hm, rfl, rfl, rfl⟩, h⟩
  · rename_i hb
    exact .inl ⟨hb, h⟩

namespace Penalised

variable {timestamp : UInt64} {t : State} {v : W} {rest : List Address}
  (h : Penalised o contract timestamp p b s w t v)

include h

theorem missing_iff : Missing t p rest a ↔ a ≠ b ∧ Missing s p (b :: rest) a := by
  unfold Missing Waiting
  rw [h.commitment, h.revealed]
  by_cases hab : a = b
  · subst hab
    simp
  · simp [hab]

theorem missing_self : Missing s p (b :: rest) b := ⟨List.mem_cons_self, h.waiting⟩

theorem stake (a : Address) : (t.oracleStake a).amount.val = (s.oracleStake a).amount.val +
    if a = b then - missedPenalty (s.oracleStake b).amount s.config else 0 := by
  obtain ⟨u, u', hm, hu, hc, ht⟩ := h.slashed
  rw [ht, slashMissed_stake hm a, hu, hc]

theorem stake_of_ne (hab : a ≠ b) : (t.oracleStake a).amount = (s.oracleStake a).amount := by
  have hs := h.stake a
  rw [if_neg hab, add_zero] at hs
  exact I128.ext hs

theorem request (a : Address) :
    (t.oracleStake a).unstakeRequest = (s.oracleStake a).unstakeRequest := by
  obtain ⟨u, u', hm, hu, -, ht⟩ := h.slashed
  rw [ht, slashMissed_request hm a, hu]

end Penalised

theorem missing_skip {rest : List Address} (h : ¬ Waiting s p b) :
    Missing s p (b :: rest) a ↔ Missing s p rest a := by
  unfold Missing
  by_cases hab : a = b
  · subst hab
    simp [h]
  · simp [hab]

theorem penalizeLoop_stake {timestamp : UInt64} {oracles : List Address}
    (h : State.penalizeLoop o contract timestamp p oracles s w = .ok (s', w')) (a : Address) :
    (s'.oracleStake a).amount.val = (s.oracleStake a).amount.val - penaltyIn s p oracles a := by
  simp only [penaltyIn_eq]
  induction oracles generalizing s w with
  | nil =>
    simp only [State.penalizeLoop, pure_eq_ok, Prod.mk.injEq] at h
    obtain ⟨rfl, -⟩ := h
    simp [Missing]
  | cons b rest ih =>
    rcases penalizeLoop_cons h with ⟨hb, h⟩ | ⟨t, v, hp, h⟩
    · simp only [ih h, missing_skip hb]
    · rw [ih h, hp.config]
      simp only [hp.missing_iff]
      by_cases hab : a = b
      · subst hab
        rw [if_neg (fun hn => hn.1 rfl), if_pos hp.missing_self, hp.stake, if_pos rfl]
        omega
      · simp only [ne_eq, hab, not_false_eq_true, true_and, hp.stake_of_ne hab]

theorem penalizeLoop_request {timestamp : UInt64} {oracles : List Address}
    (h : State.penalizeLoop o contract timestamp p oracles s w = .ok (s', w')) (a : Address) :
    (s'.oracleStake a).unstakeRequest = (s.oracleStake a).unstakeRequest := by
  induction oracles generalizing s w with
  | nil =>
    simp only [State.penalizeLoop, pure_eq_ok, Prod.mk.injEq] at h
    obtain ⟨rfl, -⟩ := h
    rfl
  | cons b rest ih =>
    rcases penalizeLoop_cons h with ⟨-, h⟩ | ⟨t, v, hp, h⟩
    · exact ih h
    · exact (ih h).trans (hp.request a)

theorem execute_stakes (hc : c.stakes = false) (h : execute o e s w c = .ok (s', w')) :
    s'.oracleStake = s.oracleStake := by
  cases c with
  | submitReading =>
    obtain ⟨r, h⟩ := discard_eq_ok.mp h
    obtain ⟨-, -, -, _, _, -, -, -, -, -, hr, -⟩ := submitReading_cases h
    exact congrArg Prod.snd hr
  | revealReading =>
    obtain ⟨r, h⟩ := discard_eq_ok.mp h
    obtain ⟨-, -, -, -, _, _, -, -, -, -, -, -, hr, -⟩ := revealReading_cases h
    exact congrArg Prod.snd hr
  | finalizeWindow => cases hc
  | openWindow | resetWindow | commitReading | beginRevealPhase | addOracle | removeOracle =>
    exact congrArg Prod.snd (execute_staged rfl h).2.2
  | _ => exact ((execute_inert rfl h).stakes hc).1

section Cases

variable {n : I128} {reason : UInt32}

theorem stake_cases (h : s.stake o e a n w = .ok (s', w')) :
    a ≠ contract ∧ 0 < n.val ∧ o.transfer s.config.stakingToken a contract n w = .ok w' ∧
      s'.oracleStake = update s.oracleStake a
        { amount := (s.oracleStake a).amount + n, unstakeRequest := none } := by
  simp only [State.stake, bind_eq_ok, Env.requireAuth_eq_ok, require_eq_ok, pure_eq_ok,
    Prod.mk.injEq] at h
  obtain ⟨-, ha, -, hn, v, hv, rfl, rfl⟩ := h
  exact ⟨e.ne_self ha, hn, hv, rfl⟩

theorem unstake_cases (h : s.unstake e a n = .ok s') :
    0 < n.val ∧ n.val ≤ (s.oracleStake a).amount.val ∧
      (s.oracleActive a = true → s.config.minStake ≤ (s.oracleStake a).amount - n) ∧
      s'.oracleStake = update s.oracleStake a {
        amount := (s.oracleStake a).amount - n
        unstakeRequest := some (e.timestamp + s.config.unstakeCooldownSecs) } := by
  simp only [State.unstake, bind_eq_ok, ensure_eq_ok, pure_eq_ok] at h
  obtain ⟨-, -, -, hn, -, hle, -, hmin, rfl⟩ := h
  exact ⟨hn, hle, hmin, rfl⟩

theorem claimUnstake_cases (h : s.claimUnstake o e a w = .ok (s', w')) :
    (∃ t, (s.oracleStake a).unstakeRequest = some t ∧ t ≤ e.timestamp) ∧
      s'.oracleStake = update s.oracleStake a {} := by
  simp only [State.claimUnstake, bind_eq_ok, ensure_eq_ok, pure_eq_ok, Prod.mk.injEq] at h
  obtain ⟨-, -, -, hcool, v, -, rfl, -⟩ := h
  refine ⟨?_, rfl⟩
  rw [not_or, UInt64.not_lt] at hcool
  cases hr : (s.oracleStake a).unstakeRequest with
  | none => simp [hr] at hcool
  | some t => exact ⟨t, rfl, by simpa [hr] using hcool.2⟩

theorem slash_cases {caller : Address} (h : s.slash o e caller a n reason w = .ok (s', w')) :
    0 < n.val ∧ n.val ≤ (s.oracleStake a).amount.val ∧
      o.transfer s.config.stakingToken contract s.config.treasury n w = .ok w' ∧
      s'.oracleStake = update s.oracleStake a
        { s.oracleStake a with amount := (s.oracleStake a).amount - n } := by
  simp only [State.slash, bind_eq_ok, ensure_eq_ok, pure_eq_ok, Prod.mk.injEq] at h
  obtain ⟨-, -, -, hn, -, hle, v, hv, rfl, rfl⟩ := h
  exact ⟨hn, hle, hv, rfl⟩

end Cases

variable {t : State} {timestamp : UInt64} {oracles : List Address}

section Charge

variable {stake n : I128} {config : OracleConfig}

/-- The share of a stake in basis points, between the two bounds, that the stake covers. -/
def charge (stake : ℤ) (config : OracleConfig) : ℤ :=
  min stake (max config.minSlashAmount.val
    (min config.maxSlashAmount.val (stake * config.slashPctBps.toNat / 10000)))

/-- The bounds of the penalty that every accepted configuration has. -/
structure OracleConfig.Bounded (config : OracleConfig) : Prop where
  nonneg : 0 ≤ config.minSlashAmount.val
  le : config.minSlashAmount.val ≤ config.maxSlashAmount.val

theorem charge_le : charge stake.val config ≤ stake.val := min_le_left _ _

theorem charge_nonneg (hb : config.Bounded) (h0 : 0 ≤ stake.val) : 0 ≤ charge stake.val config :=
  le_min h0 (hb.nonneg.trans (le_max_left _ _))

theorem charge_zero (hb : config.Bounded) : charge 0 config = 0 :=
  le_antisymm (min_le_left _ _) (le_min le_rfl (hb.nonneg.trans (le_max_left _ _)))

theorem clamp_val {lo hi x : I128} (h : lo.val ≤ hi.val) :
    (if x < lo then lo else if hi < x then hi else x).val = max lo.val (min hi.val x.val) := by
  by_cases hl : x < lo
  · have hl' : x.val < lo.val := hl
    rw [if_pos hl]
    omega
  · have hl' : lo.val ≤ x.val := not_lt.mp hl
    rw [if_neg hl]
    by_cases hu : hi < x
    · have hu' : hi.val < x.val := hu
      rw [if_pos hu]
      omega
    · have hu' : x.val ≤ hi.val := not_lt.mp hu
      rw [if_neg hu]
      omega

theorem computeSlashAmount_charge (hb : config.Bounded)
    (h : computeSlashAmount stake config = .ok n) (h0 : 0 < stake.val) :
    n.val = charge stake.val config := by
  have hpos : ¬ stake ≤ 0 := not_le.mpr h0
  unfold computeSlashAmount at h
  rw [if_neg hpos] at h
  simp only [bind_eq_ok, orPanic_eq_ok, I128.checkedMul_eq_some, pure_eq_ok] at h
  obtain ⟨product, hp, u, -, rfl⟩ := h
  have hu := val_ofU32 config.slashPctBps
  have hprod : 0 ≤ product.val := by
    rw [hp, hu]
    exact Int.mul_nonneg h0.le (Int.natCast_nonneg _)
  have hdiv : (product / 10000).val = stake.val * config.slashPctBps.toNat / 10000 := by
    rw [I128.val_div_of_nonneg hprod (by decide), hp, hu]
    rfl
  rw [I128.val_min, clamp_val hb.le, hdiv, charge, min_comm]

theorem slashMissed_charge (hb : s.config.Bounded) (h0 : 0 ≤ (s.oracleStake a).amount.val)
    (h : s.slashMissed o contract timestamp a w = .ok (s', w')) :
    missedPenalty (s.oracleStake a).amount s.config =
      charge (s.oracleStake a).amount.val s.config := by
  simp only [State.slashMissed] at h
  split at h
  · rename_i hpos
    simp only [bind_eq_ok] at h
    obtain ⟨n, hn, -⟩ := h
    have hc := computeSlashAmount_charge hb hn hpos
    have hn0 := charge_nonneg hb h0
    unfold missedPenalty
    rw [if_pos hpos, hn]
    exact (max_eq_right (hc ▸ hn0)).trans hc
  · rename_i hpos
    have hzero : (s.oracleStake a).amount.val = 0 := le_antisymm (not_lt.mp hpos) h0
    unfold missedPenalty
    rw [if_neg hpos, hzero, charge_zero hb]

end Charge

section Loop

theorem penalizeLoop_counted
    (h : State.penalizeLoop o contract timestamp p oracles s w = .ok (s', w')) (a : Address) :
    s'.oracleMissedReveals a =
      s.oracleMissedReveals a + if Missing s p oracles a then 1 else 0 := by
  induction oracles generalizing s w with
  | nil =>
    simp only [State.penalizeLoop, pure_eq_ok, Prod.mk.injEq] at h
    obtain ⟨rfl, -⟩ := h
    simp [Missing]
  | cons b rest ih =>
    rcases penalizeLoop_cons h with ⟨hb, h⟩ | ⟨t, v, hp, h⟩
    · simp only [ih h, missing_skip hb]
    · rw [ih h, hp.counted]
      simp only [hp.missing_iff]
      by_cases hab : a = b
      · subst hab
        rw [if_neg (fun hn => hn.1 rfl), if_pos hp.missing_self, update_self, UInt64.add_zero]
      · simp only [ne_eq, hab, not_false_eq_true, true_and, update_of_ne hab]

theorem penalizeLoop_charge (hb : s.config.Bounded)
    (h0 : ∀ a, 0 ≤ (s.oracleStake a).amount.val)
    (h : State.penalizeLoop o contract timestamp p oracles s w = .ok (s', w'))
    (ha : Missing s p oracles a) :
    missedPenalty (s.oracleStake a).amount s.config =
      charge (s.oracleStake a).amount.val s.config := by
  induction oracles generalizing s w with
  | nil => exact absurd ha.1 List.not_mem_nil
  | cons b rest ih =>
    rcases penalizeLoop_cons h with ⟨hskip, h⟩ | ⟨t, v, hp, h⟩
    · exact ih hb h0 h ((missing_skip hskip).mp ha)
    · obtain ⟨u, u', hm, hu, huc, -⟩ := hp.slashed
      have hhead := slashMissed_charge (huc ▸ hb) (hu ▸ h0 b) hm
      rw [hu, huc] at hhead
      by_cases hab : a = b
      · exact hab ▸ hhead
      · have hrest := ih (hp.config ▸ hb) (fun c => ?_) h (hp.missing_iff.mpr ⟨hab, ha⟩)
        · rwa [hp.stake_of_ne hab, hp.config] at hrest
        · have hc := h0 c
          have hle : charge (s.oracleStake b).amount.val s.config ≤ _ := charge_le
          rw [hp.stake c, hhead]
          split
          · rename_i hcb
            rw [hcb]
            omega
          · omega

end Loop

section Ledger

variable {token : Address} {bal : Address → W → ℤ} {n m : ℤ} {w'' : W}

/-- The balances after an amount moved from one holder to another. -/
def Transferred (bal : Address → W → ℤ) (a b : Address) (n : ℤ) (w w' : W) : Prop :=
  ∀ x, bal x w' = bal x w - (if x = a then n else 0) + if x = b then n else 0

/-- An honest token: transfers move the exact amount or fail. -/
structure TokenLedger (o : Outside W) (token : Address) (bal : Address → W → ℤ) : Prop where
  transfer : ∀ {a b : Address} {n : I128} {w w' : W}, 0 < n.val →
    o.transfer token a b n w = .ok w' → Transferred bal a b n.val w w'

theorem Transferred.refl : Transferred bal a b 0 w w := fun x => by simp

theorem Transferred.trans (h : Transferred bal a b n w w') (h' : Transferred bal a b m w' w'') :
    Transferred bal a b (n + m) w w'' := by
  intro x
  rw [h' x, h x]
  split <;> split <;> ring

/-- What the stakes lose between two states. -/
noncomputable def lost (s s' : State) : ℤ :=
  ∑ᶠ a, ((s.oracleStake a).amount.val - (s'.oracleStake a).amount.val)

theorem lost_trans
    (h : (support fun a => (s.oracleStake a).amount.val - (t.oracleStake a).amount.val).Finite)
    (h' : (support fun a => (t.oracleStake a).amount.val - (s'.oracleStake a).amount.val).Finite) :
    lost s s' = lost s t + lost t s' := by
  unfold lost
  rw [← finsum_add_distrib h h']
  congr 1
  ext a
  ring

theorem penalizeLoop_finite
    (h : State.penalizeLoop o contract timestamp p oracles s w = .ok (s', w')) :
    (support fun a => (s.oracleStake a).amount.val - (s'.oracleStake a).amount.val).Finite := by
  apply (oracles.toFinset.finite_toSet).subset
  intro a ha
  by_contra hn
  apply ha
  have hmem : ¬ Missing s p oracles a := fun hm => hn (by simpa using hm.1)
  simp [penalizeLoop_stake h a, penaltyIn_eq, hmem]

namespace Penalised

variable {v : W} (h : Penalised o contract timestamp p b s w t v)

include h

theorem finite :
    (support fun a => (s.oracleStake a).amount.val - (t.oracleStake a).amount.val).Finite := by
  apply (Set.finite_singleton b).subset
  intro a ha
  by_contra hab
  exact ha (by simp [h.stake_of_ne hab])

theorem lost_eq : lost s t = missedPenalty (s.oracleStake b).amount s.config := by
  unfold lost
  rw [finsum_eq_single _ b fun a hab => by simp [h.stake_of_ne hab], h.stake b, if_pos rfl]
  omega

theorem transferred (hl : TokenLedger o token bal) (hc : s.config.stakingToken = token) :
    Transferred bal contract s.config.treasury (lost s t) w v := by
  rw [h.lost_eq]
  obtain ⟨u, u', hm, hu, huc, -⟩ := h.slashed
  rcases slashMissed_cases hm with ⟨hzero, -, rfl⟩ | ⟨n, hn, h0, -, htr, -⟩
  · rw [hu, huc] at hzero
    rw [hzero]
    exact .refl
  · rw [hu, huc] at hn
    rw [huc, hc] at htr
    exact hn ▸ hl.transfer h0 htr

end Penalised

theorem penalizeLoop_transferred (hl : TokenLedger o token bal)
    (hc : s.config.stakingToken = token)
    (h : State.penalizeLoop o contract timestamp p oracles s w = .ok (s', w')) :
    Transferred bal contract s.config.treasury (lost s s') w w' := by
  induction oracles generalizing s w with
  | nil =>
    simp only [State.penalizeLoop, pure_eq_ok, Prod.mk.injEq] at h
    obtain ⟨rfl, rfl⟩ := h
    simpa [lost] using Transferred.refl
  | cons b rest ih =>
    rcases penalizeLoop_cons h with ⟨-, h⟩ | ⟨t, v, hp, h⟩
    · exact ih hc h
    · have hrest := ih (hp.config ▸ hc) h
      rw [hp.config] at hrest
      rw [lost_trans hp.finite (penalizeLoop_finite h)]
      exact (hp.transferred hl hc).trans hrest

end Ledger

end WaterCredits.Oracle
