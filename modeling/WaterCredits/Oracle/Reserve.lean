import WaterCredits.Oracle.Footprint
import WaterCredits.Oracle.Penalty

/-! # The reserve behind the stakes

A balance of the staking token that receives what is staked, and pays no more
than the stakes fall by, covers them all along. The amounts that oracles asked
back stay in the balance and in no stake.
-/

namespace WaterCredits.Oracle

open Foundation Function

variable {contract : Address} {W : Type} {o : Outside W} {e : Env contract} {s s' t : State}
  {w w' v : W} {p : ProjectId} {a b token : Address} {c : Call} {held : W → ℤ}

namespace State

def stakeOf (s : State) (a : Address) : ℤ := (s.oracleStake a).amount.val

noncomputable def staked (s : State) : ℤ := ∑ᶠ a, s.stakeOf a

end State

/-- A balance in a token as a treasurer of the stakes sees it. -/
structure Reserve (o : Outside W) (contract token : Address) (held : W → ℤ) : Prop where
  kept : Respects o contract (fun _ => True) (fun _ => False) fun w w' => held w ≤ held w'
  deposited : ∀ {sender amount w w'}, sender ≠ contract →
    o.transfer token sender contract amount w = .ok w' → held w + amount.val ≤ held w'
  spent : ∀ {recipient amount w w'},
    o.transfer token contract recipient amount w = .ok w' → held w - amount.val ≤ held w'

/-- What a balance holds beyond the stakes does not shrink. -/
def Spares (held : W → ℤ) (s : State) (w : W) (s' : State) (w' : W) : Prop :=
  (support s.stakeOf).Finite →
    (support s'.stakeOf).Finite ∧ held w - s.staked ≤ held w' - s'.staked

theorem Spares.trans (h : Spares held s w t v) (h' : Spares held t v s' w') :
    Spares held s w s' w' := by
  intro hf
  obtain ⟨ht, hle⟩ := h hf
  obtain ⟨hs, hle'⟩ := h' ht
  exact ⟨hs, hle.trans hle'⟩

theorem spares_of_eq (hs : s'.oracleStake = s.oracleStake) (hw : held w ≤ held w') :
    Spares held s w s' w' := by
  have hstake : s'.stakeOf = s.stakeOf := by
    unfold State.stakeOf
    rw [hs]
  intro hf
  unfold State.staked
  rw [hstake]
  exact ⟨hf, by omega⟩

theorem spares_update {info : StakeInfo} (hs : s'.oracleStake = update s.oracleStake a info)
    (hw : held w - (s.oracleStake a).amount.val ≤ held w' - info.amount.val) :
    Spares held s w s' w' := by
  have hstake : s'.stakeOf = update s.stakeOf a info.amount.val := by
    ext b
    unfold State.stakeOf
    rw [hs]
    rcases eq_or_ne b a with rfl | hne
    · simp
    · simp [hne]
  have hold : s.stakeOf a = (s.oracleStake a).amount.val := rfl
  intro hf
  unfold State.staked
  rw [hstake, finsum_update hf]
  exact ⟨support_update_finite hf _ _, by omega⟩

section Slash

variable {timestamp : UInt64} {oracles : List Address}

theorem slashMissed_spares (hR : Reserve o contract token held)
    (hc : s.config.stakingToken = token)
    (h : s.slashMissed o contract timestamp a w = .ok (s', w')) : Spares held s w s' w' := by
  rcases slashMissed_cases h with ⟨-, rfl, rfl⟩ | ⟨n, -, h0, hle, htr, hs⟩
  · exact spares_of_eq rfl le_rfl
  · have hpaid := hR.spent (hc ▸ htr)
    refine spares_update hs ?_
    rw [I128.val_sub_of_le h0.le hle]
    omega

theorem penalizeLoop_spares (hR : Reserve o contract token held)
    (hc : s.config.stakingToken = token)
    (h : State.penalizeLoop o contract timestamp p oracles s w = .ok (s', w')) :
    Spares held s w s' w' := by
  induction oracles generalizing s w with
  | nil =>
    simp only [State.penalizeLoop, pure_eq_ok, Prod.mk.injEq] at h
    obtain ⟨rfl, rfl⟩ := h
    exact spares_of_eq rfl le_rfl
  | cons b rest ih =>
    rcases penalizeLoop_cons h with ⟨-, h⟩ | ⟨t, v, hp, h⟩
    · exact ih hc h
    · obtain ⟨u, u', hm, hu, huc, ht'⟩ := hp.slashed
      have hfirst : Spares held s w u w := spares_of_eq hu le_rfl
      have hslash := slashMissed_spares hR (huc ▸ hc) hm
      have hlast : Spares held u' v t v := spares_of_eq ht' le_rfl
      exact ((hfirst.trans hslash).trans hlast).trans (ih (hp.config ▸ hc) h)

end Slash

theorem execute_spares (hR : Reserve o contract token held)
    (hc : s.config.stakingToken = token) (h : execute o e s w c = .ok (s', w')) :
    Spares held s w s' w' := by
  cases c with
  | stake b n =>
    obtain ⟨hne, h0, htr, hs⟩ := stake_cases h
    have hpaid := hR.deposited hne (hc ▸ htr)
    have hsum := I128.val_add_le (a := (s.oracleStake b).amount) h0.le
    refine spares_update hs ?_
    simp only
    omega
  | unstake b n =>
    obtain ⟨hok, rfl⟩ := within_eq_ok.mp h
    obtain ⟨h0, hle, -, hs⟩ := unstake_cases hok
    refine spares_update hs ?_
    simp only [I128.val_sub_of_le h0.le hle]
    omega
  | claimUnstake b =>
    obtain ⟨-, hs⟩ := claimUnstake_cases h
    simp only [execute, State.claimUnstake, bind_eq_ok, pure_eq_ok, Prod.mk.injEq] at h
    obtain ⟨_, -, _, -, v, htr, -, rfl⟩ := h
    have hpaid := hR.spent (hc ▸ htr)
    refine spares_update hs ?_
    simp only [I128.val_zero]
    omega
  | slash caller b n reason =>
    obtain ⟨h0, hle, htr, hs⟩ := slash_cases h
    have hpaid := hR.spent (hc ▸ htr)
    refine spares_update hs ?_
    simp only [I128.val_sub_of_le h0.le hle]
    omega
  | finalizeWindow p =>
    obtain ⟨r, h⟩ := discard_eq_ok.mp h
    obtain ⟨-, window, closed, t, v, -, -, -, hpen, -, -, hrest, hout⟩ := finalizeWindow_cases h
    have hstake : s'.oracleStake = t.oracleStake := congrArg Prod.snd hrest
    exact (penalizeLoop_spares hR hc hpen).trans
      (spares_of_eq hstake (hR.kept.outcome (fun _ _ => trivial) hout))
  | submitReading a p n reading =>
    refine spares_of_eq (execute_stakes rfl h) ?_
    obtain ⟨r, h⟩ := discard_eq_ok.mp h
    obtain ⟨-, -, -, window, closed, -, -, -, -, -, -, hout⟩ := submitReading_cases h
    exact hR.kept.outcome (fun _ _ => trivial) hout
  | revealReading a p params =>
    refine spares_of_eq (execute_stakes rfl h) ?_
    obtain ⟨r, h⟩ := discard_eq_ok.mp h
    obtain ⟨-, -, -, -, window, closed, -, -, -, -, -, -, -, hout⟩ := revealReading_cases h
    exact hR.kept.outcome (fun _ _ => trivial) hout
  | _ => exact spares_of_eq (execute_stakes rfl h) (congrArg held (within_eq_ok.mp h).2).le

end WaterCredits.Oracle
