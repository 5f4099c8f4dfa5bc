import WaterCredits.Oracle.Stake

/-! # The minimum stake

An active oracle that holds the minimum stake keeps it through its own calls,
except that a claim takes the whole stake of an active oracle, and that a stake
beyond the range of the type wraps around.
-/

namespace WaterCredits.Oracle

open Foundation Function

variable {contract : Address} {W : Type} {o : Outside W} {e : Env contract} {s s' : State}
  {w w' : W} {a : Address} {c : Call} {sw sw' : State × W}
  {tr : Trace (State × W) (Event contract W)}

/-- Runs with a fixed configuration in which an oracle is not slashed. -/
def unslashed (a : Address) : Guard (State × W) (Event contract W) := fun _ sw ev =>
  match ev with
  | .call _ (.updateConfig _ config) => config = sw.1.config
  | .call _ (.slash _ b _ _) => b ≠ a
  | .call _ (.finalizeWindow p) => penaltyIn sw.1 p sw.1.oracleList a = 0
  | _ => True

def Enough (a : Address) (s : State) : Prop :=
  s.oracleActive a = true → s.config.minStake ≤ (s.oracleStake a).amount

/-- An active oracle with the minimum stake, which is not zero. -/
structure Collateralised (a : Address) (s : State) : Prop where
  active : s.oracleActive a = true
  positive : 0 < s.config.minStake
  enough : s.config.minStake ≤ (s.oracleStake a).amount

theorem Collateralised.stake_pos (h : Collateralised a s) : 0 < (s.oracleStake a).amount :=
  h.positive.trans_le h.enough

/-- An oracle does not claim while it is active, nor stake beyond the range of the type. -/
def KeepsStake (a : Address) (st : Step (State × W) (Event contract W)) : Prop :=
  match st.label with
  | .call _ (.claimUnstake b) => b = a → st.before.1.oracleActive a = false
  | .call _ (.stake b n) => b = a → st.before.1.oracleActive a = true →
      I128.Fits ((st.before.1.oracleStake a).amount.val + n.val)
  | _ => True

theorem execute_config (hg : unslashed a tr (s, w) (.call e c))
    (h : execute o e s w c = .ok (s', w')) : s'.config = s.config := by
  rcases execute_reconfigures h with heq | ⟨admin, config, rfl, hu⟩
  · exact heq
  · obtain ⟨-, -, -, -, -, -, rfl⟩ := updateConfig_cases hu
    exact hg

theorem removeOracle_unstaked {admin oracle : Address}
    (h : s.removeOracle e admin oracle = .ok s') :
    ¬ (0 < (s.oracleStake oracle).amount ∧
      ¬ (0 < s.config.minStake ∧ (s.oracleStake oracle).amount < s.config.minStake)) := by
  simp only [State.removeOracle, bind_eq_ok, ensure_eq_ok] at h
  obtain ⟨_, -, _, -, _, hn, -⟩ := h
  exact hn

theorem execute_active (hi : Collateralised a s) (h : execute o e s w c = .ok (s', w')) :
    s'.oracleActive a = true := by
  rcases execute_roster h with ⟨-, ha⟩ | ⟨admin, b, rfl, -, ha⟩ | ⟨admin, b, rfl, -, ha⟩
  · rw [ha]
    exact hi.active
  · rw [ha, update_apply]
    split
    · rfl
    · exact hi.active
  · have hb : a ≠ b := by
      rintro rfl
      exact removeOracle_unstaked (within_eq_ok.mp h).1
        ⟨hi.stake_pos, fun hlt => absurd hi.enough (not_le.mpr hlt.2)⟩
    rw [ha, update_of_ne hb]
    exact hi.active

theorem le_add_iff {m x n : I128} (hm : 0 < m) (hx : m ≤ x) (hn : 0 < n.val) :
    m ≤ x + n ↔ I128.Fits (x.val + n.val) := by
  have hm : 0 < m.val := hm
  have hx : m.val ≤ x.val := hx
  rw [I128.le_iff]
  constructor
  · intro hle
    by_contra hfit
    unfold I128.Fits at hfit
    have h1 := x.val_lt
    have h2 := n.val_lt
    have hneg : (x + n).val < 0 := I128.wrap_neg (by omega) (by omega)
    omega
  · intro hfit
    rw [I128.val_add hfit]
    omega

theorem execute_enough (hg : unslashed a tr (s, w) (.call e c)) (hi : Collateralised a s)
    (h : execute o e s w c = .ok (s', w')) :
    s.config.minStake ≤ (s'.oracleStake a).amount ↔
      KeepsStake a ⟨(s, w), .call e c, (s', w')⟩ := by
  have same (heq : (s'.oracleStake a).amount = (s.oracleStake a).amount) :
      s.config.minStake ≤ (s'.oracleStake a).amount ↔ True := by
    rw [heq]
    exact iff_true_intro hi.enough
  cases c with
  | stake b n =>
    obtain ⟨-, hn, -, hup⟩ := stake_cases h
    simp only [KeepsStake, hi.active, true_imp_iff]
    by_cases hb : b = a
    · subst hb
      rw [hup, update_self]
      simpa using le_add_iff hi.positive hi.enough hn
    · simpa [hb, hup, update_of_ne (Ne.symm hb)] using hi.enough
  | unstake b n =>
    obtain ⟨-, -, hmin, hup⟩ := unstake_cases (within_eq_ok.mp h).1
    simp only [KeepsStake, iff_true]
    by_cases hb : b = a
    · subst hb
      rw [hup, update_self]
      exact hmin hi.active
    · simpa [hup, update_of_ne (Ne.symm hb)] using hi.enough
  | claimUnstake b =>
    obtain ⟨-, hup⟩ := claimUnstake_cases h
    simp only [KeepsStake, hi.active]
    by_cases hb : b = a
    · subst hb
      simpa [hup] using hi.positive
    · simpa [hb, hup, update_of_ne (Ne.symm hb)] using hi.enough
  | slash caller b n reason =>
    obtain ⟨-, -, -, hup⟩ := slash_cases h
    have hb : a ≠ b := Ne.symm hg
    exact same (by rw [hup, update_of_ne hb])
  | finalizeWindow p =>
    obtain ⟨r, h⟩ := discard_eq_ok.mp h
    obtain ⟨-, _, _, t, v, -, -, -, hpen, -, -, hrest, -⟩ := finalizeWindow_cases h
    have hst : s'.oracleStake = t.oracleStake := congrArg Prod.snd hrest
    have hzero : penaltyIn s p s.oracleList a = 0 := hg
    have hval := penalizeLoop_stake hpen a
    rw [hzero, sub_zero] at hval
    exact same (by rw [hst, I128.ext hval])
  | _ => exact same (by rw [execute_stakes rfl h])

theorem collateralised_step {ev : Event contract W} (hg : unslashed a tr sw ev)
    (hi : Collateralised a sw.1) (h : step o ev sw = .ok sw') :
    (Enough a sw'.1 ↔ KeepsStake a ⟨sw, ev, sw'⟩) ∧
      (KeepsStake a ⟨sw, ev, sw'⟩ → Collateralised a sw'.1) := by
  cases ev with
  | outside v =>
    cases h
    exact ⟨iff_of_true (fun _ => hi.enough) trivial, fun _ => hi⟩
  | call e c =>
    have hc := execute_config hg h
    have ha := execute_active hi h
    have hk := execute_enough hg hi h
    refine ⟨?_, fun hs => ⟨ha, ?_, ?_⟩⟩
    · rw [← hk, Enough, hc]
      simp [ha]
    · rw [hc]
      exact hi.positive
    · rw [hc]
      exact hk.mpr hs

/--
An active oracle with the minimum stake has it after every call exactly as long
as it claims nothing while active and no stake wraps around.
-/
theorem minimum_kept_iff (hm : 0 < sw.1.config.minStake) (ha : sw.1.oracleActive a = true)
    (hs : sw.1.config.minStake ≤ (sw.1.oracleStake a).amount)
    (h : ((machine contract o).startedIn sw).Run (unslashed a) tr sw') :
    (∀ st ∈ tr, Enough a st.after.1) ↔ ∀ st ∈ tr, KeepsStake a st := by
  refine (h.after_iff (P := fun sw => Enough a sw.1) (I := fun sw => Collateralised a sw.1)
    (C := KeepsStake a) ?_ ?_).1
  · rintro _ rfl
    exact ⟨ha, hm, hs⟩
  · exact fun _ _ _ _ _ hi hg hs => collateralised_step hg hi hs

section Sample

/-- The account `1` is active with a stake of sixty units, of which forty are the minimum. -/
def serving : State × Token.State :=
  (machine station stakeWorld).calls stakeInstalled
    [calledAt 0 1 (.stake (.account 1) 60), calledAt 0 0 (.addOracle (.account 0) (.account 1)),
      calledAt 0 0 (.updateConfig (.account 0)
        { stakeInstalled.1.config with minOracles := 1, minStake := 40 })]

theorem asked_back : ∃ tr, ((machine station stakeWorld).startedIn serving).Run
    (unslashed (.account 1)) tr
      ((machine station stakeWorld).call serving (calledAt 5 1 (.unstake (.account 1) 20))) ∧
    ∀ st ∈ tr, KeepsStake (.account 1) st := by
  have h0 := Machine.Run.init (m := (machine station stakeWorld).startedIn serving)
    (G := unslashed (.account 1)) (s := serving) rfl
  exact ⟨_, h0.call (l := calledAt 5 1 (.unstake (.account 1) 20)) trivial (by rfl),
    List.forall_mem_singleton.mpr trivial⟩

/-- It keeps at least the minimum when it stakes ten more instead of claiming. -/
theorem minimum_kept_iff_serving : ∃ tr sw', ((machine station stakeWorld).startedIn serving).Run
    (unslashed (.account 1)) tr sw' ∧ (sw'.1.oracleStake (.account 1)).amount.val = 50 ∧
      ∀ st ∈ tr, Enough (.account 1) st.after.1 := by
  obtain ⟨tr, h, hk⟩ := asked_back
  have hs := h.call (l := calledAt 6 1 (.stake (.account 1) 10)) trivial (by rfl)
  refine ⟨_, _, hs, by decide, (minimum_kept_iff (by decide) (by rfl) (by decide) hs).mpr ?_⟩
  exact List.forall_mem_cons.mpr ⟨fun _ _ => by decide, hk⟩

theorem claim_undercuts_minimum :
    (machine station stakeWorld).Reachable serving ∧ 0 < serving.1.config.minStake ∧
      serving.1.oracleActive (.account 1) = true ∧
      serving.1.config.minStake ≤ (serving.1.oracleStake (.account 1)).amount ∧
      ∃ tr sw', ((machine station stakeWorld).startedIn serving).Run
          (unslashed (.account 1)) tr sw' ∧ ¬ Enough (.account 1) sw'.1 := by
  have hr : (machine station stakeWorld).Reachable stakeInstalled :=
    ⟨_, .init ⟨.account 0, Token.home, .account 5, rfl⟩⟩
  obtain ⟨tr, h, -⟩ := asked_back
  have hs := h.call (l := calledAt 86405 1 (.claimUnstake (.account 1))) trivial (by rfl)
  exact ⟨hr.calls _, by decide, by rfl, by decide, _, _, hs,
    fun hn => absurd (hn (by rfl)) (by decide)⟩

end Sample

end WaterCredits.Oracle
