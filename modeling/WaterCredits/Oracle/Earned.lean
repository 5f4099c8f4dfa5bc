import WaterCredits.Oracle.Credits
import WaterCredits.Oracle.History

/-! # What a stored result stands for

Windows hold only readings that a sensor can produce. Every result of the
history is therefore the value of the credit formula on medians of such
readings, and no more credits were minted for it than it grants.
-/

namespace WaterCredits.Oracle

open Foundation Function

variable {contract : Address} {W : Type} {o : Outside W} {e : Env contract} {s s' : State}
  {w w' : W} {p : ProjectId} {c : Call} {reading med : Reading} {window : WindowState}
  {timestamp : UInt64} {config : OracleConfig}
  {token beneficiary : Address} {amount net fee total : I128} {r : VerificationResult}
  {tr : Trace (State × W) (Event contract W)}

section Clean

def Call.brings : Call → Option Reading
  | .submitReading _ _ _ reading => some reading
  | .revealReading _ _ params => some params.toReading
  | _ => none

/-- Both paths check the reading that they accept. -/
theorem execute_validated (h : execute o e s w c = .ok (s', w')) (hc : c.brings = some reading) :
    Validated reading := by
  cases c with
  | submitReading a q n reading' =>
    obtain rfl := Option.some.inj hc
    obtain ⟨r, h⟩ := discard_eq_ok.mp h
    simp only [State.submitReading, bind_eq_ok] at h
    obtain ⟨_, -, _, -, _, hv, -⟩ := h
    exact validateSensorReading_eq_ok.mp hv
  | revealReading a q params =>
    obtain rfl := Option.some.inj hc
    obtain ⟨r, h⟩ := discard_eq_ok.mp h
    simp only [State.revealReading, bind_eq_ok] at h
    obtain ⟨_, -, _, -, _, -, _, -, _, -, _, -, _, -, _, -, _, -, _, -, _, -, _, -, _, hv, -⟩ := h
    exact validateSensorReading_eq_ok.mp hv
  | _ => cases hc

/-- A window that holds only readings that a sensor can produce. -/
def View.Clean (v : View) : Prop :=
  ∀ window, v.window = some window → ∀ sub ∈ window.submissions, Validated sub.toReading

theorem View.Clean.of_stored {v : View} {window' : WindowState} (hv : v.window = some window')
    (h : ∀ sub ∈ window'.submissions, Validated sub.toReading) : v.Clean := by
  intro window hw
  obtain rfl : window' = window := Option.some.inj (hv.symm.trans hw)
  exact h

theorem View.Clean.push {v : View} (h : ∀ sub ∈ window.submissions, Validated sub.toReading)
    {sub : ReadingSubmission} (hs : Validated sub.toReading) {window' : WindowState}
    (hv : v.window = some window') (hw : window'.submissions = window.submissions ++ [sub]) :
    v.Clean := by
  refine .of_stored hv ?_
  rw [hw, List.forall_mem_append, List.forall_mem_singleton]
  exact ⟨h, hs⟩

theorem Move.clean {v v' : View} (hm : Move o e s p v c v')
    (hc : ∀ reading, c.brings = some reading → Validated reading) (h : v.Clean) : v'.Clean := by
  cases hm with
  | idle => exact h
  | commitReading => exact h
  | resetWindow => exact .of_stored rfl fun sub hs => absurd hs List.not_mem_nil
  | openWindow => exact .of_stored rfl fun sub hs => absurd hs List.not_mem_nil
  | @beginRevealPhase window hph => exact .of_stored rfl (h window hph.stored)
  | @submitReading a n reading window closed _ _ hstored =>
    have hwindow : ∀ sub ∈ window.submissions, Validated sub.toReading := by
      cases hv : v.window with
      | none =>
        rw [hv] at hstored
        exact hstored ▸ fun sub hs => absurd hs List.not_mem_nil
      | some stored =>
        rw [hv] at hstored
        exact hstored ▸ h stored hv
    have hdirect : Validated (directSub e a n reading).toReading := hc reading rfl
    exact .push hwindow hdirect rfl rfl
  | @revealReading a params window closed _ _ _ hph =>
    have hsub : Validated (revealSub e a params).toReading := hc params.toReading rfl
    cases closed with
    | false => exact .push (h _ hph.stored) hsub rfl rfl
    | true => exact .push (h _ hph.stored) hsub rfl rfl
  | @finalizeWindow window closed hph =>
    cases closed with
    | false => exact h
    | true => exact .of_stored rfl (h window hph.stored)

end Clean

section Minted

theorem feeOf_exact (h0 : 0 ≤ amount.val) (h : feeOf config amount = .ok fee) :
    fee.val = amount.val * config.feeBps.toNat / 10000 := by
  unfold feeOf at h
  split at h
  · simp only [bind_eq_ok, orPanic_eq_ok, I128.checkedMul_eq_some, pure_eq_ok, val_ofU32] at h
    obtain ⟨product, hp, rfl⟩ := h
    have hten : (10000 : I128).val = 10000 := by decide
    rw [I128.val_div_of_nonneg (by rw [hp]; positivity) (by rw [hten]; norm_num), hp, hten]
  · rename_i hz
    cases h
    have hz : config.feeBps.toNat = 0 := by
      rw [UInt32.lt_iff_toNat_lt] at hz
      simpa using hz
    simp [hz]

theorem mintable_le {supply cap : I128} (h0 : 0 < total.val) :
    (mintable supply cap total).val ≤ total.val := by
  unfold mintable
  split
  · simp only
    split
    · exact h0.le
    · rw [I128.val_min]
      exact min_le_right _ _
  · exact le_rfl

/-- The credits minted for some total, and the fee among them. -/
structure Shared (config : OracleConfig) (net fee total : ℤ) : Prop where
  net_nonneg : 0 ≤ net
  fee_nonneg : 0 ≤ fee
  sum_le : net + fee ≤ total
  fee_eq : fee = (net + fee) * config.feeBps.toNat / 10000

theorem shared_zero {n : ℤ} (h : 0 ≤ n) : Shared config 0 0 n :=
  ⟨le_rfl, le_rfl, by omega, by simp⟩

theorem mintCredits_shared (hb : config.feeBps.toNat ≤ 10000) (h0 : 0 ≤ total.val)
    (h : mintCreditsRespectingCap o contract config token beneficiary total w =
      .ok (net, fee, w')) : Shared config net.val fee.val total.val := by
  unfold mintCreditsRespectingCap at h
  split at h
  · cases h
    exact shared_zero h0
  · rename_i hpos
    have hpos : 0 < total.val := not_le.mp hpos
    simp only [bind_eq_ok] at h
    obtain ⟨⟨x, w₁⟩, -, ⟨y, w₂⟩, -, h⟩ := h
    split at h
    · cases h
      exact shared_zero h0
    · rename_i ha
      have ha : 0 < (mintable x y total).val := not_le.mp ha
      simp only [bind_eq_ok, pure_eq_ok, Prod.mk.injEq] at h
      obtain ⟨f, hf, w₃, -, w₄, -, rfl, rfl, -⟩ := h
      obtain ⟨hf0, hfle⟩ := feeOf_bounds hb ha hf
      have hexact := feeOf_exact ha.le hf
      have hle : (mintable x y total).val ≤ total.val := mintable_le hpos
      have hnet : (mintable x y total - f).val = (mintable x y total).val - f.val :=
        I128.val_sub_of_le hf0 hfle
      constructor
      · omega
      · exact hf0
      · omega
      · rwa [hnet, sub_add_cancel]

end Minted

/-- What is known of a result when it is stored, the readings it was computed from included. -/
structure Earned (e : Env contract) (s s' : State) (p : ProjectId) (window : WindowState)
    (med : Reading) (r : VerificationResult) : Prop where
  stored : s'.windowState p = some window
  quorum : s.config.minOracles.toNat ≤ window.submissions.length
  validated : ∀ sub ∈ window.submissions, Validated sub.toReading
  medians : medians window.submissions = .ok med
  nRemoved : r.nRemovalKg.val =
    (exactTerms s.config med (resolveBaselines s p) s.config.windowSecs).nRemoved
  pRemoved : r.pRemovalKg.val =
    (exactTerms s.config med (resolveBaselines s p) s.config.windowSecs).pRemoved
  penalty : r.qualityPenalty.toInt =
    (exactTerms s.config med (resolveBaselines s p) s.config.windowSecs).penalty
  volumetric : r.volumetricCredit.val =
    (exactTerms s.config med (resolveBaselines s p) s.config.windowSecs).volumetricCredit
  total : r.totalCredits.val =
    (exactTerms s.config med (resolveBaselines s p) s.config.windowSecs).total
  shared : Shared s.config r.creditsMinted.val r.protocolFeeMinted.val r.totalCredits.val
  written : s'.lastResult p = some r ∧ s'.resultAt (p, s.resultCount p) = some r ∧
    s'.resultCount p = s.resultCount p + 1
  counted : r.oracleCount.toNat = window.submissions.length
  header : r.projectId = p ∧ r.finalizedAt = e.timestamp

theorem Verifies.written (h : Verifies o e s s' w' p window r) :
    s'.lastResult p = some r ∧ s'.resultAt (p, s.resultCount p) = some r ∧
      s'.resultCount p = s.resultCount p + 1 := by
  have hlast : s'.lastResult = update s.lastResult p (some r) :=
    congrArg Results.lastResult h.results
  have hat : s'.resultAt = update s.resultAt (p, s.resultCount p) (some r) :=
    congrArg Results.resultAt h.results
  have hcount : s'.resultCount = update s.resultCount p (s.resultCount p + 1) :=
    congrArg Results.resultCount h.results
  exact ⟨hlast ▸ update_self .., hat ▸ update_self .., hcount ▸ update_self ..⟩

theorem Verifies.earned (h : Verifies o e s s' w' p window r)
    (hb : s.config.feeBps.toNat ≤ 10000)
    (hv : ∀ sub ∈ window.submissions, Validated sub.toReading) :
    ∃ med, Earned e s s' p window med r := by
  obtain ⟨v, hverify⟩ := h.verified
  have hwritten := h.written
  have hcount := verifyWindow_count hverify
  simp only [State.verifyWindow, State.computeResult, bind_eq_ok, pure_eq_ok] at hverify
  obtain ⟨_, ⟨med, hm, fin, hfin, rfl⟩, hmint⟩ := hverify
  have hmed : MedianOf med :=
    ⟨_, fun sub hs => validateSensorReading_eq_ok.mpr (hv sub hs), hm⟩
  have hterms := computeFinalization_exact hmed.validated hfin
  have htotal0 : 0 ≤ fin.total.val :=
    Credits.total_nonneg.trans_eq (congrArg Terms.total hterms).symm
  refine ⟨med, ?_⟩
  unfold State.mintResult at hmint
  split at hmint
  · simp only [bind_eq_ok, pure_eq_ok, Prod.mk.injEq] at hmint
    obtain ⟨⟨net, fee, u⟩, hcredits, rfl, -⟩ := hmint
    exact ⟨h.stored, h.quorum, hv, hm, congrArg Terms.nRemoved hterms,
      congrArg Terms.pRemoved hterms, congrArg Terms.penalty hterms,
      congrArg Terms.volumetricCredit hterms, congrArg Terms.total hterms,
      mintCredits_shared hb htotal0 hcredits, hwritten, hcount, rfl, rfl⟩
  · cases hmint
    exact ⟨h.stored, h.quorum, hv, hm, congrArg Terms.nRemoved hterms,
      congrArg Terms.pRemoved hterms, congrArg Terms.penalty hterms,
      congrArg Terms.volumetricCredit hterms, congrArg Terms.total hterms,
      shared_zero htotal0, hwritten, hcount, rfl, rfl⟩

/-- The windows are clean and the results earned along a run. -/
structure Measured (tr : Trace (State × W) (Event contract W)) (s : State) : Prop where
  fee : s.config.feeBps.toNat ≤ 10000
  clean : ∀ p, (s.view p).Clean
  earned : ∀ p r, s.Recorded p r → ∃ st ∈ tr, ∃ e c window med, st.label = .call e c ∧
    Earned e st.before.1 st.after.1 p window med r

theorem Measured.step {ev : Event contract W} (h : Measured tr s)
    (hs : step o ev (s, w) = .ok (s', w')) : Measured (⟨(s, w), ev, (s', w')⟩ :: tr) s' := by
  have older {p : ProjectId} {r : VerificationResult} (hr : s.Recorded p r) :
      ∃ st ∈ (⟨(s, w), ev, (s', w')⟩ :: tr : Trace (State × W) (Event contract W)),
        ∃ e c window med, st.label = .call e c ∧
          Earned e st.before.1 st.after.1 p window med r := by
    obtain ⟨st, hst, hearned⟩ := h.earned p r hr
    exact ⟨st, List.mem_cons_of_mem _ hst, hearned⟩
  cases ev with
  | outside v =>
    cases hs
    exact ⟨h.fee, h.clean, fun p r hr => older hr⟩
  | call e c =>
    have hclean (p : ProjectId) : (s'.view p).Clean :=
      (execute_move p hs).clean (fun _ => execute_validated hs) (h.clean p)
    refine ⟨execute_fee h.fee hs, hclean, fun p r hr => ?_⟩
    rcases execute_verifies hs with hres | ⟨q, window, r', -, hv⟩
    · exact older ((recorded_congr hres).mp hr)
    · rcases recorded_record hv.results hr with ⟨rfl, rfl⟩ | hr
      · obtain ⟨med, hearned⟩ := hv.earned h.fee (hclean p window hv.stored)
        exact ⟨_, List.mem_cons_self, e, c, window, med, rfl, hearned⟩
      · exact older hr

/--
Every result that a run stored was computed in the step that stored it, by the
formula in force, from the medians of a quorum of readings that a sensor can
produce. The credits minted for it, with the fee among them, are at most its
total.
-/
theorem results_earned {sw : State × W} (h : (machine contract o).Run Machine.anyCall tr sw)
    (hr : sw.1.Recorded p r) : ∃ st ∈ tr, ∃ e c window med, st.label = .call e c ∧
      Earned e st.before.1 st.after.1 p window med r := by
  have hm : Measured tr sw.1 := by
    refine h.invariant (I := fun tr sw => Measured tr sw.1) ?_ ?_
    · rintro ⟨s, w⟩ ⟨admin, stakingToken, treasury, hs⟩
      obtain ⟨-, rfl⟩ := initialise_eq_ok.mp hs
      refine ⟨Nat.zero_le _, fun p window hw => ?_, fun p r hr => ?_⟩
      · cases hw
      · rcases hr with hr | ⟨i, hr⟩ <;> cases hr
    · rintro tr ⟨s, w⟩ ev ⟨s', w'⟩ - hi - hs
      exact hi.step hs
  exact hm.earned p r hr

section Sample

/-- A token with a cap of a thousand credits, none of which is in circulation. -/
def capped : Outside Unit where
  totalSupply _ w := .ok (0, w)
  maxSupply _ w := .ok (1000, w)
  mintTo _ _ _ _ w := .ok w
  transfer _ _ _ _ w := .ok w
  sha256 _ := 0

def upstream : ProjectConfig :=
  { tokenContract := .contract 1, beneficiary := .account 2, baselineN := 3, baselineP := 3
    baselineTemp := 200 }

/-- The settings, and the reading that earns more credits than the cap admits. -/
def overflowing : List (Event station Unit) :=
  [calledAt 0 0 (.addOracle (.account 0) (.account 1)),
    calledAt 0 0
      (.updateConfig (.account 0) { installed.1.config with minOracles := 1, feeBps := 500 }),
    calledAt 0 0 (.setProjectConfig (.account 0) 7 upstream),
    calledAt 0 1 (.submitReading (.account 1) 7 1 fullFlow)]

theorem results_earned_overflowing : ∃ tr r,
    ((machine station capped).calls installed overflowing).1.Recorded 7 r ∧
      r.totalCredits.val = 1220 ∧ r.creditsMinted.val = 950 ∧ r.protocolFeeMinted.val = 50 ∧
      ∃ st ∈ (tr : Trace (State × Unit) (Event station Unit)), ∃ e c window med,
        st.label = .call e c ∧ Earned e st.before.1 st.after.1 7 window med r := by
  obtain ⟨tr, h⟩ := Machine.Reachable.calls ⟨_, .init (installed_init (o := capped))⟩ overflowing
  have hr : ∃ r, ((machine station capped).calls installed overflowing).1.lastResult 7 = some r ∧
      r.totalCredits.val = 1220 ∧ r.creditsMinted.val = 950 ∧ r.protocolFeeMinted.val = 50 :=
    ⟨_, rfl, by rfl, by rfl, by rfl⟩
  obtain ⟨r, hlast, htotal, hnet, hfee⟩ := hr
  exact ⟨tr, r, .inl hlast, htotal, hnet, hfee, results_earned h (.inl hlast)⟩

end Sample

end WaterCredits.Oracle
