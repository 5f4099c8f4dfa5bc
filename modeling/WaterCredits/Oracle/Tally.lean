import WaterCredits.Oracle.Median

/-! # What a finalization records

The results and the counters of the contributing oracles are written together,
by the two ends of a window and by no other call. No call but those on the
whitelist changes the number of oracles.
-/

namespace WaterCredits.Oracle

open Foundation Function

variable {contract : Address} {W : Type} {o : Outside W} {e : Env contract} {s s' t : State}
  {w w' v : W} {p q : ProjectId} {c : Call} {oracle : Address} {window : WindowState}
  {subs : List ReadingSubmission} {timestamp : UInt64} {r : VerificationResult}
  {r' : Option VerificationResult} {nonce : UInt64} {reading : Reading} {params : RevealParams}

structure Tally where
  results : Results
  submitCount : Address → UInt64
  finalizedCount : Address → UInt64
  oracleCount : UInt32

def State.tally (s : State) : Tally where
  results := s.results
  submitCount := s.oracleSubmitCount
  finalizedCount := s.oracleFinalizedCount
  oracleCount := s.oracleCount

def credited (oracles : List Address) (counts : Address → UInt64) : Address → UInt64 :=
  oracles.foldl (fun counts a => update counts a (counts a + 1)) counts

def Tally.record (t : Tally) (p : ProjectId) (r : VerificationResult)
    (subs : List ReadingSubmission) : Tally :=
  { t with
    results := t.results.record p r
    submitCount := credited (subs.map (·.oracle)) t.submitCount
    finalizedCount := credited (subs.map (·.oracle)) t.finalizedCount }

theorem contributions_counters (s : State) (subs : List ReadingSubmission) :
    (s.recordFinalizedContributions subs).oracleSubmitCount =
        credited (subs.map (·.oracle)) s.oracleSubmitCount ∧
      (s.recordFinalizedContributions subs).oracleFinalizedCount =
        credited (subs.map (·.oracle)) s.oracleFinalizedCount := by
  unfold State.recordFinalizedContributions credited
  induction subs generalizing s with
  | nil => exact ⟨rfl, rfl⟩
  | cons sub rest ih => exact ih _

theorem tally_recordResult : (s.recordResult p r subs).tally = s.tally.record p r subs := by
  have hc := contributions_counters
    (({ s with lastResult := update s.lastResult p (some r) } : State).appendResultHistory p r) subs
  unfold State.tally Tally.record
  congr 1
  · exact recordResult_results
  · exact hc.1
  · exact hc.2
  · rw [recordResult_frame]

@[simp] theorem saveWindow_tally : (s.saveWindow p window).tally = s.tally := rfl

@[simp] theorem removeOpenProject_tally : (s.removeOpenProject p).tally = s.tally := rfl

@[simp] theorem clearMarkers_tally {oracles : List Address} :
    (s.clearMarkers p oracles).tally = s.tally := rfl

theorem credited_apply (oracles : List Address) (counts : Address → UInt64) (a : Address) :
    credited oracles counts a = counts a + .ofNat (oracles.count a) := by
  unfold credited
  induction oracles generalizing counts with
  | nil => simp
  | cons b rest ih =>
    rw [List.foldl_cons, ih, List.count_cons]
    by_cases hb : b = a
    · subst hb
      rw [update_self, UInt64.add_assoc]
      simp [UInt64.ofNat_add, UInt64.add_comm]
    · rw [update_of_ne (Ne.symm hb)]
      simp [hb]

/-- A call stores a result with the contributions to it. -/
structure Settles (s s' : State) (p : ProjectId) (subs : List ReadingSubmission)
    (r : VerificationResult) : Prop where
  count : r.oracleCount.toNat = subs.length
  tally : s'.tally = s.tally.record p r subs
  stored : (s'.windowState p).map (·.submissions) = some subs

namespace Settles

variable (h : Settles s s' p subs r)

include h

theorem resultAt : s'.resultAt = update s.resultAt (p, s.resultCount p) (some r) :=
  congrArg (·.results.resultAt) h.tally

theorem resultCount : s'.resultCount = update s.resultCount p (s.resultCount p + 1) :=
  congrArg (·.results.resultCount) h.tally

theorem lastResult : s'.lastResult = update s.lastResult p (some r) :=
  congrArg (·.results.lastResult) h.tally

theorem submitCount : s'.oracleSubmitCount = credited (subs.map (·.oracle)) s.oracleSubmitCount :=
  congrArg Tally.submitCount h.tally

theorem finalizedCount :
    s'.oracleFinalizedCount = credited (subs.map (·.oracle)) s.oracleFinalizedCount :=
  congrArg Tally.finalizedCount h.tally

end Settles

/-- What comes before the end of a window leaves the records alone. -/
theorem Settles.congr (h : Settles t s' p subs r) (ht : t.tally = s.tally) :
    Settles s s' p subs r := ⟨h.count, ht ▸ h.tally, h.stored⟩

/-- A call that may end a window stores the result that it returns, if any. -/
inductive Recorded (s s' : State) (p : ProjectId) : Option VerificationResult → Prop
  | quiet (ht : s'.tally = s.tally) : Recorded s s' p none
  | result {result : VerificationResult} {submissions : List ReadingSubmission}
      (hs : Settles s s' p submissions result) : Recorded s s' p (some result)

theorem Recorded.congr (h : Recorded t s' p r') (ht : t.tally = s.tally) : Recorded s s' p r' := by
  cases h with
  | quiet hs => exact .quiet (hs.trans ht)
  | result hs => exact .result (hs.congr ht)

theorem verifyWindow_count (h : s.verifyWindow p o contract timestamp subs w = .ok (r, w')) :
    r.oracleCount.toNat = subs.length := by
  obtain ⟨r₀, hr, heq⟩ := verifyWindow_result h
  simp only [State.computeResult, medians, medianI64, bind_eq_ok, pure_eq_ok, ensure_eq_ok,
    List.length_map] at hr
  obtain ⟨_, ⟨_, ⟨_, -, _, hle, -⟩, -⟩, _, -, rfl⟩ := hr
  have hlt : subs.length < 2 ^ 32 := hle.trans_lt (by decide)
  rw [heq]
  exact UInt32.toNat_ofNat_of_lt' hlt

section Finalizers

theorem finalizeReveals_tally (h : s.finalizeReveals p o contract timestamp w = .ok (r', s', w')) :
    Recorded s s' p r' := by
  simp only [State.finalizeReveals, bind_eq_ok, State.expectWindow_eq_ok] at h
  obtain ⟨window, -, h⟩ := h
  split at h
  · cases h
    exact .quiet rfl
  · split at h
    · cases h
      exact .quiet rfl
    · simp only [bind_eq_ok, pure_eq_ok, Prod.mk.injEq] at h
      obtain ⟨⟨r, u⟩, hv, rfl, rfl, rfl⟩ := h
      refine .result ⟨verifyWindow_count hv, ?_, ?_⟩
      · rw [clearMarkers_tally, removeOpenProject_tally, saveWindow_tally, tally_recordResult]
      · simp [State.clearMarkers, State.removeOpenProject, State.saveWindow]

theorem finalizeDirect_tally
    (h : s.finalizeDirect p o contract timestamp window w = .ok (r, s', w')) :
    Settles s s' p window.submissions r := by
  simp only [State.finalizeDirect, bind_eq_ok, pure_eq_ok, Prod.mk.injEq] at h
  obtain ⟨⟨r, u⟩, hv, rfl, rfl, rfl⟩ := h
  refine ⟨verifyWindow_count hv, ?_, ?_⟩
  · rw [removeOpenProject_tally, saveWindow_tally, tally_recordResult]
  · simp [State.removeOpenProject, State.saveWindow]

theorem pushReading_tally (h : s.pushReading e oracle p nonce reading w = .ok (window, t, v)) :
    t.tally = s.tally := by
  simp only [State.pushReading, bind_eq_ok, addOpenProject_eq_ok, pure_eq_ok, Prod.mk.injEq] at h
  obtain ⟨_, -, _, -, _, -, _, -, _, -, _, -, u, ⟨-, rfl⟩, -, rfl, -⟩ := h
  rfl

theorem pushReveal_tally (h : s.pushReveal o e oracle p params w = .ok (window, t, v)) :
    t.tally = s.tally := by
  simp only [State.pushReveal, bind_eq_ok, pure_eq_ok, Prod.mk.injEq] at h
  obtain ⟨_, -, _, -, _, -, window₀, -, _, -, _, -, _, -, _, -, _, -, _, -, _, -, _, -, _, -, -,
    rfl, -⟩ := h
  rfl

theorem closeReveals_tally (h : s.closeReveals o e p w = .ok (window, t, v)) :
    t.tally = s.tally := by
  simp only [State.closeReveals, bind_eq_ok, pure_eq_ok, Prod.mk.injEq] at h
  obtain ⟨_, -, window₀, -, _, -, _, -, _, -, x, hx, -, rfl, -⟩ := h
  rw [penalizeLoop_frame hx]
  rfl

theorem submitReading_tally
    (h : s.submitReading o e oracle p nonce reading w = .ok (r', s', w')) :
    Recorded s s' p r' := by
  rw [submitReading_eq, bind_eq_ok] at h
  obtain ⟨⟨window, t, v⟩, ht, h⟩ := h
  have hst := pushReading_tally ht
  split at h
  · obtain ⟨⟨r, u⟩, hr, heq⟩ := map_eq_ok.mp h
    cases heq
    exact .result ((finalizeDirect_tally hr).congr hst)
  · cases h
    exact .quiet hst

theorem revealReading_tally (h : s.revealReading o e oracle p params w = .ok (r', s', w')) :
    Recorded s s' p r' := by
  rw [revealReading_eq, bind_eq_ok] at h
  obtain ⟨⟨window, t, v⟩, ht, h⟩ := h
  have hst := pushReveal_tally ht
  split at h
  · exact (finalizeReveals_tally h).congr hst
  · cases h
    exact .quiet hst

theorem finalizeWindow_tally (h : s.finalizeWindow o e p w = .ok (r', s', w')) :
    Recorded s s' p r' := by
  rw [finalizeWindow_eq, bind_eq_ok] at h
  obtain ⟨⟨window, t, v⟩, ht, h⟩ := h
  exact (finalizeReveals_tally h).congr (closeReveals_tally ht)

end Finalizers

def Call.finalizes : Call → Bool
  | .submitReading .. | .revealReading .. | .finalizeWindow .. => true
  | _ => false

def Call.enlists : Call → Bool
  | .addOracle .. | .removeOracle .. => true
  | _ => false

theorem execute_quiet (hc : c.finalizes = false) (h : execute o e s w c = .ok (s', w')) :
    s'.tally = { s.tally with oracleCount := s'.oracleCount } ∧
      (c.enlists = false → s'.oracleCount = s.oracleCount) := by
  cases c with
  | submitReading | revealReading | finalizeWindow => cases hc
  | addOracle =>
    obtain ⟨-, -, rfl⟩ := addOracle_cases (within_eq_ok.mp h).1
    exact ⟨rfl, fun hn => by cases hn⟩
  | removeOracle =>
    obtain ⟨-, rfl⟩ := removeOracle_cases (within_eq_ok.mp h).1
    exact ⟨rfl, fun hn => by cases hn⟩
  | openWindow =>
    obtain ⟨-, rfl⟩ := openWindow_cases (within_eq_ok.mp h).1
    exact ⟨rfl, fun _ => rfl⟩
  | commitReading =>
    obtain ⟨-, -, -, -, -, rfl⟩ := commitReading_cases (within_eq_ok.mp h).1
    exact ⟨rfl, fun _ => rfl⟩
  | beginRevealPhase =>
    obtain ⟨-, -, -, -, rfl⟩ := beginRevealPhase_cases (within_eq_ok.mp h).1
    exact ⟨rfl, fun _ => rfl⟩
  | updateConfig =>
    simp only [execute, within_eq_ok, State.updateConfig, bind_eq_ok, pure_eq_ok] at h
    obtain ⟨⟨_, -, _, -, _, -, _, -, _, -, _, -, _, -, _, -, _, -, _, -, rfl⟩, -⟩ := h
    exact ⟨rfl, fun _ => rfl⟩
  | resetWindow =>
    simp only [execute, within_eq_ok, State.resetWindow, bind_eq_ok, pure_eq_ok] at h
    obtain ⟨⟨_, -, window, -, rfl⟩, -⟩ := h
    exact ⟨rfl, fun _ => rfl⟩
  | stake =>
    simp only [execute, State.stake, bind_eq_ok, pure_eq_ok, Prod.mk.injEq] at h
    obtain ⟨_, -, _, -, v, -, rfl, -⟩ := h
    exact ⟨rfl, fun _ => rfl⟩
  | unstake =>
    simp only [execute, within_eq_ok, State.unstake, bind_eq_ok, pure_eq_ok] at h
    obtain ⟨⟨_, -, _, -, _, -, _, -, rfl⟩, -⟩ := h
    exact ⟨rfl, fun _ => rfl⟩
  | claimUnstake =>
    simp only [execute, State.claimUnstake, bind_eq_ok, pure_eq_ok, Prod.mk.injEq] at h
    obtain ⟨_, -, _, -, v, -, rfl, -⟩ := h
    exact ⟨rfl, fun _ => rfl⟩
  | slash =>
    simp only [execute, State.slash, bind_eq_ok, pure_eq_ok, Prod.mk.injEq] at h
    obtain ⟨_, -, _, -, _, -, v, -, rfl, -⟩ := h
    exact ⟨rfl, fun _ => rfl⟩
  | initialise => simp [execute, initialise] at h
  | _ =>
    simp only [execute, within_eq_ok, State.transferAdmin, State.pause, State.unpause,
      State.setPauseGuardian, State.setProjectConfig, bind_eq_ok, pure_eq_ok] at h
    obtain ⟨⟨_, -, rfl⟩, -⟩ := h
    exact ⟨rfl, fun _ => rfl⟩

theorem execute_recorded (hc : c.finalizes = true) (h : execute o e s w c = .ok (s', w')) :
    ∃ p r, Recorded s s' p r := by
  cases c with
  | submitReading =>
    obtain ⟨r, h⟩ := discard_eq_ok.mp h
    exact ⟨_, r, submitReading_tally h⟩
  | revealReading =>
    obtain ⟨r, h⟩ := discard_eq_ok.mp h
    exact ⟨_, r, revealReading_tally h⟩
  | finalizeWindow =>
    obtain ⟨r, h⟩ := discard_eq_ok.mp h
    exact ⟨_, r, finalizeWindow_tally h⟩
  | _ => cases hc

theorem execute_count (hc : c.enlists = false) (h : execute o e s w c = .ok (s', w')) :
    s'.oracleCount = s.oracleCount := by
  cases hf : c.finalizes with
  | false => exact (execute_quiet hf h).2 hc
  | true =>
    obtain ⟨p, r, hr⟩ := execute_recorded hf h
    cases hr with
    | quiet hs => exact congrArg Tally.oracleCount hs
    | result hs => exact congrArg Tally.oracleCount hs.tally

end WaterCredits.Oracle
