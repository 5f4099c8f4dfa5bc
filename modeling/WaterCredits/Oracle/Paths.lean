import WaterCredits.Oracle.Markers

/-! # The two finalization paths

A direct reading that completes a quorum finalizes its window by itself, and a
reveal or an explicit finalization does so through `finalizeReveals`. On the same
window both record and mint the same. Only the second path ends the phase of the
window and clears the markers of the listed oracles.
-/

namespace WaterCredits.Oracle

open Foundation Function

variable {contract : Address} {W : Type} {o : Outside W} {e : Env contract} {s s' t : State}
  {w w' : W} {p : ProjectId} {c : Call} {v v' : View} {oracle : Address} {nonce : UInt64}
  {reading : Reading} {r : VerificationResult} {window : WindowState} {timestamp : UInt64}

/-- What the second path does beyond the first. -/
def State.retire (s : State) (p : ProjectId) (window : WindowState) : State :=
  (s.saveWindow p { window with phase := .finalized, finalized := true }).clearMarkers p
    s.oracleList

theorem finalizeReveals_eq (hw : s.windowState p = some window) (hf : window.finalized = false)
    (hq : s.config.minOracles.toNat ≤ window.submissions.length) :
    s.finalizeReveals p o contract timestamp w =
      (fun x => (some x.1, x.2.1.retire p window, x.2.2)) <$>
        s.finalizeDirect p o contract timestamp window w := by
  unfold State.finalizeReveals State.finalizeDirect
  rw [State.expectWindow_eq_ok.mpr hw]
  cases hv : s.verifyWindow p o contract timestamp window.submissions w with
  | error x => simp [hf, not_lt.mpr hq, hv]
  | ok x =>
    simp [hf, not_lt.mpr hq, hv, State.retire, State.saveWindow, State.removeOpenProject,
      State.clearMarkers]

structure SameRecords (s t : State) : Prop where
  results : t.results = s.results
  submitCount : t.oracleSubmitCount = s.oracleSubmitCount
  finalizedCount : t.oracleFinalizedCount = s.oracleFinalizedCount
  openProjects : t.openProjects = s.openProjects

structure SameMarkers (p : ProjectId) (subs : List ReadingSubmission) (s t : State) : Prop where
  commitment : ∀ sub ∈ subs, t.commitment (p, sub.oracle) = s.commitment (p, sub.oracle)
  revealed : ∀ sub ∈ subs, t.oracleRevealed (p, sub.oracle) = s.oracleRevealed (p, sub.oracle)
  submitted : ∀ sub ∈ subs, t.oracleSubmitted (p, sub.oracle) = s.oracleSubmitted (p, sub.oracle)

/-- Two paths leave the same storage of a project behind. -/
structure PathsAgree (p : ProjectId) (subs : List ReadingSubmission) (s t : State) : Prop where
  records : SameRecords s t
  window : t.windowState p = s.windowState p
  markers : SameMarkers p subs s t

theorem sameRecords_retire : SameRecords s (s.retire p window) := ⟨rfl, rfl, rfl, rfl⟩

/-- Clearing changes nothing exactly when no listed oracle has a marker. -/
theorem sameMarkers_retire {subs : List ReadingSubmission} :
    SameMarkers p subs s (s.retire p window) ↔ ∀ sub ∈ subs, sub.oracle ∈ s.oracleList →
      s.commitment (p, sub.oracle) = none ∧ s.oracleRevealed (p, sub.oracle) = false := by
  have hc (a : Address) : (s.retire p window).commitment (p, a) =
      if a ∈ s.oracleList then none else s.commitment (p, a) := by
    simp [State.retire, State.clearMarkers, State.saveWindow]
  have hr (a : Address) : (s.retire p window).oracleRevealed (p, a) =
      if a ∈ s.oracleList then false else s.oracleRevealed (p, a) := by
    simp [State.retire, State.clearMarkers, State.saveWindow]
  constructor
  · intro h sub hsub hmem
    have hcom := h.commitment sub hsub
    have hrev := h.revealed sub hsub
    rw [hc, if_pos hmem] at hcom
    rw [hr, if_pos hmem] at hrev
    exact ⟨hcom.symm, hrev.symm⟩
  · intro h
    refine ⟨fun sub hsub => ?_, fun sub hsub => ?_, fun _ _ => rfl⟩
    · rw [hc]
      split
      · rename_i hmem
        exact (h sub hsub hmem).1.symm
      · rfl
    · rw [hr]
      split
      · rename_i hmem
        exact (h sub hsub hmem).2.symm
      · rfl

def View.PhaseOpen (v : View) : Prop :=
  ∀ window, v.window = some window → window.finalized = false → window.phase ≠ .finalized

theorem Move.phaseOpen (hm : Move o e s p v c v') (h : v.PhaseOpen) : v'.PhaseOpen := by
  cases hm with
  | idle => exact h
  | @submitReading a n reading window closed ha hn hst hf =>
    rintro window' ⟨⟩ -
    cases hw : v.window with
    | some window₀ =>
      rw [hw] at hst
      exact h window (hw.trans (congrArg some hst)) hf
    | none =>
      rw [hw] at hst
      exact fun hph => absurd ((congrArg WindowState.phase hst).trans hph) (by simp)
  | resetWindow | openWindow | beginRevealPhase =>
    rintro window' ⟨⟩ - hph
    cases hph
  | commitReading => exact h
  | @revealReading a params window closed ha hn hc hph =>
    cases closed with
    | true =>
      rintro window' ⟨⟩ hf
      cases hf
    | false =>
      rintro window' ⟨⟩ -
      exact h window hph.stored hph.unfinished
  | @finalizeWindow window closed hph =>
    cases closed with
    | true =>
      rintro window' ⟨⟩ hf
      cases hf
    | false => exact h

theorem phaseOpen_of_reach {G : Guard (State × W) (Event contract W)} {sw : State × W}
    (h : (machine contract o).Reach G sw) (p : ProjectId) : (sw.1.view p).PhaseOpen := by
  refine h.invariant (I := fun sw => (sw.1.view p).PhaseOpen) ?_ ?_
  · rintro sw ⟨admin, stakingToken, treasury, hs⟩
    rw [(initialise_eq_ok.mp hs).2]
    exact fun window hw => by cases hw
  · rintro tr sw (⟨e, c⟩ | w') sw' hi - hs
    · exact (execute_move p hs).phaseOpen hi
    · cases hs
      exact hi

def State.joined (s : State) (e : Env contract) (p : ProjectId) (sub : ReadingSubmission) :
    WindowState :=
  let window := (s.windowState p).getD { phase := .reveal, openedAt := e.timestamp }
  { window with submissions := window.submissions ++ [sub] }

/-- The storage with a direct reading, when its finalization begins. -/
def State.read (s : State) (e : Env contract) (p : ProjectId) (sub : ReadingSubmission) : State :=
  { s with
    openProjects :=
      if p ∈ s.openProjects then s.openProjects else s.openProjects ++ [p] }.recordSubmission p
    (s.joined e p sub) sub

theorem submitReading_direct
    (h : s.submitReading o e oracle p nonce reading w = .ok (some r, s', w')) :
    (s.joined e p (directSub e oracle nonce reading)).finalized = false ∧
      s.config.minOracles.toNat ≤
        (s.joined e p (directSub e oracle nonce reading)).submissions.length ∧
      (s.read e p (directSub e oracle nonce reading)).finalizeDirect p o contract e.timestamp
        (s.joined e p (directSub e oracle nonce reading)) w = .ok (r, s', w') := by
  simp only [State.submitReading, bind_eq_ok, ensure_eq_ok, addOpenProject_eq_ok] at h
  obtain ⟨_, -, _, -, _, -, _, -, _, -, _, hf, t, ⟨-, ht⟩, h⟩ := h
  split at h
  · rename_i hq
    simp only [bind_eq_ok, pure_eq_ok, Prod.mk.injEq] at h
    obtain ⟨⟨result, u, v⟩, hd, hr, rfl, rfl⟩ := h
    cases hr
    subst ht
    exact ⟨hf, hq, hd⟩
  · simp at h

theorem joined_phase {G : Guard (State × W) (Event contract W)} {sub : ReadingSubmission}
    (hr : (machine contract o).Reach G (s, w)) (hf : (s.joined e p sub).finalized = false) :
    (s.joined e p sub).phase ≠ .finalized := by
  cases hw : s.windowState p with
  | none => simp [State.joined, hw]
  | some window =>
    simp only [State.joined, hw, Option.getD_some] at hf ⊢
    exact phaseOpen_of_reach hr p window hw hf

/--
Where a direct reading finalizes a window, the other path gives the same result,
mints and records, but never the same window. The markers are the same exactly
when no listed submitter has a commitment or a reveal.
-/
theorem paths_never_agree (hr : (machine contract o).Reachable (s, w))
    (h : s.submitReading o e oracle p nonce reading w = .ok (some r, s', w')) :
    ∃ subs t, (s'.windowState p).map (·.submissions) = some subs ∧
      (s.read e p (directSub e oracle nonce reading)).finalizeReveals p o contract e.timestamp w =
        .ok (some r, t, w') ∧
      SameRecords s' t ∧ ¬ PathsAgree p subs s' t ∧
      (SameMarkers p subs s' t ↔ ∀ sub ∈ subs, sub.oracle ∈ s'.oracleList →
        s'.commitment (p, sub.oracle) = none ∧ s'.oracleRevealed (p, sub.oracle) = false) := by
  obtain ⟨hf, hq, hd⟩ := submitReading_direct h
  have hph := joined_phase hr hf
  have hs' : s'.windowState p =
      some { s.joined e p (directSub e oracle nonce reading) with finalized := true } :=
    (congrArg (·.windowState p) (finalizeDirect_cases hd).1).trans (update_self ..)
  refine ⟨(s.joined e p (directSub e oracle nonce reading)).submissions,
    s'.retire p (s.joined e p (directSub e oracle nonce reading)), by rw [hs']; rfl, ?_,
    sameRecords_retire, fun hagree => ?_, sameMarkers_retire⟩
  · rw [finalizeReveals_eq (s := s.read e p (directSub e oracle nonce reading)) (update_self ..)
      hf hq, hd]
    rfl
  · have hwin := hagree.window
    rw [hs', State.retire, State.clearMarkers, State.saveWindow] at hwin
    simp only [update_self, Option.some.injEq, WindowState.mk.injEq] at hwin
    exact hph hwin.1.symm

section Sample

/-- Two oracles make the quorum, and the account `1` has already submitted directly. -/
def halfDirect : State × Unit :=
  (machine station offline).calls installed
    (oneRevealed.take 3 ++ [calledAt 0 1 (.submitReading (.account 1) 7 1 clearWater)])

theorem halfDirect_reached : (machine station offline).Reachable halfDirect :=
  Machine.Reachable.calls ⟨_, .init installed_init⟩ _

/-- The environment of the second direct reading. -/
abbrev byTwo : Env station := .signed 0 0 (.account 2) account_ne_contract

set_option maxRecDepth 2000 in
theorem paths_never_agree_pair : ∃ r s' w',
    halfDirect.1.submitReading offline byTwo (.account 2) 7 1 clearWater halfDirect.2 =
        .ok (some r, s', w') ∧
      ∃ subs t,
        (halfDirect.1.read byTwo 7 (directSub byTwo (.account 2) 1 clearWater)).finalizeReveals 7
          offline station 0 halfDirect.2 = .ok (some r, t, w') ∧
        SameRecords s' t ∧ ¬ PathsAgree 7 subs s' t := by
  obtain ⟨r, s', w', h⟩ : ∃ r s' w', halfDirect.1.submitReading offline byTwo (.account 2) 7 1
    clearWater halfDirect.2 = .ok (some r, s', w') := ⟨_, _, _, rfl⟩
  obtain ⟨subs, t, -, hfin, hrec, hne, -⟩ := paths_never_agree halfDirect_reached h
  exact ⟨r, s', w', h, subs, t, hfin, hrec, hne⟩

set_option maxRecDepth 2000 in
theorem direct_leaves_phase : (machine station offline).Reachable halfDirect ∧ ∃ r s' w' t,
    halfDirect.1.submitReading offline byTwo (.account 2) 7 1 clearWater halfDirect.2 =
        .ok (some r, s', w') ∧
      (halfDirect.1.read byTwo 7 (directSub byTwo (.account 2) 1 clearWater)).finalizeReveals
          7 offline station 0 halfDirect.2 = .ok (some r, t, w') ∧
      (s'.windowState 7).map (·.phase) = some .reveal ∧
      (t.windowState 7).map (·.phase) = some .finalized :=
  ⟨halfDirect_reached, _, _, _, _, rfl, rfl, rfl, rfl⟩

end Sample

end WaterCredits.Oracle
