import WaterCredits.Oracle.Paths

/-! # The buffer of the median

A submission that leaves its window open leaves it below the quorum of that
time, and no quorum exceeds the capacity of the buffer that the medians sort in.
So every list whose median a call takes fits the buffer and is not empty.
-/

namespace WaterCredits.Oracle

open Foundation Function

variable {contract : Address} {W : Type} {o : Outside W} {e : Env contract} {s s' t : State}
  {w w' v : W} {p q : ProjectId} {c : Call} {oracle : Address} {window : WindowState}
  {subs : List ReadingSubmission} {timestamp : UInt64}

@[simp] def MedianPanic : Panic → Prop
  | .message text =>
      text = "median of empty vec" ∨ text = "median input exceeds oracle buffer capacity"
  | _ => False

/-- The columns of a window that a finalization takes the medians of. -/
def columns (subs : List ReadingSubmission) : List (List Int64) :=
  [subs.map (·.ph), subs.map (·.turbidity), subs.map (·.dissolvedOxygen),
    subs.map (·.temperature), subs.map (·.flowRate), subs.map (·.totalNitrogen),
    subs.map (·.totalPhosphorus)]

def FitsBuffer (n : ℕ) : Prop := 1 ≤ n ∧ n ≤ MAX_ORACLES_HARD_LIMIT.toNat

theorem length_of_mem_columns {values : List Int64} (h : values ∈ columns subs) :
    values.length = subs.length := by
  simp only [columns, List.mem_cons, List.not_mem_nil, or_false] at h
  rcases h with h | h | h | h | h | h | h <;> rw [h, List.length_map]

theorem medianI64_avoids {values : List Int64} (h : FitsBuffer values.length) :
    Avoids MedianPanic (medianI64 values) := by
  have hne : values.length ≠ 0 := Nat.one_le_iff_ne_zero.mp h.1
  have hle : values.length ≤ MEDIAN_BUFFER_LEN := h.2
  unfold medianI64
  simp only [avoids_bind, avoids_ensure, ensure_eq_ok, hne, hle, not_true_eq_false, ne_eq,
    not_false_eq_true, false_imp_iff, true_and, forall_const]
  split <;> exact avoids_pure

theorem medians_avoids (h : FitsBuffer subs.length) : Avoids MedianPanic (medians subs) := by
  have hcol (field : ReadingSubmission → Int64) :
      Avoids MedianPanic (medianI64 (subs.map field)) :=
    medianI64_avoids (by rwa [List.length_map])
  simp [medians, hcol]

/-- The contracts outside do not abort with the messages of the median. -/
structure Outside.Quiet (o : Outside W) : Prop where
  totalSupply : ∀ token w, Avoids MedianPanic (o.totalSupply token w)
  maxSupply : ∀ token w, Avoids MedianPanic (o.maxSupply token w)
  mintTo : ∀ token minter recipient n w, Avoids MedianPanic (o.mintTo token minter recipient n w)
  transfer : ∀ token a b n w, Avoids MedianPanic (o.transfer token a b n w)

section Finalize

theorem removed_avoids {nutrient : String} (hn : nutrient = "n" ∨ nutrient = "p")
    {med flow : Int64} {baseline : I128} {windowSecs : UInt64} :
    Avoids MedianPanic (removed nutrient med flow baseline windowSecs) := by
  unfold removed
  split
  · rcases hn with rfl | rfl <;> simp
  · simp

theorem computeFinalization_avoids {config : OracleConfig} {med : Reading} {baselines : Baselines}
    {windowSecs : UInt64} :
    Avoids MedianPanic (computeFinalization config med baselines windowSecs) := by
  have hvol {flow : Int64} : Avoids MedianPanic (volumetric flow) := by
    unfold volumetric
    split <;> simp
  simp [computeFinalization, removed_avoids, hvol]

theorem mintCreditsRespectingCap_avoids (ho : o.Quiet) {config : OracleConfig}
    {token beneficiary : Address} {total : I128} :
    Avoids MedianPanic
      (mintCreditsRespectingCap o contract config token beneficiary total w) := by
  have hfee {n : I128} : Avoids MedianPanic (feeOf config n) := by
    unfold feeOf
    split <;> simp
  have hmint {recipient : Address} {n : I128} {w : W} :
      Avoids MedianPanic (mintPositive o token contract recipient n w) := by
    unfold mintPositive
    split
    · exact ho.mintTo _ _ _ _ _
    · exact avoids_pure
  unfold mintCreditsRespectingCap
  split
  · exact avoids_pure
  · refine avoids_bind.mpr ⟨ho.totalSupply _ _, fun a _ => ?_⟩
    refine avoids_bind.mpr ⟨ho.maxSupply _ _, fun b _ => ?_⟩
    simp only
    split
    · exact avoids_pure
    · simp [hfee, hmint]

theorem verifyWindow_avoids (ho : o.Quiet) (h : FitsBuffer subs.length) :
    Avoids MedianPanic (s.verifyWindow p o contract timestamp subs w) := by
  have hresult : Avoids MedianPanic (s.computeResult p timestamp subs) := by
    simp [State.computeResult, medians_avoids h, computeFinalization_avoids]
  have hmint {r : VerificationResult} :
      Avoids MedianPanic (s.mintResult p o contract r w) := by
    unfold State.mintResult
    split
    · simp [mintCreditsRespectingCap_avoids ho]
    · exact avoids_pure
  exact avoids_bind.mpr ⟨hresult, fun r _ => hmint⟩

theorem finalizeDirect_avoids (ho : o.Quiet) (h : FitsBuffer window.submissions.length) :
    Avoids MedianPanic (s.finalizeDirect p o contract timestamp window w) := by
  simp [State.finalizeDirect, verifyWindow_avoids ho h]

theorem finalizeReveals_avoids (ho : o.Quiet) (hw : s.windowState p = some window)
    (h : s.config.minOracles.toNat ≤ window.submissions.length →
      FitsBuffer window.submissions.length) :
    Avoids MedianPanic (s.finalizeReveals p o contract timestamp w) := by
  unfold State.finalizeReveals
  rw [State.expectWindow_eq_ok.mpr hw]
  refine avoids_bind.mpr ⟨avoids_pure, fun window' heq => ?_⟩
  cases heq
  split
  · exact avoids_pure
  · split
    · exact avoids_pure
    · rename_i hq
      simp [verifyWindow_avoids ho (h (not_lt.mp hq))]

theorem slashMissed_avoids (ho : o.Quiet) :
    Avoids MedianPanic (s.slashMissed o contract timestamp oracle w) := by
  have hslash {n : I128} : Avoids MedianPanic (computeSlashAmount n s.config) := by
    unfold computeSlashAmount
    split <;> simp
  have htransfer {n : I128} := ho.transfer s.config.stakingToken contract s.config.treasury n w
  unfold State.slashMissed
  simp only
  split
  · refine avoids_bind.mpr ⟨hslash, fun n _ => ?_⟩
    split
    · simp [htransfer]
    · exact avoids_pure
  · exact avoids_pure

theorem penalizeLoop_avoids (ho : o.Quiet) {oracles : List Address} :
    Avoids MedianPanic (State.penalizeLoop o contract timestamp p oracles s w) := by
  induction oracles generalizing s w with
  | nil => exact avoids_pure
  | cons a rest ih =>
    unfold State.penalizeLoop
    split
    · exact avoids_bind.mpr ⟨slashMissed_avoids ho, fun x _ => ih⟩
    · exact ih

end Finalize

section Push

namespace State

/-- A direct submission up to its check of the quorum. -/
def pushReading (e : Env contract) (s : State) (oracle : Address) (projectId : ProjectId)
    (nonce : UInt64) (reading : Reading) (w : W) : Result (WindowState × State × W) := do
  e.requireAuth oracle
  s.requireOracle oracle
  validateSensorReading reading
  ensure (nonce = s.oracleNonce (projectId, oracle) + 1) "invalid nonce"
  ensure (s.oracleSubmitted (projectId, oracle) = false) "oracle already submitted for this window"
  let window := (s.windowState projectId).getD { phase := .reveal, openedAt := e.timestamp }
  ensure (window.finalized = false) "window already finalized"
  let s ← s.addOpenProject projectId
  let sub : ReadingSubmission := { reading with oracle, nonce, timestamp := e.timestamp }
  let window := { window with submissions := window.submissions ++ [sub] }
  return (window, s.recordSubmission projectId window sub, w)

def pushReveal (o : Outside W) (e : Env contract) (s : State) (oracle : Address)
    (projectId : ProjectId) (params : RevealParams) (w : W) :
    Result (WindowState × State × W) := do
  e.requireAuth oracle
  s.requireNotPaused
  s.requireOracle oracle
  let window ← s.expectWindow projectId
  ensure (window.finalized = false) "window already finalized"
  ensure (window.phase = .reveal) "not in reveal phase"
  ensure (window.revealOpenedLedger + s.config.minRevealLedgers ≤ e.sequence)
    "reveal submitted before the reveal window opened"
  ensure (e.sequence ≤ window.revealOpenedLedger + s.config.maxRevealLedgers)
    "reveal window has closed"
  let info ← orPanic (s.commitment (projectId, oracle)) "oracle did not commit"
  ensure (info.nonce = params.nonce) "nonce mismatch with commitment"
  ensure (s.oracleRevealed (projectId, oracle) = false) "oracle already revealed"
  ensure (sha256Commitment o params = info.commitment)
    "hash mismatch: revealed values do not match commitment"
  validateSensorReading params.toReading
  let sub : ReadingSubmission :=
    { params.toReading with oracle, nonce := params.nonce, timestamp := e.timestamp }
  let window := { window with submissions := window.submissions ++ [sub] }
  return (window, s.recordReveal projectId window sub, w)

/-- An explicit finalization up to its check of the quorum. -/
def closeReveals (o : Outside W) (e : Env contract) (s : State) (projectId : ProjectId) (w : W) :
    Result (WindowState × State × W) := do
  s.requireNotPaused
  let window ← s.expectWindow projectId
  ensure (window.finalized = false) "window already finalized"
  ensure (window.phase = .reveal) "not in reveal phase"
  ensure (window.revealOpenedLedger + s.config.maxRevealLedgers < e.sequence)
    "reveal phase not ended"
  let (s, w) ← s.penalizeNonRevealers o contract e.timestamp projectId w
  return (window, s, w)

end State

/-- The submissions whose medians are taken after the check of the quorum. -/
def quorate : Result (WindowState × State × W) → Option (List ReadingSubmission)
  | .ok (window, s, _) =>
      if s.config.minOracles.toNat ≤ window.submissions.length then some window.submissions
      else none
  | .error _ => none

def medianInput (o : Outside W) (e : Env contract) (s : State) (w : W) :
    Call → Option (List ReadingSubmission)
  | .submitReading oracle p nonce reading => quorate (s.pushReading e oracle p nonce reading w)
  | .revealReading oracle p params => quorate (s.pushReveal o e oracle p params w)
  | .finalizeWindow p => quorate (s.closeReveals o e p w)
  | _ => none

variable {nonce : UInt64} {reading : Reading} {params : RevealParams}

theorem submitReading_eq : s.submitReading o e oracle p nonce reading w =
    s.pushReading e oracle p nonce reading w >>= fun x =>
      if x.2.1.config.minOracles.toNat ≤ x.1.submissions.length then
        (fun y => (some y.1, y.2)) <$> x.2.1.finalizeDirect p o contract e.timestamp x.1 x.2.2
      else pure (none, x.2) := by
  simp [State.submitReading, State.pushReading]

theorem revealReading_eq : s.revealReading o e oracle p params w =
    s.pushReveal o e oracle p params w >>= fun x =>
      if x.2.1.config.minOracles.toNat ≤ x.1.submissions.length then
        x.2.1.finalizeReveals p o contract e.timestamp x.2.2
      else pure (none, x.2) := by
  simp [State.revealReading, State.pushReveal]

theorem finalizeWindow_eq : s.finalizeWindow o e p w =
    s.closeReveals o e p w >>= fun x => x.2.1.finalizeReveals p o contract e.timestamp x.2.2 := by
  simp [State.finalizeWindow, State.closeReveals]

theorem pushReading_cases (h : s.pushReading e oracle p nonce reading w = .ok (window, t, v)) :
    ∃ window₀ : WindowState, (s.windowState p).getD { phase := .reveal, openedAt := e.timestamp } =
        window₀ ∧ window₀.finalized = false ∧
      window.submissions = window₀.submissions ++ [directSub e oracle nonce reading] ∧
      t.config = s.config := by
  simp only [State.pushReading, bind_eq_ok, ensure_eq_ok, addOpenProject_eq_ok, pure_eq_ok,
    Prod.mk.injEq] at h
  obtain ⟨_, -, _, -, _, -, _, -, _, -, _, hf, u, ⟨-, rfl⟩, rfl, rfl, -⟩ := h
  exact ⟨_, rfl, hf, rfl, rfl⟩

theorem pushReveal_cases (h : s.pushReveal o e oracle p params w = .ok (window, t, v)) :
    ∃ window₀ : WindowState, s.windowState p = some window₀ ∧ window₀.finalized = false ∧
      window.submissions = window₀.submissions ++ [revealSub e oracle params] ∧
      window.finalized = false ∧ t.windowState p = some window ∧ t.config = s.config := by
  simp only [State.pushReveal, bind_eq_ok, ensure_eq_ok, State.expectWindow_eq_ok, pure_eq_ok,
    Prod.mk.injEq] at h
  obtain ⟨_, -, _, -, _, -, window₀, hw, _, hf, _, -, _, -, _, -, _, -, _, -, _, -, _, -, _, -,
    rfl, rfl, -⟩ := h
  exact ⟨window₀, hw, hf, rfl, hf, update_self .., rfl⟩

theorem closeReveals_cases (h : s.closeReveals o e p w = .ok (window, t, v)) :
    s.windowState p = some window ∧ window.finalized = false ∧ t.windowState p = some window ∧
      t.config = s.config := by
  simp only [State.closeReveals, bind_eq_ok, ensure_eq_ok, State.expectWindow_eq_ok, pure_eq_ok,
    Prod.mk.injEq] at h
  obtain ⟨_, -, window₀, hw, _, hf, _, -, _, -, x, hx, rfl, rfl, -⟩ := h
  have hx := penalizeLoop_frame hx
  refine ⟨hw, hf, ?_, ?_⟩
  · rw [hx]
    exact hw
  · rw [hx]

end Push

section Input

theorem quorate_eq_some {x : Result (WindowState × State × W)} (h : quorate x = some subs) :
    ∃ window t v, x = .ok (window, t, v) ∧
      t.config.minOracles.toNat ≤ window.submissions.length ∧ window.submissions = subs := by
  cases x with
  | error => cases h
  | ok x =>
    obtain ⟨window, t, v⟩ := x
    simp only [quorate, Option.ite_none_right_eq_some, Option.some.injEq] at h
    exact ⟨window, t, v, rfl, h.1, h.2⟩

theorem finalizeDirect_begins : BeginsWith (medians window.submissions)
    (s.finalizeDirect p o contract timestamp window w) := by
  have hresult : BeginsWith (medians window.submissions)
      (s.computeResult p timestamp window.submissions) := ⟨_, rfl⟩
  exact (hresult.bind _).bind _

theorem finalizeReveals_begins (hw : s.windowState p = some window)
    (hf : window.finalized = false) (hq : s.config.minOracles.toNat ≤ window.submissions.length) :
    BeginsWith (medians window.submissions) (s.finalizeReveals p o contract timestamp w) := by
  rw [finalizeReveals_eq hw hf hq, ← bind_pure_comp]
  exact finalizeDirect_begins.bind _

theorem execute_begins (h : medianInput o e s w c = some subs) :
    BeginsWith (medians subs) (execute o e s w c) := by
  cases c with
  | submitReading a q n reading =>
    obtain ⟨window, t, v, hx, hq, rfl⟩ := quorate_eq_some h
    have heq : s.submitReading o e a q n reading w =
        (fun y => (some y.1, y.2)) <$> t.finalizeDirect q o contract e.timestamp window v := by
      rw [submitReading_eq, hx]
      exact if_pos hq
    simp only [execute, heq, ← bind_pure_comp]
    exact (finalizeDirect_begins.bind _).bind _
  | revealReading a q params =>
    obtain ⟨window, t, v, hx, hq, rfl⟩ := quorate_eq_some h
    obtain ⟨window₀, -, -, -, hf, hw, -⟩ := pushReveal_cases hx
    have heq : s.revealReading o e a q params w =
        t.finalizeReveals q o contract e.timestamp v := by
      rw [revealReading_eq, hx]
      exact if_pos hq
    simp only [execute, heq]
    exact (finalizeReveals_begins hw hf hq).bind _
  | finalizeWindow q =>
    obtain ⟨window, t, v, hx, hq, rfl⟩ := quorate_eq_some h
    obtain ⟨-, hf, hw, -⟩ := closeReveals_cases hx
    have heq : s.finalizeWindow o e q w = t.finalizeReveals q o contract e.timestamp v := by
      rw [finalizeWindow_eq, hx]
      rfl
    simp only [execute, heq]
    exact (finalizeReveals_begins hw hf hq).bind _
  | _ => cases h

theorem validateSensorReading_avoids : Avoids MedianPanic (validateSensorReading reading) := by
  simp [validateSensorReading]

theorem addOpenProject_avoids : Avoids MedianPanic (s.addOpenProject p) := by
  unfold State.addOpenProject
  split <;> simp

theorem pushReading_avoids : Avoids MedianPanic (s.pushReading e oracle p nonce reading w) := by
  simp [State.pushReading, State.requireOracle, validateSensorReading_avoids,
    addOpenProject_avoids]

theorem pushReveal_avoids : Avoids MedianPanic (s.pushReveal o e oracle p params w) := by
  simp [State.pushReveal, State.requireOracle, State.requireNotPaused, State.expectWindow,
    validateSensorReading_avoids]

theorem closeReveals_avoids (ho : o.Quiet) : Avoids MedianPanic (s.closeReveals o e p w) := by
  simp [State.closeReveals, State.requireNotPaused, State.expectWindow,
    State.penalizeNonRevealers, penalizeLoop_avoids ho]

theorem quorate_of_ok {x : Result (WindowState × State × W)} (hx : x = .ok (window, t, v))
    (hq : t.config.minOracles.toNat ≤ window.submissions.length) :
    quorate x = some window.submissions := by
  rw [hx]
  exact if_pos hq

theorem execute_avoids (ho : o.Quiet)
    (h : ∀ subs, medianInput o e s w c = some subs → FitsBuffer subs.length) :
    Avoids MedianPanic (execute o e s w c) := by
  cases c with
  | submitReading a q n reading =>
    simp only [execute, discard, submitReading_eq]
    refine avoids_bind.mpr ⟨?_, fun _ _ => avoids_pure⟩
    refine avoids_bind.mpr ⟨pushReading_avoids, fun x hx => ?_⟩
    split
    · rename_i hq
      exact avoids_map.mpr (finalizeDirect_avoids ho (h _ (quorate_of_ok hx hq)))
    · exact avoids_pure
  | revealReading a q params =>
    simp only [execute, discard, revealReading_eq]
    refine avoids_bind.mpr ⟨?_, fun _ _ => avoids_pure⟩
    refine avoids_bind.mpr ⟨pushReveal_avoids, fun x hx => ?_⟩
    obtain ⟨window₀, -, -, -, -, hw, -⟩ := pushReveal_cases hx
    split
    · exact finalizeReveals_avoids ho hw fun hq => h _ (quorate_of_ok hx hq)
    · exact avoids_pure
  | finalizeWindow q =>
    simp only [execute, discard, finalizeWindow_eq]
    refine avoids_bind.mpr ⟨?_, fun _ _ => avoids_pure⟩
    refine avoids_bind.mpr ⟨closeReveals_avoids ho, fun x hx => ?_⟩
    obtain ⟨-, -, hw, -⟩ := closeReveals_cases hx
    exact finalizeReveals_avoids ho hw fun hq => h _ (quorate_of_ok hx hq)
  | openWindow =>
    simp [execute, within, State.openWindow, State.requireAdmin, addOpenProject_avoids]
  | stake =>
    simp [execute, State.stake, ho.transfer]
  | claimUnstake =>
    simp [execute, State.claimUnstake, ho.transfer]
  | slash =>
    simp [execute, State.slash, State.requireAdmin, ho.transfer]
  | _ =>
    simp [execute, within, initialise, State.transferAdmin, State.pause, State.unpause,
      State.setPauseGuardian, State.addOracle, State.removeOracle, State.setProjectConfig,
      State.updateConfig, State.resetWindow, State.unstake, State.commitReading,
      State.beginRevealPhase, State.requireAdmin, State.requirePauser, State.requireNotPaused,
      State.requireOracle, State.expectWindow]

end Input

/-- The window fits the buffer, and leaves room in it until it is finalized. -/
structure View.Room (v : View) : Prop where
  full : ∀ window, v.window = some window →
    window.submissions.length ≤ MAX_ORACLES_HARD_LIMIT.toNat
  free : ∀ window, v.window = some window → window.finalized = false →
    window.submissions.length < MAX_ORACLES_HARD_LIMIT.toNat

structure Room (s : State) : Prop where
  quorum : FitsBuffer s.config.minOracles.toNat
  window : ∀ p, (s.view p).Room

def Call.submits : Call → Bool
  | .submitReading .. | .revealReading .. => true
  | _ => false

theorem View.Room.of_stored {v : View} (hv : v.window = some window)
    (hfull : window.submissions.length ≤ MAX_ORACLES_HARD_LIMIT.toNat)
    (hfree : window.finalized = false →
      window.submissions.length < MAX_ORACLES_HARD_LIMIT.toNat) : v.Room where
  full window' hv' := by
    cases hv.symm.trans hv'
    exact hfull
  free window' hv' hf := by
    cases hv.symm.trans hv'
    exact hfree hf

/-- One more submission in an unfinalized window, which stays so below the quorum only. -/
theorem View.Room.push {v' : View} {sub : ReadingSubmission} {window' : WindowState} {n : ℕ}
    (hlt : window.submissions.length < MAX_ORACLES_HARD_LIMIT.toNat) (hn : FitsBuffer n)
    (hv : v'.window = some window') (hsub : window'.submissions = window.submissions ++ [sub])
    (hopen : window'.finalized = false → window.submissions.length + 1 < n) : v'.Room := by
  have hlen : window'.submissions.length = window.submissions.length + 1 := by
    rw [hsub, List.length_append]
    rfl
  refine .of_stored hv ?_ fun hf => ?_
  · rw [hlen]
    exact hlt
  · rw [hlen]
    exact (hopen hf).trans_le hn.2

theorem Move.room {v v' : View} (hm : Move o e s p v c v') (hc : c.submits = false) (h : v.Room) :
    v'.Room := by
  cases hm with
  | idle => exact h
  | openWindow | resetWindow =>
    have h0 : 0 < MAX_ORACLES_HARD_LIMIT.toNat := by decide
    exact .of_stored rfl h0.le fun _ => h0
  | commitReading => exact ⟨h.full, h.free⟩
  | @beginRevealPhase window hph =>
    exact .of_stored rfl (h.full window hph.stored) (h.free window hph.stored)
  | @finalizeWindow window closed hph =>
    cases closed with
    | false => exact ⟨h.full, h.free⟩
    | true => exact .of_stored rfl (h.full window hph.stored) fun hf => by cases hf
  | submitReading | revealReading => cases hc

theorem Room.quorum_step (hr : Room s) (h : execute o e s w c = .ok (s', w')) :
    FitsBuffer s'.config.minOracles.toNat := by
  rcases execute_reconfigures h with heq | ⟨admin, config, rfl, hu⟩
  · exact heq ▸ hr.quorum
  · obtain ⟨-, hpos, hle, hmax, -, -, rfl⟩ := updateConfig_cases hu
    have hpos : config.minOracles.toNat ≠ 0 := fun h0 => hpos (UInt32.toNat_inj.mp h0)
    exact ⟨Nat.one_le_iff_ne_zero.mpr hpos,
      (UInt32.le_iff_toNat_le.mp hle).trans (UInt32.le_iff_toNat_le.mp hmax)⟩

theorem Room.stored (hr : Room s) {window₀ : WindowState} (h0 : window₀.submissions = [])
    (hst : (s.windowState p).getD window₀ = window) (hf : window.finalized = false) :
    window.submissions.length < MAX_ORACLES_HARD_LIMIT.toNat := by
  cases hw : s.windowState p with
  | some window' =>
    rw [hw] at hst
    have hst : window' = window := hst
    exact (hr.window p).free window (hw.trans (congrArg some hst)) hf
  | none =>
    rw [hw] at hst
    have hst : window₀ = window := hst
    rw [← hst, h0]
    decide

theorem Room.step (hr : Room s) (h : execute o e s w c = .ok (s', w')) : Room s' := by
  refine ⟨hr.quorum_step h, fun p => ?_⟩
  cases c with
  | submitReading a q n reading =>
    obtain ⟨r, h⟩ := discard_eq_ok.mp h
    obtain ⟨-, -, -, window, closed, hst, hf, hopen, hwin, -⟩ := submitReading_cases h
    by_cases hq : p = q
    · subst hq
      have hv := (congrArg (·.view p) hwin).trans Windows.view_submit_self
      exact .push (hr.stored rfl hst hf) hr.quorum (congrArg View.window hv) rfl hopen
    · have hv : s'.view p = s.view p :=
        (congrArg (·.view p) hwin).trans (Windows.view_submit_of_ne hq)
      exact hv ▸ hr.window p
  | revealReading a q params =>
    obtain ⟨r, h⟩ := discard_eq_ok.mp h
    obtain ⟨-, -, -, -, window, closed, hw, hf, -, hopen, hwin, -⟩ := revealReading_cases h
    by_cases hq : p = q
    · subst hq
      have hv := (congrArg (·.view p) hwin).trans Windows.view_reveal_self
      have hlt := (hr.window p).free window hw hf
      cases closed with
      | false =>
        exact .push hlt hr.quorum (congrArg View.window hv) rfl fun _ => hopen rfl
      | true =>
        exact .push hlt hr.quorum (congrArg View.window hv) rfl fun hf => by cases hf
    · have hv : s'.view p = s.view p :=
        (congrArg (·.view p) hwin).trans (Windows.view_reveal_of_ne hq)
      exact hv ▸ hr.window p
  | _ => exact (execute_move p h).room rfl (hr.window p)

theorem Room.initial {admin stakingToken treasury : Address}
    (h : Oracle.initialise none admin stakingToken treasury = .ok s) : Room s := by
  obtain ⟨-, rfl⟩ := initialise_eq_ok.mp h
  have hquorum : FitsBuffer (3 : UInt32).toNat := ⟨by decide, by decide⟩
  refine ⟨hquorum, fun p => ⟨?_, ?_⟩⟩
  · rintro window hw
    cases hw
  · rintro window hw
    cases hw

theorem Room.input (hr : Room s) (h : medianInput o e s w c = some subs) :
    FitsBuffer subs.length := by
  have fits {window : WindowState} {t : State} (hc : t.config = s.config)
      (hq : t.config.minOracles.toNat ≤ window.submissions.length)
      (hle : window.submissions.length ≤ MAX_ORACLES_HARD_LIMIT.toNat) :
      FitsBuffer window.submissions.length :=
    ⟨hr.quorum.1.trans (hc ▸ hq), hle⟩
  cases c with
  | submitReading a q n reading =>
    obtain ⟨window, t, v, hx, hq, rfl⟩ := quorate_eq_some h
    obtain ⟨window₀, hst, hf, hsub, hc⟩ := pushReading_cases hx
    apply fits hc hq
    rw [hsub, List.length_append]
    exact hr.stored rfl hst hf
  | revealReading a q params =>
    obtain ⟨window, t, v, hx, hq, rfl⟩ := quorate_eq_some h
    obtain ⟨window₀, hw, hf, hsub, -, -, hc⟩ := pushReveal_cases hx
    apply fits hc hq
    rw [hsub, List.length_append]
    exact (hr.window q).free window₀ hw hf
  | finalizeWindow q =>
    obtain ⟨window, t, v, hx, hq, rfl⟩ := quorate_eq_some h
    obtain ⟨hw, -, -, hc⟩ := closeReveals_cases hx
    exact fits hc hq ((hr.window q).full window hw)
  | _ => cases h

/--
Windows fit the buffer, and so does every list whose median a call takes. No
call aborts in a median, unless a contract outside aborts with its message.
-/
structure MediansFit (contract : Address) (o : Outside W) (s : State) (w : W) : Prop where
  window : ∀ p window, s.windowState p = some window →
    window.submissions.length ≤ MAX_ORACLES_HARD_LIMIT.toNat
  input : ∀ (e : Env contract) c subs, medianInput o e s w c = some subs →
    BeginsWith (medians subs) (execute o e s w c) ∧
      ∀ values ∈ columns subs, 1 ≤ values.length ∧
        values.length ≤ MAX_ORACLES_HARD_LIMIT.toNat
  silent : o.Quiet → ∀ (e : Env contract) c x, execute o e s w c = .error x → ¬ MedianPanic x

theorem room_of_reach {G : Guard (State × W) (Event contract W)} {sw : State × W}
    (h : (machine contract o).Reach G sw) : Room sw.1 := by
  refine h.invariant (I := fun sw => Room sw.1) ?_ ?_
  · rintro sw ⟨admin, stakingToken, treasury, hs⟩
    exact .initial hs
  · rintro tr sw (⟨e, c⟩ | w') sw' hi - hs
    · exact hi.step hs
    · cases hs
      exact hi

/-- No state is reachable in which the median buffer overflows. -/
theorem medians_fit {sw : State × W} (h : (machine contract o).Reachable sw) :
    MediansFit contract o sw.1 sw.2 := by
  have hr := room_of_reach h
  refine ⟨fun p => (hr.window p).full, fun e c subs hi => ⟨execute_begins hi, ?_⟩, ?_⟩
  · intro values hv
    rw [length_of_mem_columns hv]
    exact hr.input hi
  · intro ho e c
    exact execute_avoids ho fun subs hi => hr.input hi

section Sample

def onceRevealed : State × Unit := (machine station offline).calls installed oneRevealed

def secondInput (e : Env station) : Option (List ReadingSubmission) :=
  medianInput offline e onceRevealed.1 () (.submitReading (.account 2) 7 1 clearWater)

theorem offline_quiet : offline.Quiet := by
  constructor <;> simp [offline, Avoids]

set_option maxRecDepth 2000 in
theorem medians_fit_second :
    (∃ subs, secondInput (.signed 300 0 (.account 2) account_ne_contract) = some subs ∧
      subs.length = 2) ∧ MediansFit station offline onceRevealed.1 () ∧ offline.Quiet := by
  have hlen : (secondInput (.signed 300 0 (.account 2) account_ne_contract)).map List.length =
    some 2 := by rfl
  have hr : (machine station offline).Reachable onceRevealed :=
    Machine.Reachable.calls ⟨_, .init installed_init⟩ _
  exact ⟨Option.map_eq_some_iff.mp hlen, medians_fit hr, offline_quiet⟩

end Sample

end WaterCredits.Oracle
