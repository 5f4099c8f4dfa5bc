import WaterCredits.Oracle.Calls

/-! # What the calls do to windows and results

The storage that belongs to windows, and the storage that belongs to results,
are two views of the state. Each call that touches them has an inversion lemma
that gives its checks and both views afterwards; the other calls keep both.
-/

namespace WaterCredits.Oracle

open Foundation Function

variable {contract : Address} {W : Type} {o : Outside W} {e : Env contract} {s s' t : State}
  {w w' : W} {projectId : ProjectId} {oracle : Address} {timestamp : UInt64}

/-- The storage that belongs to windows, and the whitelist that it refers to. -/
structure Windows where
  oracleList : List Address
  oracleActive : Address → Bool
  oracleNonce : ProjectId × Address → UInt64
  totalSubmissions : UInt64
  openProjects : List ProjectId
  windowState : ProjectId → Option WindowState
  commitment : ProjectId × Address → Option CommitInfo
  oracleSubmitted : ProjectId × Address → Bool
  oracleRevealed : ProjectId × Address → Bool

/-- The storage that belongs to results. -/
structure Results where
  lastResult : ProjectId → Option VerificationResult
  resultAt : ProjectId × UInt64 → Option VerificationResult
  resultSummaryAt : ProjectId × UInt64 → Option VerificationSummary
  resultCount : ProjectId → UInt64

namespace State

def windows (s : State) : Windows where
  oracleList := s.oracleList
  oracleActive := s.oracleActive
  oracleNonce := s.oracleNonce
  totalSubmissions := s.totalSubmissions
  openProjects := s.openProjects
  windowState := s.windowState
  commitment := s.commitment
  oracleSubmitted := s.oracleSubmitted
  oracleRevealed := s.oracleRevealed

def results (s : State) : Results where
  lastResult := s.lastResult
  resultAt := s.resultAt
  resultSummaryAt := s.resultSummaryAt
  resultCount := s.resultCount

/-- The settings that decide the result of a window. -/
def rules (s : State) : OracleConfig × (ProjectId → Option ProjectConfig) :=
  (s.config, s.projectConfig)

/-- The pause switch and the stakes, which no reading changes. -/
def rest (s : State) : Bool × (Address → StakeInfo) := (s.paused, s.oracleStake)

end State

instance lawfulBEq_projectId : LawfulBEq ProjectId := inferInstance

namespace Windows

variable (ws : Windows) (projectId : ProjectId)

/-- The end of the commit-reveal path. -/
def close (window : WindowState) : Windows :=
  { ws with
    windowState :=
      update ws.windowState projectId (some { window with phase := .finalized, finalized := true })
    openProjects := ws.openProjects.filter (· ≠ projectId)
    commitment := fun k => if k.1 = projectId ∧ k.2 ∈ ws.oracleList then none else ws.commitment k
    oracleRevealed := fun k =>
      if k.1 = projectId ∧ k.2 ∈ ws.oracleList then false else ws.oracleRevealed k }

def submit (window : WindowState) (sub : ReadingSubmission) (closed : Bool) : Windows :=
  let openProjects :=
    if projectId ∈ ws.openProjects then ws.openProjects else ws.openProjects ++ [projectId]
  { ws with
    oracleNonce := update ws.oracleNonce (projectId, sub.oracle) sub.nonce
    totalSubmissions := ws.totalSubmissions + 1
    openProjects := if closed = true then openProjects.filter (· ≠ projectId) else openProjects
    windowState := update ws.windowState projectId
      (some { window with submissions := window.submissions ++ [sub], finalized := closed })
    oracleSubmitted := update ws.oracleSubmitted (projectId, sub.oracle) true }

def reveal (window : WindowState) (sub : ReadingSubmission) (closed : Bool) : Windows :=
  let window := { window with submissions := window.submissions ++ [sub] }
  let revealed : Windows := { ws with
    totalSubmissions := ws.totalSubmissions + 1
    windowState := update ws.windowState projectId (some window)
    oracleRevealed := update ws.oracleRevealed (projectId, sub.oracle) true }
  if closed = true then revealed.close projectId window else revealed

def penalize : Windows :=
  { ws with
    commitment := fun k =>
      if k.1 = projectId ∧ k.2 ∈ ws.oracleList ∧ ws.oracleRevealed k = false then none
      else ws.commitment k }

end Windows

def Results.record (rs : Results) (projectId : ProjectId) (r : VerificationResult) : Results where
  lastResult := update rs.lastResult projectId (some r)
  resultAt := update rs.resultAt (projectId, rs.resultCount projectId) (some r)
  resultSummaryAt := update rs.resultSummaryAt (projectId, rs.resultCount projectId) (some {
    totalCredits := r.totalCredits
    creditsMinted := r.creditsMinted
    oracleCount := r.oracleCount
    finalizedAt := r.finalizedAt })
  resultCount := update rs.resultCount projectId (rs.resultCount projectId + 1)

section Record

variable {subs : List ReadingSubmission} {r : VerificationResult}

theorem contributions_frame : s.recordFinalizedContributions subs = { s with
    oracleSubmitCount := (s.recordFinalizedContributions subs).oracleSubmitCount
    oracleFinalizedCount := (s.recordFinalizedContributions subs).oracleFinalizedCount } := by
  unfold State.recordFinalizedContributions
  induction subs generalizing s with
  | nil => rfl
  | cons sub rest ih =>
    rw [List.foldl_cons, ih]
    rfl

theorem recordResult_frame : s.recordResult projectId r subs = { s with
    lastResult := (s.recordResult projectId r subs).lastResult
    resultAt := (s.recordResult projectId r subs).resultAt
    resultSummaryAt := (s.recordResult projectId r subs).resultSummaryAt
    resultCount := (s.recordResult projectId r subs).resultCount
    oracleSubmitCount := (s.recordResult projectId r subs).oracleSubmitCount
    oracleFinalizedCount := (s.recordResult projectId r subs).oracleFinalizedCount } := by
  unfold State.recordResult
  rw [contributions_frame]
  rfl

theorem recordResult_results :
    (s.recordResult projectId r subs).results = s.results.record projectId r := by
  unfold State.recordResult
  rw [contributions_frame]
  rfl

@[simp] theorem saveWindow_results {window : WindowState} :
    (s.saveWindow projectId window).results = s.results := rfl

@[simp] theorem removeOpenProject_results :
    (s.removeOpenProject projectId).results = s.results := rfl

@[simp] theorem clearMarkers_results {oracles : List Address} :
    (s.clearMarkers projectId oracles).results = s.results := rfl

end Record

/-- How a call leaves the results: as they were, or with the result of the window it closes. -/
inductive Outcome (o : Outside W) (contract : Address) (timestamp : UInt64) (s : State)
    (projectId : ProjectId) (subs : List ReadingSubmission) (w : W) (rs : Results) (w' : W) :
    Bool → Prop
  | pending (hr : rs = s.results) (hw : w' = w) :
      Outcome o contract timestamp s projectId subs w rs w' false
  | verified (r : VerificationResult) (hn : s.config.minOracles.toNat ≤ subs.length)
      (hv : s.verifyWindow projectId o contract timestamp subs w = .ok (r, w'))
      (hr : rs = s.results.record projectId r) :
      Outcome o contract timestamp s projectId subs w rs w' true

theorem computeResult_congr (h : t.rules = s.rules) {subs : List ReadingSubmission} :
    t.computeResult projectId timestamp subs = s.computeResult projectId timestamp subs := by
  simp only [State.rules, Prod.mk.injEq] at h
  unfold State.computeResult resolveBaselines
  rw [h.1, h.2]

theorem verifyWindow_congr (h : t.rules = s.rules) {subs : List ReadingSubmission} :
    t.verifyWindow projectId o contract timestamp subs w =
      s.verifyWindow projectId o contract timestamp subs w := by
  unfold State.verifyWindow
  rw [computeResult_congr h]
  simp only [State.rules, Prod.mk.injEq] at h
  unfold State.mintResult
  rw [h.1, h.2]

theorem verifyWindow_result {subs : List ReadingSubmission} {r : VerificationResult}
    (h : s.verifyWindow projectId o contract timestamp subs w = .ok (r, w')) :
    ∃ r₀, s.computeResult projectId timestamp subs = .ok r₀ ∧
      r = { r₀ with
        creditsMinted := r.creditsMinted
        protocolFeeMinted := r.protocolFeeMinted } := by
  simp only [State.verifyWindow, bind_eq_ok] at h
  obtain ⟨r₀, hr, h⟩ := h
  refine ⟨r₀, hr, ?_⟩
  unfold State.mintResult at h
  split at h
  · simp only [bind_eq_ok, pure_eq_ok, Prod.mk.injEq] at h
    obtain ⟨⟨net, fee, v⟩, -, rfl, -⟩ := h
    rfl
  · simp only [pure_eq_ok, Prod.mk.injEq] at h
    obtain ⟨rfl, -⟩ := h
    rfl

theorem addOpenProject_eq_ok :
    s.addOpenProject projectId = .ok t ↔
      (projectId ∉ s.openProjects → s.openProjects.length < s.config.maxOpenWindows.toNat) ∧
        t = { s with openProjects :=
          if projectId ∈ s.openProjects then s.openProjects
          else s.openProjects ++ [projectId] } := by
  unfold State.addOpenProject
  split
  · rename_i h
    simp [h, @eq_comm _ t]
  · rename_i h
    simp [h, @eq_comm _ t]

theorem finalizeReveals_cases {r : Option VerificationResult}
    (h : s.finalizeReveals projectId o contract timestamp w = .ok (r, s', w')) :
    ∃ window closed, s.windowState projectId = some window ∧
      (window.finalized = false → closed = false →
        window.submissions.length < s.config.minOracles.toNat) ∧
      (closed = true → window.finalized = false) ∧
      s'.windows = (if closed = true then s.windows.close projectId window else s.windows) ∧
      s'.rules = s.rules ∧ s'.rest = s.rest ∧
      Outcome o contract timestamp s projectId window.submissions w s'.results w' closed := by
  simp only [State.finalizeReveals, bind_eq_ok, State.expectWindow_eq_ok] at h
  obtain ⟨window, hw, h⟩ := h
  split at h
  · rename_i hf
    simp only [pure_eq_ok, Prod.mk.injEq] at h
    obtain ⟨-, rfl, rfl⟩ := h
    exact ⟨window, false, hw, fun hn => absurd (hn.symm.trans hf) (by simp), by simp, rfl, rfl, rfl,
      .pending rfl rfl⟩
  · rename_i hf
    split at h
    · rename_i hn
      simp only [pure_eq_ok, Prod.mk.injEq] at h
      obtain ⟨-, rfl, rfl⟩ := h
      exact ⟨window, false, hw, fun _ _ => hn, by simp, rfl, rfl, rfl, .pending rfl rfl⟩
    · rename_i hn
      simp only [bind_eq_ok, pure_eq_ok, Prod.mk.injEq] at h
      obtain ⟨⟨result, v⟩, hv, rfl, rfl, rfl⟩ := h
      refine ⟨window, true, hw, by simp, by simpa using hf, ?_, ?_, ?_,
        .verified result (not_lt.mp hn) hv ?_⟩
      · rw [recordResult_frame]; rfl
      · rw [recordResult_frame]; rfl
      · rw [recordResult_frame]; rfl
      · rw [clearMarkers_results, removeOpenProject_results, saveWindow_results,
          recordResult_results]

theorem finalizeDirect_cases {window : WindowState} {r : VerificationResult}
    (h : s.finalizeDirect projectId o contract timestamp window w = .ok (r, s', w')) :
    s'.windows = { s.windows with
        windowState := update s.windowState projectId (some { window with finalized := true })
        openProjects := s.openProjects.filter (· ≠ projectId) } ∧
      s'.rules = s.rules ∧ s'.rest = s.rest ∧ s'.results = s.results.record projectId r ∧
      s.verifyWindow projectId o contract timestamp window.submissions w = .ok (r, w') := by
  simp only [bind_eq_ok, pure_eq_ok, Prod.mk.injEq, State.finalizeDirect] at h
  obtain ⟨⟨result, v⟩, hv, rfl, rfl, rfl⟩ := h
  refine ⟨?_, ?_, ?_, ?_, hv⟩
  · rw [recordResult_frame]; rfl
  · rw [recordResult_frame]; rfl
  · rw [recordResult_frame]; rfl
  · rw [removeOpenProject_results, saveWindow_results, recordResult_results]

theorem submitReading_cases {nonce : UInt64} {reading : Reading} {r : Option VerificationResult}
    (h : s.submitReading o e oracle projectId nonce reading w = .ok (r, s', w')) :
    s.oracleActive oracle = true ∧ s.oracleSubmitted (projectId, oracle) = false ∧
      nonce = s.oracleNonce (projectId, oracle) + 1 ∧
      ∃ (window : WindowState) (closed : Bool),
        (s.windowState projectId).getD { phase := .reveal, openedAt := e.timestamp } = window ∧
        window.finalized = false ∧
        (closed = false → window.submissions.length + 1 < s.config.minOracles.toNat) ∧
        s'.windows = s.windows.submit projectId window
          { reading with oracle, nonce, timestamp := e.timestamp } closed ∧
        s'.rules = s.rules ∧ s'.rest = s.rest ∧
        Outcome o contract e.timestamp s projectId
          (window.submissions ++ [{ reading with oracle, nonce, timestamp := e.timestamp }])
          w s'.results w' closed := by
  simp only [State.submitReading, bind_eq_ok, ensure_eq_ok, State.requireOracle_eq_ok,
    Env.requireAuth_eq_ok, addOpenProject_eq_ok] at h
  obtain ⟨_, -, _, ⟨ha, -⟩, _, -, _, hn, _, hs, _, hf, t, ⟨-, ht⟩, h⟩ := h
  generalize hw : (s.windowState projectId).getD { phase := .reveal, openedAt := e.timestamp } =
    window at h hf
  refine ⟨ha, hs, hn, window, ?_⟩
  split at h
  · rename_i hq
    simp only [bind_eq_ok, pure_eq_ok, Prod.mk.injEq] at h
    obtain ⟨⟨result, u, v⟩, hd, -, rfl, rfl⟩ := h
    obtain ⟨hwin, hrul, hpau, hres, hv⟩ := finalizeDirect_cases hd
    subst ht
    refine ⟨true, rfl, hf, by simp, ?_, hrul, hpau, ?_⟩
    · rw [hwin]
      simp only [State.recordSubmission, State.windows, Windows.submit, update_idem, if_true]
      rfl
    · exact .verified result hq ((verifyWindow_congr rfl).symm.trans hv) hres
  · rename_i hq
    simp only [pure_eq_ok, Prod.mk.injEq] at h
    obtain ⟨-, rfl, rfl⟩ := h
    subst ht
    refine ⟨false, rfl, hf, fun _ => ?_, ?_, rfl, rfl, .pending rfl rfl⟩
    · rw [List.length_append] at hq
      exact not_le.mp hq
    · simp only [Windows.submit, hf]
      rfl

theorem revealReading_cases {params : RevealParams} {r : Option VerificationResult}
    (h : s.revealReading o e oracle projectId params w = .ok (r, s', w')) :
    s.paused = false ∧ s.oracleActive oracle = true ∧
      s.oracleRevealed (projectId, oracle) = false ∧
      s.commitment (projectId, oracle) = some ⟨sha256Commitment o params, params.nonce⟩ ∧
      ∃ (window : WindowState) (closed : Bool),
        s.windowState projectId = some window ∧ window.finalized = false ∧
        window.phase = .reveal ∧
        (closed = false → window.submissions.length + 1 < s.config.minOracles.toNat) ∧
        s'.windows = s.windows.reveal projectId window
          { params.toReading with oracle, nonce := params.nonce, timestamp := e.timestamp } closed ∧
        s'.rules = s.rules ∧ s'.rest = s.rest ∧
        Outcome o contract e.timestamp s projectId
          (window.submissions ++
            [{ params.toReading with oracle, nonce := params.nonce, timestamp := e.timestamp }])
          w s'.results w' closed := by
  simp only [State.revealReading, bind_eq_ok, ensure_eq_ok, State.requireOracle_eq_ok,
    State.requireNotPaused_eq_ok, State.expectWindow_eq_ok, orPanic_eq_ok] at h
  obtain ⟨_, -, _, hp, _, ⟨ha, -⟩, window, hw, _, hf, _, hph, _, -, _, -, info, hi, _, hnn, _, hrv,
    _, hash, _, -, h⟩ := h
  have hinfo : info = ⟨sha256Commitment o params, params.nonce⟩ := by
    cases info
    simp only at hash hnn
    rw [hash, hnn]
  refine ⟨hp, ha, hrv, hinfo ▸ hi, window, ?_⟩
  split at h
  · rename_i hq
    obtain ⟨window', closed, hw', hopen, -, hwin, hrul, hpau, hout⟩ := finalizeReveals_cases h
    simp only [State.recordReveal, update_self, Option.some.injEq] at hw'
    subst hw'
    have hc : closed = true := by
      by_contra hn
      exact absurd (hopen hf (by simpa using hn)) (not_lt.mpr hq)
    subst hc
    refine ⟨true, hw, hf, hph, by simp, ?_, hrul, hpau, ?_⟩
    · rw [hwin]
      rfl
    · rcases hout with _ | ⟨result, hn, hv, hr⟩
      exact .verified result hn ((verifyWindow_congr rfl).symm.trans hv) hr
  · rename_i hq
    simp only [pure_eq_ok, Prod.mk.injEq] at h
    obtain ⟨-, rfl, rfl⟩ := h
    refine ⟨false, hw, hf, hph, fun _ => ?_, rfl, rfl, rfl, .pending rfl rfl⟩
    rw [List.length_append] at hq
    exact not_le.mp hq

theorem slashMissed_frame (h : s.slashMissed o contract timestamp oracle w = .ok (s', w')) :
    s' = { s with oracleStake := s'.oracleStake, oracleSlashed := s'.oracleSlashed } := by
  simp only [State.slashMissed] at h
  split at h
  · simp only [bind_eq_ok] at h
    obtain ⟨amount, -, h⟩ := h
    split at h
    · simp only [bind_eq_ok, pure_eq_ok, Prod.mk.injEq] at h
      obtain ⟨v, -, rfl, -⟩ := h
      rfl
    · simp only [pure_eq_ok, Prod.mk.injEq] at h
      obtain ⟨rfl, -⟩ := h
      rfl
  · simp only [pure_eq_ok, Prod.mk.injEq] at h
    obtain ⟨rfl, -⟩ := h
    rfl

theorem penalizeLoop_frame {list : List Address}
    (h : State.penalizeLoop o contract timestamp projectId list s w = .ok (s', w')) :
    s' = { s with
      oracleStake := s'.oracleStake
      oracleSlashed := s'.oracleSlashed
      oracleMissedReveals := s'.oracleMissedReveals
      commitment := fun k =>
        if k.1 = projectId ∧ k.2 ∈ list ∧ s.oracleRevealed k = false then none
        else s.commitment k } := by
  induction list generalizing s w with
  | nil =>
    simp only [State.penalizeLoop, pure_eq_ok, Prod.mk.injEq] at h
    obtain ⟨rfl, -⟩ := h
    simp
  | cons a rest ih =>
    unfold State.penalizeLoop at h
    split at h
    · rename_i hc
      obtain ⟨-, hr⟩ := hc
      simp only [bind_eq_ok] at h
      obtain ⟨⟨u, v⟩, hu, h⟩ := h
      rw [ih h, slashMissed_frame hu]
      congr 1
      ext k
      obtain ⟨p, b⟩ := k
      by_cases hb : b = a
      · subst hb
        by_cases hp : p = projectId
        · subst hp; simp [hr]
        · simp [hp, update_of_ne]
      · simp [hb, update_of_ne]
    · rename_i hc
      rw [ih h]
      congr 1
      ext k
      obtain ⟨p, b⟩ := k
      by_cases hb : (p, b) = (projectId, a)
      · cases hb
        cases hr : s.oracleRevealed (projectId, a) with
        | true => simp
        | false =>
          have hn : s.commitment (projectId, a) = none := by simpa [hr] using hc
          simp [hn]
      · have hne : ¬ (p = projectId ∧ b = a) := fun hpb => hb (Prod.ext hpb.1 hpb.2)
        by_cases hp : p = projectId
        · have hba : b ≠ a := fun hba => hne ⟨hp, hba⟩
          simp [hba]
        · simp [hp]

theorem finalizeWindow_cases {r : Option VerificationResult}
    (h : s.finalizeWindow o e projectId w = .ok (r, s', w')) :
    s.paused = false ∧
      ∃ (window : WindowState) (closed : Bool) (t : State) (v : W),
        s.windowState projectId = some window ∧ window.finalized = false ∧
        window.phase = .reveal ∧
        s.penalizeNonRevealers o contract e.timestamp projectId w = .ok (t, v) ∧
        s'.windows = (if closed = true then (s.windows.penalize projectId).close projectId window
          else s.windows.penalize projectId) ∧
        s'.rules = s.rules ∧ s'.rest = (s.paused, t.oracleStake) ∧
        Outcome o contract e.timestamp s projectId window.submissions v s'.results w' closed := by
  simp only [State.finalizeWindow, bind_eq_ok, ensure_eq_ok, State.requireNotPaused_eq_ok,
    State.expectWindow_eq_ok] at h
  obtain ⟨_, hp, window, hw, _, hf, _, hph, _, -, ⟨t, v⟩, ht, h⟩ := h
  obtain ⟨window', closed, hw', -, -, hwin, hrul, hpau, hout⟩ := finalizeReveals_cases h
  have hpen := ht
  have ht := penalizeLoop_frame ht
  have htw : t.windows = s.windows.penalize projectId := by
    rw [ht]
    rfl
  have htr : t.rules = s.rules := by rw [ht]; rfl
  have hts : t.results = s.results := by rw [ht]; rfl
  have htp : t.rest = (s.paused, t.oracleStake) := by rw [ht]; rfl
  have htws : t.windowState = s.windowState := by rw [ht]
  have heq : window' = window := by
    rw [htws, hw] at hw'
    exact (Option.some.inj hw').symm
  subst heq
  refine ⟨hp, window', closed, t, v, hw, hf, hph, hpen, htw ▸ hwin, hrul.trans htr, hpau.trans htp,
    ?_⟩
  have hc : t.config = s.config := congrArg Prod.fst htr
  rcases hout with ⟨hr, hw⟩ | ⟨result, hn, hv, hr⟩
  · exact .pending (hr.trans hts) hw
  · exact .verified result (hc ▸ hn) ((verifyWindow_congr htr).symm.trans hv) (hts ▸ hr)

section Openers

variable {admin : Address}

theorem openWindow_cases (h : s.openWindow e admin projectId = .ok s') :
    (∀ window, s.windowState projectId = some window → window.finalized = true) ∧
      s' = { s with
        windowState := update s.windowState projectId (some (freshWindow e.timestamp))
        openProjects :=
          if projectId ∈ s.openProjects then s.openProjects
          else s.openProjects ++ [projectId] } := by
  simp only [State.openWindow, bind_eq_ok, ensure_eq_ok, addOpenProject_eq_ok] at h
  obtain ⟨_, -, _, hf, -, rfl⟩ := h
  exact ⟨fun window hw => hf window hw, rfl⟩

theorem resetWindow_cases (h : s.resetWindow e admin projectId = .ok s') :
    ∃ window, s.windowState projectId = some window ∧
      s'.windows = { s.windows with
        windowState := update s.windowState projectId (some (freshWindow e.timestamp))
        commitment := fun k =>
          if k.1 = projectId ∧ k.2 ∈ window.submissions.map (·.oracle) ++ s.oracleList then none
          else s.commitment k
        oracleRevealed := fun k =>
          if k.1 = projectId ∧ k.2 ∈ window.submissions.map (·.oracle) ++ s.oracleList then false
          else s.oracleRevealed k
        oracleSubmitted := fun k =>
          if k.1 = projectId ∧ k.2 ∈ window.submissions.map (·.oracle) ++ s.oracleList then false
          else s.oracleSubmitted k } ∧
      s'.results = s.results ∧ s'.rules = s.rules ∧ s'.rest = s.rest := by
  simp only [State.resetWindow, bind_eq_ok, orPanic_eq_ok, pure_eq_ok] at h
  obtain ⟨_, -, window, hw, rfl⟩ := h
  exact ⟨window, hw, rfl, rfl, rfl, rfl⟩

theorem addOracle_cases (h : s.addOracle e admin oracle = .ok s') :
    s.oracleActive oracle = false ∧ s.oracleCount < s.config.maxOracles ∧
      s' = { s with
        oracleActive := update s.oracleActive oracle true
        oracleCount := s.oracleCount + 1
        oracleList := s.oracleList ++ [oracle] } := by
  simp only [State.addOracle, bind_eq_ok, ensure_eq_ok, pure_eq_ok] at h
  obtain ⟨_, -, _, ha, _, hc, _, -, rfl⟩ := h
  exact ⟨ha, hc, rfl⟩

theorem removeOracle_cases (h : s.removeOracle e admin oracle = .ok s') :
    s.oracleHasOpenSubmissions oracle = false ∧
      s' = { s with
        oracleActive := update s.oracleActive oracle false
        oracleCount := s.oracleCount - 1
        oracleList := s.oracleList.filter (· ≠ oracle) } := by
  simp only [State.removeOracle, bind_eq_ok, ensure_eq_ok, pure_eq_ok] at h
  obtain ⟨_, -, _, -, _, -, _, -, _, ho, rfl⟩ := h
  exact ⟨ho, rfl⟩

theorem updateConfig_cases {config : OracleConfig} (h : s.updateConfig e admin config = .ok s') :
    ¬ (config.minSlashAmount < 0 ∨ config.maxSlashAmount < config.minSlashAmount) ∧
      config.minOracles ≠ 0 ∧ config.minOracles ≤ config.maxOracles ∧
      config.maxOracles ≤ MAX_ORACLES_HARD_LIMIT ∧ config.minOracles ≤ s.oracleCount ∧
      config.feeBps ≤ 10000 ∧ s' = { s with config } := by
  simp only [State.updateConfig, bind_eq_ok, pure_eq_ok, ensure_eq_ok] at h
  obtain ⟨_, -, _, -, _, hslash, _, -, _, hpos, _, hle, _, hmax, _, hmin, _, -, _, hfee, rfl⟩ := h
  exact ⟨hslash, hpos, hle, hmax, hmin, hfee, rfl⟩

theorem setProjectConfig_cases {config : ProjectConfig}
    (h : s.setProjectConfig e admin projectId config = .ok s') :
    s' = { s with projectConfig := update s.projectConfig projectId (some config) } := by
  simp only [State.setProjectConfig, bind_eq_ok, pure_eq_ok] at h
  obtain ⟨_, -, rfl⟩ := h
  rfl

end Openers

theorem commitReading_cases {nonce : UInt64} {commitment : BytesN 32}
    (h : s.commitReading e oracle projectId nonce commitment = .ok s') :
    s.paused = false ∧ s.oracleActive oracle = true ∧
      s.commitment (projectId, oracle) = none ∧
      nonce = s.oracleNonce (projectId, oracle) + 1 ∧
      (∃ window, s.windowState projectId = some window ∧ window.finalized = false ∧
        window.phase = .commit) ∧
      s' = { s with
        oracleNonce := update s.oracleNonce (projectId, oracle) nonce
        commitment := update s.commitment (projectId, oracle) (some { commitment, nonce }) } := by
  simp only [State.commitReading, bind_eq_ok, ensure_eq_ok, State.requireOracle_eq_ok,
    State.requireNotPaused_eq_ok, State.expectWindow_eq_ok, pure_eq_ok] at h
  obtain ⟨_, -, _, hp, _, ⟨ha, -⟩, _, hn, window, hw, _, hf, _, hph, _, hc, rfl⟩ := h
  exact ⟨hp, ha, hc, hn, ⟨window, hw, hf, hph⟩, rfl⟩

theorem beginRevealPhase_cases (h : s.beginRevealPhase e projectId = .ok s') :
    ∃ window, s.windowState projectId = some window ∧ window.finalized = false ∧
      window.phase = .commit ∧
      s' = s.saveWindow projectId
        { window with phase := .reveal, revealOpenedLedger := e.sequence } := by
  simp only [State.beginRevealPhase, bind_eq_ok, ensure_eq_ok, State.expectWindow_eq_ok,
    pure_eq_ok] at h
  obtain ⟨window, hw, _, hf, _, hph, _, -, _, -, rfl⟩ := h
  exact ⟨window, hw, hf, hph, rfl⟩

def Call.windowed : Call → Bool
  | .addOracle .. | .removeOracle .. | .submitReading .. | .resetWindow .. | .openWindow ..
  | .commitReading .. | .beginRevealPhase .. | .revealReading .. | .finalizeWindow .. => true
  | _ => false

/-- The calls that change what a result depends on. -/
def Call.configures : Call → Bool
  | .setProjectConfig .. | .updateConfig .. => true
  | _ => false

def Call.stakes : Call → Bool
  | .stake .. | .unstake .. | .claimUnstake .. | .slash .. | .finalizeWindow .. => true
  | _ => false

/-- What a call keeps that touches neither windows nor the whitelist. -/
structure Inert (c : Call) (s s' : State) (w w' : W) : Prop where
  windows : s'.windows = s.windows
  results : s'.results = s.results
  paused : s.paused = true → (∀ caller, c ≠ .unpause caller) → s'.paused = true
  rules : c.configures = false → s'.rules = s.rules
  stakes : c.stakes = false → s'.oracleStake = s.oracleStake ∧ w' = w

theorem execute_inert {c : Call} (hc : c.windowed = false)
    (h : execute o e s w c = .ok (s', w')) : Inert c s s' w w' := by
  cases c <;> simp only [Call.windowed, Bool.true_eq_false] at hc <;>
    simp only [execute, within_eq_ok, initialise, State.transferAdmin, State.pause, State.unpause,
      State.setPauseGuardian, State.setProjectConfig, State.updateConfig, State.stake,
      State.unstake,
      State.claimUnstake, State.slash, bind_eq_ok, pure_eq_ok, ensure_eq_ok, Prod.mk.injEq,
      Option.isNone_some, Bool.false_eq_true, false_and, exists_false] at h
  case pause =>
    obtain ⟨⟨_, -, rfl⟩, rfl⟩ := h
    exact ⟨rfl, rfl, fun _ _ => rfl, fun _ => rfl, fun _ => ⟨rfl, rfl⟩⟩
  case unpause caller =>
    obtain ⟨⟨_, -, rfl⟩, rfl⟩ := h
    exact ⟨rfl, rfl, fun _ hn => absurd rfl (hn caller), fun _ => rfl, fun _ => ⟨rfl, rfl⟩⟩
  case updateConfig =>
    obtain ⟨⟨_, -, _, -, _, -, _, -, _, -, _, -, _, -, _, -, _, -, _, -, rfl⟩, rfl⟩ := h
    exact ⟨rfl, rfl, fun hp _ => hp, fun hf => (by cases hf), fun _ => ⟨rfl, rfl⟩⟩
  case setProjectConfig =>
    obtain ⟨⟨_, -, rfl⟩, rfl⟩ := h
    exact ⟨rfl, rfl, fun hp _ => hp, fun hf => (by cases hf), fun _ => ⟨rfl, rfl⟩⟩
  case stake =>
    obtain ⟨_, -, _, -, v, -, rfl, -⟩ := h
    exact ⟨rfl, rfl, fun hp _ => hp, fun _ => rfl, fun hf => by cases hf⟩
  case unstake =>
    obtain ⟨⟨_, -, _, -, _, -, _, -, rfl⟩, -⟩ := h
    exact ⟨rfl, rfl, fun hp _ => hp, fun _ => rfl, fun hf => by cases hf⟩
  case claimUnstake =>
    obtain ⟨_, -, _, -, v, -, rfl, -⟩ := h
    exact ⟨rfl, rfl, fun hp _ => hp, fun _ => rfl, fun hf => by cases hf⟩
  case slash =>
    obtain ⟨_, -, _, -, _, -, v, -, rfl, -⟩ := h
    exact ⟨rfl, rfl, fun hp _ => hp, fun _ => rfl, fun hf => by cases hf⟩
  all_goals
    obtain ⟨⟨_, -, rfl⟩, rfl⟩ := h
    exact ⟨rfl, rfl, fun hp _ => hp, fun _ => rfl, fun _ => ⟨rfl, rfl⟩⟩

/-- The calls on windows and on the whitelist that take no reading and close no window. -/
def Call.stages : Call → Bool
  | .addOracle .. | .removeOracle .. | .openWindow .. | .resetWindow .. | .commitReading ..
  | .beginRevealPhase .. => true
  | _ => false

theorem execute_staged {c : Call} (hc : c.stages = true)
    (h : execute o e s w c = .ok (s', w')) :
    s'.results = s.results ∧ s'.rules = s.rules ∧ s'.rest = s.rest := by
  cases c <;> simp only [Call.stages, Bool.false_eq_true] at hc
  case addOracle =>
    obtain ⟨-, -, rfl⟩ := addOracle_cases (within_eq_ok.mp h).1
    exact ⟨rfl, rfl, rfl⟩
  case removeOracle =>
    obtain ⟨-, rfl⟩ := removeOracle_cases (within_eq_ok.mp h).1
    exact ⟨rfl, rfl, rfl⟩
  case openWindow =>
    obtain ⟨-, rfl⟩ := openWindow_cases (within_eq_ok.mp h).1
    exact ⟨rfl, rfl, rfl⟩
  case resetWindow =>
    obtain ⟨-, -, -, hframe⟩ := resetWindow_cases (within_eq_ok.mp h).1
    exact hframe
  case commitReading =>
    obtain ⟨-, -, -, -, -, rfl⟩ := commitReading_cases (within_eq_ok.mp h).1
    exact ⟨rfl, rfl, rfl⟩
  case beginRevealPhase =>
    obtain ⟨-, -, -, -, rfl⟩ := beginRevealPhase_cases (within_eq_ok.mp h).1
    exact ⟨rfl, rfl, rfl⟩

end WaterCredits.Oracle
