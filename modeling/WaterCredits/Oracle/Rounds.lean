import WaterCredits.Oracle.Robust
import WaterCredits.Oracle.Tally

/-! # A round of reveals

When as many oracles are about to reveal as the window still needs, and its
result can be computed and minted, then the reveals are accepted in any order
and the last one finalizes the window. The order decides the list of the
submissions and the time of the result, and nothing else.
-/

namespace WaterCredits.Oracle

open Foundation Function

variable {contract : Address} {W : Type} {o : Outside W} {s : State} {w w' : W} {p : ProjectId}
  {window : WindowState} {timestamp : UInt64} {subs subs' : List ReadingSubmission}
  {result : VerificationResult}

def WindowState.gather (window : WindowState) (subs : List ReadingSubmission) : WindowState :=
  { window with submissions := window.submissions ++ subs }

/-- The storage after a list of reveals, before any finalization. -/
def State.revealAll (s : State) (p : ProjectId) (window : WindowState)
    (subs : List ReadingSubmission) : State :=
  { s with
    totalSubmissions := s.totalSubmissions + .ofNat subs.length
    windowState := update s.windowState p (some (window.gather subs))
    oracleRevealed := fun k =>
      decide (k.1 = p ∧ k.2 ∈ subs.map (·.oracle)) || s.oracleRevealed k }

def State.completed (s : State) (p : ProjectId) (window : WindowState)
    (subs : List ReadingSubmission) (result : VerificationResult) : State :=
  ((((s.revealAll p window subs).recordResult p result (window.gather subs).submissions).saveWindow
    p { window.gather subs with phase := .finalized, finalized := true }).removeOpenProject
      p).clearMarkers p s.oracleList

section Gather

variable {sub : ReadingSubmission}

theorem gather_gather : (window.gather subs).gather subs' = window.gather (subs ++ subs') := by
  simp [WindowState.gather]

theorem recordReveal_eq :
    s.recordReveal p (window.gather [sub]) sub = s.revealAll p window [sub] := by
  have hrevealed : update s.oracleRevealed (p, sub.oracle) true = fun k =>
      decide (k.1 = p ∧ k.2 ∈ [sub].map (·.oracle)) || s.oracleRevealed k := by
    funext ⟨q, a⟩
    rw [update_apply]
    split
    · rename_i h
      obtain ⟨rfl, rfl⟩ := Prod.mk.inj h
      simp
    · rename_i h
      have hne : ¬ (q = p ∧ a = sub.oracle) := fun he => h (Prod.ext he.1 he.2)
      simp [hne]
  unfold State.recordReveal State.revealAll
  rw [hrevealed]
  rfl

theorem revealAll_nil (h : s.windowState p = some window) : s.revealAll p window [] = s := by
  have hwindow : update s.windowState p (some (window.gather [])) = s.windowState := by
    rw [WindowState.gather, List.append_nil, ← h, update_eq_self]
  unfold State.revealAll
  rw [hwindow]
  simp

theorem revealAll_revealAll : (s.revealAll p window subs).revealAll p (window.gather subs) subs' =
    s.revealAll p window (subs ++ subs') := by
  have hcount : s.totalSubmissions + .ofNat subs.length + .ofNat subs'.length =
      s.totalSubmissions + .ofNat (subs ++ subs').length := by
    rw [UInt64.add_assoc, List.length_append, UInt64.ofNat_add]
  unfold State.revealAll
  rw [hcount, gather_gather, update_idem]
  congr 1
  funext k
  simp only [List.map_append, List.mem_append, ← Bool.or_assoc]
  congr 1
  by_cases hk : k.1 = p <;> simp [hk, Bool.or_comm]

theorem completed_gather :
    (s.revealAll p window subs).completed p (window.gather subs) subs' result =
      s.completed p window (subs ++ subs') result := by
  unfold State.completed
  rw [revealAll_revealAll, gather_gather]
  rfl

end Gather

/-- The time of a finalization is written into its result and decides nothing else. -/
theorem verifyWindow_restamp (h : s.verifyWindow p o contract timestamp subs w = .ok (result, w'))
    (t : UInt64) :
    s.verifyWindow p o contract t subs w = .ok ({ result with finalizedAt := t }, w') := by
  simp only [State.verifyWindow, State.computeResult, bind_eq_ok, pure_eq_ok] at h ⊢
  obtain ⟨r, ⟨med, hmed, fin, hfin, rfl⟩, h⟩ := h
  refine ⟨_, ⟨med, hmed, fin, hfin, rfl⟩, ?_⟩
  unfold State.mintResult at h ⊢
  split at h
  · simp only [bind_eq_ok, pure_eq_ok] at h ⊢
    obtain ⟨x, hx, heq⟩ := h
    cases heq
    exact ⟨x, hx, rfl⟩
  · cases h
    rfl

/-- A reveal that an oracle is about to make. -/
structure Reveal (contract : Address) where
  e : Env contract
  oracle : Address
  params : RevealParams

namespace Reveal

def sub (r : Reveal contract) : ReadingSubmission :=
  { r.params.toReading with
    oracle := r.oracle
    nonce := r.params.nonce
    timestamp := r.e.timestamp }

def event (p : ProjectId) (r : Reveal contract) : Event contract W :=
  .call r.e (.revealReading r.oracle p r.params)

end Reveal

/-- What a reveal is checked for, apart from the window and the pause switch. -/
structure Ready (o : Outside W) (s : State) (p : ProjectId) (window : WindowState)
    (r : Reveal contract) : Prop where
  auth : r.e.auth r.oracle = true
  oracle : s.requireOracle r.oracle = .ok ()
  opened : window.revealOpenedLedger + s.config.minRevealLedgers ≤ r.e.sequence
  inTime : r.e.sequence ≤ window.revealOpenedLedger + s.config.maxRevealLedgers
  committed :
    s.commitment (p, r.oracle) = some ⟨sha256Commitment o r.params, r.params.nonce⟩
  fresh : s.oracleRevealed (p, r.oracle) = false
  valid : validateSensorReading r.params.toReading = .ok ()

structure Awaits (o : Outside W) (s : State) (p : ProjectId) (window : WindowState)
    (rs : List (Reveal contract)) : Prop where
  unpaused : s.paused = false
  stored : s.windowState p = some window
  running : window.finalized = false
  revealing : window.phase = .reveal
  ready : ∀ r ∈ rs, Ready o s p window r
  distinct : (rs.map (·.oracle)).Nodup

section Steps

variable {r : Reveal contract} {rs rs' : List (Reveal contract)}

theorem Awaits.perm (h : Awaits o s p window rs) (hp : rs'.Perm rs) : Awaits o s p window rs' where
  unpaused := h.unpaused
  stored := h.stored
  running := h.running
  revealing := h.revealing
  ready r hr := h.ready r (hp.mem_iff.mp hr)
  distinct := (hp.map _).nodup_iff.mpr h.distinct

theorem Awaits.first (h : Awaits o s p window (rs ++ rs')) : Awaits o s p window rs where
  unpaused := h.unpaused
  stored := h.stored
  running := h.running
  revealing := h.revealing
  ready r hr := h.ready r (List.mem_append_left _ hr)
  distinct := (List.nodup_append.mp (List.map_append ▸ h.distinct)).1

theorem Awaits.gather (h : Awaits o s p window (rs ++ rs')) :
    Awaits o (s.revealAll p window (rs.map (·.sub))) p (window.gather (rs.map (·.sub))) rs' := by
  obtain ⟨-, hrs', hdisjoint⟩ := List.nodup_append.mp (List.map_append ▸ h.distinct)
  refine ⟨h.unpaused, update_self .., h.running, h.revealing, fun r hr => ?_, hrs'⟩
  have hready := h.ready r (List.mem_append_right _ hr)
  refine ⟨hready.auth, hready.oracle, hready.opened, hready.inTime, hready.committed, ?_,
    hready.valid⟩
  have hnew : r.oracle ∉ (rs.map (·.sub)).map (·.oracle) := by
    intro hmem
    have hmem : r.oracle ∈ rs.map (·.oracle) := by simpa [Reveal.sub] using hmem
    exact hdisjoint _ hmem _ (List.mem_map_of_mem hr) rfl
  simp only [State.revealAll, hready.fresh, hnew, and_false, decide_false, Bool.or_false]

/-- What is left to decide of a reveal is whether it completes the quorum. -/
theorem revealReading_ready (h : Awaits o s p window [r])
    {x : Option VerificationResult × State × W}
    (hx : (if s.config.minOracles.toNat ≤ (window.gather [r.sub]).submissions.length then
        (s.revealAll p window [r.sub]).finalizeReveals p o contract r.e.timestamp w
      else .ok (none, s.revealAll p window [r.sub], w)) = .ok x) :
    s.revealReading o r.e r.oracle p r.params w = .ok x := by
  have hr := h.ready r List.mem_cons_self
  rw [← recordReveal_eq] at hx
  simp only [State.revealReading, bind_eq_ok, Env.requireAuth_eq_ok, State.requireNotPaused_eq_ok,
    State.expectWindow_eq_ok, orPanic_eq_ok, ensure_eq_ok]
  exact ⟨(), hr.auth, (), h.unpaused, (), hr.oracle, window, h.stored, (), h.running, (),
    h.revealing, (), hr.opened, (), hr.inTime, _, hr.committed, (), rfl, (), hr.fresh, (), rfl, (),
    hr.valid, hx⟩

theorem reveal_early (h : Awaits o s p window [r])
    (hn : window.submissions.length + 1 < s.config.minOracles.toNat) :
    (machine contract o).step (r.event p) (s, w) = .ok (s.revealAll p window [r.sub], w) := by
  have hshort : ¬ s.config.minOracles.toNat ≤ (window.gather [r.sub]).submissions.length := by
    simp only [WindowState.gather, List.length_append, List.length_singleton]
    omega
  exact discard_eq_ok.mpr ⟨none, revealReading_ready h (if_neg hshort)⟩

theorem reveal_last (h : Awaits o s p window [r])
    (hn : window.submissions.length + 1 = s.config.minOracles.toNat)
    (hv : s.verifyWindow p o contract r.e.timestamp (window.gather [r.sub]).submissions w =
      .ok (result, w')) :
    (machine contract o).step (r.event p) (s, w) =
      .ok (s.completed p window [r.sub] result, w') := by
  have hquorum : s.config.minOracles.toNat ≤ (window.gather [r.sub]).submissions.length := by
    simp only [WindowState.gather, List.length_append, List.length_singleton]
    omega
  refine discard_eq_ok.mpr ⟨some result, revealReading_ready h ((if_pos hquorum).trans ?_)⟩
  have hstored : (s.revealAll p window [r.sub]).expectWindow p = .ok (window.gather [r.sub]) :=
    State.expectWindow_eq_ok.mpr (update_self ..)
  have hrunning : ¬ (window.gather [r.sub]).finalized = true := by
    simp [WindowState.gather, h.running]
  have hv' : (s.revealAll p window [r.sub]).verifyWindow p o contract r.e.timestamp
      (window.gather [r.sub]).submissions w = .ok (result, w') := (verifyWindow_congr rfl).trans hv
  have hlist : ((s.revealAll p window [r.sub]).recordResult p result
      (window.gather [r.sub]).submissions).oracleList = s.oracleList := by
    rw [recordResult_frame]
    rfl
  refine bind_eq_ok.mpr ⟨_, hstored, (if_neg hrunning).trans
    ((if_neg (not_lt.mpr hquorum)).trans (bind_eq_ok.mpr ⟨_, hv', ?_⟩))⟩
  unfold State.completed
  rw [← hlist]
  rfl

theorem reveals_early {sw₀ : State × W} {tr : Trace (State × W) (Event contract W)}
    (h : Awaits o s p window rs)
    (hn : window.submissions.length + rs.length < s.config.minOracles.toNat)
    (hrun : ((machine contract o).startedIn sw₀).Run Machine.anyCall tr (s, w)) :
    ∃ tr', ((machine contract o).startedIn sw₀).Run Machine.anyCall tr'
        (s.revealAll p window (rs.map (·.sub)), w) ∧
      tr'.map (·.label) = (rs.map (·.event p)).reverse ++ tr.map (·.label) := by
  induction rs generalizing s window tr with
  | nil =>
    have hsame : s.revealAll p window [] = s := revealAll_nil h.stored
    exact ⟨tr, by rwa [List.map_nil, hsame], rfl⟩
  | cons r rs ih =>
    have hfirst : Awaits o s p window [r] := Awaits.first h
    have hlength : (window.gather [r.sub]).submissions.length = window.submissions.length + 1 := by
      simp [WindowState.gather]
    rw [List.length_cons] at hn
    have hstep : ((machine contract o).startedIn sw₀).step (r.event p) (s, w) =
      .ok (s.revealAll p window [r.sub], w) := reveal_early hfirst (by omega)
    have hboth : Awaits o s p window ([r] ++ rs) := h
    obtain ⟨tr', hrun', hlabels⟩ := ih hboth.gather
      (by rw [List.map_singleton, hlength]; exact lt_of_eq_of_lt (by omega) hn)
      (hrun.step trivial hstep)
    refine ⟨tr', ?_, ?_⟩
    · rwa [List.map_singleton, revealAll_revealAll] at hrun'
    · simp [hlabels]

end Steps

theorem recordResult_eq : s.recordResult p result subs = { s with
    lastResult := (s.results.record p result).lastResult
    resultAt := (s.results.record p result).resultAt
    resultSummaryAt := (s.results.record p result).resultSummaryAt
    resultCount := (s.results.record p result).resultCount
    oracleSubmitCount := credited (subs.map (·.oracle)) s.oracleSubmitCount
    oracleFinalizedCount := credited (subs.map (·.oracle)) s.oracleFinalizedCount } := by
  have htally : (s.recordResult p result subs).tally = s.tally.record p result subs :=
    tally_recordResult
  rw [recordResult_frame]
  simp only [State.tally, Tally.record, Tally.mk.injEq] at htally
  obtain ⟨hresults, hsubmit, hfinalized, -⟩ := htally
  rw [hsubmit, hfinalized, ← hresults]
  rfl

theorem completed_eq : s.completed p window subs result = { s with
    totalSubmissions := s.totalSubmissions + .ofNat subs.length
    lastResult := (s.results.record p result).lastResult
    resultAt := (s.results.record p result).resultAt
    resultSummaryAt := (s.results.record p result).resultSummaryAt
    resultCount := update s.resultCount p (s.resultCount p + 1)
    oracleSubmitCount :=
      credited ((window.submissions ++ subs).map (·.oracle)) s.oracleSubmitCount
    oracleFinalizedCount :=
      credited ((window.submissions ++ subs).map (·.oracle)) s.oracleFinalizedCount
    openProjects := s.openProjects.filter (· ≠ p)
    windowState := update s.windowState p
      (some { window.gather subs with phase := .finalized, finalized := true })
    commitment := fun k => if k.1 = p ∧ k.2 ∈ s.oracleList then none else s.commitment k
    oracleRevealed := fun k => if k.1 = p ∧ k.2 ∈ s.oracleList then false
      else decide (k.1 = p ∧ k.2 ∈ subs.map (·.oracle)) || s.oracleRevealed k } := by
  have hwindow : update s.windowState p
      (some { window.gather subs with phase := .finalized, finalized := true }) =
      update (s.revealAll p window subs).windowState p
        (some { window.gather subs with phase := .finalized, finalized := true }) :=
    (update_idem ..).symm
  rw [hwindow]
  unfold State.completed
  rw [recordResult_eq]
  rfl

theorem completed_perm {result' : VerificationResult} (h : subs'.Perm subs) :
    s.completed p window subs' result' = { s.completed p window subs result with
      lastResult := (s.results.record p result').lastResult
      resultAt := (s.results.record p result').resultAt
      resultSummaryAt := (s.results.record p result').resultSummaryAt
      windowState := update s.windowState p
        (some { window.gather subs' with phase := .finalized, finalized := true }) } := by
  have hperm : ((window.submissions ++ subs').map (·.oracle)).Perm
    ((window.submissions ++ subs).map (·.oracle)) := (h.append_left _).map _
  have hcredited (counts : Address → UInt64) :
      credited ((window.submissions ++ subs').map (·.oracle)) counts =
        credited ((window.submissions ++ subs).map (·.oracle)) counts := by
    funext a
    rw [credited_apply, credited_apply, hperm.count_eq]
  have hrevealed (k : ProjectId × Address) :
      decide (k.1 = p ∧ k.2 ∈ subs'.map (·.oracle)) =
        decide (k.1 = p ∧ k.2 ∈ subs.map (·.oracle)) := by
    simp only [(h.map _).mem_iff]
  simp only [completed_eq, hcredited, hrevealed, h.length_eq]

/--
The reveals of a list, made one after the other, are all accepted and finalize
the window with the given result, up to its time; nothing else depends on their
order.
-/
structure Completes (o : Outside W) (contract : Address) (s : State) (w : W) (p : ProjectId)
    (window : WindowState) (rs : List (Reveal contract)) (result : VerificationResult) (w' : W)
    (rs' : List (Reveal contract)) : Prop where
  accepted : ∃ first last tr, rs' = first ++ [last] ∧
    ((machine contract o).startedIn (s, w)).Run Machine.anyCall tr
      (s.completed p window (rs'.map (·.sub)) { result with finalizedAt := last.e.timestamp },
        w') ∧
    tr.map (·.label) = (rs'.map (·.event p)).reverse
  alike : ∀ result', s.completed p window (rs'.map (·.sub)) result' =
    { s.completed p window (rs.map (·.sub)) result with
      lastResult := update s.lastResult p (some result')
      resultAt := (s.results.record p result').resultAt
      resultSummaryAt := (s.results.record p result').resultSummaryAt
      windowState := update s.windowState p (some { window with
        phase := .finalized
        finalized := true
        submissions := window.submissions ++ rs'.map (·.sub) }) }

/--
As soon as enough oracles are ready to reveal, and the readings have a result
that can be minted, the reveals complete the window in whatever order they are
made.
-/
theorem round_completes {rs rs' : List (Reveal contract)} (h : Awaits o s p window rs)
    (hne : rs ≠ [])
    (hn : window.submissions.length + rs.length = s.config.minOracles.toNat)
    (hv : s.verifyWindow p o contract timestamp (window.submissions ++ rs.map (·.sub)) w =
      .ok (result, w')) (hp : rs'.Perm rs) :
    Completes o contract s w p window rs result w' rs' := by
  refine ⟨?_, fun result' => completed_perm (hp.map _)⟩
  have hawaits := h.perm hp
  rw [← hp.length_eq] at hn
  have hv' (t : UInt64) : s.verifyWindow p o contract t (window.submissions ++ rs'.map (·.sub)) w =
      .ok ({ result with finalizedAt := t }, w') := by
    rw [verifyWindow_perm ((hp.map _).append_left _)]
    exact verifyWindow_restamp hv t
  obtain rfl | ⟨first, last, rfl⟩ := List.eq_nil_or_concat' rs'
  · exact absurd hp.nil_eq.symm hne
  rw [List.length_append, List.length_singleton] at hn
  have hstart := Machine.Run.init (m := (machine contract o).startedIn (s, w))
    (G := Machine.anyCall) rfl
  obtain ⟨tr, hrun, hlabels⟩ := reveals_early hawaits.first (by omega) hstart
  have hlast : Awaits o (s.revealAll p window (first.map (·.sub))) p
    (window.gather (first.map (·.sub))) [last] := hawaits.gather
  have hlength : (window.gather (first.map (·.sub))).submissions.length =
      window.submissions.length + first.length := by simp [WindowState.gather]
  have hverified : (s.revealAll p window (first.map (·.sub))).verifyWindow p o contract
      last.e.timestamp ((window.gather (first.map (·.sub))).gather [last.sub]).submissions w =
        .ok ({ result with finalizedAt := last.e.timestamp }, w') := by
    have hgather : ((window.gather (first.map (·.sub))).gather [last.sub]).submissions =
        window.submissions ++ (first ++ [last]).map (·.sub) := by simp [WindowState.gather]
    rw [hgather, verifyWindow_congr rfl]
    exact hv' _
  have hstep : ((machine contract o).startedIn (s, w)).step (last.event p)
      (s.revealAll p window (first.map (·.sub)), w) =
        .ok ((s.revealAll p window (first.map (·.sub))).completed p
          (window.gather (first.map (·.sub))) [last.sub]
          { result with finalizedAt := last.e.timestamp }, w') :=
    reveal_last hlast (by rw [hlength]; exact hn) hverified
  have hsubs : (first ++ [last]).map (·.sub) = first.map (·.sub) ++ [last.sub] := by simp
  rw [completed_gather, ← hsubs] at hstep
  exact ⟨first, last, _, rfl, hrun.step trivial hstep, by simp [hlabels]⟩

section Sample

def awaited : State × Unit :=
  (machine station offline).calls installed
    [calledAt 0 0 (.addOracle (.account 0) (.account 1)),
      calledAt 0 0 (.addOracle (.account 0) (.account 2)),
      calledAt 0 0 (.updateConfig (.account 0) { installed.1.config with minOracles := 2 }),
      calledAt 0 0 (.openWindow (.account 0) 7),
      calledAt 0 1 (.commitReading (.account 1) 7 1 0),
      calledAt 0 2 (.commitReading (.account 2) 7 1 0),
      calledAt 300 9 (.beginRevealPhase 7)]

def revealAt (timestamp : UInt64) (key : BytesN 32)
    (h : Address.account key ≠ station := by simp) : Reveal station where
  e := .signed timestamp 0 (.account key) h
  oracle := .account key
  params := { clearWater with nonce := 1, salt := 0 }

def awaitedWindow : WindowState := { phase := .reveal, openedAt := 0 }

theorem revealAt_ready (timestamp : UInt64) {key : BytesN 32} (h : key = 1 ∨ key = 2) :
    Ready offline awaited.1 7 awaitedWindow (revealAt timestamp key) where
  auth := by simp [revealAt, Env.signed]
  oracle := by rcases h with rfl | rfl <;> rfl
  opened := (by decide : (0 : UInt32) + 0 ≤ 0)
  inTime := (by decide : (0 : UInt32) ≤ 0 + 60)
  committed := by rcases h with rfl | rfl <;> rfl
  fresh := by rcases h with rfl | rfl <;> rfl
  valid := by rfl

/-- The account `2` reveals first, although it is listed last. -/
theorem round_completes_backwards : (machine station offline).Reachable awaited ∧ ∃ result,
    Completes offline station awaited.1 () 7 awaitedWindow [revealAt 300 1, revealAt 310 2]
      result () [revealAt 310 2, revealAt 300 1] := by
  have hawaits : Awaits offline awaited.1 7 awaitedWindow
      [revealAt 300 1, revealAt 310 2] := by
    refine ⟨by rfl, by rfl, rfl, rfl, ?_, by simp [revealAt]⟩
    simp only [List.forall_mem_cons]
    exact ⟨revealAt_ready 300 (.inl rfl), revealAt_ready 310 (.inr rfl), by simp⟩
  have hverified : ((awaited.1.verifyWindow 7 offline station 0
      (awaitedWindow.submissions ++ [revealAt 300 1, revealAt 310 2].map (·.sub))
        ()).isOk) = true := by rfl
  obtain ⟨⟨result, ⟨⟩⟩, hv⟩ := Foundation.exists_of_isOk hverified
  exact ⟨Machine.Reachable.calls ⟨_, .init installed_init⟩ _, result,
    round_completes hawaits (by simp) (by rfl) hv (.swap ..)⟩

end Sample

end WaterCredits.Oracle
