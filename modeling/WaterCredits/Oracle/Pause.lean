import WaterCredits.Oracle.Dedup

/-! # Calls on a paused oracle

Commits, reveals and explicit finalizations check the pause switch. Direct
readings and the start of a reveal phase do not, so a paused oracle is idle
exactly as long as neither of these is accepted.
-/

namespace WaterCredits.Oracle

open Foundation Function

variable {contract : Address} {W : Type} {o : Outside W} {e : Env contract} {s s' : State}
  {w w' : W} {c : Call}

def Call.reports : Call → Bool
  | .submitReading .. | .commitReading .. | .revealReading .. => true
  | _ => false

/-- The calls that act on windows and do not check the pause switch. -/
def Event.unguarded : Event contract W → Bool
  | .call _ (.submitReading ..) | .call _ (.beginRevealPhase ..) => true
  | _ => false

def noUnpause : Guard (State × W) (Event contract W) := fun _ _ ev =>
  match ev with
  | .call _ (.unpause _) => False
  | _ => True

def Outside.mintless (o : Outside W) : Outside W :=
  { o with mintTo := fun _ _ _ _ _ => .error .invokeFailed }

/--
A step of a paused oracle: no reading and no commitment is accepted, every
window stays as it was or is a fresh one, no nonce or result changes, and the
step mints nothing.
-/
structure Idle (o : Outside W) (st : Step (State × W) (Event contract W)) : Prop where
  accepts : ∀ e c, st.label = .call e c → c.reports = false
  windows : ∀ p window, st.after.1.windowState p = some window →
    st.before.1.windowState p = some window ∨ ∃ timestamp, window = freshWindow timestamp
  nonces : st.after.1.oracleNonce = st.before.1.oracleNonce
  counted : st.after.1.totalSubmissions = st.before.1.totalSubmissions
  results : st.after.1.results = st.before.1.results
  mints : step o.mintless st.label st.before = .ok st.after

def Call.closes : Call → Bool
  | .submitReading .. | .revealReading .. | .finalizeWindow .. => true
  | _ => false

theorem execute_mintless (hc : c.closes = false) :
    execute o.mintless e s w c = execute o e s w c := by
  cases c with
  | submitReading | revealReading | finalizeWindow => cases hc
  | _ => rfl

/-- The calls that check the pause switch. -/
def Call.guarded : Call → Bool
  | .commitReading .. | .revealReading .. | .finalizeWindow .. => true
  | _ => false

theorem execute_guarded (hc : c.guarded = true) (h : execute o e s w c = .ok (s', w')) :
    s.paused = false := by
  cases c <;> simp only [Call.guarded, Bool.false_eq_true] at hc
  case commitReading => exact (commitReading_cases (within_eq_ok.mp h).1).1
  case revealReading =>
    obtain ⟨r, h⟩ := discard_eq_ok.mp h
    exact (revealReading_cases h).1
  case finalizeWindow =>
    obtain ⟨r, h⟩ := discard_eq_ok.mp h
    exact (finalizeWindow_cases h).1

/-- A pause lasts until `unpause`. -/
theorem execute_paused (hp : s.paused = true) (hc : ∀ caller, c ≠ .unpause caller)
    (h : execute o e s w c = .ok (s', w')) : s'.paused = true := by
  cases c with
  | submitReading =>
    obtain ⟨r, h⟩ := discard_eq_ok.mp h
    obtain ⟨-, -, -, -, -, -, -, -, -, -, h, -⟩ := submitReading_cases h
    exact (congrArg Prod.fst h).trans hp
  | commitReading | revealReading | finalizeWindow =>
    cases hp.symm.trans (execute_guarded rfl h)
  | openWindow | resetWindow | beginRevealPhase | addOracle | removeOracle =>
    exact (congrArg Prod.fst (execute_staged rfl h).2.2).trans hp
  | _ => exact (execute_inert rfl h).paused hp hc

theorem windowState_update {f : ProjectId → Option WindowState} {p q : ProjectId}
    {timestamp : UInt64} {window : WindowState}
    (h : update f q (some (freshWindow timestamp)) p = some window) :
    f p = some window ∨ ∃ timestamp, window = freshWindow timestamp := by
  rw [update_apply] at h
  split at h
  · exact .inr ⟨_, (Option.some.inj h).symm⟩
  · exact .inl h

theorem execute_idle (hp : s.paused = true)
    (hc : Event.unguarded (.call e c : Event contract W) = false)
    (h : execute o e s w c = .ok (s', w')) :
    Idle o ⟨(s, w), .call e c, (s', w')⟩ := by
  have hidle (hcl : c.closes = false) (hrep : c.reports = false)
      (hwin : ∀ p window, s'.windowState p = some window →
        s.windowState p = some window ∨ ∃ timestamp, window = freshWindow timestamp)
      (hn : s'.oracleNonce = s.oracleNonce) (ht : s'.totalSubmissions = s.totalSubmissions)
      (hr : s'.results = s.results) : Idle o ⟨(s, w), .call e c, (s', w')⟩ :=
    ⟨fun e' c' he => by cases he; exact hrep, hwin, hn, ht, hr,
      (execute_mintless hcl).trans h⟩
  cases c with
  | submitReading => cases hc
  | beginRevealPhase => cases hc
  | commitReading | revealReading | finalizeWindow =>
    cases hp.symm.trans (execute_guarded rfl h)
  | openWindow admin q =>
    obtain ⟨-, rfl⟩ := openWindow_cases (within_eq_ok.mp h).1
    exact hidle rfl rfl (fun p window hw => windowState_update hw) rfl rfl rfl
  | resetWindow admin q =>
    obtain ⟨_, -, hwin, hr, -, -⟩ := resetWindow_cases (within_eq_ok.mp h).1
    refine hidle rfl rfl (fun p window hw => ?_) (congrArg Windows.oracleNonce hwin)
      (congrArg Windows.totalSubmissions hwin) hr
    have hws := congrArg (·.windowState p) hwin
    exact windowState_update (hws.symm.trans hw)
  | addOracle =>
    obtain ⟨-, -, rfl⟩ := addOracle_cases (within_eq_ok.mp h).1
    exact hidle rfl rfl (fun p window hw => .inl hw) rfl rfl rfl
  | removeOracle =>
    obtain ⟨-, rfl⟩ := removeOracle_cases (within_eq_ok.mp h).1
    exact hidle rfl rfl (fun p window hw => .inl hw) rfl rfl rfl
  | _ =>
    obtain ⟨hwin, hr, -, -, -⟩ := execute_inert rfl h
    have hws : s'.windowState = s.windowState := congrArg Windows.windowState hwin
    exact hidle rfl rfl (fun p window hw => .inl (hws ▸ hw)) (congrArg Windows.oracleNonce hwin)
      (congrArg Windows.totalSubmissions hwin) hr

/-- An unguarded call is never idle. -/
theorem not_idle_of_unguarded {ev : Event contract W} (hs : step o ev (s, w) = .ok (s', w'))
    (hu : ev.unguarded = true) : ¬ Idle o ⟨(s, w), ev, (s', w')⟩ := by
  intro hi
  unfold Event.unguarded at hu
  split at hu
  · exact absurd (hi.accepts _ _ rfl) (by simp [Call.reports])
  · obtain ⟨window, hw, -, hph, rfl⟩ := beginRevealPhase_cases (within_eq_ok.mp hs).1
    rcases hi.windows _ _ (update_self ..) with h | ⟨timestamp, h⟩
    · have heq := congrArg WindowState.phase (Option.some.inj (hw.symm.trans h))
      exact absurd (hph.symm.trans heq) (by simp)
    · exact absurd (congrArg WindowState.phase h) (by simp [freshWindow])
  · cases hu

theorem paused_run {sw₀ sw : State × W} (hp : sw₀.1.paused = true)
    (h : ((machine contract o).startedIn sw₀).Reach noUnpause sw) : sw.1.paused = true := by
  refine Machine.Reach.invariant (I := fun sw => sw.1.paused = true) ?_ ?_ h
  · rintro sw rfl
    exact hp
  · rintro tr ⟨s, w⟩ ev ⟨s', w'⟩ hp hg hs
    cases ev with
    | outside v =>
      cases hs
      exact hp
    | call e c =>
      refine execute_paused hp (fun caller hc => ?_) hs
      subst hc
      exact hg

/--
On a paused oracle, calls without `unpause` are all idle exactly when no direct
reading and no start of a reveal phase is among those accepted.
-/
theorem paused_idle_iff {sw₀ sw : State × W} (hp : sw₀.1.paused = true)
    {tr : Trace (State × W) (Event contract W)}
    (hr : ((machine contract o).startedIn sw₀).Run noUnpause tr sw) :
    (∀ st ∈ tr, Idle o st) ↔ ∀ st ∈ tr, st.label.unguarded = false := by
  constructor
  · intro hi st hst
    obtain ⟨tr', -, -, hs⟩ := hr.mem st hst
    by_contra hu
    exact not_idle_of_unguarded hs (by simpa using hu) (hi st hst)
  · rintro hu ⟨⟨s, w⟩, ev, ⟨s', w'⟩⟩ hst
    obtain ⟨tr', hr', -, hs⟩ := hr.mem _ hst
    have hps : s.paused = true := paused_run hp ⟨tr', hr'⟩
    cases ev with
    | outside v =>
      cases hs
      refine ⟨?_, fun _ _ hw => .inl hw, rfl, rfl, rfl, rfl⟩
      rintro e c he
      cases he
    | call e c => exact execute_idle hps (hu _ hst) hs

section Sample

/-- Under a quorum of two, the account `1` has committed when the admin pauses the oracle. -/
def pausedSample : State × Unit :=
  (machine station offline).calls installed
    [calledAt 0 0 (.addOracle (.account 0) (.account 1)),
      calledAt 0 0 (.addOracle (.account 0) (.account 2)),
      calledAt 0 0 (.updateConfig (.account 0) { installed.1.config with minOracles := 2 }),
      calledAt 0 0 (.openWindow (.account 0) 7),
      calledAt 0 1 (.commitReading (.account 1) 7 1 0),
      calledAt 0 0 (.pause (.account 0))]

theorem pausedSample_reach : (machine station offline).Reachable pausedSample :=
  Machine.Reachable.calls ⟨_, .init installed_init⟩ _

def whilePaused : List (Event station Unit) :=
  [calledAt 300 0 (.addOracle (.account 0) (.account 3)),
    calledAt 300 0 (.resetWindow (.account 0) 7), calledAt 300 0 (.openWindow (.account 0) 8)]

set_option maxRecDepth 2000 in
theorem paused_idle_admin :
    ∃ tr, ((machine station offline).startedIn pausedSample).Run noUnpause tr
        (((machine station offline).startedIn pausedSample).calls pausedSample whilePaused) ∧
      ∀ st ∈ tr, Idle offline st := by
  have hG : ∀ l ∈ whilePaused, ∀ tr s, (∀ st ∈ tr, st.label ∈ whilePaused) →
      noUnpause (W := Unit) tr s l := by
    simp [whilePaused, calledAt, noUnpause]
  obtain ⟨tr, hr, -, hl⟩ := Machine.Run.calls hG
    (Machine.Run.init (m := (machine station offline).startedIn pausedSample) rfl) (by simp)
    (List.Subset.refl _)
  refine ⟨tr, hr, (paused_idle_iff rfl hr).mpr fun st hst => ?_⟩
  have hst := hl st hst
  simp only [whilePaused, List.mem_cons, List.not_mem_nil, or_false] at hst
  rcases hst with h | h | h <;> rw [h] <;> rfl

/-- A paused oracle starts a reveal phase, takes two readings and records a result. -/
def verifiedWhilePaused : State × Unit :=
  ((machine station offline).startedIn pausedSample).calls pausedSample
    [calledAt 300 9 (.beginRevealPhase 7),
      calledAt 300 1 (.submitReading (.account 1) 7 2 clearWater),
      calledAt 300 2 (.submitReading (.account 2) 7 1 clearWater)]

set_option maxRecDepth 2000 in
theorem paused_records_result :
    (machine station offline).Reachable pausedSample ∧ pausedSample.1.paused = true ∧
      (pausedSample.1.windowState 7).map (·.phase) = some .commit ∧
      pausedSample.1.oracleNonce (7, .account 2) = 0 ∧ pausedSample.1.lastResult 7 = none ∧
      ((machine station offline).startedIn pausedSample).Reach noUnpause verifiedWhilePaused ∧
      (verifiedWhilePaused.1.windowState 7).map (·.finalized) = some true ∧
      verifiedWhilePaused.1.oracleNonce (7, .account 2) = 1 ∧
      (verifiedWhilePaused.1.lastResult 7).map (·.oracleCount) = some 2 := by
  refine ⟨pausedSample_reach, rfl, rfl, rfl, rfl, ?_, rfl, rfl, rfl⟩
  exact Machine.Reach.calls ⟨_, .init rfl⟩ (by simp [calledAt, noUnpause])

end Sample

end WaterCredits.Oracle
