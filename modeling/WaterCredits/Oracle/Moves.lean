import WaterCredits.Foundation.Segment
import WaterCredits.Oracle.Effects

/-! # The moves of one window

The storage of a project changes by a fixed set of moves, one for each call
about it. Every accepted call is a move of the project it names and leaves the
others alone, and it records a result only when it closes a window.
-/

namespace WaterCredits.Oracle

open Foundation Function

variable {contract : Address} {W : Type} {o : Outside W} {e : Env contract} {s s' : State}
  {w w' : W} {p q : ProjectId} {c : Call}

/-- The window of one project, with its commitments and markers. -/
@[ext] structure View where
  window : Option WindowState
  commitment : Address → Option CommitInfo
  submitted : Address → Bool
  revealed : Address → Bool

namespace View

variable (v : View) (oracles : List Address)

def submit (window : WindowState) (sub : ReadingSubmission) (closed : Bool) : View :=
  { v with
    window := some { window with submissions := window.submissions ++ [sub], finalized := closed }
    submitted := update v.submitted sub.oracle true }

def close (window : WindowState) : View :=
  { v with
    window := some { window with phase := .finalized, finalized := true }
    commitment := fun a => if a ∈ oracles then none else v.commitment a
    revealed := fun a => if a ∈ oracles then false else v.revealed a }

def reveal (window : WindowState) (sub : ReadingSubmission) (closed : Bool) : View :=
  let window := { window with submissions := window.submissions ++ [sub] }
  let revealed := { v with window := some window, revealed := update v.revealed sub.oracle true }
  if closed = true then revealed.close oracles window else revealed

def penalize : View :=
  { v with
    commitment := fun a => if a ∈ oracles ∧ v.revealed a = false then none else v.commitment a }

variable {v oracles} in
theorem commitment_of_penalize {a : Address} {info : CommitInfo}
    (h : (v.penalize oracles).commitment a = some info) : v.commitment a = some info := by
  simp only [penalize] at h
  split at h
  · cases h
  · exact h

def reset (timestamp : UInt64) : View where
  window := some (freshWindow timestamp)
  commitment a := if a ∈ oracles then none else v.commitment a
  submitted a := if a ∈ oracles then false else v.submitted a
  revealed a := if a ∈ oracles then false else v.revealed a

variable {v oracles} in
theorem commitment_of_close {window : WindowState} {a : Address} {info : CommitInfo}
    (h : (v.close oracles window).commitment a = some info) :
    v.commitment a = some info ∧ (v.close oracles window).revealed a = v.revealed a := by
  by_cases hmem : a ∈ oracles
  · simp [close, hmem] at h
  · simpa [close, hmem] using h

variable {v oracles} in
theorem commitment_of_reveal {window : WindowState} {sub : ReadingSubmission} {closed : Bool}
    {a : Address} {info : CommitInfo}
    (h : (v.reveal oracles window sub closed).commitment a = some info) :
    v.commitment a = some info ∧ ((v.reveal oracles window sub closed).revealed a = false →
      a ≠ sub.oracle ∧ v.revealed a = false) := by
  have mark (hr : update v.revealed sub.oracle true a = false) :
      a ≠ sub.oracle ∧ v.revealed a = false := by
    by_cases ha : a = sub.oracle
    · simp [ha] at hr
    · exact ⟨ha, by rwa [update_of_ne ha] at hr⟩
  cases closed with
  | false => exact ⟨h, mark⟩
  | true =>
    obtain ⟨hc, hr⟩ := commitment_of_close h
    exact ⟨hc, fun hn => mark (hr.symm.trans hn)⟩

variable {v oracles} in
theorem commitment_of_reset {timestamp : UInt64} {a : Address} {info : CommitInfo}
    (h : (v.reset oracles timestamp).commitment a = some info) :
    v.commitment a = some info ∧ a ∉ oracles ∧
      (v.reset oracles timestamp).revealed a = v.revealed a := by
  by_cases hmem : a ∈ oracles
  · simp [reset, hmem] at h
  · simpa [reset, hmem] using h

end View

namespace Windows

variable {ws : Windows} {window : WindowState} {sub : ReadingSubmission} {closed : Bool}

def view (ws : Windows) (p : ProjectId) : View where
  window := ws.windowState p
  commitment a := ws.commitment (p, a)
  submitted a := ws.oracleSubmitted (p, a)
  revealed a := ws.oracleRevealed (p, a)

theorem view_submit_self :
    (ws.submit p window sub closed).view p = (ws.view p).submit window sub closed := by
  ext <;> simp [view, submit, View.submit, update_apply]

theorem view_submit_of_ne (h : q ≠ p) : (ws.submit p window sub closed).view q = ws.view q := by
  ext <;> simp [view, submit, h]

theorem view_close_self :
    (ws.close p window).view p = (ws.view p).close ws.oracleList window := by
  ext <;> simp [view, close, View.close]

theorem view_close_of_ne (h : q ≠ p) : (ws.close p window).view q = ws.view q := by
  ext <;> simp [view, close, h]

theorem view_reveal_self :
    (ws.reveal p window sub closed).view p =
      (ws.view p).reveal ws.oracleList window sub closed := by
  unfold reveal View.reveal
  split
  · rw [view_close_self]
    congr 1
    ext <;> simp [view, update_apply]
  · ext <;> simp [view, update_apply]

theorem view_reveal_of_ne (h : q ≠ p) : (ws.reveal p window sub closed).view q = ws.view q := by
  unfold reveal
  split
  · rw [view_close_of_ne h]
    ext <;> simp [view, h]
  · ext <;> simp [view, h]

theorem view_penalize_self : (ws.penalize p).view p = (ws.view p).penalize ws.oracleList :=
  View.ext rfl (funext fun _ => if_congr (by simp [view]) rfl rfl) rfl rfl

theorem view_penalize_of_ne (h : q ≠ p) : (ws.penalize p).view q = ws.view q := by
  ext <;> simp [view, penalize, h]

end Windows

def State.view (s : State) (p : ProjectId) : View := s.windows.view p

def Call.project : Call → Option ProjectId
  | .submitReading _ p _ _ | .resetWindow _ p | .openWindow _ p | .commitReading _ p _ _
  | .beginRevealPhase p | .revealReading _ p _ | .finalizeWindow p => some p
  | _ => none

def Event.opens (p : ProjectId) : Event contract W → Bool
  | .call _ (.openWindow _ q) | .call _ (.resetWindow _ q) => q = p
  | _ => false

theorem Event.opens_of_ne (h : c.project ≠ some p) :
    Event.opens p (.call e c : Event contract W) = false := by
  unfold Event.opens
  split <;> simp_all [Call.project]

def directSub (e : Env contract) (oracle : Address) (nonce : UInt64) (reading : Reading) :
    ReadingSubmission :=
  { reading with oracle, nonce, timestamp := e.timestamp }

def revealSub (e : Env contract) (oracle : Address) (params : RevealParams) : ReadingSubmission :=
  { params.toReading with oracle, nonce := params.nonce, timestamp := e.timestamp }

/-- The window of a project in use: the only one that takes commits, reveals and readings. -/
structure InPhase (v : View) (phase : WindowPhase) (window : WindowState) : Prop where
  stored : v.window = some window
  unfinished : window.finalized = false
  phase_eq : window.phase = phase

/-- How an accepted call moves the view of a project. -/
inductive Move (o : Outside W) (e : Env contract) (s : State) (p : ProjectId) (v : View) :
    Call → View → Prop
  | idle {c : Call} (h : c.project ≠ some p) : Move o e s p v c v
  | submitReading {a : Address} {n : UInt64} {reading : Reading} {window : WindowState}
      {closed : Bool} (active : s.oracleActive a = true) (fresh : v.submitted a = false)
      (stored : v.window.getD { phase := .reveal, openedAt := e.timestamp } = window)
      (unfinished : window.finalized = false) :
      Move o e s p v (.submitReading a p n reading)
        (v.submit window (directSub e a n reading) closed)
  | resetWindow {admin : Address} {window : WindowState} (stored : v.window = some window) :
      Move o e s p v (.resetWindow admin p)
        (v.reset (window.submissions.map (·.oracle) ++ s.oracleList) e.timestamp)
  | openWindow {admin : Address}
      (done : ∀ window, v.window = some window → window.finalized = true) :
      Move o e s p v (.openWindow admin p) { v with window := some (freshWindow e.timestamp) }
  | commitReading {a : Address} {n : UInt64} {commitment : BytesN 32} {window : WindowState}
      (active : s.oracleActive a = true) (fresh : v.commitment a = none)
      (h : InPhase v .commit window) :
      Move o e s p v (.commitReading a p n commitment)
        { v with commitment := update v.commitment a (some ⟨commitment, n⟩) }
  | beginRevealPhase {window : WindowState} (h : InPhase v .commit window) :
      Move o e s p v (.beginRevealPhase p)
        { v with window := some { window with phase := .reveal, revealOpenedLedger := e.sequence } }
  | revealReading {a : Address} {params : RevealParams} {window : WindowState} {closed : Bool}
      (active : s.oracleActive a = true) (fresh : v.revealed a = false)
      (committed : v.commitment a = some ⟨sha256Commitment o params, params.nonce⟩)
      (h : InPhase v .reveal window) :
      Move o e s p v (.revealReading a p params)
        (v.reveal s.oracleList window (revealSub e a params) closed)
  | finalizeWindow {window : WindowState} {closed : Bool} (h : InPhase v .reveal window) :
      Move o e s p v (.finalizeWindow p)
        (if closed = true then (v.penalize s.oracleList).close s.oracleList window
          else v.penalize s.oracleList)

/-- A call about one project moves its view and leaves the other views alone. -/
theorem Move.of_project (hc : c.project = some q)
    (hself : p = q → Move o e s p (s.view p) c (s'.view p))
    (hother : p ≠ q → s'.view p = s.view p) : Move o e s p (s.view p) c (s'.view p) := by
  by_cases hq : p = q
  · exact hself hq
  · rw [hother hq]
    apply Move.idle
    intro hp
    exact hq (Option.some.inj (hp.symm.trans hc))

theorem execute_move (p : ProjectId) (h : execute o e s w c = .ok (s', w')) :
    Move o e s p (s.view p) c (s'.view p) := by
  have inert (hc : c.project = none) (hv : s'.view p = s.view p) :
      Move o e s p (s.view p) c (s'.view p) := hv ▸ .idle (by simp [hc])
  cases c with
  | submitReading a q n reading =>
    obtain ⟨r, h⟩ := discard_eq_ok.mp h
    obtain ⟨ha, hs, -, window, closed, hw, hf, -, hwin, -⟩ := submitReading_cases h
    apply Move.of_project rfl
    · rintro rfl
      have hv : s'.view p = (s.view p).submit window (directSub e a n reading) closed :=
        (congrArg (·.view p) hwin).trans Windows.view_submit_self
      exact hv ▸ .submitReading ha hs hw hf
    · intro hq
      exact (congrArg (·.view p) hwin).trans (Windows.view_submit_of_ne hq)
  | revealReading a q params =>
    obtain ⟨r, h⟩ := discard_eq_ok.mp h
    obtain ⟨-, ha, hs, hc, window, closed, hw, hf, hph, -, hwin, -⟩ := revealReading_cases h
    apply Move.of_project rfl
    · rintro rfl
      have hv : s'.view p =
          (s.view p).reveal s.oracleList window (revealSub e a params) closed :=
        (congrArg (·.view p) hwin).trans Windows.view_reveal_self
      exact hv ▸ .revealReading ha hs hc ⟨hw, hf, hph⟩
    · intro hq
      exact (congrArg (·.view p) hwin).trans (Windows.view_reveal_of_ne hq)
  | finalizeWindow q =>
    obtain ⟨r, h⟩ := discard_eq_ok.mp h
    obtain ⟨-, window, closed, t, v, hw, hf, hph, -, hwin, -⟩ := finalizeWindow_cases h
    apply Move.of_project rfl
    · rintro rfl
      have hv : s'.view p =
          if closed = true then ((s.view p).penalize s.oracleList).close s.oracleList window
          else (s.view p).penalize s.oracleList := by
        apply (congrArg (·.view p) hwin).trans
        split
        · rw [Windows.view_close_self, Windows.view_penalize_self]
          rfl
        · exact Windows.view_penalize_self
      exact hv ▸ .finalizeWindow ⟨hw, hf, hph⟩
    · intro hq
      apply (congrArg (·.view p) hwin).trans
      split
      · rw [Windows.view_close_of_ne hq, Windows.view_penalize_of_ne hq]
        rfl
      · exact Windows.view_penalize_of_ne hq
  | openWindow admin q =>
    obtain ⟨hf, rfl⟩ := openWindow_cases (within_eq_ok.mp h).1
    apply Move.of_project rfl
    · rintro rfl
      have hm : Move o e s p (s.view p) (.openWindow admin p)
          { s.view p with window := some (freshWindow e.timestamp) } := .openWindow hf
      convert hm using 1
      ext <;> simp [State.view, State.windows, Windows.view]
    · intro hq
      ext <;> simp [State.view, State.windows, Windows.view, hq]
  | resetWindow admin q =>
    obtain ⟨window, hw, hwin, -⟩ := resetWindow_cases (within_eq_ok.mp h).1
    apply Move.of_project rfl
    · rintro rfl
      have hv : s'.view p =
          (s.view p).reset (window.submissions.map (·.oracle) ++ s.oracleList) e.timestamp := by
        apply (congrArg (·.view p) hwin).trans
        ext <;> simp [State.view, State.windows, Windows.view, View.reset]
      exact hv ▸ .resetWindow hw
    · intro hq
      apply (congrArg (·.view p) hwin).trans
      ext <;> simp [State.view, State.windows, Windows.view, hq]
  | commitReading a q n commitment =>
    obtain ⟨-, ha, hn, -, ⟨window, hw, hf, hph⟩, rfl⟩ := commitReading_cases (within_eq_ok.mp h).1
    apply Move.of_project rfl
    · rintro rfl
      have hm : Move o e s p (s.view p) (.commitReading a p n commitment)
          { s.view p with
            commitment := update (s.view p).commitment a (some ⟨commitment, n⟩) } :=
        .commitReading ha hn ⟨hw, hf, hph⟩
      convert hm using 1
      ext <;> simp [State.view, State.windows, Windows.view, update_apply]
    · intro hq
      ext <;> simp [State.view, State.windows, Windows.view, hq]
  | beginRevealPhase q =>
    obtain ⟨window, hw, hf, hph, rfl⟩ := beginRevealPhase_cases (within_eq_ok.mp h).1
    apply Move.of_project rfl
    · rintro rfl
      have hm : Move o e s p (s.view p) (.beginRevealPhase p)
          { s.view p with
            window := some { window with phase := .reveal, revealOpenedLedger := e.sequence } } :=
        .beginRevealPhase ⟨hw, hf, hph⟩
      convert hm using 1
      ext <;> simp [State.view, State.windows, Windows.view, State.saveWindow]
    · intro hq
      ext <;> simp [State.view, State.windows, Windows.view, State.saveWindow, hq]
  | addOracle admin a =>
    obtain ⟨-, -, rfl⟩ := addOracle_cases (within_eq_ok.mp h).1
    exact inert rfl rfl
  | removeOracle admin a =>
    obtain ⟨-, rfl⟩ := removeOracle_cases (within_eq_ok.mp h).1
    exact inert rfl rfl
  | _ => exact inert rfl (congrArg (·.view p) (execute_inert rfl h).windows)

/-- Every reveal marker stands beside its commitment. -/
def View.Paired (v : View) : Prop := ∀ a, v.revealed a = true → (v.commitment a).isSome = true

theorem View.Paired.close {v : View} {oracles : List Address} {window : WindowState}
    (h : v.Paired) : (v.close oracles window).Paired := by
  intro a ha
  by_cases hmem : a ∈ oracles
  · simp [View.close, hmem] at ha
  · simp only [View.close, hmem, if_false] at ha ⊢
    exact h a ha

theorem Move.paired {v v' : View} (hm : Move o e s p v c v') (h : v.Paired) : v'.Paired := by
  have reveal {a b : Address} {info : CommitInfo} (hc : v.commitment a = some info)
      (hb : update v.revealed a true b = true) : (v.commitment b).isSome = true := by
    by_cases hba : b = a
    · simp [hba, hc]
    · exact h b (by rwa [update_of_ne hba] at hb)
  have penalize : (v.penalize s.oracleList).Paired := by
    intro a ha
    have ha : v.revealed a = true := ha
    simpa [View.penalize, ha] using h a ha
  cases hm with
  | idle => exact h
  | submitReading | openWindow | beginRevealPhase => exact h
  | @resetWindow admin window =>
    intro a ha
    by_cases hmem : a ∈ window.submissions.map (·.oracle) ++ s.oracleList
    · simp only [View.reset, if_pos hmem, Bool.false_eq_true] at ha
    · simp only [View.reset, if_neg hmem] at ha ⊢
      exact h a ha
  | @commitReading a n commitment =>
    intro b hb
    by_cases hba : b = a
    · simp [hba]
    · simpa [update_of_ne hba] using h b hb
  | @revealReading a params window closed ha hf hc =>
    cases closed with
    | true => exact View.Paired.close fun b => reveal hc
    | false => exact fun b => reveal hc
  | @finalizeWindow window closed =>
    cases closed with
    | true => exact penalize.close
    | false => exact penalize

theorem paired_of_reach {G : Guard (State × W) (Event contract W)} {sw : State × W}
    (h : (machine contract o).Reach G sw) (p : ProjectId) : (sw.1.view p).Paired := by
  refine h.invariant (I := fun sw => (sw.1.view p).Paired) ?_ ?_
  · rintro sw ⟨admin, stakingToken, treasury, hs⟩
    rw [(initialise_eq_ok.mp hs).2]
    exact fun a ha => by cases ha
  · rintro tr sw (⟨e, c⟩ | w') sw' hi - hs
    · exact (execute_move p hs).paired hi
    · cases hs
      exact hi

def Windows.roster (ws : Windows) :
    List Address × (Address → Bool) := (ws.oracleList, ws.oracleActive)

theorem roster_eq (h : s'.windows.roster = s.windows.roster) :
    s'.oracleList = s.oracleList ∧ s'.oracleActive = s.oracleActive :=
  Prod.mk.inj h

theorem execute_roster (h : execute o e s w c = .ok (s', w')) :
    (s'.oracleList = s.oracleList ∧ s'.oracleActive = s.oracleActive) ∨
      (∃ admin a, c = .addOracle admin a ∧ s'.oracleList = s.oracleList ++ [a] ∧
        s'.oracleActive = update s.oracleActive a true) ∨
      ∃ admin a, c = .removeOracle admin a ∧ s'.oracleList = s.oracleList.filter (· ≠ a) ∧
        s'.oracleActive = update s.oracleActive a false := by
  cases c with
  | submitReading =>
    obtain ⟨r, h⟩ := discard_eq_ok.mp h
    obtain ⟨-, -, -, window, closed, -, -, -, hwin, -⟩ := submitReading_cases h
    exact .inl (roster_eq ((congrArg Windows.roster hwin).trans rfl))
  | revealReading =>
    obtain ⟨r, h⟩ := discard_eq_ok.mp h
    obtain ⟨-, -, -, -, window, closed, -, -, -, -, hwin, -⟩ := revealReading_cases h
    refine .inl (roster_eq ((congrArg Windows.roster hwin).trans ?_))
    cases closed <;> rfl
  | finalizeWindow =>
    obtain ⟨r, h⟩ := discard_eq_ok.mp h
    obtain ⟨-, window, closed, t, v, -, -, -, -, hwin, -⟩ := finalizeWindow_cases h
    refine .inl (roster_eq ((congrArg Windows.roster hwin).trans ?_))
    cases closed <;> rfl
  | openWindow =>
    obtain ⟨-, rfl⟩ := openWindow_cases (within_eq_ok.mp h).1
    exact .inl ⟨rfl, rfl⟩
  | resetWindow =>
    obtain ⟨_, -, hwin, -⟩ := resetWindow_cases (within_eq_ok.mp h).1
    exact .inl (roster_eq ((congrArg Windows.roster hwin).trans rfl))
  | commitReading =>
    obtain ⟨-, -, -, -, -, rfl⟩ := commitReading_cases (within_eq_ok.mp h).1
    exact .inl ⟨rfl, rfl⟩
  | beginRevealPhase =>
    obtain ⟨-, -, -, -, rfl⟩ := beginRevealPhase_cases (within_eq_ok.mp h).1
    exact .inl ⟨rfl, rfl⟩
  | addOracle admin a =>
    obtain ⟨-, -, rfl⟩ := addOracle_cases (within_eq_ok.mp h).1
    exact .inr (.inl ⟨admin, a, rfl, rfl, rfl⟩)
  | removeOracle admin a =>
    obtain ⟨-, rfl⟩ := removeOracle_cases (within_eq_ok.mp h).1
    exact .inr (.inr ⟨admin, a, rfl, rfl, rfl⟩)
  | _ => exact .inl (roster_eq (congrArg Windows.roster (execute_inert rfl h).windows))

theorem execute_rules (hc : c.configures = false) (h : execute o e s w c = .ok (s', w')) :
    s'.rules = s.rules := by
  cases c with
  | submitReading =>
    obtain ⟨r, h⟩ := discard_eq_ok.mp h
    obtain ⟨-, -, -, -, -, -, -, -, -, h, -⟩ := submitReading_cases h
    exact h
  | revealReading =>
    obtain ⟨r, h⟩ := discard_eq_ok.mp h
    obtain ⟨-, -, -, -, -, -, -, -, -, -, -, h, -⟩ := revealReading_cases h
    exact h
  | finalizeWindow =>
    obtain ⟨r, h⟩ := discard_eq_ok.mp h
    obtain ⟨-, -, -, -, -, -, -, -, -, -, h, -⟩ := finalizeWindow_cases h
    exact h
  | openWindow | resetWindow | commitReading | beginRevealPhase | addOracle | removeOracle =>
    exact (execute_staged rfl h).2.1
  | _ => exact (execute_inert rfl h).rules hc

theorem execute_reconfigures (h : execute o e s w c = .ok (s', w')) :
    s'.config = s.config ∨ ∃ admin config, c = .updateConfig admin config ∧
      s.updateConfig e admin config = .ok s' := by
  cases hc : c.configures with
  | false => exact .inl (congrArg Prod.fst (execute_rules hc h))
  | true =>
    cases c <;> simp only [Call.configures, Bool.false_eq_true] at hc
    case setProjectConfig admin q config =>
      rw [setProjectConfig_cases (within_eq_ok.mp h).1]
      exact .inl rfl
    case updateConfig admin config => exact .inr ⟨admin, config, rfl, (within_eq_ok.mp h).1⟩

/-- A call stores the result that the closed window of a project earned. -/
structure Records (e : Env contract) (s s' : State) (p : ProjectId) (window : WindowState)
    (r : VerificationResult) : Prop where
  stored : (s'.view p).window = some window
  quorum : s.config.minOracles.toNat ≤ window.submissions.length
  computed : ∃ r₀, s.computeResult p e.timestamp window.submissions = .ok r₀ ∧
    r = { r₀ with creditsMinted := r.creditsMinted, protocolFeeMinted := r.protocolFeeMinted }
  results : s'.results = s.results.record p r

/-- A call verifies a quorum of readings of a project and records the result. -/
structure Verifies (o : Outside W) (e : Env contract) (s s' : State) (w' : W) (p : ProjectId)
    (window : WindowState) (r : VerificationResult) : Prop where
  stored : (s'.view p).window = some window
  quorum : s.config.minOracles.toNat ≤ window.submissions.length
  verified : ∃ w, s.verifyWindow p o contract e.timestamp window.submissions w = .ok (r, w')
  results : s'.results = s.results.record p r

theorem Outcome.verifies {subs : List ReadingSubmission} {v : W} {closed : Bool}
    (h : Outcome o contract e.timestamp s p subs v s'.results w' closed)
    (hw : closed = true → ∃ window, (s'.view p).window = some window ∧ window.submissions = subs) :
    s'.results = s.results ∨ ∃ window r, Verifies o e s s' w' p window r := by
  rcases h with ⟨hr, -⟩ | ⟨r, hn, hv, hr⟩
  · exact .inl hr
  · obtain ⟨window, hs, rfl⟩ := hw rfl
    exact .inr ⟨window, r, hs, hn, ⟨v, hv⟩, hr⟩

theorem execute_verifies (h : execute o e s w c = .ok (s', w')) : s'.results = s.results ∨
    ∃ p window r, c.project = some p ∧ Verifies o e s s' w' p window r := by
  cases c with
  | submitReading a q n reading =>
    obtain ⟨r, h⟩ := discard_eq_ok.mp h
    obtain ⟨-, -, -, window, closed, -, -, -, hwin, -, -, hout⟩ := submitReading_cases h
    refine (hout.verifies fun hc => ?_).imp_right fun ⟨window, r, h⟩ => ⟨q, window, r, rfl, h⟩
    simp [State.view, hwin, Windows.view, Windows.submit]
  | revealReading a q params =>
    obtain ⟨r, h⟩ := discard_eq_ok.mp h
    obtain ⟨-, -, -, -, window, closed, -, -, -, -, hwin, -, -, hout⟩ := revealReading_cases h
    refine (hout.verifies fun hc => ?_).imp_right fun ⟨window, r, h⟩ => ⟨q, window, r, rfl, h⟩
    simp [hc, State.view, hwin, Windows.view, Windows.reveal, Windows.close]
  | finalizeWindow q =>
    obtain ⟨r, h⟩ := discard_eq_ok.mp h
    obtain ⟨-, window, closed, t, v, -, -, -, -, hwin, -, -, hout⟩ := finalizeWindow_cases h
    refine (hout.verifies fun hc => ?_).imp_right fun ⟨window, r, h⟩ => ⟨q, window, r, rfl, h⟩
    simp [hc, State.view, hwin, Windows.view, Windows.close]
  | openWindow | resetWindow | commitReading | beginRevealPhase | addOracle | removeOracle =>
    exact .inl (execute_staged rfl h).1
  | _ => exact .inl (execute_inert rfl h).results

theorem execute_results (h : execute o e s w c = .ok (s', w')) :
    s'.results = s.results ∨ ∃ p window r, c.project = some p ∧ Records e s s' p window r := by
  refine (execute_verifies h).imp_right ?_
  rintro ⟨p, window, r, hc, hv⟩
  obtain ⟨v, hverify⟩ := hv.verified
  exact ⟨p, window, r, hc, hv.stored, hv.quorum, verifyWindow_result hverify, hv.results⟩

/-- The projects and results that a lookup in the history or in the last results finds. -/
def State.Recorded (s : State) (p : ProjectId) (r : VerificationResult) : Prop :=
  s.lastResult p = some r ∨ ∃ i, s.resultAt (p, i) = some r

theorem recorded_record {r : VerificationResult} (h : s'.results = s.results.record q r)
    {r' : VerificationResult} (hr : s'.Recorded p r') : (p = q ∧ r' = r) ∨ s.Recorded p r' := by
  have hl : s'.lastResult = update s.lastResult q (some r) := congrArg Results.lastResult h
  have ha : s'.resultAt = update s.resultAt (q, s.resultCount q) (some r) :=
    congrArg Results.resultAt h
  rcases hr with hr | ⟨i, hr⟩
  · rw [hl, update_apply] at hr
    split at hr
    · rename_i hp
      exact .inl ⟨hp, (Option.some.inj hr).symm⟩
    · exact .inr (.inl hr)
  · rw [ha, update_apply] at hr
    split at hr
    · rename_i hp
      exact .inl ⟨congrArg Prod.fst hp, (Option.some.inj hr).symm⟩
    · exact .inr (.inr ⟨i, hr⟩)

theorem recorded_congr {r : VerificationResult} (h : s'.results = s.results) :
    s'.Recorded p r ↔ s.Recorded p r := by
  have hl : s'.lastResult = s.lastResult := congrArg Results.lastResult h
  have ha : s'.resultAt = s.resultAt := congrArg Results.resultAt h
  unfold State.Recorded
  rw [hl, ha]

end WaterCredits.Oracle
