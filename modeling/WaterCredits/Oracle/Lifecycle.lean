import WaterCredits.Oracle.Pause

/-! # The lifecycle of a window

A window is opened, collects commitments, collects reveals and is finalized.
The direct path takes readings in the commit phase and finalizes without leaving
its phase, and a reset also takes back a finalized window. A run keeps to the
lifecycle exactly when it does none of these.
-/

namespace WaterCredits.Oracle

open Foundation Function

variable {contract : Address} {W : Type} {o : Outside W} {e : Env contract} {s s' : State}
  {w w' : W} {p q : ProjectId} {c : Call} {v v' : View}
  {tr : Trace (State × W) (Event contract W)} {st : Step (State × W) (Event contract W)}

/-- The edges of the lifecycle, with the calls that take them. -/
inductive PhaseChange (p : ProjectId) (quorum : ℕ) :
    Event contract W → Option WindowState → Option WindowState → Prop
  | opened {e : Env contract} {admin : Address} {window' : WindowState}
      (hp : window'.phase = .commit) :
      PhaseChange p quorum (.call e (.openWindow admin p)) none (some window')
  | created {e : Env contract} {a : Address} {n : UInt64} {reading : Reading}
      {window' : WindowState} (hp : window'.phase = .reveal) :
      PhaseChange p quorum (.call e (.submitReading a p n reading)) none (some window')
  | revealing {e : Env contract} {window window' : WindowState} (hp : window.phase = .commit)
      (hp' : window'.phase = .reveal) :
      PhaseChange p quorum (.call e (.beginRevealPhase p)) (some window) (some window')
  | finalized {ev : Event contract W} {window window' : WindowState} (hp : window.phase = .reveal)
      (hp' : window'.phase = .finalized) (hq : quorum ≤ window'.submissions.length) :
      PhaseChange p quorum ev (some window) (some window')
  | reset {e : Env contract} {admin : Address} {window window' : WindowState}
      (hp : window.phase ≠ .finalized) (hp' : window'.phase = .commit)
      (hs : window'.submissions = []) :
      PhaseChange p quorum (.call e (.resetWindow admin p)) (some window) (some window')
  | reopened {e : Env contract} {admin : Address} {window window' : WindowState}
      (hp : window.phase = .finalized) (hp' : window'.phase = .commit) :
      PhaseChange p quorum (.call e (.openWindow admin p)) (some window) (some window')

structure LawfulChange (p : ProjectId) (quorum : ℕ) (ev : Event contract W)
    (before after : Option WindowState) : Prop where
  change : before.map (·.phase) ≠ after.map (·.phase) → PhaseChange p quorum ev before after
  reset : ∀ e admin, ev = .call e (.resetWindow admin p) →
    (∃ window, before = some window ∧ window.finalized = false) ∧
      ∃ window', after = some window' ∧ window'.phase = .commit ∧ window'.submissions = []
  final : ∀ window, before = some window → window.finalized = true →
    after = before ∨ ∃ e admin, ev = .call e (.openWindow admin p)

/-- The flag follows the phase, and readings come after the commit phase. -/
structure WindowState.Sound (window : WindowState) : Prop where
  finalized_iff : window.finalized = true ↔ window.phase = .finalized
  commit_empty : window.phase = .commit → window.submissions = []

def Event.starts (p : ProjectId) : Event contract W → Bool
  | .call _ (.openWindow _ q) => q = p
  | _ => false

def recordsResult (p : ProjectId) (st : Step (State × W) (Event contract W)) : Bool :=
  st.after.1.resultCount p ≠ st.before.1.resultCount p

/--
The lifecycle along a run: windows change along its edges and stay sound, each is
finalized at most once, and a step that records no result mints nothing.
-/
structure Lifecycle (o : Outside W) (tr : Trace (State × W) (Event contract W)) : Prop where
  lawful : ∀ p, ∀ st ∈ tr, LawfulChange p st.before.1.config.minOracles.toNat st.label
    (st.before.1.windowState p) (st.after.1.windowState p)
  sound : ∀ p, ∀ st ∈ tr, ∀ window,
    st.before.1.windowState p = some window ∨ st.after.1.windowState p = some window → window.Sound
  once : ∀ p, (segment (Event.starts p) tr).countP (recordsResult p) ≤ 1
  mints : ∀ st ∈ tr, st.after.1.results = st.before.1.results →
    step o.mintless st.label st.before = .ok st.after

def State.readings (s : State) (p : ProjectId) : List ReadingSubmission :=
  ((s.windowState p).map (·.submissions)).getD []

/--
No direct reading enters the commit phase or completes a quorum, and no reset
takes back a finalized window.
-/
def Event.regular (s : State) : Event contract W → Prop
  | .call _ (.submitReading _ p _ _) =>
      (∀ window, s.windowState p = some window → window.phase ≠ .commit) ∧
        (s.readings p).length + 1 < s.config.minOracles.toNat
  | .call _ (.resetWindow _ p) => ∀ window, s.windowState p = some window → window.finalized = false
  | _ => True

section Mints

variable {timestamp : UInt64} {r : Option VerificationResult}

theorem record_ne {rs : Results} {r : VerificationResult} : rs.record p r ≠ rs := by
  intro h
  have hcount := congrArg (·.resultCount p) h
  simp [Results.record] at hcount

theorem finalizeReveals_mintless
    (h : s.finalizeReveals p o contract timestamp w = .ok (r, s', w'))
    (hr : s'.results = s.results) :
    s.finalizeReveals p o.mintless contract timestamp w = .ok (r, s', w') := by
  simp only [State.finalizeReveals, bind_eq_ok] at h ⊢
  obtain ⟨window, hw, h⟩ := h
  split at h
  · rename_i hf
    simp only [pure_eq_ok, Prod.mk.injEq] at h
    obtain ⟨rfl, rfl, rfl⟩ := h
    exact ⟨window, hw, by simp [hf]⟩
  · rename_i hf
    split at h
    · rename_i hn
      simp only [pure_eq_ok, Prod.mk.injEq] at h
      obtain ⟨rfl, rfl, rfl⟩ := h
      exact ⟨window, hw, by simp [hf, hn]⟩
    · simp only [bind_eq_ok, pure_eq_ok, Prod.mk.injEq] at h
      obtain ⟨⟨result, u⟩, -, -, rfl, -⟩ := h
      rw [clearMarkers_results, removeOpenProject_results, saveWindow_results,
        recordResult_results] at hr
      exact absurd hr record_ne

theorem penalizeLoop_mintless {list : List Address} :
    State.penalizeLoop o.mintless contract timestamp p list s w =
      State.penalizeLoop o contract timestamp p list s w := by
  induction list generalizing s w with
  | nil => rfl
  | cons a rest ih =>
    unfold State.penalizeLoop
    simp only [ih]
    rfl

/-- A step that records no result mints nothing. -/
theorem execute_unrecorded (h : execute o e s w c = .ok (s', w')) (hr : s'.results = s.results) :
    execute o.mintless e s w c = .ok (s', w') := by
  cases c with
  | submitReading a p n reading =>
    obtain ⟨r, h⟩ := discard_eq_ok.mp h
    refine discard_eq_ok.mpr ⟨r, ?_⟩
    simp only [State.submitReading, bind_eq_ok] at h ⊢
    obtain ⟨u₁, h₁, u₂, h₂, u₃, h₃, u₄, h₄, u₅, h₅, u₆, h₆, t, ht, h⟩ := h
    refine ⟨u₁, h₁, u₂, h₂, u₃, h₃, u₄, h₄, u₅, h₅, u₆, h₆, t, ht, ?_⟩
    split at h
    · simp only [bind_eq_ok, pure_eq_ok, Prod.mk.injEq] at h
      obtain ⟨⟨result, x, y⟩, hd, -, rfl, -⟩ := h
      obtain ⟨-, -, -, hres, -⟩ := finalizeDirect_cases hd
      rw [addOpenProject_eq_ok] at ht
      obtain ⟨-, rfl⟩ := ht
      exact absurd (hres.symm.trans hr) record_ne
    · rename_i hq
      rw [if_neg hq]
      exact h
  | revealReading a p params =>
    obtain ⟨r, h⟩ := discard_eq_ok.mp h
    refine discard_eq_ok.mpr ⟨r, ?_⟩
    simp only [State.revealReading, bind_eq_ok] at h ⊢
    obtain ⟨u₁, h₁, u₂, h₂, u₃, h₃, window, h₄, u₅, h₅, u₆, h₆, u₇, h₇, u₈, h₈, info, h₉, u₁₀, h₁₀,
      u₁₁, h₁₁, u₁₂, h₁₂, u₁₃, h₁₃, h⟩ := h
    refine ⟨u₁, h₁, u₂, h₂, u₃, h₃, window, h₄, u₅, h₅, u₆, h₆, u₇, h₇, u₈, h₈, info, h₉, u₁₀, h₁₀,
      u₁₁, h₁₁, u₁₂, h₁₂, u₁₃, h₁₃, ?_⟩
    split at h
    · rename_i hq
      rw [if_pos hq]
      exact finalizeReveals_mintless h hr
    · rename_i hq
      rw [if_neg hq]
      exact h
  | finalizeWindow p =>
    obtain ⟨r, h⟩ := discard_eq_ok.mp h
    refine discard_eq_ok.mpr ⟨r, ?_⟩
    simp only [State.finalizeWindow, bind_eq_ok] at h ⊢
    obtain ⟨u₁, h₁, window, h₂, u₃, h₃, u₄, h₄, u₅, h₅, ⟨t, u⟩, ht, h⟩ := h
    refine ⟨u₁, h₁, window, h₂, u₃, h₃, u₄, h₄, u₅, h₅, ⟨t, u⟩, ?_, ?_⟩
    · exact penalizeLoop_mintless.trans ht
    · have htr : t.results = s.results := by
        rw [penalizeLoop_frame ht]
        rfl
      exact finalizeReveals_mintless h (hr.trans htr.symm)
  | _ => exact (execute_mintless rfl).trans h

end Mints

theorem execute_closing (h : execute o e s w c = .ok (s', w')) (hc : c.project = some p) :
    (s'.results = s.results ∧ ((s'.view p).Done → (s.view p).Done)) ∨
      ∃ window r, Records e s s' p window r ∧ window.finalized = true ∧ ¬ (s.view p).Done := by
  have undone {window : WindowState} (hw : (s'.view p).window = some window)
      (hf : window.finalized = false) : (s'.view p).Done → (s.view p).Done := by
    rintro ⟨window', hw', hf'⟩
    rw [hw] at hw'
    cases hw'
    exact absurd (hf.symm.trans hf') (by simp)
  have pending {window : WindowState} (hw : s.windowState p = some window)
      (hf : window.finalized = false) : ¬ (s.view p).Done := by
    rintro ⟨window', hw', hf'⟩
    have heq : window = window' := Option.some.inj (hw.symm.trans hw')
    exact absurd (hf.symm.trans (heq ▸ hf')) (by simp)
  cases c with
  | submitReading a p n reading =>
    cases hc
    obtain ⟨r, h⟩ := discard_eq_ok.mp h
    obtain ⟨-, -, -, window, closed, hg, hf, -, hwin, -, -, hout⟩ := submitReading_cases h
    have hview := congrArg View.window ((congrArg (·.view p) hwin).trans Windows.view_submit_self)
    rcases hout with ⟨hr, -⟩ | ⟨r, hn, hv, hr⟩
    · exact .inl ⟨hr, undone hview rfl⟩
    · refine .inr ⟨_, r, ⟨hview, hn, verifyWindow_result hv, hr⟩, rfl, ?_⟩
      rintro ⟨window', hw', hf'⟩
      have hw' : s.windowState p = some window' := hw'
      rw [hw'] at hg
      have heq : window' = window := hg
      exact absurd (hf.symm.trans (heq ▸ hf')) (by simp)
  | revealReading a p params =>
    cases hc
    obtain ⟨r, h⟩ := discard_eq_ok.mp h
    obtain ⟨-, -, -, -, window, closed, hw, hf, -, -, hwin, -, -, hout⟩ := revealReading_cases h
    have hview := congrArg View.window ((congrArg (·.view p) hwin).trans Windows.view_reveal_self)
    rcases hout with ⟨hr, -⟩ | ⟨r, hn, hv, hr⟩
    · exact .inl ⟨hr, undone hview hf⟩
    · exact .inr ⟨_, r, ⟨hview, hn, verifyWindow_result hv, hr⟩, rfl, pending hw hf⟩
  | finalizeWindow p =>
    cases hc
    obtain ⟨r, h⟩ := discard_eq_ok.mp h
    obtain ⟨-, window, closed, t, u, hw, hf, -, -, hwin, -, -, hout⟩ := finalizeWindow_cases h
    rcases hout with ⟨hr, -⟩ | ⟨r, hn, hv, hr⟩
    · exact .inl ⟨hr, undone ((congrArg (·.windowState p) hwin).trans hw) hf⟩
    · have hview := congrArg View.window ((congrArg (·.view p) hwin).trans Windows.view_close_self)
      exact .inr ⟨_, r, ⟨hview, hn, verifyWindow_result hv, hr⟩, rfl, pending hw hf⟩
  | openWindow admin p =>
    cases hc
    obtain ⟨-, rfl⟩ := openWindow_cases (within_eq_ok.mp h).1
    exact .inl ⟨rfl, undone (update_self ..) rfl⟩
  | resetWindow admin p =>
    cases hc
    obtain ⟨_, -, hwin, hr, -⟩ := resetWindow_cases (within_eq_ok.mp h).1
    have hview := congrArg (·.windowState p) hwin
    exact .inl ⟨hr, undone (hview.trans (update_self ..)) rfl⟩
  | commitReading a p n commitment =>
    cases hc
    obtain ⟨-, -, -, -, -, rfl⟩ := commitReading_cases (within_eq_ok.mp h).1
    exact .inl ⟨rfl, id⟩
  | beginRevealPhase p =>
    cases hc
    obtain ⟨window, -, hf, -, rfl⟩ := beginRevealPhase_cases (within_eq_ok.mp h).1
    exact .inl ⟨rfl, undone (update_self ..) hf⟩
  | _ => cases hc

/-- A call about another project, or about none, adds nothing to a history. -/
theorem resultCount_of_other (h : execute o e s w c = .ok (s', w')) (hc : c.project ≠ some p) :
    s'.resultCount p = s.resultCount p := by
  rcases execute_results h with hr | ⟨q, window, r, hq, hrec⟩
  · exact congrArg (·.resultCount p) hr
  · have hpq : p ≠ q := fun hpq => hc (hpq ▸ hq)
    have hcount := congrArg (·.resultCount p) hrec.results
    exact hcount.trans (update_of_ne hpq _ _)

theorem freshWindow_sound {timestamp : UInt64} : (freshWindow timestamp).Sound :=
  ⟨by simp [freshWindow], fun _ => rfl⟩

theorem sound_reveal {window : WindowState} (hp : window.phase = .reveal)
    (hf : window.finalized = false) : window.Sound :=
  ⟨by simp [hp, hf], by simp [hp]⟩

theorem lawful_keep {quorum : ℕ} {ev : Event contract W} {before after : Option WindowState}
    (hp : before.map (·.phase) = after.map (·.phase))
    (hr : ∀ e admin, ev ≠ .call e (.resetWindow admin p))
    (hf : ∀ window, before = some window → window.finalized = true → after = before) :
    LawfulChange p quorum ev before after where
  change h := absurd hp h
  reset e admin he := absurd he (hr e admin)
  final window hw hfin := .inl (hf window hw hfin)

theorem lawful_change {quorum : ℕ} {ev : Event contract W} {before after : Option WindowState}
    (hc : PhaseChange p quorum ev before after)
    (hr : ∀ e admin, ev ≠ .call e (.resetWindow admin p))
    (hf : ∀ window, before = some window → window.finalized = false) :
    LawfulChange p quorum ev before after where
  change _ := hc
  reset e admin he := absurd he (hr e admin)
  final window hw hfin := absurd ((hf window hw).symm.trans hfin) (by simp)

theorem lawful_reveal {quorum : ℕ} {ev : Event contract W} {window window' : WindowState}
    (h : InPhase v .reveal window) (hr : ∀ e admin, ev ≠ .call e (.resetWindow admin p))
    (hw : v'.window = some window')
    (hc : (window'.phase = .reveal ∧ window'.finalized = false) ∨
      (window'.phase = .finalized ∧ window'.finalized = true ∧
        quorum ≤ window'.submissions.length)) :
    LawfulChange p quorum ev v.window v'.window ∧
      ∀ window, v'.window = some window → window.Sound := by
  have hf : ∀ window, v.window = some window → window.finalized = false := by
    intro window₁ hw₁
    rw [h.stored] at hw₁
    cases hw₁
    exact h.unfinished
  rcases hc with ⟨hp, hf'⟩ | ⟨hp, hf', hq⟩
  · constructor
    · refine lawful_keep ?_ hr fun window hwin hfin =>
        absurd ((hf window hwin).symm.trans hfin) (by simp)
      simp [h.stored, hw, h.phase_eq, hp]
    · rw [hw]
      rintro window₁ ⟨⟩
      exact sound_reveal hp hf'
  · constructor
    · refine lawful_change ?_ hr hf
      rw [h.stored, hw]
      exact .finalized h.phase_eq hp hq
    · rw [hw]
      rintro window₁ ⟨⟩
      exact ⟨by simp [hp, hf'], by simp [hp]⟩

theorem readings_of_getD {window : WindowState} {timestamp : UInt64}
    (h : (s.windowState p).getD { phase := .reveal, openedAt := timestamp } = window) :
    s.readings p = window.submissions := by
  unfold State.readings
  rw [← h]
  cases s.windowState p <;> rfl

theorem submit_open {window : WindowState} {timestamp : UInt64} {sub : ReadingSubmission}
    {closed : Bool}
    (hst : (s.windowState p).getD { phase := .reveal, openedAt := timestamp } = window)
    (hf : window.finalized = false)
    (hlen : (s.readings p).length + 1 < s.config.minOracles.toNat)
    (hq : ((s.view p).submit window sub closed).Done → (s.view p).Done ∨
      ∃ window', ((s.view p).submit window sub closed).window = some window' ∧
        s.config.minOracles.toNat ≤ window'.submissions.length) : closed = false := by
  by_contra hc
  rcases hq ⟨_, rfl, by simpa using hc⟩ with ⟨window', hw', hf'⟩ | ⟨window', hw', hle⟩
  · have hw' : s.windowState p = some window' := hw'
    rw [hw'] at hst
    have heq : window' = window := hst
    exact absurd (hf.symm.trans (heq ▸ hf')) (by simp)
  · cases hw'
    rw [readings_of_getD hst] at hlen
    simp only [List.length_append, List.length_singleton] at hle
    omega

theorem lawful_of_move (hm : Move o e s p (s.view p) c v')
    (hs : ∀ window, s.windowState p = some window → window.Sound)
    (hg : Event.regular s (.call e c : Event contract W))
    (hq : v'.Done → (s.view p).Done ∨ ∃ window, v'.window = some window ∧
      s.config.minOracles.toNat ≤ window.submissions.length) :
    LawfulChange p s.config.minOracles.toNat (.call e c : Event contract W) (s.windowState p)
        v'.window ∧
      ∀ window, v'.window = some window → window.Sound := by
  cases hm with
  | idle hc =>
    refine ⟨lawful_keep rfl ?_ fun _ _ _ => rfl, hs⟩
    rintro e' admin he
    cases he
    exact hc rfl
  | commitReading ha hn hph => exact ⟨lawful_keep rfl nofun fun _ _ _ => rfl, hs⟩
  | openWindow hd =>
    refine ⟨⟨fun _ => ?_, nofun, fun _ _ _ => .inr ⟨_, _, rfl⟩⟩, ?_⟩
    · cases hw : s.windowState p with
      | none => exact .opened rfl
      | some window => exact .reopened ((hs window hw).finalized_iff.mp (hd window hw)) rfl
    · rintro window' hw'
      cases hw'
      exact freshWindow_sound
  | @resetWindow admin window hw =>
    have hw : s.windowState p = some window := hw
    have hf : window.finalized = false := hg window hw
    have hph : window.phase ≠ .finalized := fun hp =>
      absurd (hf.symm.trans ((hs window hw).finalized_iff.mpr hp)) (by simp)
    refine ⟨⟨fun _ => ?_, fun _ _ _ => ⟨⟨window, hw, hf⟩, _, rfl, rfl, rfl⟩, ?_⟩, ?_⟩
    · rw [hw]
      exact .reset hph rfl rfl
    · rintro window' hw' hf'
      rw [hw] at hw'
      cases hw'
      exact absurd (hf.symm.trans hf') (by simp)
    · rintro window' hw'
      cases hw'
      exact freshWindow_sound
  | @beginRevealPhase window hph =>
    refine ⟨lawful_change ?_ nofun ?_, ?_⟩
    · have hw : s.windowState p = some window := hph.stored
      rw [hw]
      exact .revealing hph.phase_eq rfl
    · rintro window' hw'
      have heq : window = window' := Option.some.inj (hph.stored.symm.trans hw')
      exact heq ▸ hph.unfinished
    · rintro window' hw'
      cases hw'
      exact sound_reveal rfl hph.unfinished
  | @revealReading a params window closed ha hn hc hph =>
    cases closed with
    | false => exact lawful_reveal hph nofun rfl (.inl ⟨hph.phase_eq, hph.unfinished⟩)
    | true => exact lawful_reveal hph nofun rfl (.inr ⟨rfl, rfl, hph.quorum hq rfl rfl⟩)
  | @finalizeWindow window closed hph =>
    cases closed with
    | false => exact lawful_reveal hph nofun hph.stored (.inl ⟨hph.phase_eq, hph.unfinished⟩)
    | true => exact lawful_reveal hph nofun rfl (.inr ⟨rfl, rfl, hph.quorum hq rfl rfl⟩)
  | @submitReading a n reading window closed ha hn hst hf =>
    obtain ⟨hcommit, hlen⟩ := hg
    have hc : closed = false := submit_open hst hf hlen hq
    subst hc
    have hst : (s.windowState p).getD { phase := .reveal, openedAt := e.timestamp } = window := hst
    cases hw : s.windowState p with
    | none =>
      rw [hw] at hst
      subst hst
      refine ⟨lawful_change (.created rfl) nofun nofun, ?_⟩
      rintro window' ⟨⟩
      exact sound_reveal rfl rfl
    | some window₀ =>
      rw [hw] at hst
      have heq : window₀ = window := hst
      subst heq
      have hsound := hs _ hw
      have hp : window₀.phase = .reveal := by
        cases hp : window₀.phase with
        | commit => exact absurd hp (hcommit _ hw)
        | reveal => rfl
        | finalized => exact absurd (hf.symm.trans (hsound.finalized_iff.mpr hp)) (by simp)
      have hin : InPhase (s.view p) .reveal window₀ := ⟨hw, hf, hp⟩
      rw [← hw]
      exact lawful_reveal hin nofun rfl (.inl ⟨hp, rfl⟩)

/-- A call about another project leaves a view alone. -/
theorem Move.eq_of_other (h : Move o e s p v c v') (hc : c.project ≠ some p) : v' = v := by
  cases h with
  | idle => rfl
  | _ => exact absurd rfl hc

theorem execute_quorum (p : ProjectId) (hs : execute o e s w c = .ok (s', w'))
    (hd : (s'.view p).Done) :
    (s.view p).Done ∨ ∃ window, (s'.view p).window = some window ∧
      s.config.minOracles.toNat ≤ window.submissions.length := by
  by_cases hc : c.project = some p
  · rcases execute_closing hs hc with ⟨-, hd'⟩ | ⟨window, r, hrec, -, -⟩
    · exact .inl (hd' hd)
    · exact .inr ⟨window, hrec.stored, hrec.quorum⟩
  · rw [(execute_move p hs).eq_of_other hc] at hd
    exact .inl hd

theorem recordsResult_eq_false (h : s'.resultCount p = s.resultCount p) {ev : Event contract W} :
    recordsResult p ⟨(s, w), ev, (s', w')⟩ = false := by
  simp [recordsResult, h]

/-- The lifecycle so far, for sound windows of which only finalized ones have a result. -/
structure Cycle (o : Outside W) (tr : Trace (State × W) (Event contract W)) (s : State) : Prop where
  lifecycle : Lifecycle o tr
  sound : ∀ p window, s.windowState p = some window → window.Sound
  pending : ∀ p, ¬ (s.view p).Done → (segment (Event.starts p) tr).countP (recordsResult p) = 0

theorem cycle_count (h : Cycle o tr s) (hs : execute o e s w c = .ok (s', w'))
    (hl : LawfulChange p s.config.minOracles.toNat (.call e c : Event contract W)
      (s.windowState p) (s'.windowState p)) :
    (segment (Event.starts p) (⟨(s, w), .call e c, (s', w')⟩ :: tr)).countP (recordsResult p) ≤ 1 ∧
      (¬ (s'.view p).Done →
        (segment (Event.starts p) (⟨(s, w), .call e c, (s', w')⟩ :: tr)).countP
          (recordsResult p) = 0) := by
  cases hst : Event.starts p (.call e c : Event contract W) with
  | true =>
    rw [segment_of_opens hst]
    simp
  | false =>
    rw [segment_of_not hst, List.countP_cons]
    have hold := h.lifecycle.once p
    have hpend := h.pending p
    have quiet (hcount : s'.resultCount p = s.resultCount p)
        (hd : ¬ (s'.view p).Done → ¬ (s.view p).Done) :
        (segment (Event.starts p) tr).countP (recordsResult p) +
            (if recordsResult p ⟨(s, w), .call e c, (s', w')⟩ = true then 1 else 0) ≤ 1 ∧
          (¬ (s'.view p).Done → (segment (Event.starts p) tr).countP (recordsResult p) +
            (if recordsResult p ⟨(s, w), .call e c, (s', w')⟩ = true then 1 else 0) = 0) := by
      rw [recordsResult_eq_false hcount]
      exact ⟨hold, fun hd' => hpend (hd hd')⟩
    by_cases hc : c.project = some p
    · rcases execute_closing hs hc with ⟨hres, -⟩ | ⟨window, r, hrec, hf, hd⟩
      · apply quiet (congrArg (·.resultCount p) hres)
        -- a finalized window is left alone unless the call starts the next one
        rintro hd' ⟨window, hw, hf⟩
        rcases hl.final window hw hf with hkeep | ⟨e', admin, he⟩
        · exact hd' ⟨window, hkeep.trans hw, hf⟩
        · rw [he] at hst
          simp [Event.starts] at hst
      · rw [hpend hd]
        refine ⟨by split <;> simp, fun hd' => absurd ⟨window, hrec.stored, hf⟩ hd'⟩
    · have hv : s'.view p = s.view p := (execute_move p hs).eq_of_other hc
      rw [hv]
      have hq := quiet (resultCount_of_other hs hc) (hv ▸ id)
      rw [hv] at hq
      exact hq

theorem cycle_step {ev : Event contract W} (h : Cycle o tr s) (hg : ev.regular s)
    (hs : step o ev (s, w) = .ok (s', w')) : Cycle o (⟨(s, w), ev, (s', w')⟩ :: tr) s' := by
  obtain ⟨⟨hlaw, hsound, honce, hmints⟩, hsnd, hpend⟩ := h
  cases ev with
  | outside u =>
    cases hs
    have hst (p : ProjectId) : Event.starts p (.outside w' : Event contract W) = false := rfl
    have hrec (p : ProjectId) :
        recordsResult p ⟨(s, w), (.outside w' : Event contract W), (s, w')⟩ = false :=
      recordsResult_eq_false rfl
    refine ⟨⟨?_, ?_, ?_, ?_⟩, hsnd, ?_⟩
    · intro p
      exact List.forall_mem_cons.mpr ⟨lawful_keep rfl nofun fun _ _ _ => rfl, hlaw p⟩
    · intro p
      exact List.forall_mem_cons.mpr ⟨fun window hw => hsnd p window (hw.elim id id), hsound p⟩
    · intro p
      rw [segment_of_not (hst p), List.countP_cons, hrec p]
      exact honce p
    · exact List.forall_mem_cons.mpr ⟨fun _ => rfl, hmints⟩
    · intro p hd
      rw [segment_of_not (hst p), List.countP_cons, hrec p]
      exact hpend p hd
  | call e c =>
    have hl (p : ProjectId) := lawful_of_move (execute_move p hs) (hsnd p) hg (execute_quorum p hs)
    have hcount (p : ProjectId) := cycle_count ⟨⟨hlaw, hsound, honce, hmints⟩, hsnd, hpend⟩ hs
      (hl p).1
    refine ⟨⟨?_, ?_, fun p => (hcount p).1, ?_⟩, fun p => (hl p).2, fun p => (hcount p).2⟩
    · intro p
      exact List.forall_mem_cons.mpr ⟨(hl p).1, hlaw p⟩
    · intro p
      exact List.forall_mem_cons.mpr
        ⟨fun window hw => hw.elim (hsnd p window) ((hl p).2 window), hsound p⟩
    · exact List.forall_mem_cons.mpr ⟨execute_unrecorded hs, hmints⟩

theorem cycle_run {sw : State × W} (h : (machine contract o).Run Machine.anyCall tr sw)
    (hg : ∀ st ∈ tr, st.label.regular st.before.1) : Cycle o tr sw.1 := by
  induction h with
  | init h =>
    obtain ⟨admin, stakingToken, treasury, hs⟩ := h
    rw [(initialise_eq_ok.mp hs).2]
    exact ⟨⟨by simp, by simp, by simp [Foundation.segment], by simp⟩, by simp,
      by simp [Foundation.segment]⟩
  | step hr _ hs ih =>
    obtain ⟨hg, hgs⟩ := List.forall_mem_cons.mp hg
    exact cycle_step (ih hgs) hg hs

theorem regular_of_lawful {ev : Event contract W} (hs : step o ev (s, w) = .ok (s', w'))
    (hl : ∀ p, LawfulChange p s.config.minOracles.toNat ev (s.windowState p) (s'.windowState p))
    (hsnd : ∀ p window, s.windowState p = some window ∨ s'.windowState p = some window →
      window.Sound) : ev.regular s := by
  unfold Event.regular
  split
  · rename_i e a p n reading
    obtain ⟨r, hs⟩ := discard_eq_ok.mp hs
    obtain ⟨-, -, -, window, closed, hg, hf, hn, hwin, -⟩ := submitReading_cases hs
    have hafter := (congrArg (·.windowState p) hwin).trans (update_self ..)
    have hsound := hsnd p _ (.inr hafter)
    have hcommit : window.phase ≠ .commit := fun hp => by simpa using hsound.commit_empty hp
    have hc : closed = false := by
      by_contra hc
      have hp : window.phase = .finalized := hsound.finalized_iff.mp (by simpa using hc)
      cases hw : s.windowState p with
      | none =>
        rw [hw] at hg
        subst hg
        cases hp
      | some window₀ =>
        rw [hw] at hg
        have heq : window₀ = window := hg
        have hfin := (hsnd p _ (.inl hw)).finalized_iff.mpr (heq ▸ hp)
        exact absurd (hf.symm.trans (heq ▸ hfin)) (by simp)
    constructor
    · intro window₀ hw
      rw [hw] at hg
      have heq : window₀ = window := hg
      exact heq ▸ hcommit
    · rw [readings_of_getD hg]
      exact hn hc
  · rename_i e admin p
    obtain ⟨⟨window, hw, hf⟩, -⟩ := (hl p).reset e admin rfl
    intro window' hw'
    have heq : window = window' := Option.some.inj (hw.symm.trans hw')
    exact heq ▸ hf
  · trivial

/--
A run keeps to the lifecycle exactly when no direct reading enters the commit
phase or completes a quorum, and no finalized window is reset.
-/
theorem lifecycle_iff {sw : State × W} (h : (machine contract o).Run Machine.anyCall tr sw) :
    Lifecycle o tr ↔ ∀ st ∈ tr, st.label.regular st.before.1 := by
  constructor
  · rintro hl ⟨⟨s, w⟩, ev, ⟨s', w'⟩⟩ hst
    obtain ⟨tr', -, -, hs⟩ := h.mem _ hst
    exact regular_of_lawful hs (fun p => hl.lawful p _ hst) fun p => hl.sound p _ hst
  · intro hg
    exact (cycle_run h hg).lifecycle

section Sample

/-- Under a quorum of two, two oracles commit and reveal, and the second reveal ends the window. -/
def regularRun : List (Event station Unit) :=
  [calledAt 0 0 (.addOracle (.account 0) (.account 1)),
    calledAt 0 0 (.addOracle (.account 0) (.account 2)),
    calledAt 0 0 (.updateConfig (.account 0) { installed.1.config with minOracles := 2 }),
    calledAt 0 0 (.openWindow (.account 0) 7),
    calledAt 0 1 (.commitReading (.account 1) 7 1 0),
    calledAt 0 2 (.commitReading (.account 2) 7 1 0),
    calledAt 300 9 (.beginRevealPhase 7),
    calledAt 300 1 (.revealReading (.account 1) 7 { clearWater with nonce := 1, salt := 0 }),
    calledAt 300 2 (.revealReading (.account 2) 7 { clearWater with nonce := 1, salt := 0 })]

set_option maxRecDepth 2000 in
theorem lifecycle_finalized :
    ∃ tr, (machine station offline).Run Machine.anyCall tr
        ((machine station offline).calls installed regularRun) ∧
      (((machine station offline).calls installed regularRun).1.windowState 7).map (·.phase) =
        some .finalized ∧ Lifecycle offline tr := by
  obtain ⟨tr, h, -, hl⟩ := Machine.Run.calls (L := regularRun) (G := Machine.anyCall)
    (fun _ _ _ _ _ => trivial) (.init (installed_init (o := offline))) (by simp)
    (List.Subset.refl _)
  refine ⟨tr, h, by rfl, (lifecycle_iff h).mpr fun st hst => ?_⟩
  have hst := hl st hst
  simp only [regularRun, List.mem_cons, List.not_mem_nil, or_false] at hst
  rcases hst with h | h | h | h | h | h | h | h | h <;> rw [h] <;> trivial

/-- Two direct readings finalize a window of the commit phase. -/
def closedDirectly : State × Unit :=
  (machine station offline).calls installed
    (regularRun.take 4 ++ [calledAt 0 1 (.submitReading (.account 1) 7 1 clearWater),
      calledAt 0 2 (.submitReading (.account 2) 7 1 clearWater)])

/-- The admin takes the finalized window back. -/
def takenBack : Event station Unit := calledAt 0 0 (.resetWindow (.account 0) 7)

set_option maxRecDepth 2000 in
theorem finalized_window_reset :
    ∃ tr, (machine station offline).Run Machine.anyCall tr
        ((machine station offline).call closedDirectly takenBack) ∧
      (closedDirectly.1.windowState 7).map (fun w => (w.phase, w.finalized, w.submissions.length)) =
        some (.commit, true, 2) ∧
      (((machine station offline).call closedDirectly takenBack).1.windowState 7).map
          (fun w => (w.finalized, w.submissions.length)) = some (false, 0) ∧
      ¬ Lifecycle offline tr := by
  have hr : (machine station offline).Reachable closedDirectly :=
    Machine.Reachable.calls ⟨_, .init installed_init⟩ _
  obtain ⟨tr, h⟩ := hr
  have hfin : (closedDirectly.1.windowState 7).map (·.finalized) = some true := by rfl
  refine ⟨_, h.call (l := takenBack) trivial (by rfl), by rfl, by rfl, fun hl => ?_⟩
  obtain ⟨⟨window, hw, hf⟩, -⟩ := (hl.lawful 7 _ List.mem_cons_self).reset _ _ rfl
  have hw : closedDirectly.1.windowState 7 = some window := hw
  rw [hw] at hfin
  exact absurd (hf.symm.trans (Option.some.inj hfin)) (by simp)

end Sample

end WaterCredits.Oracle
