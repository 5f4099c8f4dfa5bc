import WaterCredits.Oracle.OpenIndex

/-! # Markers of the current window

Commitments, reveals and direct readings leave a marker each, and finalizers and
resets clear the markers of some oracles only. No marker outlives its window as
long as each of these calls finds no marker that it would leave behind.
-/

namespace WaterCredits.Oracle

open Foundation Function

variable {contract : Address} {W : Type} {o : Outside W} {e : Env contract} {s s' : State}
  {w w' : W} {p q : ProjectId} {a : Address} {c : Call} {v v' : View}
  {seg tr : Trace (State × W) (Event contract W)} {st : Step (State × W) (Event contract W)}

namespace Event

def commits (p : ProjectId) (a : Address) : Event contract W → Prop
  | .call _ (.commitReading b q _ _) => q = p ∧ b = a
  | _ => False

def commitsTo (p : ProjectId) (a : Address) (info : CommitInfo) : Event contract W → Prop
  | .call _ (.commitReading b q n commitment) => q = p ∧ b = a ∧ info = ⟨commitment, n⟩
  | _ => False

theorem commits_of_commitsTo {info : CommitInfo} {ev : Event contract W}
    (h : ev.commitsTo p a info) : ev.commits p a := by
  unfold commitsTo at h
  split at h
  · exact ⟨h.1, h.2.1⟩
  · exact h.elim

end Event

/--
The markers of a project are those of its current window, which the steps `seg`
belong to, and the three checks on them pass for an oracle that has not acted.
-/
structure MarkersCurrent (p : ProjectId) (seg : Trace (State × W) (Event contract W))
    (s : State) : Prop where
  committed : ∀ a info, s.commitment (p, a) = some info →
    s.Live p ∧ ∃ st ∈ seg, st.label.commitsTo p a info
  revealed : ∀ a, s.oracleRevealed (p, a) = true → s.Live p ∧ ∃ st ∈ seg, st.label.reveals p a
  submitted : ∀ a, s.oracleSubmitted (p, a) = true → s.Live p ∧ ∃ st ∈ seg, st.label.submits p a
  marked : ∀ window, s.windowState p = some window → window.finalized = false →
    ∀ sub ∈ window.submissions,
      s.oracleRevealed (p, sub.oracle) = true ∨ s.oracleSubmitted (p, sub.oracle) = true
  mayCommit : ∀ a, (∀ st ∈ seg, ¬ st.label.commits p a) →
    ensure (s.commitment (p, a) = none) "oracle already committed" = .ok ()
  mayReveal : ∀ a, (∀ st ∈ seg, ¬ st.label.reveals p a) →
    ensure (s.oracleRevealed (p, a) = false) "oracle already revealed" = .ok ()
  maySubmit : ∀ a, (∀ st ∈ seg, ¬ st.label.submits p a) →
    ensure (s.oracleSubmitted (p, a) = false) "oracle already submitted for this window" = .ok ()

/-- The markers that the end of a window clears are all that there are. -/
structure State.Clearable (s : State) (p : ProjectId) : Prop where
  submitted : ∀ a, s.oracleSubmitted (p, a) = false
  committed : ∀ a, (s.commitment (p, a)).isSome = true → a ∈ s.oracleList

/--
No direct reading completes a quorum. A reveal or an explicit finalization that
ends a window finds no direct reading in it, and like a reset no commitment of
an oracle whose markers it does not clear.
-/
def Event.clears (s : State) : Event contract W → Prop
  | .call _ (.submitReading _ p _ _) => (s.readings p).length + 1 < s.config.minOracles.toNat
  | .call _ (.revealReading _ p _) =>
      s.config.minOracles.toNat ≤ (s.readings p).length + 1 → s.Clearable p
  | .call _ (.finalizeWindow p) =>
      s.config.minOracles.toNat ≤ (s.readings p).length → s.Clearable p
  | .call _ (.resetWindow _ p) => ∀ a, (s.commitment (p, a)).isSome = true →
      a ∈ (s.readings p).map (·.oracle) ++ s.oracleList
  | _ => True

def View.Live (v : View) : Prop := ∃ window, v.window = some window ∧ window.finalized = false

theorem View.Live.not_done (h : v.Live) : ¬ v.Done := by
  obtain ⟨window, hw, hf⟩ := h
  rintro ⟨window', hw', hf'⟩
  have heq : window = window' := Option.some.inj (hw.symm.trans hw')
  exact absurd (hf.symm.trans (heq ▸ hf')) (by simp)

theorem InPhase.live {phase : WindowPhase} {window : WindowState} (h : InPhase v phase window) :
    v.Live := ⟨window, h.stored, h.unfinished⟩

/-- The markers of a window with the facts that carry them from step to step. -/
structure Markers (p : ProjectId) (seg : Trace (State × W) (Event contract W)) (v : View) :
    Prop where
  committed : ∀ a info, v.commitment a = some info →
    v.Live ∧ ∃ st ∈ seg, st.label.commitsTo p a info
  revealed : ∀ a, v.revealed a = true →
    (v.commitment a).isSome = true ∧ ∃ st ∈ seg, st.label.reveals p a
  submitted : ∀ a, v.submitted a = true → v.Live ∧ ∃ st ∈ seg, st.label.submits p a
  marked : ∀ window, v.window = some window → window.finalized = false →
    ∀ sub ∈ window.submissions, v.revealed sub.oracle = true ∨ v.submitted sub.oracle = true
  entered : ∀ window, v.window = some window → ∀ a,
    v.revealed a = true ∨ v.submitted a = true → a ∈ window.submissions.map (·.oracle)

namespace Markers

theorem empty (hc : ∀ a, v.commitment a = none) (hr : ∀ a, v.revealed a = false)
    (hs : ∀ a, v.submitted a = false)
    (hw : ∀ window, v.window = some window → window.finalized = false → window.submissions = []) :
    Markers p seg v := by
  constructor
  · simp [hc]
  · simp [hr]
  · simp [hs]
  · intro window hwin hf
    simp [hw window hwin hf]
  · simp [hr, hs]

theorem extend (h : Markers p seg v) (hlive : v.Live → v'.Live)
    (hcom : ∀ a info, v'.commitment a = some info →
      v.commitment a = some info ∨ v'.Live ∧ st.label.commitsTo p a info)
    (hrev : ∀ a, v'.revealed a = true →
      (v'.commitment a).isSome = true ∧ (v.revealed a = true ∨ st.label.reveals p a))
    (hsub : ∀ a, v'.submitted a = true → v.submitted a = true ∨ v'.Live ∧ st.label.submits p a)
    (hmark : ∀ window, v'.window = some window → window.finalized = false →
      ∀ sub ∈ window.submissions, v'.revealed sub.oracle = true ∨ v'.submitted sub.oracle = true)
    (hent : ∀ window, v'.window = some window → ∀ a,
      v'.revealed a = true ∨ v'.submitted a = true → a ∈ window.submissions.map (·.oracle)) :
    Markers p (st :: seg) v' := by
  constructor
  · intro a info ha
    rcases hcom a info ha with ha | ⟨hl, hst⟩
    · obtain ⟨hl, st', hst', hlab⟩ := h.committed a info ha
      exact ⟨hlive hl, st', List.mem_cons_of_mem _ hst', hlab⟩
    · exact ⟨hl, st, List.mem_cons_self, hst⟩
  · intro a ha
    obtain ⟨hc, ha | hst⟩ := hrev a ha
    · obtain ⟨-, st', hst', hlab⟩ := h.revealed a ha
      exact ⟨hc, st', List.mem_cons_of_mem _ hst', hlab⟩
    · exact ⟨hc, st, List.mem_cons_self, hst⟩
  · intro a ha
    rcases hsub a ha with ha | ⟨hl, hst⟩
    · obtain ⟨hl, st', hst', hlab⟩ := h.submitted a ha
      exact ⟨hlive hl, st', List.mem_cons_of_mem _ hst', hlab⟩
    · exact ⟨hl, st, List.mem_cons_self, hst⟩
  · exact hmark
  · exact hent

theorem keep (h : Markers p seg v) (hlive : v.Live → v'.Live)
    (hc : v'.commitment = v.commitment) (hr : v'.revealed = v.revealed)
    (hs : v'.submitted = v.submitted)
    (hw : ∀ window', v'.window = some window' → ∃ window, v.window = some window ∧
      window'.submissions = window.submissions ∧
        (window'.finalized = false → window.finalized = false)) :
    Markers p (st :: seg) v' := by
  refine h.extend hlive (fun a info ha => .inl (hc ▸ ha)) ?_ (fun a ha => .inl (hs ▸ ha)) ?_ ?_
  · intro a ha
    rw [hr] at ha
    exact ⟨hc ▸ (h.revealed a ha).1, .inl ha⟩
  · intro window' hw' hf sub hsub
    obtain ⟨window, hwin, heq, hfin⟩ := hw window' hw'
    rw [hr, hs]
    exact h.marked window hwin (hfin hf) sub (heq ▸ hsub)
  · intro window' hw' b hb
    obtain ⟨window, hwin, heq, -⟩ := hw window' hw'
    rw [hr, hs] at hb
    exact heq ▸ h.entered window hwin b hb

theorem close {oracles : List Address} {window : WindowState}
    (hc : ∀ a, (v.commitment a).isSome = true → a ∈ oracles)
    (hr : ∀ a, v.revealed a = true → a ∈ oracles) (hs : ∀ a, v.submitted a = false) :
    Markers p seg (v.close oracles window) := by
  refine empty (fun a => ?_) (fun a => ?_) hs ?_
  · by_cases ha : a ∈ oracles
    · simp [View.close, ha]
    · have hn : v.commitment a = none := by simpa using fun h => ha (hc a h)
      simp [View.close, ha, hn]
  · by_cases ha : a ∈ oracles
    · simp [View.close, ha]
    · have hn : v.revealed a = false := by simpa using fun h => ha (hr a h)
      simp [View.close, ha, hn]
  · rintro window' ⟨⟩ hf
    cases hf

theorem reset {oracles : List Address} {timestamp : UInt64}
    (hcom : ∀ b, (v.commitment b).isSome = true → b ∈ oracles)
    (hact : ∀ b, v.revealed b = true ∨ v.submitted b = true → b ∈ oracles) :
    Markers p seg (v.reset oracles timestamp) := by
  apply empty
  · intro b
    simpa only [View.reset, ite_eq_left_iff, Option.isSome_iff_ne_none, ne_eq, not_imp_comm]
      using hcom b
  · intro b
    simp only [View.reset, ite_eq_left_iff]
    exact fun hn => by simpa using mt (fun hb => hact b (.inl hb)) hn
  · intro b
    simp only [View.reset, ite_eq_left_iff]
    exact fun hn => by simpa using mt (fun hb => hact b (.inr hb)) hn
  · rintro window ⟨⟩ -
    rfl

theorem commit {info : CommitInfo} (h : Markers p seg v) (hlive : v.Live)
    (hst : st.label.commitsTo p a info) :
    Markers p (st :: seg) { v with commitment := update v.commitment a (some info) } := by
  refine h.extend id ?_ ?_ (fun b => .inl) h.marked h.entered
  · intro b info' hb
    by_cases hba : b = a
    · subst hba
      have heq : info = info' := by simpa using hb
      exact .inr ⟨hlive, heq ▸ hst⟩
    · simp only [update_of_ne hba] at hb
      exact .inl hb
  · intro b hb
    refine ⟨?_, .inl hb⟩
    by_cases hba : b = a
    · simp [hba]
    · simpa [update_of_ne hba] using (h.revealed b hb).1

theorem submit {window : WindowState} {sub : ReadingSubmission} (h : Markers p seg v)
    (hf : window.finalized = false)
    (hold : v.window = some window ∨ window.submissions = [] ∧
      (∀ b, v.revealed b = false) ∧ ∀ b, v.submitted b = false)
    (hst : st.label.submits p sub.oracle) :
    Markers p (st :: seg) (v.submit window sub false) := by
  have hlive : (v.submit window sub false).Live := ⟨_, rfl, rfl⟩
  have hkeep : ∀ b, v.submitted b = true → (v.submit window sub false).submitted b = true := by
    intro b hb
    simp only [View.submit, update_apply]
    split <;> simp [hb]
  refine h.extend (fun _ => hlive) (fun b info => .inl) ?_ ?_ ?_ ?_
  · intro b hb
    exact ⟨(h.revealed b hb).1, .inl hb⟩
  · intro b hb
    by_cases hba : b = sub.oracle
    · exact .inr ⟨hlive, hba ▸ hst⟩
    · simp only [View.submit, update_of_ne hba] at hb
      exact .inl hb
  · rintro window' ⟨⟩ - sub' hsub
    rcases List.mem_append.mp hsub with hsub | hsub
    · rcases hold with hw | ⟨hnil, -⟩
      · exact (h.marked window hw hf sub' hsub).imp_right (hkeep _)
      · exact absurd (hnil ▸ hsub) List.not_mem_nil
    · rw [List.mem_singleton.mp hsub]
      exact .inr (update_self ..)
  · rintro window' ⟨⟩ b hb
    rw [List.map_append, List.mem_append]
    by_cases hba : b = sub.oracle
    · exact .inr (by simp [hba])
    · simp only [View.submit, update_of_ne hba] at hb
      rcases hold with hw | ⟨-, hr, hs⟩
      · exact .inl (h.entered window hw b hb)
      · simp [hr b, hs b] at hb

theorem reveal {oracles : List Address} {window : WindowState} {sub : ReadingSubmission}
    (h : Markers p seg v) (hw : v.window = some window) (hf : window.finalized = false)
    (hc : (v.commitment sub.oracle).isSome = true) (hst : st.label.reveals p sub.oracle) :
    Markers p (st :: seg) (v.reveal oracles window sub false) := by
  have hlive : (v.reveal oracles window sub false).Live := ⟨_, rfl, hf⟩
  have hkeep : ∀ b, v.revealed b = true →
      (v.reveal oracles window sub false).revealed b = true := by
    intro b hb
    simp only [View.reveal, update_apply, Bool.false_eq_true, if_false]
    split <;> simp [hb]
  refine h.extend (fun _ => hlive) (fun b info => .inl) ?_ (fun b => .inl) ?_ ?_
  · intro b hb
    by_cases hba : b = sub.oracle
    · subst hba
      exact ⟨hc, .inr hst⟩
    · simp only [View.reveal, Bool.false_eq_true, if_false, update_of_ne hba] at hb
      exact ⟨(h.revealed b hb).1, .inl hb⟩
  · rintro window' ⟨⟩ - sub' hsub
    rcases List.mem_append.mp hsub with hsub | hsub
    · exact (h.marked window hw hf sub' hsub).imp_left (hkeep _)
    · rw [List.mem_singleton.mp hsub]
      exact .inl (update_self ..)
  · rintro window' ⟨⟩ b hb
    rw [List.map_append, List.mem_append]
    by_cases hba : b = sub.oracle
    · exact .inr (by simp [hba])
    · simp only [View.reveal, Bool.false_eq_true, if_false, update_of_ne hba] at hb
      exact .inl (h.entered window hw b hb)

theorem penalize {oracles : List Address} (h : Markers p seg v) :
    Markers p (st :: seg) (v.penalize oracles) := by
  refine h.extend id (fun b info hb => .inl (View.commitment_of_penalize hb)) ?_ (fun b => .inl)
    h.marked h.entered
  intro b hb
  have hb : v.revealed b = true := hb
  refine ⟨?_, .inl hb⟩
  simpa [View.penalize, hb] using (h.revealed b hb).1

theorem none_of_not_live (h : Markers p seg v) (hl : ¬ v.Live) :
    (∀ a, v.commitment a = none) ∧ (∀ a, v.revealed a = false) ∧ ∀ a, v.submitted a = false := by
  have hc : ∀ a, v.commitment a = none := fun a => by
    cases ha : v.commitment a with
    | none => rfl
    | some info => exact absurd (h.committed a info ha).1 hl
  refine ⟨hc, fun a => ?_, fun a => ?_⟩
  · cases ha : v.revealed a with
    | false => rfl
    | true => exact absurd (h.revealed a ha).1 (by simp [hc a])
  · cases ha : v.submitted a with
    | false => rfl
    | true => exact absurd (h.submitted a ha).1 hl

end Markers

theorem readings_of_window {window : WindowState} (h : s.windowState p = some window) :
    s.readings p = window.submissions := by
  simp [State.readings, h]

theorem Move.markers (hm : Move o e s p (s.view p) c v')
    (hq : v'.Done → (s.view p).Done ∨ ∃ window, v'.window = some window ∧
      s.config.minOracles.toNat ≤ window.submissions.length)
    (hg : Event.clears s (.call e c : Event contract W))
    (h : Markers p (segment (Event.opens p) tr) (s.view p)) :
    Markers p (segment (Event.opens p) (⟨(s, w), .call e c, (s', w')⟩ :: tr)) v' := by
  cases hm with
  | idle hc =>
    have hn : Event.opens p (.call e c : Event contract W) = false := Event.opens_of_ne hc
    rw [segment_of_not hn]
    exact h.keep id rfl rfl rfl fun window hw => ⟨window, hw, rfl, id⟩
  | openWindow hd =>
    rw [segment_of_opens (by simp [Event.opens])]
    have hl : ¬ (s.view p).Live := by
      rintro ⟨window, hw, hf⟩
      exact absurd (hf.symm.trans (hd window hw)) (by simp)
    obtain ⟨hc, hr, hs⟩ := h.none_of_not_live hl
    refine Markers.empty hc hr hs ?_
    rintro window ⟨⟩ -
    rfl
  | @resetWindow admin window hw =>
    rw [segment_of_opens (by simp [Event.opens])]
    apply Markers.reset
    · intro a ha
      have hmem := hg a ha
      rwa [readings_of_window hw] at hmem
    · exact fun a ha => List.mem_append_left _ (h.entered window hw a ha)
  | commitReading ha hn hph =>
    rw [segment_of_not rfl]
    exact h.commit hph.live ⟨rfl, rfl, rfl⟩
  | @beginRevealPhase window hph =>
    rw [segment_of_not rfl]
    refine h.keep (fun _ => ⟨_, rfl, hph.unfinished⟩) rfl rfl rfl ?_
    rintro window' ⟨⟩
    exact ⟨window, hph.stored, rfl, id⟩
  | @submitReading a n reading window closed ha hn hst hf =>
    rw [segment_of_not rfl]
    have hst : (s.windowState p).getD { phase := .reveal, openedAt := e.timestamp } = window := hst
    have hc : closed = false := submit_open hst hf hg hq
    subst hc
    apply h.submit hf
    · cases hw : s.windowState p with
      | some window₀ =>
        rw [hw] at hst
        exact .inl (hw.trans (congrArg some hst))
      | none =>
        rw [hw] at hst
        refine .inr ⟨hst ▸ rfl, (h.none_of_not_live ?_).2⟩
        rintro ⟨window', hw', -⟩
        exact absurd (hw.symm.trans hw') (by simp)
    · exact ⟨rfl, rfl⟩
  | @revealReading a params window closed ha hn hc hph =>
    rw [segment_of_not rfl]
    have hisSome : ((s.view p).commitment a).isSome = true := by simp [hc]
    cases closed with
    | true =>
      have hclr : s.Clearable p := by
        have hlen := hph.quorum hq rfl rfl
        apply hg
        rw [readings_of_window hph.stored]
        simpa using hlen
      refine Markers.close hclr.committed (fun b hb => ?_) hclr.submitted
      by_cases hba : b = a
      · exact hba ▸ hclr.committed a hisSome
      · simp only [revealSub, update_of_ne hba] at hb
        exact hclr.committed b (h.revealed b hb).1
    | false => exact h.reveal hph.stored hph.unfinished hisSome ⟨rfl, rfl⟩
  | @finalizeWindow window closed hph =>
    rw [segment_of_not rfl]
    cases closed with
    | true =>
      have hclr : s.Clearable p := by
        have hlen := hph.quorum hq rfl rfl
        apply hg
        rwa [readings_of_window hph.stored]
      refine Markers.close (fun b hb => ?_) (fun b hb => ?_) hclr.submitted
      · obtain ⟨info, hb⟩ := Option.isSome_iff_exists.mp hb
        exact hclr.committed b (Option.isSome_iff_exists.mpr ⟨info, View.commitment_of_penalize hb⟩)
      · exact hclr.committed b (h.revealed b hb).1
    | false => exact h.penalize

theorem markers_run {sw : State × W} (h : (machine contract o).Run Machine.anyCall tr sw)
    (hg : ∀ st ∈ tr, st.label.clears st.before.1) (p : ProjectId) :
    Markers p (segment (Event.opens p) tr) (sw.1.view p) := by
  induction h with
  | init h =>
    obtain ⟨admin, stakingToken, treasury, hs⟩ := h
    rw [(initialise_eq_ok.mp hs).2]
    exact Markers.empty (fun _ => rfl) (fun _ => rfl) (fun _ => rfl)
      fun _ hst => by cases hst
  | @step tr sw sw' ev hr _ hs ih =>
    obtain ⟨hg, hgs⟩ := List.forall_mem_cons.mp hg
    cases ev with
    | outside u =>
      cases hs
      rw [segment_of_not rfl]
      exact (ih hgs).keep id rfl rfl rfl fun window hw => ⟨window, hw, rfl, id⟩
    | call e c => exact (execute_move p hs).markers (execute_quorum p hs) hg (ih hgs)

theorem Markers.current (h : Markers p seg (s.view p)) : MarkersCurrent p seg s where
  committed := h.committed
  revealed a ha := by
    obtain ⟨hc, hst⟩ := h.revealed a ha
    obtain ⟨info, hc⟩ := Option.isSome_iff_exists.mp hc
    exact ⟨(h.committed a info hc).1, hst⟩
  submitted := h.submitted
  marked := h.marked
  mayCommit a ha := by
    apply ensure_eq_ok.mpr
    cases hc : s.commitment (p, a) with
    | none => rfl
    | some info =>
      obtain ⟨-, st, hst, hlab⟩ := h.committed a info hc
      exact absurd (Event.commits_of_commitsTo hlab) (ha st hst)
  mayReveal a ha := by
    apply ensure_eq_ok.mpr
    cases hc : s.oracleRevealed (p, a) with
    | false => rfl
    | true =>
      obtain ⟨-, st, hst, hlab⟩ := h.revealed a hc
      exact absurd hlab (ha st hst)
  maySubmit a ha := by
    apply ensure_eq_ok.mpr
    cases hc : s.oracleSubmitted (p, a) with
    | false => rfl
    | true =>
      obtain ⟨-, st, hst, hlab⟩ := h.submitted a hc
      exact absurd hlab (ha st hst)

theorem finalizeWindow_closes {r : Option VerificationResult}
    (h : s.finalizeWindow o e p w = .ok (r, s', w'))
    (hq : s.config.minOracles.toNat ≤ (s.readings p).length) :
    ∃ window, s'.windows = (s.windows.penalize p).close p window := by
  simp only [State.finalizeWindow, bind_eq_ok, ensure_eq_ok, State.expectWindow_eq_ok] at h
  obtain ⟨_, -, window, hw, _, hf, _, -, _, -, ⟨t, u⟩, ht, h⟩ := h
  have ht := penalizeLoop_frame ht
  obtain ⟨window', closed, hw', hopen, -, hwin, -⟩ := finalizeReveals_cases h
  have hwt : t.windowState p = s.windowState p := by rw [ht]
  have hct : t.config = s.config := by rw [ht]
  have heq : window' = window := Option.some.inj (hw'.symm.trans (hwt.trans hw))
  subst heq
  have hc : closed = true := by
    by_contra hc
    have hlt := hopen hf (by simpa using hc)
    rw [hct, ← readings_of_window hw] at hlt
    omega
  have htw : t.windows = s.windows.penalize p := by
    rw [ht]
    rfl
  subst hc
  exact ⟨window', htw ▸ hwin⟩

theorem clearable_of_close {ws : Windows} {window : WindowState}
    (h : s'.windows = ws.close p window) (hs : ws.oracleSubmitted = s.oracleSubmitted)
    (hc : ∀ a, a ∉ s.oracleList → ws.commitment (p, a) = s.commitment (p, a))
    (hl : ws.oracleList = s.oracleList) (h' : MarkersCurrent p seg s') : s.Clearable p := by
  have hdead : ¬ s'.Live p := by
    have hw : s'.windowState p = some { window with phase := .finalized, finalized := true } :=
      (congrArg (·.windowState p) h).trans (update_self ..)
    rw [State.live_iff hw]
    simp
  constructor
  · intro a
    have hsub : s'.oracleSubmitted (p, a) = s.oracleSubmitted (p, a) :=
      (congrArg (·.oracleSubmitted (p, a)) h).trans (congrFun hs _)
    rw [← hsub]
    by_contra ha
    exact hdead (h'.submitted a (by simpa using ha)).1
  · intro a ha
    by_contra hmem
    obtain ⟨info, ha⟩ := Option.isSome_iff_exists.mp ha
    have hcom : s'.commitment (p, a) = some info := by
      apply (congrArg (·.commitment (p, a)) h).trans
      simp only [Windows.close, hl, hmem, and_false, if_false]
      exact (hc a hmem).trans ha
    exact hdead (h'.committed a info hcom).1

theorem clears_of_current {ev : Event contract W} (hs : step o ev (s, w) = .ok (s', w'))
    (h' : ∀ p, MarkersCurrent p (segment (Event.opens p) (⟨(s, w), ev, (s', w')⟩ :: tr)) s') :
    ev.clears s := by
  unfold Event.clears
  split
  · rename_i e a p n reading
    obtain ⟨r, hs⟩ := discard_eq_ok.mp hs
    obtain ⟨-, -, -, window, closed, hg, -, hlen, hwin, -⟩ := submitReading_cases hs
    rw [readings_of_getD hg]
    apply hlen
    have hsub : s'.oracleSubmitted (p, a) = true :=
      (congrArg (·.oracleSubmitted (p, a)) hwin).trans (update_self ..)
    have hw : s'.windowState p = some _ :=
      (congrArg (·.windowState p) hwin).trans (update_self ..)
    exact (State.live_iff hw).mp ((h' p).submitted a hsub).1
  · rename_i e a p params
    intro hq
    obtain ⟨r, hs⟩ := discard_eq_ok.mp hs
    obtain ⟨-, -, -, -, window, closed, hw, -, -, hlen, hwin, -⟩ := revealReading_cases hs
    have hc : closed = true := by
      by_contra hc
      have hlt := hlen (by simpa using hc)
      rw [readings_of_window hw] at hq
      omega
    subst hc
    exact clearable_of_close hwin rfl (fun _ _ => rfl) rfl (h' p)
  · rename_i e p
    intro hq
    obtain ⟨r, hs⟩ := discard_eq_ok.mp hs
    obtain ⟨window, hwin⟩ := finalizeWindow_closes hs hq
    refine clearable_of_close hwin rfl (fun a ha => if_neg ?_) rfl (h' p)
    rintro ⟨-, hmem, -⟩
    exact ha hmem
  · rename_i e admin p
    intro a ha
    obtain ⟨window, hw, hwin, -⟩ := resetWindow_cases (within_eq_ok.mp hs).1
    obtain ⟨info, ha⟩ := Option.isSome_iff_exists.mp ha
    by_contra hmem
    rw [readings_of_window hw] at hmem
    have hcom : s'.commitment (p, a) = some info := by
      apply (congrArg (·.commitment (p, a)) hwin).trans
      simp only [hmem, and_false, if_false]
      exact ha
    obtain ⟨-, st, hst, -⟩ := (h' p).committed a info hcom
    rw [segment_of_opens (by simp [Event.opens])] at hst
    exact absurd hst List.not_mem_nil
  · trivial

/--
Along a run the markers of every project are those of its current window exactly
when no call leaves a marker behind.
-/
theorem markers_current_iff {sw : State × W}
    (h : (machine contract o).Run Machine.anyCall tr sw) :
    (∀ tr' sw', tr' <:+ tr → (machine contract o).Run Machine.anyCall tr' sw' →
        ∀ p, MarkersCurrent p (segment (Event.opens p) tr') sw'.1) ↔
      ∀ st ∈ tr, st.label.clears st.before.1 := by
  constructor
  · rintro hm ⟨⟨s, w⟩, ev, ⟨s', w'⟩⟩ hst
    obtain ⟨post, pre, rfl⟩ := List.append_of_mem hst
    obtain ⟨hr, hg, hs⟩ := h.split
    exact clears_of_current hs (hm _ _ (List.suffix_append _ _) (hr.step hg hs))
  · rintro hg tr' sw' hsuf hr p
    exact (markers_run hr (fun st hst => hg st (hsuf.subset hst)) p).current

section Sample

def clearReveal : Event station Unit :=
  calledAt 300 1 (.revealReading (.account 1) 7 { clearWater with nonce := 1, salt := 0 })

/-- The oracle `1` has committed and the reveal phase has begun. -/
def readyToReveal : State × Unit := (machine station offline).calls installed (oneRevealed.take 6)

set_option maxRecDepth 2000 in
theorem markers_current_revealed :
    ∃ tr, (machine station offline).Run Machine.anyCall tr
        ((machine station offline).call readyToReveal clearReveal) ∧
      ((machine station offline).call readyToReveal clearReveal).1.oracleRevealed (7, .account 1) =
        true ∧
      ∀ p, MarkersCurrent p (segment (Event.opens p) tr)
        ((machine station offline).call readyToReveal clearReveal).1 := by
  obtain ⟨tr, h, -, hl⟩ := Machine.Run.calls (L := oneRevealed.take 6) (G := Machine.anyCall)
    (fun _ _ _ _ _ => trivial) (.init (installed_init (o := offline))) (by simp)
    (List.Subset.refl _)
  have hr := h.call (l := clearReveal) trivial (by rfl)
  have hshort : ¬ readyToReveal.1.config.minOracles.toNat ≤
      (readyToReveal.1.readings 7).length + 1 := by
    decide
  refine ⟨_, hr, by rfl, (markers_current_iff hr).mpr ?_ _ _ List.suffix_rfl hr⟩
  refine List.forall_mem_cons.mpr ⟨fun hq => absurd hq hshort, fun st hst => ?_⟩
  have hst := hl st hst
  simp only [oneRevealed, List.take, List.mem_cons, List.not_mem_nil, or_false] at hst
  rcases hst with h | h | h | h | h | h <;> rw [h] <;> trivial

/-- Two direct readings finalize the first window of a project. -/
def directlyDone : State × Unit :=
  (machine station offline).calls installed
    (oneRevealed.take 3 ++ [calledAt 0 1 (.submitReading (.account 1) 7 1 clearWater),
      calledAt 0 2 (.submitReading (.account 2) 7 1 clearWater)])

def nextWindow : Event station Unit := calledAt 0 0 (.openWindow (.account 0) 7)

set_option maxRecDepth 2000 in
theorem stale_marker_bars_oracle :
    ∃ tr, (machine station offline).Run Machine.anyCall tr
        ((machine station offline).call directlyDone nextWindow) ∧
      ¬ MarkersCurrent 7 (segment (Event.opens 7) tr)
        ((machine station offline).call directlyDone nextWindow).1 ∧
      (machine station offline).step (calledAt 0 1 (.submitReading (.account 1) 7 2 clearWater))
          ((machine station offline).call directlyDone nextWindow) =
        .error (.message "oracle already submitted for this window") := by
  have hr : (machine station offline).Reachable directlyDone :=
    Machine.Reachable.calls ⟨_, .init installed_init⟩ _
  obtain ⟨tr, h⟩ := hr
  refine ⟨_, h.call (l := nextWindow) trivial (by rfl), fun hm => ?_, by rfl⟩
  obtain ⟨-, st, hst, -⟩ := hm.submitted (.account 1) (by rfl)
  rw [segment_of_opens (by rfl)] at hst
  exact absurd hst List.not_mem_nil

end Sample

end WaterCredits.Oracle
