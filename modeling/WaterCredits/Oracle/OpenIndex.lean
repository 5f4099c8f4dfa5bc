import WaterCredits.Foundation.Index
import WaterCredits.Oracle.Lifecycle

/-! # The index of open projects

Windows are written by several calls and the index of open projects by hand.
The two agree as long as no finalized window is reset, and then the cap on open
windows holds and no oracle leaves with a commitment or a reveal in an open
window.
-/

namespace WaterCredits.Oracle

open Foundation Function

variable {contract : Address} {W : Type} {o : Outside W} {e : Env contract} {s s' : State}
  {w w' : W} {p q : ProjectId} {c : Call} {v v' : View}
  {tr : Trace (State × W) (Event contract W)} {st : Step (State × W) (Event contract W)}

namespace State

def Live (s : State) (p : ProjectId) : Prop :=
  ∃ window, s.windowState p = some window ∧ window.finalized = false

/-- The index has the projects with a window in use, each once. -/
def Coherent (s : State) : Prop := Indexes s.Live s.openProjects

theorem live_congr (h : s'.windowState p = s.windowState p) : s'.Live p ↔ s.Live p := by
  unfold Live
  rw [h]

theorem live_iff {window : WindowState} (h : s.windowState p = some window) :
    s.Live p ↔ window.finalized = false := by
  unfold Live
  rw [h]
  simp

end State

inductive IndexChange (s s' : State) : Call → Prop
  | kept {c : Call} (hi : s'.openProjects = s.openProjects) (hl : ∀ p, s'.Live p ↔ s.Live p) :
      IndexChange s s' c
  | added {c : Call} (p : ProjectId)
      (hi : s'.openProjects =
        if p ∈ s.openProjects then s.openProjects else s.openProjects ++ [p])
      (hroom : p ∉ s.openProjects → s.openProjects.length < s.config.maxOpenWindows.toNat)
      (hp : s'.Live p) (hl : ∀ q, q ≠ p → (s'.Live q ↔ s.Live q)) : IndexChange s s' c
  | removed {c : Call} (p : ProjectId) (hi : s'.openProjects = s.openProjects.filter (· ≠ p))
      (hp : ¬ s'.Live p) (hl : ∀ q, q ≠ p → (s'.Live q ↔ s.Live q)) : IndexChange s s' c
  | reset {admin : Address} {p : ProjectId} (hi : s'.openProjects = s.openProjects)
      (hp : s'.Live p) (hl : ∀ q, q ≠ p → (s'.Live q ↔ s.Live q)) :
      IndexChange s s' (.resetWindow admin p)

theorem live_of_ne {window : WindowState}
    (h : s'.windowState = update s.windowState p (some window)) (hq : q ≠ p) :
    s'.Live q ↔ s.Live q :=
  State.live_congr (by rw [h, update_of_ne hq])

theorem live_self {window : WindowState}
    (h : s'.windowState = update s.windowState p (some window)) :
    s'.Live p ↔ window.finalized = false :=
  State.live_iff (by rw [h, update_self])

theorem submitReading_room {a : Address} {n : UInt64} {reading : Reading}
    {r : Option VerificationResult} (h : s.submitReading o e a p n reading w = .ok (r, s', w')) :
    p ∉ s.openProjects → s.openProjects.length < s.config.maxOpenWindows.toNat := by
  simp only [State.submitReading, bind_eq_ok, addOpenProject_eq_ok] at h
  obtain ⟨_, -, _, -, _, -, _, -, _, -, _, -, t, ⟨hroom, -⟩, -⟩ := h
  exact hroom

theorem openWindow_room {admin : Address} (h : s.openWindow e admin p = .ok s') :
    p ∉ s.openProjects → s.openProjects.length < s.config.maxOpenWindows.toNat := by
  simp only [State.openWindow, bind_eq_ok, addOpenProject_eq_ok] at h
  obtain ⟨_, -, _, -, hroom, -⟩ := h
  exact hroom

theorem filter_add (l : List ProjectId) :
    (if p ∈ l then l else l ++ [p]).filter (· ≠ p) = l.filter (· ≠ p) := by
  split <;> simp

theorem execute_index (h : execute o e s w c = .ok (s', w')) : IndexChange s s' c := by
  cases c with
  | submitReading a p n reading =>
    obtain ⟨r, h⟩ := discard_eq_ok.mp h
    obtain ⟨-, -, -, window, closed, hg, hf, -, hwin, -⟩ := submitReading_cases h
    have hi := congrArg Windows.openProjects hwin
    have hws := congrArg Windows.windowState hwin
    cases closed with
    | true =>
      refine .removed p (hi.trans (filter_add _)) ?_ fun q hq => live_of_ne hws hq
      rw [live_self hws]
      simp
    | false =>
      exact .added p hi (submitReading_room h) ((live_self hws).mpr rfl) fun q hq =>
        live_of_ne hws hq
  | revealReading a p params =>
    obtain ⟨r, h⟩ := discard_eq_ok.mp h
    obtain ⟨-, -, -, -, window, closed, hw, hf, -, -, hwin, -⟩ := revealReading_cases h
    have hi := congrArg Windows.openProjects hwin
    cases closed with
    | true =>
      have hws : s'.windowState = update s.windowState p _ :=
        (congrArg Windows.windowState hwin).trans (update_idem ..)
      refine .removed p hi ?_ fun q hq => live_of_ne hws hq
      rw [live_self hws]
      simp
    | false =>
      have hws := congrArg Windows.windowState hwin
      refine .kept hi fun q => ?_
      by_cases hq : q = p
      · subst hq
        rw [live_self hws, State.live_iff hw]
      · exact live_of_ne hws hq
  | finalizeWindow p =>
    obtain ⟨r, h⟩ := discard_eq_ok.mp h
    obtain ⟨-, window, closed, t, u, hw, hf, -, -, hwin, -⟩ := finalizeWindow_cases h
    have hi := congrArg Windows.openProjects hwin
    have hws := congrArg Windows.windowState hwin
    cases closed with
    | true =>
      refine .removed p hi ?_ fun q hq => live_of_ne hws hq
      rw [live_self hws]
      simp
    | false => exact .kept hi fun q => State.live_congr (congrFun hws q)
  | openWindow admin p =>
    have hroom := openWindow_room (within_eq_ok.mp h).1
    obtain ⟨-, rfl⟩ := openWindow_cases (within_eq_ok.mp h).1
    exact .added p rfl hroom ((live_self rfl).mpr rfl) fun q hq => live_of_ne rfl hq
  | resetWindow admin p =>
    obtain ⟨_, -, hwin, -⟩ := resetWindow_cases (within_eq_ok.mp h).1
    have hws := congrArg Windows.windowState hwin
    exact .reset (congrArg Windows.openProjects hwin) ((live_self hws).mpr rfl)
      fun q hq => live_of_ne hws hq
  | commitReading a p n commitment =>
    obtain ⟨-, -, -, -, -, rfl⟩ := commitReading_cases (within_eq_ok.mp h).1
    exact .kept rfl fun q => State.live_congr rfl
  | beginRevealPhase p =>
    obtain ⟨window, hw, hf, -, rfl⟩ := beginRevealPhase_cases (within_eq_ok.mp h).1
    refine .kept rfl fun q => ?_
    by_cases hq : q = p
    · subst hq
      rw [live_self rfl, State.live_iff hw]
    · exact live_of_ne rfl hq
  | addOracle =>
    obtain ⟨-, -, rfl⟩ := addOracle_cases (within_eq_ok.mp h).1
    exact .kept rfl fun q => State.live_congr rfl
  | removeOracle =>
    obtain ⟨-, rfl⟩ := removeOracle_cases (within_eq_ok.mp h).1
    exact .kept rfl fun q => State.live_congr rfl
  | _ =>
    have hwin := (execute_inert rfl h).windows
    exact .kept (congrArg Windows.openProjects hwin) fun q =>
      State.live_congr (congrArg (·.windowState q) hwin)

/-- Calls keep the index coherent, unless they reset a finalized window. -/
theorem coherent_step (h : s.Coherent) (hs : execute o e s w c = .ok (s', w'))
    (hg : ∀ admin p, c = .resetWindow admin p → s.Live p) : s'.Coherent := by
  unfold State.Coherent at h ⊢
  cases execute_index hs with
  | kept hi hl => exact hi ▸ h.congr hl
  | added p hi hroom hp hl => exact hi ▸ h.insert hp hl
  | removed p hi hp hl => exact hi ▸ h.erase hp hl
  | @reset admin p hi hp hl =>
    apply hi ▸ h.congr
    intro q
    by_cases hq : q = p
    · subst hq
      exact iff_of_true hp (hg admin q rfl)
    · exact hl q hq

theorem live_of_reset {admin : Address} (h : s.Coherent) (h' : s'.Coherent)
    (hs : execute o e s w (.resetWindow admin p) = .ok (s', w')) : s.Live p := by
  obtain ⟨window, hw, hwin, -⟩ := resetWindow_cases (within_eq_ok.mp hs).1
  have hi : s'.openProjects = s.openProjects := congrArg Windows.openProjects hwin
  have hp : s'.Live p := (live_self (congrArg Windows.windowState hwin)).mpr rfl
  have hmem : p ∈ s'.openProjects := (h'.mem_iff p).mpr hp
  rw [hi] at hmem
  exact (h.mem_iff p).mp hmem

/-- The index stays below the cap, unless the cap is lowered. -/
theorem index_capped (h : s.openProjects.length ≤ s.config.maxOpenWindows.toNat)
    (hs : execute o e s w c = .ok (s', w'))
    (hcap : s.config.maxOpenWindows ≤ s'.config.maxOpenWindows) :
    s'.openProjects.length ≤ s'.config.maxOpenWindows.toNat := by
  have hle : s.config.maxOpenWindows.toNat ≤ s'.config.maxOpenWindows.toNat :=
    UInt32.le_iff_toNat_le.mp hcap
  cases execute_index hs with
  | kept hi hl => exact hi ▸ h.trans hle
  | reset hi hp hl => exact hi ▸ h.trans hle
  | removed p hi hp hl => exact hi ▸ (List.length_filter_le _ _).trans (h.trans hle)
  | added p hi hroom hp hl =>
    rw [hi]
    split
    · exact h.trans hle
    · rename_i hmem
      have hlt := hroom hmem
      rw [List.length_append, List.length_singleton]
      omega

/-- The reveals of the current window are marked until it is finalized. -/
def Remembered (p : ProjectId) (seg : Trace (State × W) (Event contract W)) (v : View) : Prop :=
  ∀ a, (∃ st ∈ seg, st.label.reveals p a) → v.revealed a = true ∨ v.Done

theorem remembered_cons {seg : Trace (State × W) (Event contract W)} (h : Remembered p seg v)
    (hst : ∀ a, st.label.reveals p a → v'.revealed a = true ∨ v'.Done)
    (hr : ∀ a, v.revealed a = true ∨ v.Done → v'.revealed a = true ∨ v'.Done) :
    Remembered p (st :: seg) v' := by
  rintro a ⟨st', hst', hrev⟩
  rcases List.mem_cons.mp hst' with rfl | hst'
  · exact hst a hrev
  · exact hr a (h a ⟨st', hst', hrev⟩)

theorem remembered_nil : Remembered p ([] : Trace (State × W) (Event contract W)) v := by
  simp [Remembered]

theorem Move.remembered (hm : Move o e s p v c v')
    (h : Remembered p (segment (Event.opens p) tr) v) :
    Remembered p (segment (Event.opens p) (⟨(s, w), .call e c, (s', w')⟩ :: tr)) v' := by
  cases hm with
  | idle hc =>
    have hn : Event.opens p (.call e c : Event contract W) = false := Event.opens_of_ne hc
    rw [segment_of_not hn]
    refine remembered_cons h (fun a hrev => absurd hrev (off_path ?_ a).2) fun a => id
    rintro e' c' ⟨⟩
    exact hc
  | openWindow hd =>
    rw [segment_of_opens (by simp [Event.opens])]
    exact remembered_nil
  | resetWindow hw =>
    rw [segment_of_opens (by simp [Event.opens])]
    exact remembered_nil
  | commitReading ha hn hph =>
    rw [segment_of_not rfl]
    exact remembered_cons h (fun _ => False.elim) fun a => id
  | beginRevealPhase hph =>
    rw [segment_of_not rfl]
    exact remembered_cons h (fun _ => False.elim) fun a => .imp_right fun hd =>
      absurd hd hph.not_done
  | @submitReading a n reading window closed ha hn hst hf =>
    rw [segment_of_not rfl]
    refine remembered_cons h (fun _ => False.elim) fun b => .imp_right ?_
    rintro ⟨window', hw', hf'⟩
    rw [hw'] at hst
    have heq : window' = window := hst
    exact absurd (hf.symm.trans (heq ▸ hf')) (by simp)
  | @revealReading a params window closed ha hn hc hph =>
    rw [segment_of_not rfl]
    cases closed with
    | true => exact remembered_cons h (fun _ _ => .inr ⟨_, rfl, rfl⟩) fun _ _ => .inr ⟨_, rfl, rfl⟩
    | false =>
      refine remembered_cons h ?_ ?_
      · rintro b ⟨-, rfl⟩
        exact .inl (update_self ..)
      · rintro b (hb | hd)
        · refine .inl ?_
          simp only [View.reveal, update_apply, Bool.false_eq_true, if_false]
          split <;> simp [hb]
        · exact absurd hd hph.not_done
  | @finalizeWindow window closed hph =>
    rw [segment_of_not rfl]
    cases closed with
    | true => exact remembered_cons h (fun _ => False.elim) fun _ _ => .inr ⟨_, rfl, rfl⟩
    | false => exact remembered_cons h (fun _ => False.elim) fun a => id

/-- The index along a run, with the two checks that rely on it. -/
structure Indexed (tr : Trace (State × W) (Event contract W)) (s : State) : Prop where
  coherent : s.Coherent ∧ ∀ st ∈ tr, st.before.1.Coherent ∧ st.after.1.Coherent
  capped : (∀ st ∈ tr, st.before.1.config.maxOpenWindows ≤ st.after.1.config.maxOpenWindows) →
    ∀ projects : Finset ProjectId, (∀ p ∈ projects, s.Live p) →
      projects.card ≤ s.config.maxOpenWindows.toNat
  removed : ∀ post st pre, tr = post ++ st :: pre →
    ∀ e admin a, st.label = .call e (.removeOracle admin a) → ∀ p, st.before.1.Live p →
      st.before.1.commitment (p, a) = none ∧ st.before.1.oracleRevealed (p, a) = false ∧
        ∀ st' ∈ segment (Event.opens p) pre, ¬ st'.label.reveals p a

def Event.resetsLive (s : State) : Event contract W → Prop
  | .call _ (.resetWindow _ p) => s.Live p
  | _ => True

theorem initial_coherent {sw : State × W} (h : (machine contract o).init sw) :
    sw.1.Coherent ∧ sw.1.openProjects = [] ∧ ∀ p, sw.1.windowState p = none := by
  obtain ⟨admin, stakingToken, treasury, hs⟩ := h
  rw [(initialise_eq_ok.mp hs).2]
  refine ⟨Indexes.nil ?_, rfl, fun p => rfl⟩
  rintro p ⟨window, hw, -⟩
  cases hw

theorem coherent_run {sw : State × W} (h : (machine contract o).Run Machine.anyCall tr sw)
    (hg : ∀ st ∈ tr, st.label.resetsLive st.before.1) :
    sw.1.Coherent ∧ ∀ st ∈ tr, st.before.1.Coherent ∧ st.after.1.Coherent := by
  induction h with
  | init h => exact ⟨(initial_coherent h).1, by simp⟩
  | @step tr sw sw' ev hr _ hs ih =>
    obtain ⟨hg, hgs⟩ := List.forall_mem_cons.mp hg
    obtain ⟨hc, hcs⟩ := ih hgs
    have hc' : sw'.1.Coherent := by
      cases ev with
      | outside u =>
        cases hs
        exact hc
      | call e c =>
        apply coherent_step hc hs
        rintro admin p rfl
        exact hg
    exact ⟨hc', List.forall_mem_cons.mpr ⟨⟨hc, hc'⟩, hcs⟩⟩

theorem capped_run {sw : State × W} (h : (machine contract o).Run Machine.anyCall tr sw)
    (hcap : ∀ st ∈ tr, st.before.1.config.maxOpenWindows ≤ st.after.1.config.maxOpenWindows) :
    sw.1.openProjects.length ≤ sw.1.config.maxOpenWindows.toNat := by
  induction h with
  | init h => simp [(initial_coherent h).2.1]
  | @step tr sw sw' ev hr _ hs ih =>
    obtain ⟨hle, hcaps⟩ := List.forall_mem_cons.mp hcap
    cases ev with
    | outside u =>
      cases hs
      exact ih hcaps
    | call e c => exact index_capped (ih hcaps) hs hle

theorem remembered_run {sw : State × W} (h : (machine contract o).Run Machine.anyCall tr sw)
    (p : ProjectId) : Remembered p (segment (Event.opens p) tr) (sw.1.view p) := by
  induction h with
  | init h => exact remembered_nil
  | @step tr sw sw' ev hr _ hs ih =>
    cases ev with
    | outside u =>
      cases hs
      rw [segment_of_not rfl]
      exact remembered_cons ih (fun _ => False.elim) fun a => id
    | call e c => exact (execute_move p hs).remembered ih

/-- A removed oracle has nothing in the windows that the index lists. -/
theorem removed_clear {admin a : Address} (h : s.Coherent)
    (hs : execute o e s w (.removeOracle admin a) = .ok (s', w')) (hp : s.Live p) :
    s.commitment (p, a) = none ∧ s.oracleRevealed (p, a) = false := by
  have hopen := (removeOracle_cases (within_eq_ok.mp hs).1).1
  have hmem : p ∈ s.openProjects := (h.mem_iff p).mpr hp
  have hclear := List.any_eq_false.mp hopen p hmem
  simpa using hclear

/--
The index of open projects follows the windows of a run exactly when no
finalized window is reset; then open windows are capped, and no oracle is
removed that takes part in one.
-/
theorem indexed_iff {sw : State × W} (h : (machine contract o).Run Machine.anyCall tr sw) :
    Indexed tr sw.1 ↔ ∀ st ∈ tr, st.label.resetsLive st.before.1 := by
  constructor
  · rintro hi ⟨⟨s, w⟩, ev, ⟨s', w'⟩⟩ hst
    obtain ⟨tr', -, -, hs⟩ := h.mem _ hst
    have hs : step o ev (s, w) = .ok (s', w') := hs
    obtain ⟨hc, hc'⟩ := hi.coherent.2 _ hst
    cases ev with
    | outside u => trivial
    | call e c =>
      cases c with
      | resetWindow admin p => exact live_of_reset (o := o) hc hc' hs
      | _ => trivial
  · intro hg
    obtain ⟨hc, hcs⟩ := coherent_run h hg
    refine ⟨⟨hc, hcs⟩, fun hcap projects hp => (hc.card_le hp).trans (capped_run h hcap), ?_⟩
    rintro post st pre rfl e admin a heq p hp
    obtain ⟨hrun, -, hs⟩ := h.split
    rw [heq] at hs
    obtain ⟨hcom, hrev⟩ := removed_clear (o := o) (hcs st (by simp)).1 hs hp
    refine ⟨hcom, hrev, fun st' hst' hr => ?_⟩
    rcases remembered_run hrun p a ⟨st', hst', hr⟩ with hrev' | ⟨window, hw, hf⟩
    · exact absurd (hrev.symm.trans hrev') (by simp)
    · obtain ⟨window', hw', hf'⟩ := hp
      have heq : window' = window := Option.some.inj (hw'.symm.trans hw)
      exact absurd (hf'.symm.trans (heq ▸ hf)) (by simp)

section Sample

set_option maxRecDepth 2000 in
theorem indexed_finalized :
    ∃ tr, (machine station offline).Run Machine.anyCall tr
        ((machine station offline).calls installed regularRun) ∧
      Indexed tr ((machine station offline).calls installed regularRun).1 := by
  obtain ⟨tr, h, -, hl⟩ := Machine.Run.calls (L := regularRun) (G := Machine.anyCall)
    (fun _ _ _ _ _ => trivial) (.init (installed_init (o := offline))) (by simp)
    (List.Subset.refl _)
  refine ⟨tr, h, (indexed_iff h).mpr fun st hst => ?_⟩
  have hst := hl st hst
  simp only [regularRun, List.mem_cons, List.not_mem_nil, or_false] at hst
  rcases hst with h | h | h | h | h | h | h | h | h <;> rw [h] <;> trivial

/-- The admin resets a finalized window, and an oracle commits to the fresh one. -/
def strayWindow : State × Unit :=
  (machine station offline).calls installed
    (regularRun ++ [calledAt 300 0 (.addOracle (.account 0) (.account 3)),
      calledAt 400 0 (.resetWindow (.account 0) 7),
      calledAt 400 1 (.commitReading (.account 1) 7 2 0)])

def committerRemoved : Event station Unit :=
  calledAt 400 0 (.removeOracle (.account 0) (.account 1))

set_option maxRecDepth 2000 in
theorem reset_window_unlisted :
    (machine station offline).Reachable strayWindow ∧ strayWindow.1.Live 7 ∧
      strayWindow.1.openProjects = [] ∧
      (strayWindow.1.commitment (7, .account 1)).isSome = true ∧
      ((machine station offline).step committerRemoved strayWindow).isOk = true := by
  refine ⟨Machine.Reachable.calls ⟨_, .init installed_init⟩ _, ?_, by rfl, by rfl, by rfl⟩
  have hlive : (strayWindow.1.windowState 7).map (·.finalized) = some false := by rfl
  exact Option.map_eq_some_iff.mp hlive

end Sample

end WaterCredits.Oracle
