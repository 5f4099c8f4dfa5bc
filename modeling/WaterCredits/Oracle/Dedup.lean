import WaterCredits.Oracle.Moves

/-! # Distinct oracles in a window

Direct readings and reveals append to one list, each with a marker of its own.
An oracle that takes one path only has one entry, and every result stands on a
quorum of distinct active oracles.
-/

namespace WaterCredits.Oracle

open Foundation Function

variable {contract : Address} {W : Type} {o : Outside W} {e : Env contract} {s s' : State}
  {w w' : W} {p : ProjectId} {a : Address} {c : Call} {v v' : View}
  {seg tr : Trace (State × W) (Event contract W)} {st : Step (State × W) (Event contract W)}
  {sub : ReadingSubmission}

namespace Event

def submits (p : ProjectId) (a : Address) : Event contract W → Prop
  | .call _ (.submitReading b q _ _) => q = p ∧ b = a
  | _ => False

def reveals (p : ProjectId) (a : Address) : Event contract W → Prop
  | .call _ (.revealReading b q _) => q = p ∧ b = a
  | _ => False

def accepts (p : ProjectId) (sub : ReadingSubmission) : Event contract W → Prop
  | .call e (.submitReading a q n reading) => q = p ∧ sub = directSub e a n reading
  | .call e (.revealReading a q params) => q = p ∧ sub = revealSub e a params
  | _ => False

theorem accepts_path {ev : Event contract W} (h : ev.accepts p sub) :
    ev.submits p sub.oracle ∨ ev.reveals p sub.oracle := by
  unfold accepts at h
  split at h
  · obtain ⟨rfl, rfl⟩ := h
    exact .inl ⟨rfl, rfl⟩
  · obtain ⟨rfl, rfl⟩ := h
    exact .inr ⟨rfl, rfl⟩
  · exact h.elim

end Event

/-- No oracle both reveals and submits directly in one window of a project. -/
def onePath : Guard (State × W) (Event contract W) := fun tr _ ev =>
  match ev with
  | .call _ (.submitReading a p _ _) => ∀ st ∈ segment (Event.opens p) tr, ¬ st.label.reveals p a
  | .call _ (.revealReading a p _) => ∀ st ∈ segment (Event.opens p) tr, ¬ st.label.submits p a
  | _ => True

/-- A step of the segment brought the submission, of an oracle that was active. -/
def AcceptedIn (seg : Trace (State × W) (Event contract W)) (p : ProjectId)
    (sub : ReadingSubmission) : Prop :=
  ∃ st ∈ seg, st.label.accepts p sub ∧ st.before.1.oracleActive sub.oracle = true

theorem AcceptedIn.mono {seg' : Trace (State × W) (Event contract W)} (h : AcceptedIn seg p sub)
    (hs : seg ⊆ seg') : AcceptedIn seg' p sub := by
  obtain ⟨st, hst, h⟩ := h
  exact ⟨st, hs hst, h⟩

def View.Done (v : View) : Prop := ∃ window, v.window = some window ∧ window.finalized = true

/-- The entries of a window have distinct oracles, and the markers remember their paths. -/
structure Distinct (p : ProjectId) (seg : Trace (State × W) (Event contract W)) (v : View) :
    Prop where
  nodup : ∀ window, v.window = some window → (window.submissions.map (·.oracle)).Nodup
  accepted : ∀ window, v.window = some window → ∀ sub ∈ window.submissions, AcceptedIn seg p sub
  submitted : ∀ a, (∃ st ∈ seg, st.label.submits p a) → v.submitted a = true
  revealed : ∀ a, (∃ st ∈ seg, st.label.reveals p a) → v.revealed a = true ∨ v.Done

namespace Distinct

theorem fresh (h : ∀ window, v.window = some window → window.submissions = []) :
    Distinct p ([] : Trace (State × W) (Event contract W)) v where
  nodup window hw := by simp [h window hw]
  accepted window hw := by simp [h window hw]
  submitted a := by simp
  revealed a := by simp

theorem quiet (h : Distinct p seg v)
    (hst : ∀ a, ¬ st.label.submits p a ∧ ¬ st.label.reveals p a)
    (hw : ∀ window', v'.window = some window' →
      ∃ window, v.window = some window ∧ window'.submissions = window.submissions)
    (hs : v'.submitted = v.submitted) (hd : v.Done → v'.Done)
    (hr : ∀ a, v.revealed a = true → v'.revealed a = true ∨ v'.Done) :
    Distinct p (st :: seg) v' where
  nodup window' hw' := by
    obtain ⟨window, hw, heq⟩ := hw window' hw'
    rw [heq]
    exact h.nodup window hw
  accepted window' hw' := by
    obtain ⟨window, hw, heq⟩ := hw window' hw'
    rw [heq]
    exact fun sub hsub => (h.accepted window hw sub hsub).mono (List.subset_cons_self _ _)
  submitted a := by
    rintro ⟨st', hst', hsub⟩
    rcases List.mem_cons.mp hst' with rfl | hst'
    · exact absurd hsub (hst a).1
    · rw [hs]
      exact h.submitted a ⟨st', hst', hsub⟩
  revealed a := by
    rintro ⟨st', hst', hrev⟩
    rcases List.mem_cons.mp hst' with rfl | hst'
    · exact absurd hrev (hst a).2
    · rcases h.revealed a ⟨st', hst', hrev⟩ with hrev | hdone
      · exact hr a hrev
      · exact .inr (hd hdone)

theorem extend (h : Distinct p seg v) {window : WindowState}
    (hw : ∀ sub' ∈ window.submissions, v.window = some window)
    (hnew : ∀ st ∈ seg, ¬ st.label.submits p sub.oracle ∧ ¬ st.label.reveals p sub.oracle)
    (hacc : st.label.accepts p sub) (hact : st.before.1.oracleActive sub.oracle = true)
    (hw' : ∀ window', v'.window = some window' →
      window'.submissions = window.submissions ++ [sub])
    (hs : ∀ a, v.submitted a = true ∨ st.label.submits p a → v'.submitted a = true)
    (hr : ∀ a, v.revealed a = true ∨ v.Done ∨ st.label.reveals p a →
      v'.revealed a = true ∨ v'.Done) :
    Distinct p (st :: seg) v' where
  nodup window' hwin := by
    rw [hw' window' hwin, List.map_append, List.nodup_append]
    have hold : (window.submissions.map (·.oracle)).Nodup := by
      rcases window.submissions.eq_nil_or_concat with hnil | ⟨l, b, hl⟩
      · simp [hnil]
      · exact h.nodup window (hw b (by simp [hl]))
    refine ⟨hold, by simp, ?_⟩
    rintro b hb c hc rfl
    obtain ⟨sub', hsub', hb⟩ := List.mem_map.mp hb
    have hbs : b = sub.oracle := by simpa using hc
    obtain ⟨st', hst', hacc', -⟩ := h.accepted window (hw sub' hsub') sub' hsub'
    obtain ⟨hns, hnr⟩ := hnew st' hst'
    rw [← hbs, ← hb] at hns hnr
    rcases Event.accepts_path hacc' with hp | hp
    · exact hns hp
    · exact hnr hp
  accepted window' hwin sub' hsub' := by
    rw [hw' window' hwin] at hsub'
    rcases List.mem_append.mp hsub' with hold | hnew
    · exact (h.accepted window (hw sub' hold) sub' hold).mono (List.subset_cons_self _ _)
    · rw [List.mem_singleton.mp hnew]
      exact ⟨st, List.mem_cons_self, hacc, hact⟩
  submitted b := by
    rintro ⟨st', hst', hsub⟩
    apply hs b
    rcases List.mem_cons.mp hst' with rfl | hst'
    · exact .inr hsub
    · exact .inl (h.submitted b ⟨st', hst', hsub⟩)
  revealed b := by
    rintro ⟨st', hst', hrev⟩
    apply hr b
    rcases List.mem_cons.mp hst' with rfl | hst'
    · exact .inr (.inr hrev)
    · rcases h.revealed b ⟨st', hst', hrev⟩ with hrev | hdone
      · exact .inl hrev
      · exact .inr (.inl hdone)

end Distinct

theorem InPhase.not_done {phase : WindowPhase} {window : WindowState} (h : InPhase v phase window) :
    ¬ v.Done := by
  rintro ⟨window', hw, hf⟩
  rw [h.stored] at hw
  cases hw
  exact absurd (h.unfinished.symm.trans hf) (by simp)

theorem InPhase.quorum {phase : WindowPhase} {window ended : WindowState} {quorum : ℕ}
    (h : InPhase v phase window)
    (hq : v'.Done → v.Done ∨ ∃ window', v'.window = some window' ∧
      quorum ≤ window'.submissions.length)
    (hw : v'.window = some ended) (hf : ended.finalized = true) :
    quorum ≤ ended.submissions.length := by
  rcases hq ⟨ended, hw, hf⟩ with hd | ⟨window', hw', hlen⟩
  · exact absurd hd h.not_done
  · rw [hw] at hw'
    cases hw'
    exact hlen

namespace Distinct

/-- A direct reading of an oracle that revealed nothing in the window. -/
theorem direct {n : UInt64} {reading : Reading} {window : WindowState} {timestamp : UInt64}
    {closed : Bool} (h : Distinct p seg v)
    (hlabel : st.label = .call e (.submitReading a p n reading))
    (hact : st.before.1.oracleActive a = true) (hs : v.submitted a = false)
    (hw : v.window.getD { phase := .reveal, openedAt := timestamp } = window)
    (hf : window.finalized = false) (hpath : ∀ st ∈ seg, ¬ st.label.reveals p a) :
    Distinct p (st :: seg) (v.submit window (directSub e a n reading) closed) := by
  obtain ⟨before, _, after⟩ := st
  cases hlabel
  have hstored : ∀ sub' ∈ window.submissions, v.window = some window := by
    intro sub' hsub'
    cases hv : v.window with
    | none =>
      rw [hv] at hw
      subst hw
      exact absurd hsub' List.not_mem_nil
    | some window' =>
      rw [hv] at hw
      exact congrArg some hw
  have hnd : ¬ v.Done := by
    rintro ⟨window', hw', hf'⟩
    rw [hw'] at hw
    have heq : window' = window := hw
    exact absurd (hf.symm.trans (heq ▸ hf')) (by simp)
  refine h.extend hstored (fun st hst => ⟨fun hsub => ?_, hpath st hst⟩) ⟨rfl, rfl⟩ hact ?_ ?_ ?_
  · have := h.submitted a ⟨st, hst, hsub⟩
    exact absurd (hs.symm.trans this) (by simp)
  · rintro window' hw'
    cases hw'
    rfl
  · rintro b (hb | ⟨-, rfl⟩)
    · simp only [View.submit, update_apply]
      split <;> simp [hb]
    · simp [View.submit, directSub]
  · rintro b (hb | hb | hb)
    · exact .inl hb
    · exact absurd hb hnd
    · exact hb.elim

/-- A reveal of an oracle that submitted nothing directly to the window. -/
theorem reveal {params : RevealParams} {oracles : List Address} {window : WindowState}
    {closed : Bool} (h : Distinct p seg v)
    (hlabel : st.label = .call e (.revealReading a p params))
    (hact : st.before.1.oracleActive a = true) (hr : v.revealed a = false)
    (hph : InPhase v .reveal window) (hpath : ∀ st ∈ seg, ¬ st.label.submits p a) :
    Distinct p (st :: seg) (v.reveal oracles window (revealSub e a params) closed) := by
  obtain ⟨before, _, after⟩ := st
  cases hlabel
  refine h.extend (fun _ _ => hph.stored) (fun st hst => ⟨hpath st hst, fun hrev => ?_⟩)
    ⟨rfl, rfl⟩ hact ?_ ?_ ?_
  · rcases h.revealed a ⟨st, hst, hrev⟩ with hr' | hd
    · exact absurd (hr.symm.trans hr') (by simp)
    · exact hph.not_done hd
  · cases closed <;>
    · rintro window' hw'
      cases hw'
      rfl
  · rintro b (hb | hb)
    · cases closed <;> exact hb
    · exact hb.elim
  · rintro b hb
    cases closed
    · refine .inl ?_
      rcases hb with hb | hb | ⟨-, rfl⟩
      · simp only [View.reveal, update_apply, Bool.false_eq_true, if_false]
        split <;> simp [hb]
      · exact absurd hb hph.not_done
      · simp [View.reveal, revealSub]
    · exact .inr ⟨_, rfl, rfl⟩

end Distinct

theorem off_path {ev : Event contract W} (h : ∀ e c, ev = .call e c → c.project ≠ some p)
    (a : Address) :
    ¬ ev.submits p a ∧ ¬ ev.reveals p a := by
  constructor
  · intro hs
    unfold Event.submits at hs
    split at hs
    · exact h _ _ rfl (congrArg some hs.1)
    · exact hs
  · intro hr
    unfold Event.reveals at hr
    split at hr
    · exact h _ _ rfl (congrArg some hr.1)
    · exact hr

theorem Move.distinct (hm : Move o e s p v c v')
    (hg : onePath tr (s, w) (.call e c)) (h : Distinct p (segment (Event.opens p) tr) v) :
    Distinct p (segment (Event.opens p) (⟨(s, w), .call e c, (s', w')⟩ :: tr)) v' := by
  cases hm with
  | idle hc =>
    have hn : Event.opens p (.call e c : Event contract W) = false := Event.opens_of_ne hc
    rw [segment_of_not hn]
    refine h.quiet (off_path ?_) (fun window hw => ⟨window, hw, rfl⟩) rfl id fun a => .inl
    rintro e' c' hec
    cases hec
    exact hc
  | openWindow hd =>
    rw [segment_of_opens (by simp [Event.opens])]
    apply Distinct.fresh
    rintro window hw
    cases hw
    rfl
  | resetWindow hw =>
    rw [segment_of_opens (by simp [Event.opens])]
    apply Distinct.fresh
    rintro window hw
    cases hw
    rfl
  | commitReading ha hf hph =>
    rw [segment_of_not rfl]
    exact h.quiet (fun _ => ⟨id, id⟩) (fun window hw => ⟨window, hw, rfl⟩) rfl id fun a => .inl
  | beginRevealPhase hph =>
    rw [segment_of_not rfl]
    refine h.quiet (fun _ => ⟨id, id⟩) ?_ rfl (fun hd => absurd hd hph.not_done) fun a => .inl
    rintro window' hw'
    cases hw'
    exact ⟨_, hph.stored, rfl⟩
  | @finalizeWindow window closed hph =>
    rw [segment_of_not rfl]
    cases closed
    · exact h.quiet (fun _ => ⟨id, id⟩) (fun window hw => ⟨window, hw, rfl⟩) rfl id fun a => .inl
    · refine h.quiet (fun _ => ⟨id, id⟩) ?_ rfl (fun _ => ⟨_, rfl, rfl⟩)
        fun a _ => .inr ⟨_, rfl, rfl⟩
      rintro window' hw'
      cases hw'
      exact ⟨_, hph.stored, rfl⟩
  | submitReading ha hs hw hf =>
    rw [segment_of_not rfl]
    exact h.direct rfl ha hs hw hf hg
  | revealReading ha hs hc hph =>
    rw [segment_of_not rfl]
    exact h.reveal rfl ha hs hph hg

/--
A result of the window of a project, stored by a step of the trace: the readings
that it was computed from reach the quorum that was configured then, and come
from distinct oracles, each active when its reading was accepted.
-/
def Verified (tr : Trace (State × W) (Event contract W)) (p : ProjectId) (r : VerificationResult) :
    Prop :=
  ∃ st ∈ tr, ∃ e c window, st.label = .call e c ∧
    Records e st.before.1 st.after.1 p window r ∧
    (window.submissions.map (·.oracle)).Nodup ∧ ∀ sub ∈ window.submissions, AcceptedIn tr p sub

theorem Verified.cons {r : VerificationResult} (h : Verified tr p r) : Verified (st :: tr) p r := by
  obtain ⟨st', hst', e, c, window, hl, hr, hn, ha⟩ := h
  exact ⟨st', List.mem_cons_of_mem _ hst', e, c, window, hl, hr, hn, fun sub hsub =>
    (ha sub hsub).mono (List.subset_cons_self _ _)⟩

/-- The windows and the recorded results along a run. -/
structure Attested (tr : Trace (State × W) (Event contract W)) (s : State) : Prop where
  distinct : ∀ p, Distinct p (segment (Event.opens p) tr) (s.view p)
  verified : ∀ p r, s.Recorded p r → Verified tr p r

theorem attested_step {ev : Event contract W} (h : Attested tr s) (hg : onePath tr (s, w) ev)
    (hs : step o ev (s, w) = .ok (s', w')) : Attested (⟨(s, w), ev, (s', w')⟩ :: tr) s' := by
  cases ev with
  | outside v =>
    simp only [step, Except.ok.injEq, Prod.mk.injEq] at hs
    obtain ⟨rfl, rfl⟩ := hs
    refine ⟨fun p => ?_, fun p r hr => (h.verified p r hr).cons⟩
    rw [segment_of_not rfl]
    exact (h.distinct p).quiet (fun _ => ⟨id, id⟩) (fun window hw => ⟨window, hw, rfl⟩) rfl id
      fun a => .inl
  | call e c =>
    have hd (p : ProjectId) : Distinct p
        (segment (Event.opens p) (⟨(s, w), .call e c, (s', w')⟩ :: tr)) (s'.view p) :=
      (execute_move p hs).distinct hg (h.distinct p)
    refine ⟨hd, fun p r hr => ?_⟩
    rcases execute_results hs with hres | ⟨q, window, r', -, hrec⟩
    · exact (h.verified p r ((recorded_congr hres).mp hr)).cons
    · rcases recorded_record hrec.results hr with ⟨rfl, rfl⟩ | hr
      · refine ⟨_, List.mem_cons_self, e, c, window, rfl, hrec,
          (hd p).nodup window hrec.stored, fun sub hsub => ?_⟩
        exact ((hd p).accepted window hrec.stored sub hsub).mono fun st => mem_of_mem_segment
      · exact (h.verified p r hr).cons

theorem attested_run {sw : State × W} (h : (machine contract o).Run onePath tr sw) :
    Attested tr sw.1 := by
  refine Machine.Run.invariant (I := fun tr sw => Attested tr sw.1) ?_ ?_ h
  · rintro ⟨s, w⟩ ⟨admin, stakingToken, treasury, hs⟩
    obtain ⟨-, rfl⟩ := initialise_eq_ok.mp hs
    refine ⟨fun p => Distinct.fresh ?_, ?_⟩
    · rintro window hw
      cases hw
    · rintro p r (hr | ⟨i, hr⟩) <;> cases hr
  · rintro tr ⟨s, w⟩ ev ⟨s', w'⟩ - hi hg hs
    exact attested_step hi hg hs

/--
When no oracle takes both paths in a window, every window has at most one entry
per oracle, and every recorded result stands on a quorum of distinct active
oracles.
-/
theorem submissions_distinct {sw : State × W} (h : (machine contract o).Run onePath tr sw) :
    (∀ p window, sw.1.windowState p = some window →
      (window.submissions.map (·.oracle)).Nodup) ∧
      ∀ p r, sw.1.Recorded p r → Verified tr p r :=
  ⟨fun p => ((attested_run h).distinct p).nodup, (attested_run h).verified⟩

/-- A run whose calls never put an oracle on both paths of a project. -/
theorem onePath_of_labels {L : List (Event contract W)}
    (h : ∀ l ∈ L, ∀ l' ∈ L, ∀ p a, l.submits p a → ¬ l'.reveals p a) :
    ∀ l ∈ L, ∀ tr sw, (∀ st ∈ tr, st.label ∈ L) → onePath tr sw l := by
  intro l hl tr sw htr
  unfold onePath
  split
  · exact fun st hst => h _ hl _ (htr st (mem_of_mem_segment hst)) _ _ ⟨rfl, rfl⟩
  · exact fun st hst hsub => h _ (htr st (mem_of_mem_segment hst)) _ hl _ _ hsub ⟨rfl, rfl⟩
  · trivial

section Sample

/-- The address that the samples deploy the oracle at. -/
abbrev station : Address := .contract 2

/-- No token answers, and every hash is zero. -/
def offline : Outside Unit where
  totalSupply _ _ := .error .invokeFailed
  maxSupply _ _ := .error .invokeFailed
  mintTo _ _ _ _ _ := .error .invokeFailed
  transfer _ _ _ _ _ := .error .invokeFailed
  sha256 _ := 0

/-- A sample call at some time, authorised by the account with this key. -/
def calledAt {W : Type} (timestamp : UInt64) (key : BytesN 32) (c : Call) : Event station W :=
  .call (.signed timestamp 0 (.account key) (by simp)) c

def installed : State × Unit :=
  ({ admin := .account 0, config := { stakingToken := .contract 3, treasury := .account 5 } }, ())

theorem installed_init {o : Outside Unit} : (machine station o).init installed :=
  ⟨.account 0, .contract 3, .account 5, rfl⟩

def clearWater : Reading :=
  { ph := 650, turbidity := 0, dissolvedOxygen := 90, flowRate := 5, temperature := 20
    totalNitrogen := 3, totalPhosphorus := 1 }

def oneRevealed : List (Event station Unit) :=
  [calledAt 0 0 (.addOracle (.account 0) (.account 1)),
    calledAt 0 0 (.addOracle (.account 0) (.account 2)),
    calledAt 0 0 (.updateConfig (.account 0) { installed.1.config with minOracles := 2 }),
    calledAt 0 0 (.openWindow (.account 0) 7),
    calledAt 0 1 (.commitReading (.account 1) 7 1 0),
    calledAt 300 9 (.beginRevealPhase 7),
    calledAt 300 1 (.revealReading (.account 1) 7 { clearWater with nonce := 1, salt := 0 })]

def paired : State × Unit :=
  (machine station offline).calls installed
    (oneRevealed ++ [calledAt 300 2 (.submitReading (.account 2) 7 1 clearWater)])

theorem paired_run : ∃ tr, (machine station offline).Run onePath tr paired := by
  have hG := onePath_of_labels
    (L := oneRevealed ++ [calledAt 300 2 (.submitReading (.account 2) 7 1 clearWater)])
    (by simp [oneRevealed, calledAt, Event.submits, Event.reveals])
  obtain ⟨tr, h, -, -⟩ := Machine.Run.calls hG (.init (installed_init (o := offline))) (by simp)
    (List.Subset.refl _)
  exact ⟨tr, h⟩

set_option maxRecDepth 2000 in
theorem submissions_distinct_paired :
    ∃ tr r, (machine station offline).Run onePath tr paired ∧ paired.1.lastResult 7 = some r ∧
      r.oracleCount = 2 ∧ Verified tr 7 r := by
  obtain ⟨tr, h⟩ := paired_run
  have hcount : (paired.1.lastResult 7).map (·.oracleCount) = some 2 := by rfl
  obtain ⟨r, hr, hn⟩ := Option.map_eq_some_iff.mp hcount
  exact ⟨tr, r, h, hr, hn, (submissions_distinct h).2 7 r (.inl hr)⟩

/-- The account `1` brings the second reading itself, on the direct path. -/
def doubled : State × Unit :=
  (machine station offline).calls installed
    (oneRevealed ++ [calledAt 300 1 (.submitReading (.account 1) 7 2 clearWater)])

set_option maxRecDepth 2000 in
theorem one_oracle_makes_quorum :
    (machine station offline).Reachable doubled ∧ doubled.1.config.minOracles = 2 ∧
      (∃ window, doubled.1.windowState 7 = some window ∧
        window.submissions.map (·.oracle) = [.account 1, .account 1]) ∧
      ∃ r, doubled.1.lastResult 7 = some r ∧ r.oracleCount = 2 := by
  have hwindow : (doubled.1.windowState 7).map (·.submissions.map (·.oracle)) =
      some [.account 1, .account 1] := by rfl
  have hcount : (doubled.1.lastResult 7).map (·.oracleCount) = some 2 := by rfl
  exact ⟨Machine.Reachable.calls ⟨_, .init installed_init⟩ _, by rfl,
    Option.map_eq_some_iff.mp hwindow, Option.map_eq_some_iff.mp hcount⟩

end Sample

end WaterCredits.Oracle
