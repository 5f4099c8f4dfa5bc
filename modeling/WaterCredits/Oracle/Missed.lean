import WaterCredits.Oracle.Markers
import WaterCredits.Oracle.Penalty

/-! # Penalties for missed reveals

An explicit finalization charges each listed oracle whose commitment still
waits for its reveal. These are the oracles that owe a reveal in the current
window, as long as no fresh window finds such a commitment.
-/

namespace WaterCredits.Oracle

open Foundation Function

variable {contract : Address} {W : Type} {o : Outside W} {e : Env contract} {s s' : State}
  {w w' : W} {p : ProjectId} {a : Address} {c : Call} {v v' : View}
  {seg tr : Trace (State × W) (Event contract W)} {st : Step (State × W) (Event contract W)}

def charges (p : ProjectId) (a : Address) (st : Step (State × W) (Event contract W)) : Bool :=
  match st.label with
  | .call _ (.finalizeWindow q) =>
      q = p ∧ st.after.1.oracleMissedReveals a ≠ st.before.1.oracleMissedReveals a
  | _ => false

/-- The oracle committed in a window, and was neither revealed nor charged in it. -/
structure Owing (p : ProjectId) (seg : Trace (State × W) (Event contract W)) (a : Address) :
    Prop where
  committed : ∃ st ∈ seg, st.label.commits p a
  unrevealed : ∀ st ∈ seg, ¬ st.label.reveals p a
  uncharged : ∀ st ∈ seg, charges p a st = false

theorem not_owing_nil : ¬ Owing p ([] : Trace (State × W) (Event contract W)) a := by
  rintro ⟨⟨st, hst, -⟩, -, -⟩
  exact absurd hst List.not_mem_nil

namespace Owing

theorem keep (h : Owing p seg a) (hr : ¬ st.label.reveals p a) (hc : charges p a st = false) :
    Owing p (st :: seg) a := by
  obtain ⟨st', hst', hcom⟩ := h.committed
  exact ⟨⟨st', List.mem_cons_of_mem _ hst', hcom⟩,
    List.forall_mem_cons.mpr ⟨hr, h.unrevealed⟩, List.forall_mem_cons.mpr ⟨hc, h.uncharged⟩⟩

theorem start (hcom : st.label.commits p a) (hr : ∀ st ∈ seg, ¬ st.label.reveals p a)
    (hc : ∀ st ∈ seg, charges p a st = false) : Owing p (st :: seg) a := by
  have hn : ¬ st.label.reveals p a ∧ charges p a st = false := by
    unfold Event.commits at hcom
    split at hcom
    · rename_i heq
      simp [Event.reveals, charges, heq]
    · exact hcom.elim
  exact ⟨⟨st, List.mem_cons_self, hcom⟩, List.forall_mem_cons.mpr ⟨hn.1, hr⟩,
    List.forall_mem_cons.mpr ⟨hn.2, hc⟩⟩

theorem before (h : Owing p (st :: seg) a) : Owing p seg a ∨ st.label.commits p a := by
  obtain ⟨st', hst', hcom⟩ := h.committed
  rcases List.mem_cons.mp hst' with rfl | hst'
  · exact .inr hcom
  · exact .inl ⟨⟨st', hst', hcom⟩, (List.forall_mem_cons.mp h.unrevealed).2,
      (List.forall_mem_cons.mp h.uncharged).2⟩

end Owing

def View.Waits (v : View) (a : Address) : Prop :=
  (v.commitment a).isSome = true ∧ v.revealed a = false

theorem View.Waits.of_close {oracles : List Address} {window : WindowState}
    (h : (v.close oracles window).Waits a) : v.Waits a := by
  obtain ⟨info, hinfo⟩ := Option.isSome_iff_exists.mp h.1
  obtain ⟨hc, hr⟩ := View.commitment_of_close hinfo
  exact ⟨Option.isSome_iff_exists.mpr ⟨info, hc⟩, hr.symm.trans h.2⟩

theorem View.Waits.of_reveal {oracles : List Address} {window : WindowState}
    {sub : ReadingSubmission} {closed : Bool} (h : (v.reveal oracles window sub closed).Waits a) :
    v.Waits a ∧ a ≠ sub.oracle := by
  obtain ⟨info, hinfo⟩ := Option.isSome_iff_exists.mp h.1
  obtain ⟨hc, hr⟩ := View.commitment_of_reveal hinfo
  obtain ⟨hne, hr⟩ := hr h.2
  exact ⟨⟨Option.isSome_iff_exists.mpr ⟨info, hc⟩, hr⟩, hne⟩

/--
The commitments that wait for their reveals in a window are those of the oracles
that owe one. Nobody reveals or is charged before the reveal phase.
-/
structure Awaiting (p : ProjectId) (seg : Trace (State × W) (Event contract W)) (v : View) :
    Prop where
  waiting : ∀ a, v.Waits a → Owing p seg a
  owing : ∀ a, Owing p seg a → v.Waits a ∨ v.Done
  early : ∀ window, v.window = some window → window.phase = .commit → ∀ a,
    (∀ st ∈ seg, ¬ st.label.reveals p a) ∧ ∀ st ∈ seg, charges p a st = false

namespace Awaiting

theorem fresh (h : ∀ a, ¬ v.Waits a) :
    Awaiting p ([] : Trace (State × W) (Event contract W)) v where
  waiting a ha := absurd ha (h a)
  owing a ha := absurd ha not_owing_nil
  early := by simp

theorem extend (h : Awaiting p seg v)
    (hwait : ∀ a, v'.Waits a →
      v.Waits a ∧ ¬ st.label.reveals p a ∧ charges p a st = false ∨ Owing p (st :: seg) a)
    (howe : ∀ a, Owing p (st :: seg) a → v.Waits a ∨ v.Done ∨ st.label.commits p a →
      v'.Waits a ∨ v'.Done)
    (hearly : ∀ window, v'.window = some window → window.phase = .commit →
      (∃ window, v.window = some window ∧ window.phase = .commit) ∧
        ∀ a, ¬ st.label.reveals p a ∧ charges p a st = false) :
    Awaiting p (st :: seg) v' where
  waiting a ha := by
    rcases hwait a ha with ⟨ha, hr, hc⟩ | ha
    · exact (h.waiting a ha).keep hr hc
    · exact ha
  owing a ha := by
    apply howe a ha
    rcases ha.before with hb | hb
    · exact or_assoc.mp (.inl (h.owing a hb))
    · exact .inr (.inr hb)
  early window' hw' hph a := by
    obtain ⟨⟨window, hw, hph⟩, hst⟩ := hearly window' hw' hph
    obtain ⟨hr, hc⟩ := h.early window hw hph a
    exact ⟨List.forall_mem_cons.mpr ⟨(hst a).1, hr⟩, List.forall_mem_cons.mpr ⟨(hst a).2, hc⟩⟩

theorem quiet (h : Awaiting p seg v)
    (hst : ∀ a, ¬ st.label.commits p a ∧ ¬ st.label.reveals p a ∧ charges p a st = false)
    (hc : v'.commitment = v.commitment) (hr : v'.revealed = v.revealed)
    (hd : v.Done → v'.Done)
    (hph : ∀ window', v'.window = some window' → window'.phase = .commit →
      ∃ window, v.window = some window ∧ window.phase = .commit) :
    Awaiting p (st :: seg) v' := by
  have hw : ∀ a, v'.Waits a ↔ v.Waits a := fun a => by rw [View.Waits, View.Waits, hc, hr]
  refine h.extend (fun a ha => .inl ⟨(hw a).mp ha, (hst a).2⟩) ?_
    fun window' hw' hp => ⟨hph window' hw' hp, fun a => (hst a).2⟩
  rintro a - (ha | ha | ha)
  · exact .inl ((hw a).mpr ha)
  · exact .inr (hd ha)
  · exact absurd ha (hst a).1

theorem commit {info : CommitInfo} {window : WindowState} (h : Awaiting p seg v)
    (hp : v.Paired) (hn : v.commitment a = none) (hph : InPhase v .commit window)
    (hst : st.label.commits p a) (hself : ∀ b, st.label.commits p b → b = a)
    (hquiet : ∀ b, ¬ st.label.reveals p b ∧ charges p b st = false) :
    Awaiting p (st :: seg) { v with commitment := update v.commitment a (some info) } := by
  have hunrev : v.revealed a = false := by
    by_contra hr
    exact absurd (hp a (by simpa using hr)) (by simp [hn])
  have hself' : View.Waits { v with commitment := update v.commitment a (some info) } a := by
    simp [View.Waits, hunrev]
  have hne (b : Address) (hba : b ≠ a) :
      View.Waits { v with commitment := update v.commitment a (some info) } b ↔ v.Waits b := by
    simp [View.Waits, hba]
  refine h.extend (fun b hb => ?_) ?_ fun _ _ _ => ⟨⟨window, hph.stored, hph.phase_eq⟩, hquiet⟩
  · by_cases hba : b = a
    · obtain ⟨hr, hc⟩ := h.early window hph.stored hph.phase_eq a
      exact .inr (hba ▸ .start hst hr hc)
    · exact .inl ⟨(hne b hba).mp hb, hquiet b⟩
  · rintro b - (hb | hb | hb)
    · by_cases hba : b = a
      · exact .inl (hba ▸ hself')
      · exact .inl ((hne b hba).mpr hb)
    · exact absurd hb hph.not_done
    · exact .inl (hself b hb ▸ hself')

theorem reveal {oracles : List Address} {window : WindowState} {sub : ReadingSubmission}
    {closed : Bool} (h : Awaiting p seg v) (hph : InPhase v .reveal window)
    (hst : ∀ b, st.label.reveals p b ↔ b = sub.oracle)
    (hquiet : ∀ b, ¬ st.label.commits p b ∧ charges p b st = false) :
    Awaiting p (st :: seg) (v.reveal oracles window sub closed) := by
  have hwait (b : Address) (hb : (v.reveal oracles window sub closed).Waits b) :
      v.Waits b ∧ ¬ st.label.reveals p b ∧ charges p b st = false ∨ Owing p (st :: seg) b :=
    .inl ⟨hb.of_reveal.1, mt (hst b).mp hb.of_reveal.2, (hquiet b).2⟩
  cases closed with
  | true =>
    refine h.extend hwait (fun _ _ _ => .inr ⟨_, rfl, rfl⟩) ?_
    rintro window' ⟨⟩ hn
    cases hn
  | false =>
    refine h.extend hwait ?_ ?_
    · rintro b ho (hb | hb | hb)
      · have hba : b ≠ sub.oracle :=
          fun hba => ho.unrevealed st List.mem_cons_self ((hst b).mpr hba)
        exact .inl ⟨hb.1, (update_of_ne hba ..).trans hb.2⟩
      · exact absurd hb hph.not_done
      · exact absurd hb (hquiet b).1
    · rintro window' ⟨⟩ hn
      exact absurd (hph.phase_eq.symm.trans hn) (by simp)

theorem finalize {oracles : List Address} {window : WindowState} {closed : Bool}
    (h : Awaiting p seg v) (hph : InPhase v .reveal window)
    (hst : ∀ b, charges p b st = true ↔ b ∈ oracles ∧ v.Waits b)
    (hquiet : ∀ b, ¬ st.label.commits p b ∧ ¬ st.label.reveals p b) :
    Awaiting p (st :: seg)
      (if closed = true then (v.penalize oracles).close oracles window
        else v.penalize oracles) := by
  have hlist {b : Address} (hb : (v.penalize oracles).Waits b) : b ∉ oracles ∧ v.Waits b := by
    obtain ⟨hc, hr⟩ := hb
    have hr : v.revealed b = false := hr
    simp only [View.penalize, hr, and_true] at hc
    by_cases hmem : b ∈ oracles
    · simp [hmem] at hc
    · rw [if_neg hmem] at hc
      exact ⟨hmem, hc, hr⟩
  have hold {b : Address} (hb : b ∉ oracles ∧ v.Waits b) :
      v.Waits b ∧ ¬ st.label.reveals p b ∧ charges p b st = false ∨ Owing p (st :: seg) b :=
    .inl ⟨hb.2, (hquiet b).2, by simpa [hb.1] using hst b⟩
  cases closed with
  | true =>
    refine h.extend (fun b hb => ?_) (fun _ _ _ => .inr ⟨_, rfl, rfl⟩) ?_
    · rw [if_pos rfl] at hb
      exact hold (hlist hb.of_close)
    · rintro window' ⟨⟩ hn
      cases hn
  | false =>
    refine h.extend (fun b hb => hold (hlist hb)) ?_ ?_
    · rintro b ho (hb | hb | hb)
      · have hc := ho.uncharged st List.mem_cons_self
        have hmem : b ∉ oracles := fun hmem => by
          rw [(hst b).mpr ⟨hmem, hb⟩] at hc
          cases hc
        refine .inl ⟨?_, hb.2⟩
        simpa [View.penalize, hmem] using hb.1
      · exact absurd hb hph.not_done
      · exact absurd hb (hquiet b).1
    · intro window' hw' hn
      have heq : window = window' := Option.some.inj (hph.stored.symm.trans hw')
      exact absurd (hph.phase_eq.symm.trans (heq ▸ hn)) (by simp)

end Awaiting

section Finalize

variable {r : Option VerificationResult} {timestamp : UInt64}

theorem finalizeReveals_counted (h : s.finalizeReveals p o contract timestamp w = .ok (r, s', w')) :
    s'.oracleMissedReveals = s.oracleMissedReveals ∧ s'.oracleStake = s.oracleStake := by
  simp only [State.finalizeReveals, bind_eq_ok, State.expectWindow_eq_ok] at h
  obtain ⟨window, -, h⟩ := h
  split at h
  · simp only [pure_eq_ok, Prod.mk.injEq] at h
    obtain ⟨-, rfl, -⟩ := h
    exact ⟨rfl, rfl⟩
  · split at h
    · simp only [pure_eq_ok, Prod.mk.injEq] at h
      obtain ⟨-, rfl, -⟩ := h
      exact ⟨rfl, rfl⟩
    · simp only [bind_eq_ok, pure_eq_ok, Prod.mk.injEq] at h
      obtain ⟨⟨result, v⟩, -, -, rfl, -⟩ := h
      rw [recordResult_frame]
      exact ⟨rfl, rfl⟩

theorem finalizeWindow_split (h : s.finalizeWindow o e p w = .ok (r, s', w')) :
    ∃ t v, s.penalizeNonRevealers o contract e.timestamp p w = .ok (t, v) ∧
      t.finalizeReveals p o contract e.timestamp v = .ok (r, s', w') := by
  simp only [State.finalizeWindow, bind_eq_ok] at h
  obtain ⟨_, -, window, -, _, -, _, -, _, -, ⟨t, v⟩, hpen, h⟩ := h
  exact ⟨t, v, hpen, h⟩

theorem charges_iff (h : execute o e s w (.finalizeWindow p) = .ok (s', w')) :
    charges p a (⟨(s, w), .call e (.finalizeWindow p), (s', w')⟩ :
      Step (State × W) (Event contract W)) = true ↔ Missing s p s.oracleList a := by
  obtain ⟨r, h⟩ := discard_eq_ok.mp h
  obtain ⟨t, v, hpen, hfin⟩ := finalizeWindow_split h
  have hcount : s'.oracleMissedReveals a =
      s.oracleMissedReveals a + if Missing s p s.oracleList a then 1 else 0 :=
    (congrFun (finalizeReveals_counted hfin).1 a).trans (penalizeLoop_counted hpen a)
  simp only [charges, true_and, decide_eq_true_eq, hcount]
  split
  · rename_i hm
    exact iff_of_true (fun heq => absurd (UInt64.add_eq_left.mp heq) (by decide)) hm
  · rename_i hm
    exact iff_of_false (by simp) hm

end Finalize

namespace Event

/-- A fresh window finds no commitment that waits for its reveal and that it does not clear. -/
def startsClean (s : State) : Event contract W → Prop
  | .call _ (.openWindow _ p) => ∀ a, ¬ Waiting s p a
  | .call _ (.resetWindow _ p) => ∀ a, Waiting s p a →
      a ∈ (s.readings p).map (·.oracle) ++ s.oracleList
  | _ => True

/-- A stake stays in the range of the type. -/
def stakeFits (s : State) : Event contract W → Prop
  | .call _ (.stake a n) => I128.Fits ((s.oracleStake a).amount.val + n.val)
  | _ => True

end Event

theorem Move.awaiting (hm : Move o e s p (s.view p) c v')
    (hex : execute o e s w c = .ok (s', w'))
    (hg : Event.startsClean s (.call e c : Event contract W)) (hp : (s.view p).Paired)
    (h : Awaiting p (segment (Event.opens p) tr) (s.view p)) :
    Awaiting p (segment (Event.opens p) (⟨(s, w), .call e c, (s', w')⟩ :: tr)) v' := by
  cases hm with
  | idle hc =>
    rw [segment_of_not (Event.opens_of_ne hc)]
    refine h.quiet (fun a => ?_) rfl rfl id fun window' hw hph => ⟨window', hw, hph⟩
    cases c with
    | commitReading b q =>
      exact ⟨fun hq => hc (congrArg some hq.1), id, rfl⟩
    | revealReading b q =>
      exact ⟨id, fun hq => hc (congrArg some hq.1), rfl⟩
    | finalizeWindow q =>
      have hq : q ≠ p := fun hq => hc (congrArg some hq)
      exact ⟨id, id, by simp [charges, hq]⟩
    | _ => exact ⟨id, id, rfl⟩
  | openWindow hd =>
    rw [segment_of_opens (by simp [Event.opens])]
    exact .fresh hg
  | @resetWindow admin window hw =>
    rw [segment_of_opens (by simp [Event.opens])]
    refine .fresh fun a ha => ?_
    obtain ⟨hc, hr⟩ := ha
    by_cases hmem : a ∈ window.submissions.map (·.oracle) ++ s.oracleList
    · simp only [View.reset, if_pos hmem, Option.isSome_none, Bool.false_eq_true] at hc
    · simp only [View.reset, if_neg hmem] at hc hr
      have hg := hg a ⟨hc, hr⟩
      rw [readings_of_window hw] at hg
      exact hmem hg
  | commitReading ha hn hph =>
    rw [segment_of_not rfl]
    exact h.commit hp hn hph ⟨rfl, rfl⟩ (fun b hb => hb.2.symm) fun b => ⟨id, rfl⟩
  | @beginRevealPhase window hph =>
    rw [segment_of_not rfl]
    refine h.quiet (fun a => ⟨id, id, rfl⟩) rfl rfl (fun hd => absurd hd hph.not_done) ?_
    rintro window' ⟨⟩ hn
    cases hn
  | @submitReading a n reading window closed ha hn hst hf =>
    rw [segment_of_not rfl]
    refine h.quiet (fun a => ⟨id, id, rfl⟩) rfl rfl (fun hd => ?_) ?_
    · obtain ⟨window', hw, hf'⟩ := hd
      rw [hw] at hst
      exact absurd ((congrArg WindowState.finalized hst).symm.trans hf') (by simp [hf])
    · rintro window' ⟨⟩ hph
      cases hw : (s.view p).window with
      | some window₀ =>
        rw [hw] at hst
        exact ⟨window₀, rfl, (congrArg WindowState.phase hst).trans hph⟩
      | none =>
        rw [hw] at hst
        exact absurd ((congrArg WindowState.phase hst).trans hph) (by simp)
  | @revealReading a params window closed ha hn hc hph =>
    rw [segment_of_not rfl]
    refine h.reveal hph (fun b => ?_) fun b => ⟨id, rfl⟩
    exact ⟨fun hb => hb.2.symm, fun hb => ⟨rfl, hb.symm⟩⟩
  | @finalizeWindow window closed hph =>
    rw [segment_of_not rfl]
    exact h.finalize hph (fun b => charges_iff hex) fun b => ⟨id, id⟩

/-- The configuration bounds penalties, and no stake is negative. -/
structure Staked (s : State) : Prop where
  bounded : s.config.Bounded
  nonneg : ∀ a, 0 ≤ (s.oracleStake a).amount.val

theorem Staked.initial {admin stakingToken treasury : Address}
    (h : Oracle.initialise none admin stakingToken treasury = .ok s) : Staked s := by
  obtain ⟨-, rfl⟩ := initialise_eq_ok.mp h
  exact ⟨⟨le_rfl, (by decide : (0 : I128).val ≤ I128.MAX.val)⟩, fun _ => le_rfl⟩

theorem Staked.bounded_step (hs : Staked s) (h : execute o e s w c = .ok (s', w')) :
    s'.config.Bounded := by
  rcases execute_reconfigures h with heq | ⟨admin, config, rfl, hu⟩
  · exact heq ▸ hs.bounded
  · obtain ⟨hb, -, -, -, -, -, rfl⟩ := updateConfig_cases hu
    obtain ⟨hmin, hmax⟩ := not_or.mp hb
    exact ⟨not_lt.mp hmin, not_lt.mp hmax⟩

theorem finalizeWindow_stake (hs : Staked s)
    (h : execute o e s w (.finalizeWindow p) = .ok (s', w')) (a : Address) :
    (s'.oracleStake a).amount.val = (s.oracleStake a).amount.val -
      if Missing s p s.oracleList a then charge (s.oracleStake a).amount.val s.config else 0 := by
  obtain ⟨r, h⟩ := discard_eq_ok.mp h
  obtain ⟨t, v, hpen, hfin⟩ := finalizeWindow_split h
  have hst : s'.oracleStake = t.oracleStake := (finalizeReveals_counted hfin).2
  rw [hst, penalizeLoop_stake hpen a, penaltyIn_eq]
  split
  · rename_i hm
    rw [penalizeLoop_charge hs.bounded hs.nonneg hpen hm]
  · rfl

theorem Staked.step (hs : Staked s)
    (hg : Event.stakeFits s (.call e c : Event contract W))
    (h : execute o e s w c = .ok (s', w')) : Staked s' := by
  refine ⟨hs.bounded_step h, fun a => ?_⟩
  have h0 := hs.nonneg a
  cases c with
  | stake b n =>
    obtain ⟨-, hn, -, hup⟩ := stake_cases h
    rw [stake_update hup (I128.val_add hg) a]
    split <;> omega
  | unstake b n =>
    obtain ⟨hn, hle, -, hup⟩ := unstake_cases (within_eq_ok.mp h).1
    rw [stake_update hup (d := -n.val) (I128.val_sub_of_le hn.le hle) a]
    split
    · rename_i hab
      rw [hab]
      omega
    · omega
  | claimUnstake b =>
    obtain ⟨-, hup⟩ := claimUnstake_cases h
    rw [hup, update_apply]
    split
    · exact le_rfl
    · exact h0
  | slash caller b n reason =>
    obtain ⟨hn, hle, -, hup⟩ := slash_cases h
    rw [stake_update hup (d := -n.val) (I128.val_sub_of_le hn.le hle) a]
    split
    · rename_i hab
      rw [hab]
      omega
    · omega
  | finalizeWindow q =>
    have hle : charge (s.oracleStake a).amount.val s.config ≤ (s.oracleStake a).amount.val :=
      charge_le
    rw [finalizeWindow_stake hs h a]
    split <;> omega
  | _ =>
    rw [execute_stakes rfl h]
    exact h0

/-- What a run keeps: who owes reveals, and the stakes. -/
structure MissedRun (tr : Trace (State × W) (Event contract W)) (s : State) : Prop where
  staked : Staked s
  awaiting : ∀ p, Awaiting p (segment (Event.opens p) tr) (s.view p)

theorem missed_run {sw : State × W} (h : (machine contract o).Run Machine.anyCall tr sw)
    (hclean : ∀ st ∈ tr, st.label.startsClean st.before.1)
    (hfit : ∀ st ∈ tr, st.label.stakeFits st.before.1) : MissedRun tr sw.1 := by
  induction h with
  | init h =>
    obtain ⟨admin, stakingToken, treasury, hs⟩ := h
    refine ⟨.initial hs, fun p => ?_⟩
    rw [(initialise_eq_ok.mp hs).2]
    exact .fresh fun a ha => absurd ha.1 (by simp [State.view, State.windows, Windows.view])
  | @step tr sw sw' ev hr _ hs ih =>
    obtain ⟨hc, hclean⟩ := List.forall_mem_cons.mp hclean
    obtain ⟨hf, hfit⟩ := List.forall_mem_cons.mp hfit
    have hi := ih hclean hfit
    cases ev with
    | outside u =>
      cases hs
      refine ⟨hi.staked, fun p => ?_⟩
      rw [segment_of_not rfl]
      exact (hi.awaiting p).quiet (fun a => ⟨id, id, rfl⟩) rfl rfl id
        fun window hw hph => ⟨window, hw, hph⟩
    | call e c =>
      exact ⟨hi.staked.step hf hs, fun p =>
        (execute_move p hs).awaiting hs hc (paired_of_reach ⟨_, hr⟩ p) (hi.awaiting p)⟩

/--
A finalization charges exactly the listed oracles that owe a reveal in the
window. Each pays the share of its stake that the configuration asks for, nobody
else pays, and an honest staking token moves the sum to the treasury before the
window is finalized.
-/
structure ChargesMissed (o : Outside W) (token : Address) (bal : Address → W → ℤ) (p : ProjectId)
    (e : Env contract) (seg : Trace (State × W) (Event contract W))
    (st : Step (State × W) (Event contract W)) : Prop where
  charged : ∀ a, charges p a st = true ↔ a ∈ st.before.1.oracleList ∧ Owing p seg a
  stake : ∀ a, (st.after.1.oracleStake a).amount.val = (st.before.1.oracleStake a).amount.val -
    if charges p a st = true then charge (st.before.1.oracleStake a).amount.val st.before.1.config
    else 0
  range : ∀ a, 0 ≤ charge (st.before.1.oracleStake a).amount.val st.before.1.config ∧
    charge (st.before.1.oracleStake a).amount.val st.before.1.config ≤
      (st.before.1.oracleStake a).amount.val
  received : st.before.1.config.stakingToken = token → ∃ t v r,
    st.before.1.penalizeNonRevealers o contract e.timestamp p st.before.2 = .ok (t, v) ∧
      Transferred bal contract st.before.1.config.treasury (lost st.before.1 st.after.1)
        st.before.2 v ∧
      t.finalizeReveals p o contract e.timestamp v = .ok (r, st.after.1, st.after.2)

theorem chargesMissed_of_run {token : Address} {bal : Address → W → ℤ}
    (hl : TokenLedger o token bal) (hr : MissedRun tr s)
    (h : execute o e s w (.finalizeWindow p) = .ok (s', w')) :
    ChargesMissed o token bal p e (segment (Event.opens p) tr)
      ⟨(s, w), .call e (.finalizeWindow p), (s', w')⟩ := by
  have hiff (a : Address) := charges_iff (a := a) h
  have hlive : ¬ (s.view p).Done := by
    obtain ⟨r, h⟩ := discard_eq_ok.mp h
    obtain ⟨-, window, -, -, -, hw, hf, -⟩ := finalizeWindow_cases h
    exact View.Live.not_done ⟨window, hw, hf⟩
  constructor
  · intro a
    rw [hiff a]
    refine and_congr_right fun _ => ⟨(hr.awaiting p).waiting a, fun ho => ?_⟩
    exact ((hr.awaiting p).owing a ho).resolve_right hlive
  · intro a
    simp only [hiff a]
    exact finalizeWindow_stake hr.staked h a
  · exact fun a => ⟨charge_nonneg hr.staked.bounded (hr.staked.nonneg a), charge_le⟩
  · intro hc
    obtain ⟨r, h⟩ := discard_eq_ok.mp h
    obtain ⟨t, v, hpen, hfin⟩ := finalizeWindow_split h
    have hlost : lost s s' = lost s t := by
      unfold lost
      rw [(finalizeReveals_counted hfin).2]
    exact ⟨t, v, r, hpen, hlost ▸ penalizeLoop_transferred hl hc hpen, hfin⟩

theorem charged_once {token : Address} {bal : Address → W → ℤ}
    (h : ChargesMissed o token bal p e seg st) (ha : charges p a st = true) :
    seg.countP (charges p a) = 0 := by
  rw [List.countP_eq_zero]
  intro st' hst'
  simp [((h.charged a).mp ha).2.uncharged st' hst']

/--
When every fresh window starts clean and no stake wraps around, each
finalization charges the oracles that owe a reveal, at most once in a window.
-/
theorem missed_reveals_charged {token : Address} {bal : Address → W → ℤ}
    (hl : TokenLedger o token bal) {sw : State × W}
    (h : (machine contract o).Run Machine.anyCall tr sw)
    (hclean : ∀ st ∈ tr, st.label.startsClean st.before.1)
    (hfit : ∀ st ∈ tr, st.label.stakeFits st.before.1) :
    (∀ post st pre, tr = post ++ st :: pre → ∀ (e : Env contract) p,
        st.label = .call e (.finalizeWindow p) →
          ChargesMissed o token bal p e (segment (Event.opens p) pre) st) ∧
      ∀ p a, (segment (Event.opens p) tr).countP (charges p a) ≤ 1 := by
  constructor
  · rintro post ⟨⟨s, w⟩, _, ⟨s', w'⟩⟩ pre rfl e p rfl
    obtain ⟨hr, -, hs⟩ := h.split
    have hsub : pre ⊆ post ++ ⟨(s, w), .call e (.finalizeWindow p), (s', w')⟩ :: pre :=
      fun st hst => List.mem_append_right _ (List.mem_cons_of_mem _ hst)
    exact chargesMissed_of_run hl
      (missed_run hr (fun st hst => hclean st (hsub hst)) fun st hst => hfit st (hsub hst)) hs
  · intro p a
    induction h with
    | init => simp [Foundation.segment]
    | @step tr sw sw' ev hr _ hs ih =>
      obtain ⟨-, hcs⟩ := List.forall_mem_cons.mp hclean
      obtain ⟨-, hfs⟩ := List.forall_mem_cons.mp hfit
      cases hopen : Event.opens p ev with
      | true =>
        rw [segment_of_opens hopen]
        simp
      | false =>
        rw [segment_of_not hopen, List.countP_cons]
        cases hch : charges p a (⟨sw, ev, sw'⟩ : Step (State × W) (Event contract W)) with
        | false => simpa using ih hcs hfs
        | true =>
          obtain ⟨e, rfl⟩ : ∃ e, ev = .call e (.finalizeWindow p) := by
            unfold charges at hch
            split at hch
            · rename_i e q heq
              have hq : q = p := (of_decide_eq_true hch).1
              exact ⟨e, hq ▸ heq⟩
            · cases hch
          have hcm := chargesMissed_of_run hl (missed_run hr hcs hfs) hs
          simp [charged_once hcm hch]

section Sample

/-- One honest token, in which anybody may move any amount. -/
def plainLedger : Outside (Address → ℤ) where
  totalSupply _ _ := .error .invokeFailed
  maxSupply _ _ := .error .invokeFailed
  mintTo _ _ _ _ _ := .error .invokeFailed
  transfer _ a b n w := do
    ensure (n.val ≤ w a) "insufficient balance"
    return fun x => w x - (if x = a then n.val else 0) + if x = b then n.val else 0
  sha256 _ := 0

theorem plainLedger_honest {token : Address} : TokenLedger plainLedger token fun x w => w x where
  transfer := by
    intro a b n w w' _ h x
    simp only [plainLedger, bind_eq_ok, pure_eq_ok] at h
    obtain ⟨_, -, rfl⟩ := h
    rfl

/-- A sample call at some ledger, authorised by the account with this key. -/
def calledOn {W : Type} (timestamp : UInt64) (sequence : UInt32) (key : BytesN 32) (c : Call) :
    Event station W :=
  .call (.signed timestamp sequence (.account key) account_ne_contract) c

/-- A fresh oracle with a hundred units of the staking token in the account `1`. -/
def ledgerInstalled : State × (Address → ℤ) :=
  (installed.1, fun x => if x = .account 1 then 100 else 0)

abbrev ledgerMachine : Machine (State × (Address → ℤ)) (Event station (Address → ℤ)) Panic :=
  machine station plainLedger

/-- The account `1` stakes sixty units and serves as an oracle with the account `2`. -/
def ledgerStaffed : State × (Address → ℤ) :=
  ledgerMachine.calls ledgerInstalled
    [calledOn 0 0 1 (.stake (.account 1) 60), calledOn 0 0 0 (.addOracle (.account 0) (.account 1)),
      calledOn 0 0 0 (.addOracle (.account 0) (.account 2)),
      calledOn 0 0 0 (.updateConfig (.account 0) { installed.1.config with minOracles := 2 })]

theorem ledgerStaffed_run : ∃ tr, ledgerMachine.Run Machine.anyCall tr ledgerStaffed ∧
    ∀ st ∈ tr, st.label.startsClean st.before.1 ∧ st.label.stakeFits st.before.1 := by
  have h0 := Machine.Run.init (m := ledgerMachine) (G := Machine.anyCall) (s := ledgerInstalled)
    ⟨.account 0, .contract 3, .account 5, rfl⟩
  have h1 := h0.call (l := calledOn 0 0 1 (.stake (.account 1) 60)) trivial (by rfl)
  have h2 := h1.call (l := calledOn 0 0 0 (.addOracle (.account 0) (.account 1))) trivial (by rfl)
  have h3 := h2.call (l := calledOn 0 0 0 (.addOracle (.account 0) (.account 2))) trivial (by rfl)
  have h4 := h3.call (l := calledOn 0 0 0
    (.updateConfig (.account 0) { installed.1.config with minOracles := 2 })) trivial (by rfl)
  refine ⟨_, h4, ?_⟩
  simp only [List.forall_mem_cons, List.not_mem_nil, false_imp_iff, implies_true, and_true]
  exact ⟨⟨trivial, trivial⟩, ⟨trivial, trivial⟩, ⟨trivial, trivial⟩, trivial, by decide, by decide⟩

/-- The beginning and the end of the reveal phase. -/
def revealPhase : Event station (Address → ℤ) := calledOn 300 0 9 (.beginRevealPhase 7)

@[inherit_doc revealPhase]
def revealEnd : Event station (Address → ℤ) := calledOn 300 61 9 (.finalizeWindow 7)

def freshSeven : Event station (Address → ℤ) := calledOn 0 0 0 (.openWindow (.account 0) 7)

def promise : Event station (Address → ℤ) :=
  calledOn 0 0 1 (.commitReading (.account 1) 7 1 0)

/-- The account `1` has committed in a window and has not revealed. -/
def promised : State × (Address → ℤ) :=
  ledgerMachine.calls ledgerStaffed [freshSeven, promise, revealPhase]

theorem missed_reveals_charged_promised :
    ((ledgerMachine.call promised revealEnd).1.oracleStake (.account 1)).amount.val = 54 ∧
      (ledgerMachine.call promised revealEnd).2 (.account 5) = 6 ∧
      ∃ tr, ledgerMachine.Run Machine.anyCall
          (⟨promised, revealEnd, ledgerMachine.call promised revealEnd⟩ :: tr)
          (ledgerMachine.call promised revealEnd) ∧
        ∃ e, revealEnd = .call e (.finalizeWindow 7) ∧
          ChargesMissed plainLedger (.contract 3) (fun x w => w x) 7 e
            (segment (Event.opens 7) tr)
            ⟨promised, revealEnd, ledgerMachine.call promised revealEnd⟩ := by
  obtain ⟨tr, h, hc⟩ := ledgerStaffed_run
  have h1 := h.call (l := freshSeven) trivial (by rfl)
  have h2 := h1.call (l := promise) trivial (by rfl)
  have h3 := h2.call (l := revealPhase) trivial (by rfl)
  have h4 := h3.call (l := revealEnd) trivial (by rfl)
  have hclean : ∀ a, ¬ Waiting ledgerStaffed.1 7 a := by
    rintro a ⟨hs, -⟩
    cases hs
  refine ⟨by decide, by decide, _, h4, _, rfl,
    (missed_reveals_charged plainLedger_honest h4 ?_ ?_).1 [] _ _ rfl _ 7 rfl⟩
  · exact List.forall_mem_cons.mpr ⟨trivial, List.forall_mem_cons.mpr ⟨trivial,
      List.forall_mem_cons.mpr ⟨trivial, List.forall_mem_cons.mpr ⟨hclean,
        fun st hst => (hc st hst).1⟩⟩⟩⟩
  · exact List.forall_mem_cons.mpr ⟨trivial, List.forall_mem_cons.mpr ⟨trivial,
      List.forall_mem_cons.mpr ⟨trivial, List.forall_mem_cons.mpr ⟨trivial,
        fun st hst => (hc st hst).2⟩⟩⟩⟩

/-- The account `1` has committed in a window that direct readings then finalized. -/
def bypassed : State × (Address → ℤ) :=
  ledgerMachine.calls ledgerStaffed [freshSeven, promise,
    calledOn 0 0 1 (.submitReading (.account 1) 7 2 clearWater),
    calledOn 0 0 2 (.submitReading (.account 2) 7 1 clearWater)]

/-- In the next window nobody commits, and the reveal phase begins all the same. -/
def reopened : State × (Address → ℤ) := ledgerMachine.calls bypassed [freshSeven, revealPhase]

set_option maxRecDepth 2000 in
theorem charged_for_another_window :
    (reopened.1.oracleStake (.account 1)).amount.val = 60 ∧
      ((ledgerMachine.call reopened revealEnd).1.oracleStake (.account 1)).amount.val = 54 ∧
      ∃ tr, ledgerMachine.Run Machine.anyCall
          (⟨reopened, revealEnd, ledgerMachine.call reopened revealEnd⟩ :: tr)
          (ledgerMachine.call reopened revealEnd) ∧
        (∀ st ∈ segment (Event.opens 7) tr, ¬ st.label.commits 7 (.account 1)) ∧
        ∀ e, ¬ ChargesMissed plainLedger (.contract 3) (fun x w => w x) 7 e
          (segment (Event.opens 7) tr)
          ⟨reopened, revealEnd, ledgerMachine.call reopened revealEnd⟩ := by
  obtain ⟨tr, h, -⟩ := ledgerStaffed_run
  obtain ⟨tr, h⟩ : ledgerMachine.Reachable bypassed := Machine.Reachable.calls ⟨tr, h⟩ _
  have h1 := h.call (l := freshSeven) trivial (by rfl)
  have h2 := h1.call (l := revealPhase) trivial (by rfl)
  have h3 := h2.call (l := revealEnd) trivial (by rfl)
  refine ⟨by decide, by decide, _, h3, ?_⟩
  rw [segment_of_not (by rfl), segment_of_opens (by rfl)]
  refine ⟨List.forall_mem_singleton.mpr id, fun e hc => ?_⟩
  obtain ⟨st, hst, hcom⟩ := ((hc.charged (.account 1)).mp (by decide)).2.committed
  rw [List.mem_singleton.mp hst] at hcom
  exact hcom

end Sample

end WaterCredits.Oracle
