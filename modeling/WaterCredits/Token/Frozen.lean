import WaterCredits.Token.Consent

/-! # A paused token

While a token is paused no credits are issued, moved or retired. The admin may
still recall credits, and the bridge may burn its own, so balances fall by the
burned amounts and by nothing else.
-/

namespace WaterCredits.Token

open Foundation Function

variable {contract : Address} {W : Type} {e : Env contract} {R : Registry W}
  {s s' : State} {w w' : W} {a : Address} {n : I128}
  {tr : Trace (State × W) (Env contract × Call)}

def Call.unpauses : Call → Bool
  | .unpause _ => true
  | _ => false

theorem step_paused {c : Call} (hp : s.paused = true) (h : step R (e, c) (s, w) = .ok (s', w')) :
    c.accounting = false ∨ ∃ p, c.destroys = some p := by
  cases c <;> first | exact .inl rfl | exact .inr ⟨_, rfl⟩ | skip
  case mintTo =>
    obtain ⟨-, hup, -⟩ := mintTo_eq_ok.mp (within_eq_ok.mp h).1
    exact absurd (hp.symm.trans hup) Bool.true_eq_false.mp
  all_goals
    simp only [step, within_eq_ok, State.batchMintTo, State.transfer, State.batchTransfer,
      State.transferFrom, State.retire, bind_eq_ok, State.requireNotPaused_eq_ok, hp,
      Bool.true_eq_false, false_and, and_false, exists_false] at h

theorem step_destroys_by {c : Call} (hc : c.destroys = some (a, n))
    (h : step R (e, c) (s, w) = .ok (s', w')) :
    e.auth s.admin = true ∨ s.bridge = some a ∧ e.auth a = true := by
  cases c <;> simp only [Call.destroys, reduceCtorEq, Option.some.injEq, Prod.mk.injEq] at hc
  case burn =>
    obtain ⟨rfl, rfl⟩ := hc
    simp only [step, within_eq_ok, State.burn, bind_eq_ok, Env.requireAuth_eq_ok] at h
    obtain ⟨⟨_, -, _, hauth, h⟩, -⟩ := h
    split at h
    · rename_i hb
      simp only [bind_eq_ok, ensure_eq_ok] at h
      obtain ⟨_, rfl, -⟩ := h
      exact .inr ⟨hb, hauth⟩
    · simp only [bind_eq_ok, ensure_eq_ok] at h
      obtain ⟨_, rfl, -⟩ := h
      exact .inl hauth
  case burnWithReason =>
    simp only [step, within_eq_ok, State.burnWithReason, bind_eq_ok, State.requireAdmin_eq_ok] at h
    obtain ⟨⟨_, -, _, ⟨hauth, rfl⟩, -⟩, -⟩ := h
    exact .inl hauth

theorem approver_auth {c : Call} (h : step R (e, c) (s, w) = .ok (s', w'))
    (pair : Address × Address) (hc : c.approves pair = true) : e.auth pair.1 = true := by
  by_contra hauth
  have hnot := not_approves (Bool.eq_false_of_not_eq_true hauth) h pair.2
  exact Bool.false_ne_true (hnot.symm.trans hc)

theorem step_destroys_frame {c : Call} (hc : c.destroys = some (a, n))
    (h : step R (e, c) (s, w) = .ok (s', w')) :
    s'.paused = s.paused ∧ s'.everMinted = s.everMinted ∧ s'.archive = s.archive ∧
      s'.allowance = s.allowance ∧ w' = w := by
  cases c <;> simp only [Call.destroys, reduceCtorEq, Option.some.injEq, Prod.mk.injEq] at hc
  case burn =>
    obtain ⟨hburn, rfl⟩ := within_eq_ok.mp h
    obtain ⟨-, t, hd, rfl | ⟨bridged, -, rfl⟩⟩ := burn_cases hburn
    · rw [destroy_frame hd]
      exact ⟨rfl, rfl, rfl, rfl, rfl⟩
    · rw [destroy_frame hd]
      exact ⟨rfl, rfl, rfl, rfl, rfl⟩
  case burnWithReason =>
    simp only [step, within_eq_ok, State.burnWithReason, bind_eq_ok] at h
    obtain ⟨⟨_, -, _, -, hd⟩, rfl⟩ := h
    rw [destroy_frame hd]
    exact ⟨rfl, rfl, rfl, rfl, rfl⟩

def burns (tr : Trace (State × W) (Env contract × Call)) : List (Address × I128) :=
  tr.filterMap fun st => st.label.2.destroys

/-- What a run burns of the credits of a holder. -/
def burnedFrom (a : Address) (tr : Trace (State × W) (Env contract × Call)) : ℤ :=
  ((burns tr).map fun p => if p.1 = a then p.2.val else 0).sum

def burnedInAll (tr : Trace (State × W) (Env contract × Call)) : ℤ :=
  ((burns tr).map fun p => p.2.val).sum

section Burns

variable {st : Step (State × W) (Env contract × Call)}

theorem burns_of_none (h : st.label.2.destroys = none) : burns (st :: tr) = burns tr :=
  List.filterMap_cons_none h

theorem burns_of_some (h : st.label.2.destroys = some (a, n)) :
    burns (st :: tr) = (a, n) :: burns tr :=
  List.filterMap_cons_some h

end Burns

/-- What a run that never unpauses leaves of a token that was paused in `sw₀`. -/
structure FrozenSince (sw₀ : State × W) (tr : Trace (State × W) (Env contract × Call))
    (sw : State × W) : Prop where
  paused : sw.1.paused = true
  balance : ∀ a, (sw.1.balance a).val = (sw₀.1.balance a).val - burnedFrom a tr
  burned : sw.1.totalBurned.val = sw₀.1.totalBurned.val + burnedInAll tr
  minted : sw.1.everMinted = sw₀.1.everMinted
  archive : sw.1.archive = sw₀.1.archive
  allowance : ∀ pair, (∀ st ∈ tr, st.label.2.approves pair = false) →
    sw.1.allowance pair = sw₀.1.allowance pair
  approver : ∀ st ∈ tr, ∀ pair, st.label.2.approves pair = true → st.label.1.auth pair.1 = true
  registry : sw.2 = sw₀.2
  burner : ∀ st ∈ tr, ∀ a n, st.label.2.destroys = some (a, n) →
    st.label.1.auth st.before.1.admin = true ∨
      st.before.1.bridge = some a ∧ st.label.1.auth a = true

namespace FrozenSince

variable {sw₀ : State × W} {c : Call}

theorem start (h : sw₀.1.paused = true) :
    FrozenSince sw₀ ([] : Trace (State × W) (Env contract × Call)) sw₀ := by
  constructor
  · exact h
  · exact fun _ => (sub_zero _).symm
  · exact (add_zero _).symm
  · rfl
  · rfl
  · exact fun _ _ => rfl
  · exact fun _ h => absurd h List.not_mem_nil
  · rfl
  · exact fun _ h => absurd h List.not_mem_nil

theorem destroy (hf : FrozenSince sw₀ tr (s, w)) (hc : c.destroys = some (a, n))
    (h : step R (e, c) (s, w) = .ok (s', w')) :
    FrozenSince sw₀ (⟨(s, w), (e, c), (s', w')⟩ :: tr) (s', w') := by
  obtain ⟨h0, t, hd, hb, hburned⟩ := step_destroys hc h
  obtain ⟨hp, hm, ha, hal, hw⟩ := step_destroys_frame hc h
  have hburns : burns (⟨(s, w), (e, c), (s', w')⟩ :: tr) = (a, n) :: burns tr := burns_of_some hc
  constructor
  · exact hp.trans hf.paused
  · intro b
    have hbal := hf.balance b
    simp only [burnedFrom, hburns, List.map_cons, List.sum_cons] at hbal ⊢
    rw [hb, destroy_balance h0 hd b, hbal]
    omega
  · obtain ⟨-, burned, hval, rfl⟩ := destroy_eq_ok.mp hd
    have htotal := hf.burned
    simp only [burnedInAll, hburns, List.map_cons, List.sum_cons] at htotal ⊢
    rw [hburned, hval, htotal]
    omega
  · exact hm.trans hf.minted
  · exact ha.trans hf.archive
  · intro pair hn
    rw [hal]
    exact hf.allowance pair fun st hst => hn st (List.mem_cons_of_mem _ hst)
  · exact List.forall_mem_cons.mpr ⟨approver_auth h, hf.approver⟩
  · exact hw.trans hf.registry
  · refine List.forall_mem_cons.mpr ⟨?_, hf.burner⟩
    intro b m hb
    obtain ⟨rfl, rfl⟩ := Prod.mk.inj (Option.some.inj (hc.symm.trans hb))
    exact step_destroys_by hc h

theorem keep (hf : FrozenSince sw₀ tr (s, w)) (hc : c.accounting = false)
    (hu : c.unpauses = false) (h : step R (e, c) (s, w) = .ok (s', w')) :
    FrozenSince sw₀ (⟨(s, w), (e, c), (s', w')⟩ :: tr) (s', w') := by
  obtain ⟨hbooks, -, harchive⟩ := step_administer hc h
  have hnone : c.destroys = none := by cases c <;> first | rfl | cases hc
  have hburns : burns (⟨(s, w), (e, c), (s', w')⟩ :: tr) = burns tr := burns_of_none hnone
  have hpaused : s'.paused = true := by
    rw [step_administered hc h]
    cases c <;> first | exact hf.paused | rfl | cases hu
  have hworld : w' = w := by
    cases c <;> first | exact (within_eq_ok.mp h).2.symm | cases hc
  constructor
  · exact hpaused
  · intro b
    have hb : (s'.balance b).val = (s.balance b).val := congrFun (congrArg Books.balance hbooks) b
    rw [burnedFrom, hburns]
    exact hb.trans (hf.balance b)
  · have hb : s'.totalBurned.val = s.totalBurned.val := congrArg Books.burned hbooks
    rw [burnedInAll, hburns]
    exact hb.trans hf.burned
  · have hm : s'.everMinted.val = s.everMinted.val := congrArg Books.minted hbooks
    exact (I128.ext hm).trans hf.minted
  · exact harchive.trans hf.archive
  · intro pair hn
    obtain ⟨hnow, hbefore⟩ := List.forall_mem_cons.mp hn
    have hd : c.drawn pair = none := by cases c <;> first | rfl | cases hc
    exact (congrArg Prod.fst (step_grant_eq hnow hd h)).trans (hf.allowance pair hbefore)
  · exact List.forall_mem_cons.mpr ⟨approver_auth h, hf.approver⟩
  · exact hworld.trans hf.registry
  · refine List.forall_mem_cons.mpr ⟨?_, hf.burner⟩
    intro b m hb
    exact absurd (hnone.symm.trans hb) (by simp)

end FrozenSince

/--
From a paused state on, and until it is unpaused, a token only burns credits,
and only the admin or the bridge does: nothing is issued, moved, drawn or
retired.
-/
theorem frozen_while_paused {sw₀ sw : State × W} (hp : sw₀.1.paused = true)
    (h : ((machine contract R).startedIn sw₀).Run (fun _ _ l => l.2.unpauses = false) tr sw) :
    FrozenSince sw₀ tr sw := by
  refine Machine.Run.invariant (I := FrozenSince sw₀) ?_ ?_ h
  · rintro sw rfl
    exact .start hp
  · rintro tr ⟨s, w⟩ ⟨e, c⟩ ⟨s', w'⟩ - hf hu hs
    rcases step_paused hf.paused hs with hc | ⟨⟨b, m⟩, hc⟩
    · exact hf.keep hc hu hs
    · exact hf.destroy hc hs

section Sample

/-- The token is paused while the account `1` holds its hundred units. -/
def halted : State × Unit :=
  (machine home closedRegistry).calls funded [signedBy 0 (.pause (.account 0))]

def recalled : State × Unit :=
  (machine home closedRegistry).calls halted
    [signedBy 0 (.burnWithReason (.account 0) (.account 1) 40 "recall")]

theorem frozen_while_paused_recalled : ∃ tr : Trace (State × Unit) (Env home × Call),
    FrozenSince halted tr recalled ∧ burnedFrom (.account 1) tr = 40 := by
  have hstart := Machine.Run.init (m := (machine home closedRegistry).startedIn halted)
    (G := fun _ _ l => l.2.unpauses = false) rfl
  have hrecall := hstart.call
    (l := signedBy 0 (.burnWithReason (.account 0) (.account 1) 40 "recall")) rfl (by decide)
  exact ⟨_, frozen_while_paused (by decide) hrecall, by decide⟩

end Sample

end WaterCredits.Token
