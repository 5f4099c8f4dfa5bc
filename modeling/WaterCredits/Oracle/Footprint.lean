import WaterCredits.Oracle.Moves

/-! # The footprint of the oracle

The oracle touches the outside world through a few calls on token contracts. A
relation between worlds that each of them respects is respected by every public
call. A call about a project mints through the token of that project only.
-/

namespace WaterCredits.Oracle

open Foundation Function

variable {contract : Address} {W : Type} {o : Outside W} {e : Env contract} {s s' t : State}
  {w w' v : W} {p : ProjectId} {oracle token recipient beneficiary : Address}
  {window : WindowState} {subs : List ReadingSubmission} {timestamp : UInt64}
  {config : OracleConfig} {amount net fee total : I128} {P Q : Address → Prop} {Rel : W → W → Prop}

/--
A relation between worlds that the calls of the oracle respect, when it mints
through the tokens in `P` and pays stakes out to the addresses in `Q`.
-/
structure Respects (o : Outside W) (contract : Address) (P Q : Address → Prop)
    (Rel : W → W → Prop) : Prop where
  refl : ∀ w, Rel w w
  trans : ∀ {w v u}, Rel w v → Rel v u → Rel w u
  totalSupply : ∀ {token w x w'}, o.totalSupply token w = .ok (x, w') → Rel w w'
  maxSupply : ∀ {token w x w'}, o.maxSupply token w = .ok (x, w') → Rel w w'
  mintTo : ∀ {token recipient amount w w'}, P token →
    o.mintTo token contract recipient amount w = .ok w' → Rel w w'
  deposit : ∀ {token sender amount w w'}, sender ≠ contract →
    o.transfer token sender contract amount w = .ok w' → Rel w w'
  payout : ∀ {token recipient amount w w'}, Q recipient →
    o.transfer token contract recipient amount w = .ok w' → Rel w w'

def mintsThrough (s : State) (c : Call) (token : Address) : Prop :=
  ∃ p pc, c.project = some p ∧ s.projectConfig p = some pc ∧ token = pc.tokenContract

def paysOut (contract : Address) (s : State) (a : Address) : Prop :=
  a = s.config.treasury ∨ a ≠ contract

namespace Respects

variable (hR : Respects o contract P Q Rel)

include hR

theorem mintPositive (ht : P token)
    (h : mintPositive o token contract recipient amount w = .ok w') : Rel w w' := by
  unfold Oracle.mintPositive at h
  split at h
  · exact hR.mintTo ht h
  · obtain rfl := pure_eq_ok.mp h
    exact hR.refl w

theorem mintCredits (ht : P token)
    (h : mintCreditsRespectingCap o contract config token beneficiary total w =
      .ok (net, fee, w')) : Rel w w' := by
  unfold mintCreditsRespectingCap at h
  split at h
  · cases h
    exact hR.refl w
  · simp only [bind_eq_ok] at h
    obtain ⟨⟨x, w₁⟩, h1, ⟨y, w₂⟩, h2, h⟩ := h
    have hread := hR.trans (hR.totalSupply h1) (hR.maxSupply h2)
    split at h
    · cases h
      exact hread
    · simp only [bind_eq_ok, pure_eq_ok, Prod.mk.injEq] at h
      obtain ⟨f, -, w₃, h3, w₄, h4, -, -, rfl⟩ := h
      exact hR.trans hread (hR.trans (hR.mintPositive ht h3) (hR.mintPositive ht h4))

theorem verifyWindow {r : VerificationResult}
    (ht : ∀ pc, s.projectConfig p = some pc → P pc.tokenContract)
    (h : s.verifyWindow p o contract timestamp subs w = .ok (r, w')) : Rel w w' := by
  simp only [State.verifyWindow, bind_eq_ok] at h
  obtain ⟨r₀, -, h⟩ := h
  unfold State.mintResult at h
  split at h
  · rename_i pc hpc
    simp only [bind_eq_ok, pure_eq_ok, Prod.mk.injEq] at h
    obtain ⟨⟨net, fee, v⟩, hm, -, rfl⟩ := h
    exact hR.mintCredits (ht pc hpc) hm
  · cases h
    exact hR.refl w

theorem outcome {rs : Results} {closed : Bool}
    (ht : ∀ pc, s.projectConfig p = some pc → P pc.tokenContract)
    (h : Outcome o contract timestamp s p subs w rs w' closed) : Rel w w' := by
  cases h with
  | pending hr hw => exact hw ▸ hR.refl w
  | verified r hn hv hr => exact hR.verifyWindow ht hv

theorem slashMissed (hq : Q s.config.treasury)
    (h : s.slashMissed o contract timestamp oracle w = .ok (s', w')) : Rel w w' := by
  simp only [State.slashMissed] at h
  split at h
  · simp only [bind_eq_ok] at h
    obtain ⟨n, -, h⟩ := h
    split at h
    · simp only [bind_eq_ok, pure_eq_ok, Prod.mk.injEq] at h
      obtain ⟨v, hv, -, rfl⟩ := h
      exact hR.payout hq hv
    · cases h
      exact hR.refl _
  · cases h
    exact hR.refl _

theorem penalizeLoop {list : List Address} (hq : Q s.config.treasury)
    (h : State.penalizeLoop o contract timestamp p list s w = .ok (s', w')) : Rel w w' := by
  induction list generalizing s w with
  | nil =>
    cases h
    exact hR.refl _
  | cons a rest ih =>
    unfold State.penalizeLoop at h
    split at h
    · simp only [bind_eq_ok] at h
      obtain ⟨⟨u, v⟩, hu, h⟩ := h
      have hconfig : u.config = s.config := by rw [slashMissed_frame hu]
      have hslash := hR.slashMissed (by exact hq) hu
      exact hR.trans hslash (ih (by rwa [hconfig]) h)
    · exact ih hq h

end Respects

theorem execute_respects {c : Call}
    (hR : Respects o contract (mintsThrough s c) (paysOut contract s) Rel)
    (h : execute o e s w c = .ok (s', w')) : Rel w w' := by
  have idle {x : Result State} (hx : within w x = .ok (s', w')) : Rel w w' :=
    (within_eq_ok.mp hx).2 ▸ hR.refl w
  cases c with
  | submitReading a p n reading =>
    obtain ⟨r, h⟩ := discard_eq_ok.mp h
    obtain ⟨-, -, -, window, closed, -, -, -, -, -, -, hout⟩ := submitReading_cases h
    exact hR.outcome (fun pc hpc => ⟨p, pc, rfl, hpc, rfl⟩) hout
  | revealReading a p params =>
    obtain ⟨r, h⟩ := discard_eq_ok.mp h
    obtain ⟨-, -, -, -, window, closed, -, -, -, -, -, -, -, hout⟩ := revealReading_cases h
    exact hR.outcome (fun pc hpc => ⟨p, pc, rfl, hpc, rfl⟩) hout
  | finalizeWindow p =>
    obtain ⟨r, h⟩ := discard_eq_ok.mp h
    obtain ⟨-, window, closed, t, v, -, -, -, hpen, -, -, -, hout⟩ := finalizeWindow_cases h
    exact hR.trans (hR.penalizeLoop (.inl rfl) hpen)
      (hR.outcome (fun pc hpc => ⟨p, pc, rfl, hpc, rfl⟩) hout)
  | stake =>
    simp only [execute, State.stake, bind_eq_ok, pure_eq_ok, Prod.mk.injEq,
      Env.requireAuth_eq_ok] at h
    obtain ⟨_, hauth, _, -, v, hv, -, rfl⟩ := h
    exact hR.deposit (e.ne_self hauth) hv
  | claimUnstake =>
    simp only [execute, State.claimUnstake, bind_eq_ok, pure_eq_ok, Prod.mk.injEq,
      Env.requireAuth_eq_ok] at h
    obtain ⟨_, hauth, _, -, v, hv, -, rfl⟩ := h
    exact hR.payout (.inr (e.ne_self hauth)) hv
  | slash =>
    simp only [execute, State.slash, bind_eq_ok, pure_eq_ok, Prod.mk.injEq] at h
    obtain ⟨_, -, _, -, _, -, v, hv, -, rfl⟩ := h
    exact hR.payout (.inl rfl) hv
  | _ => exact idle h

end WaterCredits.Oracle
