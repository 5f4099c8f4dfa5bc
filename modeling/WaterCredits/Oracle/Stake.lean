import WaterCredits.Oracle.Dedup
import WaterCredits.Oracle.Mint
import WaterCredits.Oracle.Penalty

/-! # Stakes and the staking token

Books of what each oracle staked, asked back, was paid and lost, kept along a
run. Without claims they agree with the stakes, and the balance of the contract
backs them. Every claim pays the wrong amount.
-/

namespace WaterCredits.Oracle

open Foundation Function

variable {contract : Address} {W : Type} {o : Outside W} {e : Env contract} {s s' : State}
  {w w' : W} {p : ProjectId} {a b : Address} {c : Call} {token : Address} {bal : W → I128}
  {tr : Trace (State × W) (Event contract W)} {st : Step (State × W) (Event contract W)}

/--
The staking token as the contract at `contract` sees it, with `bal` as its
balance: transfers move the exact amount or fail, and no other token touches it.
-/
structure StakingToken (o : Outside W) (token contract : Address) (bal : W → I128) : Prop where
  receive : ∀ {a n w w'}, a ≠ contract → 0 < n.val → o.transfer token a contract n w = .ok w' →
    (bal w').val = (bal w).val + n.val
  send : ∀ {a n w w'}, a ≠ contract → 0 < n.val → o.transfer token contract a n w = .ok w' →
    (bal w').val = (bal w).val - n.val
  totalSupply : ∀ {t n w w'}, t ≠ token → o.totalSupply t w = .ok (n, w') → bal w' = bal w
  maxSupply : ∀ {t n w w'}, t ≠ token → o.maxSupply t w = .ok (n, w') → bal w' = bal w
  mintTo : ∀ {t m r n w w'}, t ≠ token → o.mintTo t m r n w = .ok w' → bal w' = bal w

section Mints

variable (ht : StakingToken o token contract bal)

include ht

theorem mintPositive_bal {t m r : Address} {n : I128} (hne : t ≠ token)
    (h : mintPositive o t m r n w = .ok w') : bal w' = bal w := by
  unfold mintPositive at h
  split at h
  · exact ht.mintTo hne h
  · cases h
    rfl

/-- Minting the credits of a project leaves the staking balance alone. -/
theorem mintCredits_bal {config : OracleConfig} {t r : Address} {n net fee : I128} (hne : t ≠ token)
    (h : mintCreditsRespectingCap o contract config t r n w = .ok (net, fee, w')) :
    bal w' = bal w := by
  unfold mintCreditsRespectingCap at h
  split at h
  · cases h
    rfl
  · simp only [bind_eq_ok] at h
    obtain ⟨⟨total, w₁⟩, h1, ⟨cap, w₂⟩, h2, h⟩ := h
    have hq : bal w₂ = bal w := (ht.maxSupply hne h2).trans (ht.totalSupply hne h1)
    split at h
    · cases h
      exact hq
    · simp only [bind_eq_ok, pure_eq_ok] at h
      obtain ⟨fee', -, w₃, h3, w₄, h4, heq⟩ := h
      cases heq
      exact (mintPositive_bal ht hne h4).trans ((mintPositive_bal ht hne h3).trans hq)

theorem verifyWindow_bal {timestamp : UInt64} {subs : List ReadingSubmission}
    {r : VerificationResult} (hne : ∀ pc, s.projectConfig p = some pc → pc.tokenContract ≠ token)
    (h : s.verifyWindow p o contract timestamp subs w = .ok (r, w')) : bal w' = bal w := by
  simp only [State.verifyWindow, bind_eq_ok] at h
  obtain ⟨r₀, -, h⟩ := h
  unfold State.mintResult at h
  split at h
  · rename_i pc hpc
    simp only [bind_eq_ok, pure_eq_ok] at h
    obtain ⟨⟨net, fee, v⟩, hm, heq⟩ := h
    cases heq
    exact mintCredits_bal ht (hne pc hpc) hm
  · cases h
    rfl

theorem Outcome.bal_eq {timestamp : UInt64} {subs : List ReadingSubmission} {rs : Results}
    {closed : Bool} (hne : ∀ pc, s.projectConfig p = some pc → pc.tokenContract ≠ token)
    (h : Outcome o contract timestamp s p subs w rs w' closed) : bal w' = bal w := by
  rcases h with ⟨-, rfl⟩ | ⟨r, -, hv, -⟩
  · rfl
  · exact verifyWindow_bal ht hne hv

end Mints

namespace Event

def staked (a : Address) : Event contract W → ℤ
  | .call _ (.stake b n) => if b = a then n.val else 0
  | _ => 0

/-- The calls that pay stakes back. -/
def claims : Event contract W → Bool
  | .call _ (.claimUnstake _) => true
  | _ => false

end Event

def paidBy (a : Address) (st : Step (State × W) (Event contract W)) : ℤ :=
  match st.label with
  | .call _ (.claimUnstake b) => if b = a then (st.before.1.oracleStake a).amount.val else 0
  | _ => 0

def slashedBy (a : Address) (st : Step (State × W) (Event contract W)) : ℤ :=
  match st.label with
  | .call _ (.slash _ b n _) => if b = a then n.val else 0
  | .call _ (.finalizeWindow p) => penaltyIn st.before.1 p st.before.1.oracleList a
  | _ => 0

/-- The requests of an oracle that no claim has served yet, with the ends of their cooldowns. -/
def pending (a : Address) : Trace (State × W) (Event contract W) → List (UInt64 × ℤ)
  | [] => []
  | st :: tr =>
    match st.label with
    | .call e (.unstake b n) =>
        if b = a then (e.timestamp + st.before.1.config.unstakeCooldownSecs, n.val) :: pending a tr
        else pending a tr
    | .call e (.claimUnstake b) =>
        if b = a then (pending a tr).filter fun r => e.timestamp < r.1 else pending a tr
    | _ => pending a tr

def pendingSum (a : Address) (tr : Trace (State × W) (Event contract W)) : ℤ :=
  ((pending a tr).map Prod.snd).sum

/-- The part of the requests whose cooldown has passed. -/
def due (a : Address) (now : UInt64) (tr : Trace (State × W) (Event contract W)) : ℤ :=
  (((pending a tr).filter fun r => r.1 ≤ now).map Prod.snd).sum

/-- Every claim of a run pays what is due and leaves the rest of the stake. -/
def ClaimsExact : Trace (State × W) (Event contract W) → Prop
  | [] => True
  | st :: tr => ClaimsExact tr ∧ ∀ e a, st.label = .call e (.claimUnstake a) →
      paidBy a st = due a e.timestamp tr ∧
        (st.after.1.oracleStake a).amount = (st.before.1.oracleStake a).amount

/-- The totals of an oracle along a run. -/
def totalStaked (a : Address) (tr : Trace (State × W) (Event contract W)) : ℤ :=
  (tr.map fun st => st.label.staked a).sum

@[inherit_doc totalStaked]
def totalPaid (a : Address) (tr : Trace (State × W) (Event contract W)) : ℤ :=
  (tr.map (paidBy a)).sum

@[inherit_doc totalStaked]
def totalSlashed (a : Address) (tr : Trace (State × W) (Event contract W)) : ℤ :=
  (tr.map (slashedBy a)).sum

/-- The balance backs the stakes and what oracles asked back. -/
structure Solvent (bal : W → I128) (requested : Address → ℤ) (s : State) (w : W) : Prop where
  stake_nonneg : ∀ a, 0 ≤ (s.oracleStake a).amount.val
  requested_nonneg : ∀ a, 0 ≤ requested a
  backed : Backed (fun a => (s.oracleStake a).amount.val + requested a) (bal w).val

variable {requested : Address → ℤ}

theorem Solvent.congr (h : Solvent bal requested s w) (hs : s'.oracleStake = s.oracleStake)
    (hb : bal w' = bal w) : Solvent bal requested s' w' := by
  constructor
  · intro a
    rw [hs]
    exact h.stake_nonneg a
  · exact h.requested_nonneg
  · rw [hs, hb]
    exact h.backed

theorem Solvent.request {requested' : Address → ℤ} (h : Solvent bal requested s w) {d : ℤ}
    (h0 : 0 ≤ d) (hle : d ≤ (s.oracleStake a).amount.val)
    (hs : ∀ b, (s'.oracleStake b).amount.val =
      (s.oracleStake b).amount.val + if b = a then -d else 0)
    (hr : ∀ b, requested' b = requested b + if b = a then d else 0) :
    Solvent bal requested' s' w := by
  constructor
  · intro b
    have hb := h.stake_nonneg b
    rw [hs b]
    split
    · rename_i hba
      subst hba
      omega
    · omega
  · intro b
    have hb := h.requested_nonneg b
    rw [hr b]
    split <;> omega
  · convert h.backed using 1
    ext b
    rw [hs b, hr b]
    split <;> omega

theorem Solvent.change (h : Solvent bal requested s w) {d : ℤ}
    (hs : ∀ b, (s'.oracleStake b).amount.val =
      (s.oracleStake b).amount.val + if b = a then d else 0)
    (h0 : 0 ≤ (s.oracleStake a).amount.val + d) (hb : (bal w').val = (bal w).val + d) :
    Solvent bal requested s' w' where
  stake_nonneg b := by
    have := h.stake_nonneg b
    rw [hs b]
    split
    · rename_i hba
      subst hba
      exact h0
    · omega
  requested_nonneg := h.requested_nonneg
  backed := by
    have hr := h.requested_nonneg a
    have hpost := h.backed.post a (d := d) (by omega)
    rw [hb]
    convert hpost using 1
    ext b
    rw [hs b, update_apply]
    split
    · rename_i hba
      subst hba
      omega
    · omega

section Penalties

variable (ht : StakingToken o token contract bal)

include ht

theorem slashMissed_solvent {timestamp : UInt64}
    (h : s.slashMissed o contract timestamp a w = .ok (s', w'))
    (hc : s.config.stakingToken = token) (hne : s.config.treasury ≠ contract)
    (hs : Solvent bal requested s w) : Solvent bal requested s' w' := by
  have hamt := slashMissed_stake h
  rcases slashMissed_cases h with ⟨-, rfl, rfl⟩ | ⟨n, hn, h0, hle, htr, -⟩
  · exact hs
  · have hbal := ht.send hne h0 (hc ▸ htr)
    refine hs.change hamt ?_ ?_ <;> omega

theorem penalizeLoop_solvent {timestamp : UInt64} {oracles : List Address}
    (h : State.penalizeLoop o contract timestamp p oracles s w = .ok (s', w'))
    (hc : s.config.stakingToken = token) (hne : s.config.treasury ≠ contract)
    (hs : Solvent bal requested s w) : Solvent bal requested s' w' := by
  induction oracles generalizing s w with
  | nil =>
    simp only [State.penalizeLoop, pure_eq_ok, Prod.mk.injEq] at h
    obtain ⟨rfl, rfl⟩ := h
    exact hs
  | cons b rest ih =>
    rcases penalizeLoop_cons h with ⟨-, h⟩ | ⟨t, v, hp, h⟩
    · exact ih h hc hne hs
    · obtain ⟨u, u', hm, hu, huc, ht'⟩ := hp.slashed
      have hst := slashMissed_solvent ht hm (huc ▸ hc) (huc ▸ hne) (hs.congr hu rfl)
      exact ih h (hp.config ▸ hc) (hp.config ▸ hne) (hst.congr ht' rfl)

end Penalties

structure StakingOnly (token : Address) (s : State) : Prop where
  fixed : s.config.stakingToken = token
  apart : ∀ p pc, s.projectConfig p = some pc → pc.tokenContract ≠ token

theorem execute_bal (ht : StakingToken o token contract bal) (hs : StakingOnly token s)
    (hc : c.stakes = false) (h : execute o e s w c = .ok (s', w')) : bal w' = bal w := by
  cases c with
  | submitReading =>
    obtain ⟨r, h⟩ := discard_eq_ok.mp h
    obtain ⟨-, -, -, _, _, -, -, -, -, -, -, hout⟩ := submitReading_cases h
    exact hout.bal_eq ht (hs.apart _)
  | revealReading =>
    obtain ⟨r, h⟩ := discard_eq_ok.mp h
    obtain ⟨-, -, -, -, _, _, -, -, -, -, -, -, -, hout⟩ := revealReading_cases h
    exact hout.bal_eq ht (hs.apart _)
  | stake | claimUnstake | slash | finalizeWindow => cases hc
  | _ => exact congrArg bal (within_eq_ok.mp h).2.symm

/--
Runs with a fixed staking token that serves stakes only: nobody else moves the
balance of the contract, and slashed stakes leave it.
-/
def stakingGuard (token contract : Address) (bal : W → I128) :
    Guard (State × W) (Event contract W) := fun _ sw ev =>
  match ev with
  | .outside w => bal w = bal sw.2
  | .call _ (.updateConfig _ config) => config.stakingToken = token
  | .call _ (.setProjectConfig _ _ config) => config.tokenContract ≠ token
  | .call _ (.slash ..) | .call _ (.finalizeWindow _) => sw.1.config.treasury ≠ contract
  | _ => True

theorem StakingOnly.execute (hs : StakingOnly token s)
    (hg : stakingGuard token contract bal tr (s, w) (.call e c))
    (h : execute o e s w c = .ok (s', w')) : StakingOnly token s' := by
  cases hc : c.configures with
  | false =>
    have hr := execute_rules hc h
    have hcfg : s'.config = s.config := congrArg Prod.fst hr
    have hprj : s'.projectConfig = s.projectConfig := congrArg Prod.snd hr
    exact ⟨hcfg ▸ hs.fixed, fun p pc hpc => hs.apart p pc (hprj ▸ hpc)⟩
  | true =>
    cases c <;> simp only [Call.configures, Bool.false_eq_true] at hc
    case setProjectConfig =>
      obtain rfl := setProjectConfig_cases (within_eq_ok.mp h).1
      refine ⟨hs.fixed, fun p pc hpc => ?_⟩
      simp only [update_apply] at hpc
      split at hpc
      · cases hpc
        exact hg
      · exact hs.apart p pc hpc
    case updateConfig =>
      obtain ⟨-, -, -, -, -, -, rfl⟩ := updateConfig_cases (within_eq_ok.mp h).1
      exact ⟨hg, hs.apart⟩

/-- The requests of a run are positive, and the stored one is among them. -/
structure Requests (tr : Trace (State × W) (Event contract W)) (s : State) : Prop where
  positive : ∀ a, ∀ r ∈ pending a tr, 0 < r.2
  stored : ∀ a t, (s.oracleStake a).unstakeRequest = some t → ∃ n, (t, n) ∈ pending a tr

/-- Stakes and balance agree with the totals of a run. -/
structure StakeBooks (bal : W → I128) (tr : Trace (State × W) (Event contract W)) (s : State)
    (w : W) : Prop where
  account : ∀ a, totalStaked a tr = (s.oracleStake a).amount.val + pendingSum a tr +
    totalPaid a tr + totalSlashed a tr
  solvent : Solvent bal (fun a => pendingSum a tr) s w

theorem unstaked_label (hc : c.stakes = false) {sw sw' : State × W} :
    pending a (⟨sw, .call e c, sw'⟩ :: tr) = pending a tr ∧
      (Event.call e c : Event contract W).staked a = 0 ∧
      paidBy a (⟨sw, .call e c, sw'⟩ : Step (State × W) (Event contract W)) = 0 ∧
      slashedBy a (⟨sw, .call e c, sw'⟩ : Step (State × W) (Event contract W)) = 0 := by
  cases c with
  | stake | unstake | claimUnstake | slash | finalizeWindow => cases hc
  | _ => exact ⟨rfl, rfl, rfl, rfl⟩

theorem Requests.execute (hr : Requests tr s) (h : execute o e s w c = .ok (s', w')) :
    Requests (⟨(s, w), .call e c, (s', w')⟩ :: tr) s' := by
  have keep (hpen : ∀ a, pending a (⟨(s, w), .call e c, (s', w')⟩ :: tr) = pending a tr)
      (hreq : ∀ a t, (s'.oracleStake a).unstakeRequest = some t →
        (s.oracleStake a).unstakeRequest = some t) :
      Requests (⟨(s, w), .call e c, (s', w')⟩ :: tr) s' :=
    ⟨fun a => (hpen a).symm ▸ hr.positive a,
      fun a t ht => (hpen a).symm ▸ hr.stored a t (hreq a t ht)⟩
  cases c with
  | stake b n =>
    obtain ⟨-, -, -, hup⟩ := stake_cases h
    apply keep (fun _ => rfl)
    intro a t ht
    rw [hup, update_apply] at ht
    split at ht
    · cases ht
    · exact ht
  | unstake b n =>
    obtain ⟨hn, -, -, hup⟩ := unstake_cases (within_eq_ok.mp h).1
    constructor
    · intro a r hmem
      simp only [pending] at hmem
      split at hmem
      · rcases List.mem_cons.mp hmem with rfl | hmem
        · exact hn
        · exact hr.positive a r hmem
      · exact hr.positive a r hmem
    · intro a t ht
      simp only [pending]
      rw [hup, update_apply] at ht
      split at ht
      · rename_i hab
        cases ht
        rw [if_pos hab.symm]
        exact ⟨n.val, List.mem_cons_self⟩
      · rename_i hab
        rw [if_neg (Ne.symm hab)]
        exact hr.stored a t ht
  | claimUnstake b =>
    obtain ⟨-, hup⟩ := claimUnstake_cases h
    constructor
    · intro a r hmem
      simp only [pending] at hmem
      split at hmem
      · exact hr.positive a r (List.mem_filter.mp hmem).1
      · exact hr.positive a r hmem
    · intro a t ht
      simp only [pending]
      rw [hup, update_apply] at ht
      split at ht
      · cases ht
      · rename_i hab
        rw [if_neg (Ne.symm hab)]
        exact hr.stored a t ht
  | slash caller b n reason =>
    obtain ⟨-, -, -, hup⟩ := slash_cases h
    exact keep (fun _ => rfl) fun a t ht => (request_update hup rfl a).symm.trans ht
  | finalizeWindow p =>
    obtain ⟨r, h⟩ := discard_eq_ok.mp h
    obtain ⟨-, _, _, t, v, -, -, -, hpen, -, -, hrest, -⟩ := finalizeWindow_cases h
    have hst : s'.oracleStake = t.oracleStake := congrArg Prod.snd hrest
    apply keep (fun _ => rfl)
    intro a t' ht'
    rw [hst] at ht'
    exact (penalizeLoop_request hpen a).symm.trans ht'
  | _ =>
    have hst := execute_stakes rfl h
    exact keep (fun a => (unstaked_label rfl).1) fun a t hreq => hst ▸ hreq

theorem account_cons {x x' : ℤ}
    (h : totalStaked a tr = x + pendingSum a tr + totalPaid a tr + totalSlashed a tr)
    (hstep : st.label.staked a = x' - x + (pendingSum a (st :: tr) - pendingSum a tr) +
      paidBy a st + slashedBy a st) :
    totalStaked a (st :: tr) =
      x' + pendingSum a (st :: tr) + totalPaid a (st :: tr) + totalSlashed a (st :: tr) := by
  have h1 : totalStaked a (st :: tr) = st.label.staked a + totalStaked a tr := List.sum_cons
  have h2 : totalPaid a (st :: tr) = paidBy a st + totalPaid a tr := List.sum_cons
  have h3 : totalSlashed a (st :: tr) = slashedBy a st + totalSlashed a tr := List.sum_cons
  omega

/-- A call without claim keeps the books. -/
theorem StakeBooks.execute (ht : StakingToken o token contract bal) (hs : StakingOnly token s)
    (hg : stakingGuard token contract bal tr (s, w) (.call e c))
    (hn : (Event.call e c : Event contract W).claims = false)
    (hb : StakeBooks bal tr s w) (h : execute o e s w c = .ok (s', w')) :
    StakeBooks bal (⟨(s, w), .call e c, (s', w')⟩ :: tr) s' w' := by
  have hsol := hb.solvent
  cases c with
  | claimUnstake => cases hn
  | stake b n =>
    obtain ⟨hne, h0, htr, hup⟩ := stake_cases h
    rw [hs.fixed] at htr
    have hbal := ht.receive hne h0 htr
    have hle := hsol.backed.le b
    have hlt := (bal w').val_lt
    have hst := hsol.stake_nonneg b
    have hpen := hsol.requested_nonneg b
    have hsum : ((s.oracleStake b).amount + n).val = (s.oracleStake b).amount.val + n.val :=
      I128.val_add ⟨by omega, by omega⟩
    have hamt := stake_update hup hsum
    have hsa (a : Address) : (Event.call e (.stake b n) : Event contract W).staked a =
        if a = b then n.val else 0 := if_congr eq_comm rfl rfl
    constructor
    · intro a
      apply account_cons (hb.account a)
      rw [hamt a]
      change _ = _ + (pendingSum a tr - pendingSum a tr) + 0 + 0
      rw [hsa a]
      omega
    · exact hsol.change hamt (by omega) hbal
  | unstake b n =>
    obtain ⟨hok, rfl⟩ := within_eq_ok.mp h
    obtain ⟨h0, hle, -, hup⟩ := unstake_cases hok
    have hsub : ((s.oracleStake b).amount - n).val = (s.oracleStake b).amount.val + - n.val :=
      I128.val_sub_of_le h0.le hle
    have hamt := stake_update hup hsub
    have hpen (a : Address) : pendingSum a (⟨(s, w), .call e (.unstake b n), (s', w)⟩ :: tr) =
        pendingSum a tr + if a = b then n.val else 0 := by
      simp only [pendingSum, pending]
      by_cases hab : a = b
      · rw [if_pos hab.symm, if_pos hab, List.map_cons, List.sum_cons, add_comm]
      · rw [if_neg (Ne.symm hab), if_neg hab, add_zero]
    constructor
    · intro a
      apply account_cons (hb.account a)
      rw [hamt a, hpen a]
      change 0 = _ + 0 + 0
      split <;> omega
    · exact hsol.request h0.le hle hamt hpen
  | slash caller b n reason =>
    obtain ⟨h0, hle, htr, hup⟩ := slash_cases h
    rw [hs.fixed] at htr
    have hbal := ht.send hg h0 htr
    have hsub : ((s.oracleStake b).amount - n).val = (s.oracleStake b).amount.val + - n.val :=
      I128.val_sub_of_le h0.le hle
    have hamt := stake_update hup hsub
    have hsl (a : Address) : slashedBy a (⟨(s, w), .call e (.slash caller b n reason), (s', w')⟩ :
        Step (State × W) (Event contract W)) = if a = b then n.val else 0 :=
      if_congr eq_comm rfl rfl
    constructor
    · intro a
      apply account_cons (hb.account a)
      rw [hamt a]
      change 0 = _ + (pendingSum a tr - pendingSum a tr) + 0 + _
      rw [hsl a]
      split <;> omega
    · exact hsol.change hamt (by omega) hbal
  | finalizeWindow p =>
    obtain ⟨r, h⟩ := discard_eq_ok.mp h
    obtain ⟨-, _, _, t, v, -, -, -, hpen, -, -, hrest, hout⟩ := finalizeWindow_cases h
    have hst : s'.oracleStake = t.oracleStake := congrArg Prod.snd hrest
    have hbal : bal w' = bal v := hout.bal_eq ht (hs.apart p)
    have hsol' := penalizeLoop_solvent ht hpen hs.fixed hg hsol
    have hamt := penalizeLoop_stake hpen
    constructor
    · intro a
      apply account_cons (hb.account a)
      rw [hst, hamt a]
      change 0 = _ + (pendingSum a tr - pendingSum a tr) + 0 + penaltyIn s p s.oracleList a
      omega
    · exact hsol'.congr hst hbal
  | _ =>
    have hst := execute_stakes rfl h
    have hbal := execute_bal ht hs rfl h
    constructor
    · intro a
      apply account_cons (hb.account a)
      rw [hst]
      change 0 = _ + (pendingSum a tr - pendingSum a tr) + 0 + 0
      omega
    · exact hsol.congr hst hbal

/-- An accepted claim never pays what is due and leaves the stake. -/
theorem claim_not_exact (hr : Requests tr s) (h : s.claimUnstake o e a w = .ok (s', w')) :
    ¬ ((s.oracleStake a).amount.val = due a e.timestamp tr ∧
      (s'.oracleStake a).amount = (s.oracleStake a).amount) := by
  rintro ⟨hpaid, hleft⟩
  obtain ⟨⟨t, ht, hle⟩, hup⟩ := claimUnstake_cases h
  obtain ⟨n, hn⟩ := hr.stored a t ht
  have hzero : (s.oracleStake a).amount = 0 := by
    rw [← hleft, hup, update_self]
  have hdue : 0 < due a e.timestamp tr := by
    have hmem : (t, n) ∈ (pending a tr).filter fun r => r.1 ≤ e.timestamp :=
      List.mem_filter.mpr ⟨hn, by simpa using hle⟩
    have hpos : ∀ x ∈ ((pending a tr).filter fun r => r.1 ≤ e.timestamp).map Prod.snd, 0 < x := by
      intro x hx
      obtain ⟨r, hr', rfl⟩ := List.mem_map.mp hx
      exact hr.positive a r (List.mem_filter.mp hr').1
    exact List.sum_pos _ hpos (List.ne_nil_of_mem (List.mem_map_of_mem hmem))
  rw [hzero, I128.val_zero] at hpaid
  omega

/-- The oracle with a staking token, deployed before anyone stakes. -/
def stakingMachine (contract : Address) (o : Outside W) (token : Address) (bal : W → I128) :
    Machine (State × W) (Event contract W) Panic :=
  { machine contract o with
    init := fun sw => (machine contract o).init sw ∧ sw.1.config.stakingToken = token ∧
      (bal sw.2).val = 0 }

/--
The stakes are conserved: what an oracle staked is in its stake, was asked back,
was paid or was slashed; the balance backs stakes and requests; and every claim
pays what is due.
-/
structure StakesConserved (bal : W → I128) (tr : Trace (State × W) (Event contract W))
    (sw : State × W) : Prop where
  account : ∀ a, totalStaked a tr = (sw.1.oracleStake a).amount.val + pendingSum a tr +
    totalPaid a tr + totalSlashed a tr
  finite : (support fun a => (sw.1.oracleStake a).amount.val + pendingSum a tr).Finite
  balance : (bal sw.2).val = ∑ᶠ a, ((sw.1.oracleStake a).amount.val + pendingSum a tr)
  claims : ClaimsExact tr

/-- What every run of the staking machine keeps. -/
structure StakeRun (token : Address) (bal : W → I128) (tr : Trace (State × W) (Event contract W))
    (s : State) (w : W) : Prop where
  only : StakingOnly token s
  requests : Requests tr s
  books : (∀ st ∈ tr, st.label.claims = false) → StakeBooks bal tr s w
  claims : ClaimsExact tr ↔ ∀ st ∈ tr, st.label.claims = false

theorem stakeRun_step (ht : StakingToken o token contract bal) {ev : Event contract W}
    (hg : stakingGuard token contract bal tr (s, w) ev) (h : StakeRun token bal tr s w)
    (hs : step o ev (s, w) = .ok (s', w')) :
    StakeRun token bal (⟨(s, w), ev, (s', w')⟩ :: tr) s' w' := by
  cases ev with
  | outside v =>
    cases hs
    refine ⟨h.only, ⟨h.requests.positive, h.requests.stored⟩, fun hn => ?_, ?_⟩
    · obtain ⟨hacc, hsol⟩ := h.books (List.forall_mem_cons.mp hn).2
      have hb : bal w' = bal w := hg
      refine ⟨fun a => account_cons (hacc a) ?_, hsol.stake_nonneg, hsol.requested_nonneg, ?_⟩
      · change 0 = _ + (pendingSum a tr - pendingSum a tr) + 0 + 0
        omega
      · rw [hb]
        exact hsol.backed
    · rw [List.forall_mem_cons, ← h.claims]
      simp [ClaimsExact, Event.claims]
  | call e c =>
    refine ⟨h.only.execute hg hs, h.requests.execute hs, fun hn => ?_, ?_⟩
    · obtain ⟨hc, hn⟩ := List.forall_mem_cons.mp hn
      exact (h.books hn).execute ht h.only hg hc hs
    · rw [List.forall_mem_cons, ← h.claims]
      cases hc : (Event.call e c : Event contract W).claims with
      | false =>
        have hne (e' : Env contract) (a : Address) :
            (Event.call e c : Event contract W) ≠ .call e' (.claimUnstake a) := by
          rintro heq
          cases heq
          cases hc
        simp [ClaimsExact, hne]
      | true =>
        unfold Event.claims at hc
        split at hc
        · rename_i heq
          cases heq
          refine ⟨fun hx => ?_, fun hx => absurd hx.1 (by simp)⟩
          have hpay := hx.2 _ _ rfl
          simp only [paidBy, if_true] at hpay
          exact absurd hpay (claim_not_exact h.requests hs)
        · cases hc

theorem stakeRun (ht : StakingToken o token contract bal) {sw : State × W}
    (h : (stakingMachine contract o token bal).Run (stakingGuard token contract bal) tr sw) :
    StakeRun token bal tr sw.1 sw.2 := by
  refine Machine.Run.invariant (I := fun tr sw => StakeRun token bal tr sw.1 sw.2) ?_ ?_ h
  · rintro ⟨s, w⟩ ⟨⟨admin, stakingToken, treasury, hs⟩, htok, hbal⟩
    obtain ⟨-, rfl⟩ := initialise_eq_ok.mp hs
    refine ⟨⟨htok, fun _ _ hu => (by cases hu)⟩, ?_, fun _ => ?_, by simp [ClaimsExact]⟩
    · constructor
      · exact fun _ _ hr => (by cases hr)
      · exact fun _ _ hu => (by cases hu)
    refine ⟨fun a => rfl, fun a => le_rfl, fun a => le_rfl, ?_⟩
    rw [hbal]
    exact backed_zero
  · rintro tr ⟨s, w⟩ ev ⟨s', w'⟩ - hi hg hs
    exact stakeRun_step ht hg hi hs

/-- The stakes are conserved exactly in the runs that accept no claim. -/
theorem stakes_conserved_iff (ht : StakingToken o token contract bal) {sw : State × W}
    (h : (stakingMachine contract o token bal).Run (stakingGuard token contract bal) tr sw) :
    StakesConserved bal tr sw ↔ ∀ st ∈ tr, st.label.claims = false := by
  have hrun := stakeRun ht h
  constructor
  · intro hc
    exact hrun.claims.mp hc.claims
  · intro hn
    obtain ⟨hacc, hsol⟩ := hrun.books hn
    exact ⟨hacc, hsol.backed.finite, hsol.backed.total.symm, hrun.claims.mpr hn⟩

theorem creditOutside_transfer {e : Env token} {hash : List (BitVec 8) → BytesN 32} {n : I128}
    {u u' : Token.State} (h : (creditOutside e hash).transfer token a b n u = .ok u') :
    u.moveBalance a b n = .ok u' := by
  simp only [creditOutside, if_true, Token.State.transfer, bind_eq_ok] at h
  obtain ⟨_, -, _, -, _, -, h⟩ := h
  exact h

theorem creditToken_staking {e : Env token} {hash : List (BitVec 8) → BytesN 32} :
    StakingToken (creditOutside e hash) token contract fun u => u.balance contract where
  receive := by
    intro a n u u' hne h0 h
    obtain ⟨-, credited, hc, rfl⟩ := Token.moveBalance_eq_ok.mp (creditOutside_transfer h)
    simpa [Token.State.saveBalance] using hc
  send := by
    intro a n u u' hne h0 h
    obtain ⟨hle, credited, hc, rfl⟩ := Token.moveBalance_eq_ok.mp (creditOutside_transfer h)
    simp [Token.State.saveBalance, update_of_ne (Ne.symm hne), I128.val_sub_of_le h0.le hle]
  totalSupply := by
    intro t n u u' hne h
    simp [creditOutside, hne] at h
  maxSupply := by
    intro t n u u' hne h
    simp [creditOutside, hne] at h
  mintTo := by
    intro t m r n u u' hne h
    simp [creditOutside, hne] at h

section Sample

/-- The environment of the token when every caller signs for itself. -/
def allSign : Env Token.home where
  timestamp := 0
  sequence := 0
  auth a := a ≠ Token.home
  auth_self := by simp

/-- The staking token of the samples, of which the account `1` holds one hundred units. -/
def stakeWorld : Outside Token.State := creditOutside allSign fun _ => 0

/-- A fresh oracle that takes stakes in the sample token. -/
def stakeInstalled : State × Token.State :=
  ({ admin := .account 0, config := { stakingToken := Token.home, treasury := .account 5 } },
    Token.funded.1)

def stakeBal (u : Token.State) : I128 := u.balance station

abbrev stakeMachine : Machine (State × Token.State) (Event station Token.State) Panic :=
  stakingMachine station stakeWorld Token.home stakeBal

/-- The account `1` has staked sixty units and asked twenty back. -/
def asked : State × Token.State :=
  stakeMachine.call (stakeMachine.call stakeInstalled (calledAt 0 1 (.stake (.account 1) 60)))
    (calledAt 5 1 (.unstake (.account 1) 20))

theorem asked_run : ∃ tr, stakeMachine.Run (stakingGuard Token.home station stakeBal) tr asked ∧
    ∀ st ∈ tr, st.label.claims = false := by
  have h0 := Machine.Run.init (m := stakeMachine) (G := stakingGuard Token.home station stakeBal)
    (s := stakeInstalled) ⟨⟨.account 0, Token.home, .account 5, rfl⟩, rfl, by decide⟩
  have h1 := h0.call (l := calledAt 0 1 (.stake (.account 1) 60)) trivial (by rfl)
  exact ⟨_, h1.call (l := calledAt 5 1 (.unstake (.account 1) 20)) trivial (by rfl),
    by simp [Event.claims, calledAt]⟩

/-- The admin slashes ten units of the remaining forty. -/
def slashed : State × Token.State :=
  stakeMachine.call asked (calledAt 6 0 (.slash (.account 0) (.account 1) 10 1))

theorem stakes_conserved_slashed :
    (slashed.1.oracleStake (.account 1)).amount.val = 30 ∧ (stakeBal slashed.2).val = 50 ∧
      ∃ tr, stakeMachine.Run (stakingGuard Token.home station stakeBal) tr slashed ∧
        StakesConserved stakeBal tr slashed := by
  obtain ⟨tr, h, hn⟩ := asked_run
  have hs := h.call (l := calledAt 6 0 (.slash (.account 0) (.account 1) 10 1))
    (by simp only [stakingGuard, calledAt]; decide) (by rfl)
  refine ⟨by decide, by decide, _, hs, (stakes_conserved_iff creditToken_staking hs).mpr ?_⟩
  exact List.forall_mem_cons.mpr ⟨rfl, hn⟩

def claimed : State × Token.State :=
  stakeMachine.call asked (calledAt 86405 1 (.claimUnstake (.account 1)))

/-- Twenty units were asked back and forty stayed staked; the claim pays the forty. -/
theorem claim_pays_stake :
    (asked.1.oracleStake (.account 1)).amount.val = 40 ∧
      (asked.2.balance (.account 1)).val = 40 ∧ (claimed.2.balance (.account 1)).val = 80 ∧
      (claimed.1.oracleStake (.account 1)).amount.val = 0 ∧
      ∃ tr, stakeMachine.Run (stakingGuard Token.home station stakeBal) tr claimed ∧
        ¬ StakesConserved stakeBal tr claimed := by
  obtain ⟨tr, h, hn⟩ := asked_run
  have hs := h.call (l := calledAt 86405 1 (.claimUnstake (.account 1))) trivial (by rfl)
  have hbefore : (asked.1.oracleStake (.account 1)).amount.val = 40 := by decide
  have hafter : (claimed.1.oracleStake (.account 1)).amount.val = 0 := by decide
  refine ⟨hbefore, by decide, by decide, hafter, _, hs, fun hc => ?_⟩
  have hleft := (hc.claims.2 _ (.account 1) rfl).2
  have hval := congrArg I128.val hleft
  have heq : (claimed.1.oracleStake (.account 1)).amount.val =
    (asked.1.oracleStake (.account 1)).amount.val := hval
  omega

end Sample

end WaterCredits.Oracle
