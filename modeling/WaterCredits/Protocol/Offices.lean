import WaterCredits.Oracle.Offices
import WaterCredits.Protocol.Issuance
import WaterCredits.Protocol.Ledger
import WaterCredits.Token.Roles

/-! # The offices of the whole system

Most steps need no officer: credits are traded, retired and earned, stakes are
lost. As long as no officer signs, all this changes no office and no setting of
any contract and burns nothing, and the oracle alone mints.
-/

namespace WaterCredits.Protocol

open Foundation Function
open Registry (System seenBy)

variable {registry market oracle token a : Address} {w w' v : System} {S S' S₀ : State}
  {sha256 : List (BitVec 8) → BytesN 32} {l : Action registry market oracle}
  {tr : Trace State (Action registry market oracle)}

def settings (r : Registry.State) : Address × (Address → Bool) := (r.admin, r.authorizedCaller)

def standing (s : Token.State) : Token.State.Rules × I128 := (s.rules, s.totalBurned)

/-- What a step of the tokens and the registry leaves alone. -/
structure Leaves (w w' : System) : Prop where
  registry : settings w'.registry = settings w.registry
  token : ∀ t s, w.token t = some s → ∃ s', w'.token t = some s' ∧ standing s' = standing s

theorem Leaves.refl : Leaves w w := ⟨rfl, fun _ s hs => ⟨s, hs, rfl⟩⟩

theorem Leaves.trans (h : Leaves w v) (h' : Leaves v w') : Leaves w w' := by
  refine ⟨h'.registry.trans h.registry, fun t s hs => ?_⟩
  obtain ⟨s', hs', heq⟩ := h.token t s hs
  obtain ⟨s'', hs'', heq'⟩ := h'.token t s' hs'
  exact ⟨s'', hs'', heq'.trans heq⟩

section Token

variable {t : Address} {e : Env t} {c : Token.Call} {s s' : Token.State} {r r' : Registry.State}

theorem recordRetirement_settings {callee creditToken retiree : Address} {projectId : BytesN 32}
    {amount : I128} {purpose metadataUri : String} {recordId : UInt64}
    (h : (seenBy registry e).recordRetirement callee creditToken retiree projectId amount purpose
      metadataUri r = .ok (recordId, r')) : settings r' = settings r := by
  simp only [seenBy] at h
  split at h
  · simp only [Registry.State.recordRetirement, bind_eq_ok, pure_eq_ok, Prod.mk.injEq] at h
    obtain ⟨_, -, _, -, _, -, _, -, -, rfl⟩ := h
    rfl
  · cases h

theorem step_settings (h : Token.step (seenBy registry e) (e, c) (s, r) = .ok (s', r')) :
    settings r' = settings r := by
  cases hc : c.retiring with
  | false => rw [(Token.step_archive_eq hc h).2]
  | true =>
    cases c <;> simp only [Token.Call.retiring, Bool.false_eq_true] at hc
    simp only [Token.step, Token.State.retire, bind_eq_ok, pure_eq_ok, Prod.mk.injEq] at h
    obtain ⟨_, ⟨_, -, _, -, _, -, _, -, _, -, ⟨_, u⟩, hrecord, -, -, rfl⟩, -, rfl⟩ := h
    unfold Token.State.recordRetirement at hrecord
    split at hrecord
    · simp only [bind_eq_ok, pure_eq_ok, Prod.mk.injEq] at hrecord
      obtain ⟨⟨recordId, v⟩, hv, -, rfl⟩ := hrecord
      exact recordRetirement_settings hv
    · cases hrecord
      rfl

/-- The calls that need no office, and the mints, leave the offices of the token alone. -/
theorem step_standing (hc : c.common = true ∨ routine c = true)
    (h : Token.step (seenBy registry e) (e, c) (s, r) = .ok (s', r')) :
    standing s' = standing s := by
  cases hcommon : c.common with
  | true =>
    obtain ⟨hrules, hissued⟩ := Token.step_common hcommon h
    exact Prod.ext hrules (congrArg (fun i => i.2.1) hissued)
  | false =>
    cases c <;> simp only [Token.Call.common, routine, Bool.true_eq_false, Bool.false_eq_true,
      or_self] at hc hcommon
    obtain ⟨-, -, -, -, -, balance, -, total, -, ever, -, rfl⟩ :=
      Token.mintTo_eq_ok.mp (Token.within_eq_ok.mp h).1
    rfl

theorem Leaves.call {w₀ : System} (hl : Leaves w₀ w)
    (hc : ∀ s₀ s s' r r', w₀.token t = some s₀ → w.token t = some s →
      Token.step (seenBy registry e) (e, c) (s, r) = .ok (s', r') → standing s' = standing s)
    (h : callToken registry e c w = .ok w') : Leaves w₀ w' := by
  obtain ⟨s, s', hs, hstep, hw⟩ := callToken_cases h
  refine ⟨(step_settings hstep).trans hl.registry, fun t' s₀ hs₀ => ?_⟩
  obtain ⟨u, hu, heq⟩ := hl.token t' s₀ hs₀
  rw [hw]
  rcases eq_or_ne t' t with rfl | hne
  · obtain rfl : s = u := Option.some.inj (hs.symm.trans hu)
    exact ⟨s', update_self .., (hc s₀ s s' _ _ hs₀ hs hstep).trans heq⟩
  · exact ⟨u, (update_of_ne hne ..).trans hu, heq⟩

end Token

/-- The admin of the registry alone changes its settings. -/
theorem execute_settings {e : Env registry} {c : Registry.Call} {r r' : Registry.State}
    (ha : e.auth r.admin = false) (h : Registry.execute e r c = .ok r') :
    settings r' = settings r := by
  cases c with
  | initialise => simp [Registry.execute, Registry.initialise] at h
  | recordRetirement =>
    simp only [Registry.execute, Registry.State.recordRetirement, bind_eq_ok, pure_eq_ok] at h
    obtain ⟨⟨_, _⟩, ⟨_, -, _, -, _, -, _, -, rfl, rfl⟩, rfl⟩ := h
    rfl
  | setAuthorizedCaller =>
    simp only [Registry.execute, Registry.State.setAuthorizedCaller, bind_eq_ok, ensure_eq_ok,
      Env.requireAuth_eq_ok] at h
    obtain ⟨_, hauth, _, rfl, -⟩ := h
    exact absurd (hauth.symm.trans ha) Bool.true_eq_false.mp

theorem issues_common {c : Token.Call} (hc : c.common = true) : issues c = 0 := by
  cases c <;> first | rfl | cases hc

theorem Routines.leaves (h : Routines registry w w') : Leaves w w' := by
  induction h with
  | refl => exact .refl
  | tail _ hlast ih =>
    obtain ⟨t, e, c, hc, hcall⟩ := hlast
    exact ih.call (fun _ _ _ _ _ _ _ => step_standing (.inr hc)) hcall

def Officer (S : State) (a : Address) : Prop :=
  a = S.market.admin ∨ S.oracle.Officer a ∨ a = S.ledger.registry.admin ∨
    ∃ t s, S.ledger.token t = some s ∧ s.Officer a

/-- Actions that none of the officers of a state authorises. -/
def unofficial (S₀ : State) : Guard State (Action registry market oracle) := fun _ _ l =>
  ∀ a, Officer S₀ a → l.auth a = false

/--
The contracts are administered as in an earlier state: the offices and the
settings stand, nothing was burned, and the credits minted since then are those
of the results that were stored.
-/
structure Administered (S₀ : State) (tr : Trace State (Action registry market oracle)) (S : State) :
    Prop where
  market : S.market.offices = S₀.market.offices
  oracle : S.oracle.offices = S₀.oracle.offices
  ledger : Leaves S₀.ledger S.ledger
  minted : ∀ t s, S₀.ledger.token t = some s →
    everMinted S.ledger t = s.everMinted.val + (tr.map (earnedBy t)).sum

namespace Administered

theorem start : Administered S₀ ([] : Trace State (Action registry market oracle)) S₀ :=
  ⟨rfl, rfl, .refl, fun t s hs => by simp [everMinted_eq hs]⟩

theorem officer (h : Administered S₀ tr S) (ha : S.oracle.Officer a ∨ a = S.market.admin ∨
    a = S.ledger.registry.admin ∨ ∃ t s₀ s, S₀.ledger.token t = some s₀ ∧
      S.ledger.token t = some s ∧ s.Officer a) : Officer S₀ a := by
  rcases ha with ha | rfl | rfl | ⟨t, s₀, s, hs₀, hs, ha⟩
  · exact .inr (.inl ((Oracle.State.officer_congr h.oracle).mp ha))
  · exact .inl (congrArg Prod.fst h.market)
  · exact .inr (.inr (.inl (congrArg Prod.fst h.ledger.registry)))
  · obtain ⟨u, hu, heq⟩ := h.ledger.token t s₀ hs₀
    obtain rfl : s = u := Option.some.inj (hs.symm.trans hu)
    have hrules : s.rules = s₀.rules := congrArg Prod.fst heq
    exact .inr (.inr (.inr ⟨t, s₀, hs₀, (Token.State.officer_congr hrules).mp ha⟩))

/-- Without an officer a token that was there before accepts the common calls only. -/
theorem common {t : Address} {e : Env t} {c : Token.Call} {s₀ s s' : Token.State}
    {r r' : Registry.State} (h : Administered S₀ tr S) (hl : ∀ a, Officer S₀ a → e.auth a = false)
    (hs₀ : S₀.ledger.token t = some s₀) (hs : S.ledger.token t = some s)
    (hstep : Token.step (seenBy registry e) (e, c) (s, r) = .ok (s', r')) : c.common = true := by
  by_contra hc
  obtain ⟨a, ha, hauth⟩ := Token.step_officer (Bool.eq_false_of_not_eq_true hc) hstep
  have hofficer : Officer S₀ a := h.officer (.inr (.inr (.inr ⟨t, s₀, s, hs₀, hs, ha⟩)))
  exact absurd (hauth.symm.trans (hl a hofficer)) Bool.true_eq_false.mp

theorem ledger_step {x : Registry.Action registry} (h : Administered S₀ tr S)
    (hl : ∀ a, Officer S₀ a → (Action.ledger x : Action registry market oracle).auth a = false)
    (hs : Registry.step x S.ledger = .ok w) :
    Administered S₀ (⟨S, .ledger x, { S with ledger := w }⟩ :: tr) { S with ledger := w } := by
  have hissued (t : Address) : everMinted w t = everMinted S.ledger t +
      ((Action.ledger x : Action registry market oracle).onToken t).elim 0 issues :=
    ledger_issues hs t
  -- It remains to show that a token that was there before mints nothing.
  suffices hx : Leaves S₀.ledger w ∧ ∀ t s₀, S₀.ledger.token t = some s₀ →
      ((Action.ledger x : Action registry market oracle).onToken t).elim 0 issues = 0 by
    refine ⟨h.market, h.oracle, hx.1, fun t s₀ hs₀ => ?_⟩
    rw [hissued t, hx.2 t s₀ hs₀, h.minted t s₀ hs₀, List.map_cons, List.sum_cons]
    simp [earnedBy]
  cases x with
  | deploy t e admin name symbol projectId methodology =>
    simp only [Registry.step, bind_eq_ok, pure_eq_ok, Token.initialise_eq_ok] at hs
    obtain ⟨u, ⟨hnone, -⟩, rfl⟩ := hs
    refine ⟨⟨h.ledger.registry, fun t' s₀ hs₀ => ?_⟩, fun _ _ _ => rfl⟩
    obtain ⟨s, hs, heq⟩ := h.ledger.token t' s₀ hs₀
    have hne : t' ≠ t := by
      rintro rfl
      cases hs.symm.trans hnone
    exact ⟨s, (update_of_ne hne ..).trans hs, heq⟩
  | token t e c =>
    have hcall : callToken registry e c S.ledger = .ok w := hs
    refine ⟨h.ledger.call (fun s₀ s s' r r' hs₀ hs hstep => ?_) hcall, fun t' s₀ hs₀ => ?_⟩
    · exact step_standing (.inl (h.common hl hs₀ hs hstep)) hstep
    · simp only [Action.onToken]
      split
      · rename_i heq
        subst heq
        obtain ⟨s, s', hs, hstep, -⟩ := callToken_cases hcall
        exact issues_common (h.common hl hs₀ hs hstep)
      · rfl
  | registry e c =>
    simp only [Registry.step, bind_eq_ok, pure_eq_ok] at hs
    obtain ⟨r, hr, rfl⟩ := hs
    have hadmin : e.auth S.ledger.registry.admin = false :=
      hl _ (h.officer (.inr (.inr (.inl rfl))))
    exact ⟨⟨(execute_settings hadmin hr).trans h.ledger.registry, h.ledger.token⟩, fun _ _ _ => rfl⟩

theorem step (hfee : S₀.oracle.config.feeBps.toNat ≤ 10000) (h : Administered S₀ tr S)
    (hl : unofficial S₀ tr S l) (hs : (machine registry market oracle sha256).step l S = .ok S') :
    Administered S₀ (⟨S, l, S'⟩ :: tr) S' := by
  cases l with
  | ledger x =>
    simp only [machine, Protocol.step, bind_eq_ok, pure_eq_ok] at hs
    obtain ⟨w, hw, rfl⟩ := hs
    exact h.ledger_step hl hw
  | market e c =>
    simp only [machine, Protocol.step, bind_eq_ok, pure_eq_ok] at hs
    obtain ⟨⟨m, w⟩, hx, rfl⟩ := hs
    have hadmin : e.auth S.market.admin = false := hl _ (h.officer (.inr (.inl rfl)))
    have hleaves := (Market.execute_respects (market_routines e) Market.permits_any hx).leaves
    refine ⟨(Market.execute_offices hadmin hx).trans h.market, h.oracle, h.ledger.trans hleaves,
      fun t s₀ hs₀ => ?_⟩
    have hsame := Market.execute_respects (market_respects_minted e t) Market.permits_any hx
    rw [List.map_cons, List.sum_cons, hsame, h.minted t s₀ hs₀]
    simp [earnedBy]
  | oracle e c =>
    simp only [machine, Protocol.step, bind_eq_ok, pure_eq_ok] at hs
    obtain ⟨⟨o, w⟩, hx, rfl⟩ := hs
    have hunofficial : c.official = false := by
      by_contra hc
      obtain ⟨a, ha, hauth⟩ := Oracle.execute_official (Bool.eq_true_of_not_eq_false hc) hx
      exact absurd (hauth.symm.trans (hl a (h.officer (.inl ha)))) Bool.true_eq_false.mp
    have hleaves := (Oracle.execute_respects (oracle_routines _ _) hx).leaves
    refine ⟨h.market, (Oracle.execute_unofficial hunofficial hx).trans h.oracle,
      h.ledger.trans hleaves, fun t s₀ hs₀ => ?_⟩
    have hconfig : S.oracle.config = S₀.oracle.config :=
      congrArg Oracle.State.Offices.config h.oracle
    have hearned : everMinted w t = everMinted S.ledger t +
        earnedBy t (⟨S, .oracle e c, { S with ledger := w, oracle := o }⟩ :
          Step State (Action registry market oracle)) := oracle_earns (hconfig ▸ hfee) hx t
    rw [List.map_cons, List.sum_cons, hearned, h.minted t s₀ hs₀]
    ring

/-- The contracts stay administered in a run without officers. -/
theorem run {tr' : Trace State (Action registry market oracle)}
    (hfee : S₀.oracle.config.feeBps.toNat ≤ 10000) (h : Administered S₀ tr S)
    (hr : ((machine registry market oracle sha256).startedIn S).Run (unofficial S₀) tr' S') :
    Administered S₀ (tr' ++ tr) S' := by
  refine hr.invariant (I := fun tr' => Administered S₀ (tr' ++ tr)) ?_ ?_
  · rintro S rfl
    exact h
  · exact fun _ _ _ _ _ hi hl hs => hi.step hfee hl hs

end Administered

theorem reachable_fee (h : (machine registry market oracle sha256).Reachable S) :
    S.oracle.config.feeBps.toNat ≤ 10000 := by
  obtain ⟨tr, hrun⟩ := h
  have hsourced : Sourced tr S := hrun.invariant (I := Sourced) (fun _ => sourced_init)
    fun _ _ _ _ _ hi _ hs => hi.step hs
  exact hsourced.fee

/--
Without the officers of a reachable state the whole system runs on, but nothing
about its administration changes, nothing is burned, and of the tokens that are
there already only those of recorded results are minted.
-/
theorem administration_kept (h0 : (machine registry market oracle sha256).Reachable S₀)
    (h : ((machine registry market oracle sha256).startedIn S₀).Run (unofficial S₀) tr S) :
    Administered S₀ tr S := by
  have hkept := Administered.start.run (reachable_fee h0) h
  rwa [List.append_nil] at hkept

section Sample

/-- A reading of the account `1` will mint credits through the oracle. -/
def awaiting : State :=
  sampleMachine.calls founded [issuing,
    onToken 0 (.mintTo (.account 0) (.account 1) 10),
    onToken 0 (.setMinter (.account 0) oracleAt),
    onOracle 0 (.addOracle (.account 0) (.account 1)),
    onOracle 0 (.updateConfig (.account 0) soleOracle),
    onOracle 0 (.setProjectConfig (.account 0) 7 riverside)]

theorem awaiting_officer : ¬ Officer awaiting (.account 1) := by
  rintro (h | (h | h) | h | ⟨t, s, hs, h⟩)
  · cases h
  · cases h
  · cases h
  · cases h
  · by_cases ht : t = .contract 1
    · subst ht
      cases hs
      rcases h with h | h | h | h | h <;> cases h
    · have hnone : awaiting.ledger.token t = none :=
        (update_of_ne ht ..).trans ((update_of_ne ht ..).trans ((update_of_ne ht ..).trans rfl))
      cases hs.symm.trans hnone

theorem administration_kept_earning : ∃ S tr,
    (sampleMachine.startedIn awaiting).Run (unofficial awaiting) tr S ∧
      everMinted S.ledger (.contract 1) = 1590 ∧ Administered awaiting tr S := by
  have hfree (a : Address) (ha : Officer awaiting a) : decide (a = .account 1) = false := by
    refine decide_eq_false ?_
    rintro rfl
    exact awaiting_officer ha
  have h0 := Machine.Run.init (m := sampleMachine.startedIn awaiting) (G := unofficial awaiting) rfl
  have h1 := h0.call (l := onToken 1 (.transfer (.account 1) (.account 2) 4)) hfree (by rfl)
  have h2 := h1.call (l := onOracle 1 (.submitReading (.account 1) 7 1 clearFlow)) hfree (by rfl)
  have hreach : sampleMachine.Reachable awaiting :=
    Machine.Reachable.calls ⟨_, .init founded_init⟩ _
  exact ⟨_, _, h2, by rfl, administration_kept hreach h2⟩

end Sample

end WaterCredits.Protocol
