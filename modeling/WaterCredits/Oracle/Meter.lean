import WaterCredits.Oracle.Tally

/-! # A meter of the minted credits

The outside world is given a meter that counts the amounts of the mints it
accepts. Calls behave as without the meter, and a call that stores a result
advances it by the amounts in that result.
-/

namespace WaterCredits.Oracle

open Foundation Function

variable {contract : Address} {W : Type} {o : Outside W} {e : Env contract} {s s' t : State}
  {w w' v : W} {n : ℤ} {p : ProjectId} {c : Call} {oracle token recipient beneficiary : Address}
  {window : WindowState} {subs : List ReadingSubmission} {timestamp : UInt64}
  {config : OracleConfig} {amount fee total : I128} {nonce : UInt64} {reading : Reading}
  {params : RevealParams}

/-- The outside world with a meter of what it mints. -/
def Outside.metered (o : Outside W) : Outside (W × ℤ) where
  totalSupply token wn := (fun x => (x.1, x.2, wn.2)) <$> o.totalSupply token wn.1
  maxSupply token wn := (fun x => (x.1, x.2, wn.2)) <$> o.maxSupply token wn.1
  mintTo token minter recipient amount wn :=
    (fun w => (w, wn.2 + amount.val)) <$> o.mintTo token minter recipient amount wn.1
  transfer token sender recipient amount wn :=
    (fun w => (w, wn.2)) <$> o.transfer token sender recipient amount wn.1
  sha256 := o.sha256

@[simp] theorem totalSupply_metered :
    o.metered.totalSupply token (w, n) = (fun x => (x.1, x.2, n)) <$> o.totalSupply token w := rfl

@[simp] theorem maxSupply_metered :
    o.metered.maxSupply token (w, n) = (fun x => (x.1, x.2, n)) <$> o.maxSupply token w := rfl

@[simp] theorem transfer_metered {sender : Address} :
    o.metered.transfer token sender recipient amount (w, n) =
      (fun v => (v, n)) <$> o.transfer token sender recipient amount w := rfl

def VerificationResult.minted (r : VerificationResult) : ℤ :=
  r.creditsMinted.val + r.protocolFeeMinted.val

section Mint

theorem mintPositive_metered (h : 0 ≤ amount.val) :
    mintPositive o.metered token contract recipient amount (w, n) =
      (fun v => (v, n + amount.val)) <$> mintPositive o token contract recipient amount w := by
  unfold mintPositive
  split
  · rfl
  · rename_i h0
    have hz : amount.val = 0 := le_antisymm (not_lt.mp h0) h
    simp [hz]

theorem feeOf_bounds (hb : config.feeBps.toNat ≤ 10000) (h0 : 0 < amount.val)
    (h : feeOf config amount = .ok fee) : 0 ≤ fee.val ∧ fee.val ≤ amount.val := by
  unfold feeOf at h
  split at h
  · simp only [bind_eq_ok, orPanic_eq_ok, I128.checkedMul_eq_some, pure_eq_ok, val_ofU32] at h
    obtain ⟨product, hp, rfl⟩ := h
    have hten : (10000 : I128).val = 10000 := by decide
    have hp0 : 0 ≤ product.val := by
      rw [hp]
      positivity
    have hle : product.val ≤ amount.val * 10000 := by
      rw [hp]
      exact Int.mul_le_mul_of_nonneg_left (by exact_mod_cast hb) h0.le
    rw [I128.val_div_of_nonneg hp0 (by rw [hten]; norm_num), hten]
    constructor
    · exact Int.ediv_nonneg hp0 (by norm_num)
    · omega
  · cases h
    exact ⟨le_rfl, h0.le⟩

theorem mintCredits_metered (hb : config.feeBps.toNat ≤ 10000) :
    mintCreditsRespectingCap o.metered contract config token beneficiary total (w, n) =
      (fun x => (x.1, x.2.1, x.2.2, n + (x.1.val + x.2.1.val))) <$>
        mintCreditsRespectingCap o contract config token beneficiary total w := by
  unfold mintCreditsRespectingCap
  split
  · simp
  · simp only [totalSupply_metered, maxSupply_metered, bind_map_left, map_bind]
    apply bind_congr
    intro x
    apply bind_congr
    intro y
    generalize mintable x.1 y.1 total = amount
    split
    · simp
    · rename_i ha
      have ha : 0 < amount.val := not_le.mp ha
      cases hf : feeOf config amount with
      | error => rfl
      | ok fee =>
        obtain ⟨h0, hle⟩ := feeOf_bounds hb ha hf
        have hnet : (amount - fee).val = amount.val - fee.val := I128.val_sub_of_le h0 hle
        have hpos : 0 ≤ (amount - fee).val := by omega
        simp only [ok_bind, mintPositive_metered hpos, mintPositive_metered h0, bind_map_left,
          map_bind, map_pure, add_assoc]

theorem computeResult_minted {r : VerificationResult}
    (h : s.computeResult p timestamp subs = .ok r) : r.minted = 0 := by
  simp only [State.computeResult, bind_eq_ok, pure_eq_ok] at h
  obtain ⟨_, -, _, -, rfl⟩ := h
  rfl

theorem verifyWindow_metered (hb : s.config.feeBps.toNat ≤ 10000) :
    s.verifyWindow p o.metered contract timestamp subs (w, n) =
      (fun x => (x.1, x.2, n + x.1.minted)) <$> s.verifyWindow p o contract timestamp subs w := by
  unfold State.verifyWindow
  cases hr : s.computeResult p timestamp subs with
  | error => rfl
  | ok r =>
    simp only [ok_bind]
    unfold State.mintResult
    split
    · simp only [mintCredits_metered hb, bind_map_left, map_bind, map_pure]
      rfl
    · simp [computeResult_minted hr]

end Mint

section Finalizers

/-- A call with a return value, read off with the meter. -/
def metered (n : ℤ) (x : Option VerificationResult × State × W) :
    Option VerificationResult × State × W × ℤ :=
  (x.1, x.2.1, x.2.2, n + x.1.elim 0 VerificationResult.minted)

theorem finalizeReveals_metered (hb : s.config.feeBps.toNat ≤ 10000) :
    s.finalizeReveals p o.metered contract timestamp (w, n) =
      metered n <$> s.finalizeReveals p o contract timestamp w := by
  unfold State.finalizeReveals
  rw [map_bind]
  apply bind_congr
  intro window
  split
  · simp [metered]
  · split
    · simp [metered]
    · simp only [verifyWindow_metered hb, bind_map_left, map_bind, map_pure]
      rfl

theorem finalizeDirect_metered (hb : s.config.feeBps.toNat ≤ 10000) :
    s.finalizeDirect p o.metered contract timestamp window (w, n) =
      (fun x => (x.1, x.2.1, x.2.2, n + x.1.minted)) <$>
        s.finalizeDirect p o contract timestamp window w := by
  unfold State.finalizeDirect
  simp only [verifyWindow_metered hb, bind_map_left, map_bind, map_pure]

theorem slashMissed_metered :
    s.slashMissed o.metered contract timestamp oracle (w, n) =
      (fun x => (x.1, x.2, n)) <$> s.slashMissed o contract timestamp oracle w := by
  simp only [State.slashMissed]
  split
  · rw [map_bind]
    apply bind_congr
    intro amount
    split
    · simp
    · simp
  · simp

theorem penalizeLoop_metered {list : List Address} :
    State.penalizeLoop o.metered contract timestamp p list s (w, n) =
      (fun x => (x.1, x.2, n)) <$> State.penalizeLoop o contract timestamp p list s w := by
  induction list generalizing s w with
  | nil => simp [State.penalizeLoop]
  | cons a rest ih =>
    unfold State.penalizeLoop
    split
    · simp only [slashMissed_metered, bind_map_left, map_bind, ih]
    · exact ih

theorem pushReading_metered : s.pushReading e oracle p nonce reading (w, n) =
    (fun x => (x.1, x.2.1, x.2.2, n)) <$> s.pushReading e oracle p nonce reading w := by
  simp [State.pushReading]

theorem pushReveal_metered : s.pushReveal o.metered e oracle p params (w, n) =
    (fun x => (x.1, x.2.1, x.2.2, n)) <$> s.pushReveal o e oracle p params w := by
  simp only [State.pushReveal, map_bind, map_pure]
  rfl

theorem closeReveals_metered : s.closeReveals o.metered e p (w, n) =
    (fun x => (x.1, x.2.1, x.2.2, n)) <$> s.closeReveals o e p w := by
  simp only [State.closeReveals, State.penalizeNonRevealers, penalizeLoop_metered, bind_map_left,
    map_bind, map_pure]

theorem submitReading_metered (hb : s.config.feeBps.toNat ≤ 10000) :
    s.submitReading o.metered e oracle p nonce reading (w, n) =
      metered n <$> s.submitReading o e oracle p nonce reading w := by
  rw [submitReading_eq, submitReading_eq, pushReading_metered]
  cases hx : s.pushReading e oracle p nonce reading w with
  | error => rfl
  | ok x =>
    obtain ⟨window, t, v⟩ := x
    obtain ⟨_, -, -, -, ht⟩ := pushReading_cases hx
    simp only [ok_bind, bind_map_left]
    split
    · rw [finalizeDirect_metered (ht ▸ hb)]
      simp [metered]
    · simp [metered]

theorem revealReading_metered (hb : s.config.feeBps.toNat ≤ 10000) :
    s.revealReading o.metered e oracle p params (w, n) =
      metered n <$> s.revealReading o e oracle p params w := by
  rw [revealReading_eq, revealReading_eq, pushReveal_metered]
  cases hx : s.pushReveal o e oracle p params w with
  | error => rfl
  | ok x =>
    obtain ⟨window, t, v⟩ := x
    obtain ⟨_, -, -, -, -, -, ht⟩ := pushReveal_cases hx
    simp only [ok_bind, bind_map_left]
    split
    · rw [finalizeReveals_metered (ht ▸ hb)]
    · simp [metered]

theorem finalizeWindow_metered (hb : s.config.feeBps.toNat ≤ 10000) :
    s.finalizeWindow o.metered e p (w, n) = metered n <$> s.finalizeWindow o e p w := by
  rw [finalizeWindow_eq, finalizeWindow_eq, closeReveals_metered]
  cases hx : s.closeReveals o e p w with
  | error => rfl
  | ok x =>
    obtain ⟨window, t, v⟩ := x
    obtain ⟨-, -, -, ht⟩ := closeReveals_cases hx
    simp only [ok_bind, bind_map_left]
    rw [finalizeReveals_metered (ht ▸ hb)]

end Finalizers

theorem execute_metered_quiet (hc : c.finalizes = false) :
    execute o.metered e s (w, n) c = (fun x => (x.1, x.2, n)) <$> execute o e s w c := by
  cases c with
  | submitReading | revealReading | finalizeWindow => cases hc
  | stake | claimUnstake | slash =>
    simp [execute, State.stake, State.claimUnstake, State.slash]
  | _ => simp [execute, within]

/-- A call mints the amounts of the result that it stores, and nothing without one. -/
inductive Mints (s s' : State) (c : Call) : ℤ → Prop
  | quiet (ht : s'.tally = { s.tally with oracleCount := s'.oracleCount }) : Mints s s' c 0
  | result {project : ProjectId} {result : VerificationResult}
      {submissions : List ReadingSubmission} (hp : c.project = some project)
      (hs : Settles s s' project submissions result) : Mints s s' c result.minted

theorem Recorded.mints {r : Option VerificationResult} (h : Recorded s s' p r)
    (hp : c.project = some p) : Mints s s' c (r.elim 0 VerificationResult.minted) := by
  cases h with
  | quiet ht =>
    have hcount : s'.oracleCount = s.oracleCount := congrArg Tally.oracleCount ht
    apply Mints.quiet
    rw [ht, hcount]
    rfl
  | result hs => exact .result hp hs

theorem execute_metered (hb : s.config.feeBps.toNat ≤ 10000)
    (h : execute o e s w c = .ok (s', w')) :
    ∃ m, execute o.metered e s (w, n) c = .ok (s', w', n + m) ∧ Mints s s' c m := by
  have ends {p : ProjectId} {x : Result (Option VerificationResult × State × W × ℤ)}
      {r : Option VerificationResult} (hp : c.project = some p)
      (hx : x = .ok (metered n (r, s', w'))) (hr : Recorded s s' p r) :
      ∃ m, discard x = .ok (s', w', n + m) ∧ Mints s s' c m :=
    ⟨_, discard_eq_ok.mpr ⟨r, hx⟩, hr.mints hp⟩
  cases hc : c.finalizes with
  | false =>
    refine ⟨0, ?_, .quiet (execute_quiet hc h).1⟩
    rw [execute_metered_quiet hc, h, add_zero]
    rfl
  | true =>
    cases c with
    | submitReading a p m reading =>
      obtain ⟨r, h⟩ := discard_eq_ok.mp h
      refine ends rfl ?_ (submitReading_tally h)
      rw [submitReading_metered hb, h]
      rfl
    | revealReading a p params =>
      obtain ⟨r, h⟩ := discard_eq_ok.mp h
      refine ends rfl ?_ (revealReading_tally h)
      rw [revealReading_metered hb, h]
      rfl
    | finalizeWindow p =>
      obtain ⟨r, h⟩ := discard_eq_ok.mp h
      refine ends rfl ?_ (finalizeWindow_tally h)
      rw [finalizeWindow_metered hb, h]
      rfl
    | _ => cases hc

end WaterCredits.Oracle
