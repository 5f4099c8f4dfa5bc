import WaterCredits.Token.Supply

/-! # The supply cap

Circulating and bridged credits together stay under a cap that is set before the
first mint. A batch mint counts only the circulating credits, so it must leave
room for the bridged ones.
-/

namespace WaterCredits.Token

open Foundation Function

variable {contract : Address} {W : Type} {e : Env contract} {R : Registry W}
  {s s' : State} {w w' : W}

/-- The credits that count against the cap. -/
def State.held (s : State) : ℤ := s.totalSupply.val + s.bridgedToEvm.val

/-- The settings that accounting calls read. -/
def State.settings (s : State) : Address × Option Address × Option Address × Bool × I128 :=
  (s.admin, s.minter, s.bridge, s.paused, s.maxSupply)

section Frames

variable {max total ever ever' : I128} {pairs : List (Address × I128)}

theorem batchMintLoop_frame (h : State.batchMintLoop max pairs s total ever = .ok (s', ever')) :
    s' = { s with balance := s'.balance, totalSupply := s'.totalSupply } := by
  induction pairs generalizing s total ever with
  | nil =>
    simp only [State.batchMintLoop, pure_eq_ok, Prod.mk.injEq] at h
    obtain ⟨rfl, -⟩ := h
    rfl
  | cons p rest ih =>
    simp only [State.batchMintLoop, bind_eq_ok] at h
    obtain ⟨_, -, next, -, _, -, balance, -, ever₁, -, h⟩ := h
    have ht := ih h
    exact ht

theorem batchMintTo_frame {minter : Address} {recipients : List Address} {amounts : List I128}
    (h : s.batchMintTo e minter recipients amounts = .ok s') :
    s' = { s with
      balance := s'.balance, totalSupply := s'.totalSupply, everMinted := s'.everMinted } := by
  simp only [State.batchMintTo, bind_eq_ok, pure_eq_ok] at h
  obtain ⟨_, -, _, -, _, -, _, -, ⟨t, ever⟩, hl, rfl⟩ := h
  have ht := batchMintLoop_frame hl
  rw [ht]

theorem retire_eq {holder : Address} {amount : I128} {purpose metadataUri : String}
    {cert : RetirementCertificate}
    (h : s.retire R e holder amount purpose metadataUri w = .ok (cert, s', w')) :
    s' = { s.saveBalance holder (s.balance holder - amount) with
      totalSupply := s.totalSupply - amount
      totalRetired := s.totalRetired + amount
      cert := Function.update s.cert s.certCount (some cert)
      certCount := s.certCount + 1 } := by
  simp only [State.retire, bind_eq_ok, pure_eq_ok, Prod.mk.injEq] at h
  obtain ⟨_, -, _, -, _, -, _, -, _, -, a, -, rfl, rfl, -⟩ := h
  rfl

theorem destroy_frame {holder : Address} {amount : I128} (h : s.destroy holder amount = .ok s') :
    s' = { s with
      balance := s'.balance
      totalSupply := s.totalSupply - amount
      totalBurned := s'.totalBurned } := by
  obtain ⟨-, burned, -, rfl⟩ := destroy_eq_ok.mp h
  rfl

theorem burn_cases {caller holder : Address} {amount : I128}
    (h : s.burn e caller holder amount = .ok s') :
    0 < amount.val ∧ ∃ t, s.destroy holder amount = .ok t ∧
      (s' = t ∨ ∃ bridged : I128, bridged.val = t.bridgedToEvm.val + amount.val ∧
        s' = { t with bridgedToEvm := bridged }) := by
  simp only [State.burn, bind_eq_ok, ensure_eq_ok, exists_and_left, exists_const,
    Env.requireAuth_eq_ok] at h
  obtain ⟨h0, -, h⟩ := h
  refine ⟨h0, ?_⟩
  split at h
  · simp only [bind_eq_ok, orOverflow_eq_ok, I128.checkedAdd_eq_some, pure_eq_ok] at h
    obtain ⟨_, -, t, hd, bridged, h1, rfl⟩ := h
    exact ⟨t, hd, Or.inr ⟨bridged, h1, rfl⟩⟩
  · simp only [bind_eq_ok] at h
    obtain ⟨_, -, h⟩ := h
    exact ⟨s', h, Or.inl rfl⟩

theorem retire_pos {holder : Address} {amount : I128} {purpose metadataUri : String}
    {cert : RetirementCertificate}
    (h : s.retire R e holder amount purpose metadataUri w = .ok (cert, s', w')) :
    0 < amount.val := by
  simp only [State.retire, bind_eq_ok, ensure_eq_ok] at h
  obtain ⟨_, h0, -⟩ := h
  exact h0

end Frames

theorem step_frame {c : Call} (hc : c.accounting = true) (hr : c.retiring = false)
    (h : step R (e, c) (s, w) = .ok (s', w')) :
    s' = { s with
      balance := s'.balance
      totalSupply := s'.totalSupply
      totalBurned := s'.totalBurned
      everMinted := s'.everMinted
      bridgedToEvm := s'.bridgedToEvm
      allowance := c.allowanceAfter s.allowance } := by
  by_cases ht : c.transferLike = true
  · rw [step_transfers ht h]
  cases c <;>
    simp only [Call.accounting, Call.retiring, Call.transferLike, Bool.false_eq_true,
      Bool.true_eq_false, not_true_eq_false] at hc hr ht <;>
    simp only [step, within_eq_ok] at h
  case mintTo =>
    obtain ⟨-, -, -, -, -, balance, -, total, -, ever, -, rfl⟩ := mintTo_eq_ok.mp h.1
    rfl
  case batchMintTo =>
    rw [batchMintTo_frame h.1]
    rfl
  case burn =>
    obtain ⟨-, t, hd, rfl | ⟨bridged, -, rfl⟩⟩ := burn_cases h.1
    · rw [destroy_frame hd]
      rfl
    · rw [destroy_frame hd]
      rfl
  case burnWithReason =>
    simp only [State.burnWithReason, bind_eq_ok] at h
    obtain ⟨⟨_, -, _, -, h⟩, -⟩ := h
    rw [destroy_frame h]
    rfl

theorem step_retiring {c : Call} (hr : c.retiring = true)
    (h : step R (e, c) (s, w) = .ok (s', w')) :
    s' = { s with
      balance := s'.balance
      totalSupply := s'.totalSupply
      totalRetired := s'.totalRetired
      cert := s'.cert
      certCount := s'.certCount } := by
  cases c <;> simp only [Call.retiring, Bool.false_eq_true] at hr
  simp only [step, bind_eq_ok, pure_eq_ok, Prod.mk.injEq] at h
  obtain ⟨⟨cert, t, v⟩, h, rfl, rfl⟩ := h
  rw [retire_eq h]
  rfl

theorem step_settings_eq {c : Call} (hc : c.accounting = true)
    (h : step R (e, c) (s, w) = .ok (s', w')) : s'.settings = s.settings := by
  cases hr : c.retiring with
  | false =>
    rw [step_frame hc hr h]
    rfl
  | true =>
    rw [step_retiring hr h]
    rfl

namespace Call

def mints : Call → Bool
  | .mintTo .. | .batchMintTo .. => true
  | _ => false

end Call

theorem step_maxSupply_eq {c : Call} (h : step R (e, c) (s, w) = .ok (s', w')) :
    s'.maxSupply = c.capAfter s.maxSupply := by
  cases ha : c.accounting with
  | false => exact (step_administer ha h).2.1
  | true =>
    have hs : s'.maxSupply = s.maxSupply := congrArg (fun x => x.2.2.2.2) (step_settings_eq ha h)
    rw [hs]
    cases c <;> first | rfl | simp only [Call.accounting, Bool.false_eq_true] at ha

/-- A batch leaves room for the bridged credits; a debit stays in range. -/
def State.Fitting (s : State) : Call → Prop
  | .batchMintTo _ _ amounts => s.held + (amounts.map I128.val).sum ≤ s.maxSupply.val
  | .burn _ _ amount | .burnWithReason _ _ amount _ | .retire _ amount _ _ =>
      I128.Fits (s.totalSupply.val - amount.val)
  | _ => True

/-- A cap is in force when credits are minted, and it is not lowered after the first mint. -/
def capKept : Guard (State × W) (Env contract × Call) := fun tr sw l =>
  match l.2 with
  | .mintTo .. | .batchMintTo .. => 0 < sw.1.maxSupply.val
  | .setMaxSupply _ max =>
      (∃ st ∈ tr, st.label.2.mints = true) → sw.1.maxSupply.val ≤ max.val
  | _ => True

theorem batchMintLoop_supply {max total ever ever' : I128} {pairs : List (Address × I128)}
    (ht : total = s.totalSupply)
    (h : State.batchMintLoop max pairs s total ever = .ok (s', ever')) :
    s'.totalSupply.val = s.totalSupply.val + pairsTotal pairs := by
  induction pairs generalizing s total ever with
  | nil =>
    simp only [State.batchMintLoop, pure_eq_ok, Prod.mk.injEq] at h
    obtain ⟨rfl, -⟩ := h
    simp [pairsTotal]
  | cons p rest ih =>
    simp only [State.batchMintLoop, bind_eq_ok, orOverflow_eq_ok, I128.checkedAdd_eq_some] at h
    obtain ⟨_, -, next, h1, _, -, balance, -, ever₁, -, h⟩ := h
    rw [ih rfl h, h1, ht, pairsTotal, pairsTotal, List.map_cons, List.sum_cons, add_assoc]

theorem batchMintTo_supply {minter : Address} {recipients : List Address} {amounts : List I128}
    (h : s.batchMintTo e minter recipients amounts = .ok s') :
    s'.totalSupply.val = s.totalSupply.val + (amounts.map I128.val).sum := by
  simp only [State.batchMintTo, bind_eq_ok, ensure_eq_ok, exists_and_left, exists_const,
    State.requireNotPaused_eq_ok, State.requireMinter_eq_ok, pure_eq_ok] at h
  obtain ⟨hlen, -, -, -, ⟨t, ever⟩, hl, rfl⟩ := h
  have ht := batchMintLoop_supply rfl hl
  rwa [pairsTotal_zip hlen] at ht

theorem destroy_held {holder : Address} {amount : I128}
    (hf : I128.Fits (s.totalSupply.val - amount.val)) (h : s.destroy holder amount = .ok s') :
    s'.held = s.held - amount.val := by
  rw [destroy_frame h]
  simp only [State.held, I128.val_sub hf]
  omega

theorem step_mints_held_le {c : Call} (hc : c.mints = true) (hM : 0 < s.maxSupply.val)
    (hf : s.Fitting c) (h : step R (e, c) (s, w) = .ok (s', w')) :
    s'.held ≤ max s.held s.maxSupply.val := by
  cases c <;> simp only [Call.mints, Bool.false_eq_true] at hc
  case mintTo =>
    obtain ⟨h0, -, -, hm, hb, balance, -, total, h1, ever, -, rfl⟩ :=
      mintTo_eq_ok.mp (within_eq_ok.mp h).1
    obtain ⟨-, hm⟩ := hm hM
    simp only [State.held, h1]
    split
    · rename_i hbr
      rw [I128.val_sub_of_le h0.le (hb hbr)]
      omega
    · omega
  case batchMintTo =>
    have hb := (within_eq_ok.mp h).1
    simp only [State.Fitting] at hf
    have ht := batchMintTo_supply hb
    have hbr : s'.bridgedToEvm = s.bridgedToEvm := by rw [batchMintTo_frame hb]
    simp only [State.held, ht, hbr] at hf ⊢
    omega

/-- Other calls never add to the credits that count against the cap. -/
theorem step_held_le {c : Call} (hc : c.mints = false) (hf : s.Fitting c)
    (h : step R (e, c) (s, w) = .ok (s', w')) : s'.held ≤ s.held := by
  by_cases ha : c.accounting = false
  · obtain ⟨hb, -⟩ := step_administer ha h
    have ht : s'.totalSupply.val = s.totalSupply.val := congrArg Books.supply hb
    have hg : s'.bridgedToEvm.val = s.bridgedToEvm.val := congrArg Books.bridged hb
    simp only [State.held, ht, hg, le_refl]
  by_cases ht : c.transferLike = true
  · rw [step_transfers ht h]
    rfl
  cases c <;> simp only [Call.mints, Bool.true_eq_false] at hc <;>
    simp only [Call.accounting, Call.transferLike, not_true_eq_false] at ha ht <;>
    simp only [State.Fitting] at hf <;> simp only [step, within_eq_ok] at h
  case burn =>
    obtain ⟨h0, t, hd, rfl | ⟨bridged, h1, rfl⟩⟩ := burn_cases h.1
    · rw [destroy_held hf hd]
      omega
    · have ht := destroy_held hf hd
      simp only [State.held, h1] at ht ⊢
      omega
  case burnWithReason =>
    simp only [State.burnWithReason, bind_eq_ok, ensure_eq_ok] at h
    obtain ⟨⟨_, h0, _, -, h⟩, -⟩ := h
    rw [I128.lt_iff, I128.val_zero] at h0
    rw [destroy_held hf h]
    omega
  case retire =>
    simp only [bind_eq_ok, pure_eq_ok, Prod.mk.injEq] at h
    obtain ⟨⟨cert, t, v⟩, h, rfl, rfl⟩ := h
    have h0 := retire_pos h
    rw [retire_eq h]
    simp only [State.held, State.saveBalance, I128.val_sub hf]
    omega

theorem setMaxSupply_nonneg {admin : Address} {max : I128}
    (h : s.setMaxSupply e admin max = .ok s') : 0 ≤ max.val := by
  simp only [State.setMaxSupply, bind_eq_ok, ensure_eq_ok] at h
  obtain ⟨_, -, _, h, -⟩ := h
  exact h

/-- A configured cap is never negative. -/
theorem step_maxSupply_nonneg {c : Call} (hM : 0 ≤ s.maxSupply.val)
    (h : step R (e, c) (s, w) = .ok (s', w')) : 0 ≤ s'.maxSupply.val := by
  rw [step_maxSupply_eq h]
  cases c with
  | setMaxSupply admin max => exact setMaxSupply_nonneg (within_eq_ok.mp h).1
  | _ => exact hM

/-- Only a mint or a burn changes the bridged credits. -/
def Call.bridges : Call → Bool
  | .mintTo .. | .burn .. => true
  | _ => false

theorem step_bridged_of_not {c : Call} (hc : c.bridges = false)
    (h : step R (e, c) (s, w) = .ok (s', w')) : s'.bridgedToEvm = s.bridgedToEvm := by
  by_cases ha : c.accounting = false
  · exact I128.ext (congrArg Books.bridged (step_administer ha h).1)
  by_cases ht : c.transferLike = true
  · rw [step_transfers ht h]
  by_cases hr : c.retiring = true
  · rw [step_retiring hr h]
  cases c <;> simp only [Call.bridges, Bool.true_eq_false] at hc <;>
    simp only [Call.accounting, Call.transferLike, Call.retiring, not_true_eq_false] at ha ht hr <;>
    simp only [step, within_eq_ok] at h
  case batchMintTo => rw [batchMintTo_frame h.1]
  case burnWithReason =>
    simp only [State.burnWithReason, bind_eq_ok] at h
    obtain ⟨⟨_, -, _, -, h⟩, -⟩ := h
    rw [destroy_frame h]

theorem step_bridged_nonneg {c : Call} (hB : 0 ≤ s.bridgedToEvm.val)
    (h : step R (e, c) (s, w) = .ok (s', w')) : 0 ≤ s'.bridgedToEvm.val := by
  cases hc : c.bridges with
  | false =>
    rw [step_bridged_of_not hc h]
    exact hB
  | true =>
    cases c <;> simp only [Call.bridges, Bool.false_eq_true] at hc <;>
      simp only [step, within_eq_ok] at h
    case mintTo minter recipient amount =>
      obtain ⟨h0, -, -, -, hb, balance, -, total, -, ever, -, rfl⟩ := mintTo_eq_ok.mp h.1
      by_cases hbr : s.bridge = some minter
      · have hle := hb hbr
        simp only [hbr, if_true, I128.val_sub_of_le h0.le hle]
        omega
      · simpa only [hbr, if_false] using hB
    case burn =>
      obtain ⟨h0, t, hd, rfl | ⟨bridged, h1, rfl⟩⟩ := burn_cases h.1
      · rw [destroy_frame hd]
        exact hB
      · have ht : t.bridgedToEvm = s.bridgedToEvm := by rw [destroy_frame hd]
        simp only [h1, ht]
        omega

theorem init_cap {sw : State × W} (h : (machine contract R).init sw) :
    sw.1.maxSupply.val = 0 ∧ sw.1.bridgedToEvm.val = 0 ∧ sw.1.held = 0 := by
  obtain ⟨e, admin, name, symbol, projectId, methodology, h⟩ := h
  rw [(initialise_eq_ok.mp h).2]
  exact ⟨rfl, rfl, rfl⟩

theorem nonneg_reach {sw : State × W} (h : (machine contract R).Reachable sw) :
    0 ≤ sw.1.bridgedToEvm.val ∧ 0 ≤ sw.1.maxSupply.val := by
  refine Machine.Reach.invariant
    (I := fun sw => 0 ≤ sw.1.bridgedToEvm.val ∧ 0 ≤ sw.1.maxSupply.val) ?_ ?_ h
  · intro sw h
    obtain ⟨h1, h2, -⟩ := init_cap h
    exact ⟨h2.ge, h1.ge⟩
  · rintro tr ⟨s, w⟩ ⟨e, c⟩ ⟨s', w'⟩ ⟨hB, hM⟩ - h
    exact ⟨step_bridged_nonneg hB h, step_maxSupply_nonneg hM h⟩

/-- A cap that is in force, and room under it; before the first mint nothing is held. -/
structure Capped (tr : Trace (State × W) (Env contract × Call)) (s : State) : Prop where
  nonneg : 0 ≤ s.maxSupply.val
  held_le : s.held ≤ s.maxSupply.val
  unminted : (∀ st ∈ tr, st.label.2.mints = false) → s.held ≤ 0

/--
Circulating and bridged credits stay under a cap that is set before the first
mint and never lowered, when batches leave room for the bridged credits and no
debit leaves the range of the supply.
-/
theorem held_le_maxSupply {sw : State × W}
    (h : (machine contract R).Reach
      (fun tr sw l => capKept tr sw l ∧ sw.1.Fitting l.2) sw) :
    sw.1.totalSupply.val + sw.1.bridgedToEvm.val ≤ sw.1.maxSupply.val := by
  obtain ⟨tr, h⟩ := h
  refine (h.invariant (I := fun tr sw => Capped tr sw.1) ?_ ?_).held_le
  · intro sw h
    obtain ⟨h1, -, h2⟩ := init_cap h
    exact ⟨h1.ge, (h2.trans h1.symm).le, fun _ => h2.le⟩
  · rintro tr ⟨s, w⟩ ⟨e, c⟩ ⟨s', w'⟩ - ⟨h0, hle, hu⟩ ⟨hk, hf⟩ h
    have hM := step_maxSupply_nonneg h0 h
    have hcap := step_maxSupply_eq h
    cases hc : c.mints with
    | true =>
      have hpos : 0 < s.maxSupply.val := by
        cases c <;> first | exact hk | simp only [Call.mints, Bool.false_eq_true] at hc
      have hs := step_mints_held_le hc hpos hf h
      have he : s'.maxSupply = s.maxSupply := by
        rw [hcap]
        cases c <;> first | rfl | simp only [Call.mints, Bool.false_eq_true] at hc
      refine ⟨hM, he ▸ hs.trans (max_le hle le_rfl), fun hn => ?_⟩
      exact absurd ((hn _ List.mem_cons_self).symm.trans hc) (by simp)
    | false =>
      have hs := step_held_le hc hf h
      refine ⟨hM, ?_, fun hn => hs.trans (hu fun st hst => hn st (List.mem_cons_of_mem _ hst))⟩
      rw [hcap]
      cases c with
      | setMaxSupply admin max =>
        by_cases hm : ∃ st ∈ tr, st.label.2.mints = true
        · exact hs.trans (hle.trans (hk hm))
        · have hz := hu fun st hst => by simpa using fun ht => hm ⟨st, hst, ht⟩
          exact hs.trans (hz.trans (setMaxSupply_nonneg (within_eq_ok.mp h).1))
      | _ => exact hs.trans hle

section Sample

/-- Ten units under a cap of ten, all held by the bridge, the account `9`. -/
def capped : State × Unit :=
  (machine home closedRegistry).calls deployed
    [signedBy 0 (.setMaxSupply (.account 0) 10), signedBy 0 (.setBridge (.account 0) (.account 9)),
      signedBy 0 (.mintTo (.account 0) (.account 9) 10)]

def bridgedOut : State × Unit :=
  (machine home closedRegistry).calls capped [signedBy 9 (.burn (.account 9) (.account 9) 10)]

theorem bridgedOut_run : ∃ tr, (machine home closedRegistry).Run
    (fun tr sw l => capKept tr sw l ∧ sw.1.Fitting l.2) tr bridgedOut := by
  have h0 := Machine.Run.init (m := machine home closedRegistry)
    (G := fun tr sw l => capKept tr sw l ∧ sw.1.Fitting l.2) deployed_init
  have h1 := h0.call (l := signedBy 0 (.setMaxSupply (.account 0) 10))
    ⟨fun ⟨st, hst, _⟩ => absurd hst List.not_mem_nil, trivial⟩ (by decide)
  have h2 := h1.call (l := signedBy 0 (.setBridge (.account 0) (.account 9)))
    ⟨trivial, trivial⟩ (by decide)
  have h3 := h2.call (l := signedBy 0 (.mintTo (.account 0) (.account 9) 10))
    ⟨by simp only [capKept, signedBy]; decide, trivial⟩ (by decide)
  exact ⟨_, h3.call (l := signedBy 9 (.burn (.account 9) (.account 9) 10))
    ⟨trivial, by simp only [State.Fitting, signedBy]; decide⟩ (by decide)⟩

theorem held_le_maxSupply_bridgedOut :
    bridgedOut.1.bridgedToEvm.val = 10 ∧
      bridgedOut.1.totalSupply.val + bridgedOut.1.bridgedToEvm.val ≤
        bridgedOut.1.maxSupply.val :=
  ⟨by decide, held_le_maxSupply bridgedOut_run⟩

def overminted : State × Unit :=
  (machine home closedRegistry).calls bridgedOut
    [signedBy 0 (.batchMintTo (.account 0) [.account 1] [10])]

theorem batch_exceeds_cap :
    (machine home closedRegistry).Reach capKept overminted ∧ overminted.1.maxSupply.val = 10 ∧
      overminted.1.totalSupply.val + overminted.1.bridgedToEvm.val = 20 := by
  obtain ⟨tr, h⟩ := bridgedOut_run
  have hr := (h.mono fun _ _ _ hg => hg.1).call
    (l := signedBy 0 (.batchMintTo (.account 0) [.account 1] [10]))
    (by simp only [capKept, signedBy]; decide) (by decide)
  exact ⟨⟨_, hr⟩, by decide, by decide⟩

end Sample

end WaterCredits.Token
