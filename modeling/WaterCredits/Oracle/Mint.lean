import WaterCredits.Token.Batch
import WaterCredits.Oracle.Effects

/-! # Minting under the cap of a credit token

The oracle computes how much a token still admits, and the token checks it again
on each mint. The oracle ignores the bridged credits, so the two agree exactly
when none are in the way.
-/

namespace WaterCredits.Oracle

open Foundation Function

/-- A credit token as the outside world of an oracle, which authorises its own calls on it. -/
def creditOutside {token : Address} (e : Env token) (sha256 : List (BitVec 8) → BytesN 32) :
    Outside Token.State where
  totalSupply t s := if t = token then .ok (s.totalSupply, s) else .error .invokeFailed
  maxSupply t s := if t = token then .ok (s.maxSupply, s) else .error .invokeFailed
  mintTo t minter recipient amount s :=
    if t = token then s.mintTo e minter recipient amount else .error .invokeFailed
  transfer t sender recipient amount s :=
    if t = token then s.transfer e sender recipient amount else .error .invokeFailed
  sha256 := sha256

variable {token oracle beneficiary : Address} {W : Type} {R : Token.Registry W} {e : Env token}
  {sha256 : List (BitVec 8) → BytesN 32} {s s' : Token.State} {config : OracleConfig}
  {total amount net fee : I128}

/-- What the cap of a token still admits of an amount, bridged credits counted. -/
def admitted (s : Token.State) (total : ℤ) : ℤ :=
  if 0 < s.maxSupply.val then min total (max 0 (s.maxSupply.val - s.held)) else total

theorem feeOf_eq_ok (h0 : 0 ≤ amount.val) (hbps : config.feeBps ≤ 10000)
    (hf : I128.Fits (amount.val * 10000)) :
    feeOf config amount = .ok fee ↔ fee.val = amount.val * config.feeBps.toNat / 10000 := by
  have hb : (config.feeBps.toNat : ℤ) ≤ 10000 := by
    have := UInt32.le_iff_toNat_le.mp hbps
    exact_mod_cast this
  have hp0 : 0 ≤ amount.val * config.feeBps.toNat := by positivity
  have hple : amount.val * config.feeBps.toNat ≤ amount.val * 10000 := by gcongr
  have hten : (10000 : I128).val = 10000 := by decide
  unfold feeOf
  split
  · simp only [bind_eq_ok, orPanic_eq_ok, I128.checkedMul_eq_some, pure_eq_ok, val_ofU32]
    constructor
    · rintro ⟨product, hp, rfl⟩
      rw [I128.val_div_of_nonneg (hp ▸ hp0) (by rw [hten]; norm_num), hp, hten]
    · intro h
      have hlt := hf.2
      let product : I128 := ⟨amount.val * config.feeBps.toNat, by omega, by omega⟩
      refine ⟨product, rfl, I128.ext ?_⟩
      rw [I128.val_div_of_nonneg hp0 (by rw [hten]; norm_num), hten, h]
  · rename_i hz
    have hz : config.feeBps.toNat = 0 := by
      rw [UInt32.lt_iff_toNat_lt] at hz
      simpa using hz
    simp only [pure_eq_ok, hz, Nat.cast_zero, mul_zero, Int.zero_ediv]
    constructor
    · rintro rfl
      rfl
    · intro h
      exact I128.ext h.symm

/-- The clipped amount: the oracle leaves out the bridged credits, and its difference may wrap. -/
theorem val_mintable (h0 : 0 < total.val) :
    (mintable s.totalSupply s.maxSupply total).val =
      if 0 < s.maxSupply.val then
        if I128.Fits (s.maxSupply.val - s.totalSupply.val) then
          min total.val (max 0 (s.maxSupply.val - s.totalSupply.val))
        else 0
      else total.val := by
  unfold mintable
  simp only [I128.lt_iff, I128.le_iff, I128.val_zero]
  split
  · by_cases hf : I128.Fits (s.maxSupply.val - s.totalSupply.val)
    · rw [I128.val_sub hf, if_pos hf]
      split
      · rw [I128.val_zero]
        omega
      · rw [I128.val_min, I128.val_sub hf]
        omega
    · have hT := s.totalSupply.le_val
      have hlt := s.maxSupply.val_lt
      have hu := s.totalSupply.val_lt
      have hle : 2 ^ 127 ≤ s.maxSupply.val - s.totalSupply.val := by
        by_contra hn
        exact hf ⟨by omega, by omega⟩
      have hneg : (s.maxSupply - s.totalSupply).val < 0 := I128.wrap_neg hle (by omega)
      rw [if_neg hf, if_pos hneg.le, I128.val_zero]
  · rfl

/-- No bridged credits and no wrap come between the oracle and the cap. -/
def Unobstructed (s : Token.State) (total : ℤ) : Prop :=
  0 < total → 0 < s.maxSupply.val → I128.Fits (s.maxSupply.val - s.totalSupply.val) ∧
    (s.bridgedToEvm.val = 0 ∨ total ≤ s.maxSupply.val - s.held ∨
      s.maxSupply.val ≤ s.totalSupply.val)

/-- The clip of the oracle is the admitted amount unless bridged credits or a wrap come between. -/
theorem mintable_eq_admitted_iff (h0 : 0 < total.val) (hB : 0 ≤ s.bridgedToEvm.val) :
    (mintable s.totalSupply s.maxSupply total).val = admitted s total.val ↔
      Unobstructed s total.val := by
  have hlt := s.bridgedToEvm.val_lt
  have hm := s.maxSupply.val_lt
  have hT := s.totalSupply.le_val
  have hu := s.totalSupply.val_lt
  rw [val_mintable h0]
  unfold Unobstructed admitted Token.State.held
  by_cases hpos : 0 < s.maxSupply.val
  · simp only [hpos, h0, if_true, forall_const]
    by_cases hf : I128.Fits (s.maxSupply.val - s.totalSupply.val)
    · simp only [hf, if_true, true_and]
      omega
    · simp only [hf, if_false, false_and, iff_false]
      have hle : 2 ^ 127 ≤ s.maxSupply.val - s.totalSupply.val := by
        by_contra hn
        exact hf ⟨by omega, by omega⟩
      omega
  · simp [hpos]

/-- The mints of a split amount; a zero part is not minted. -/
def mintPairs (config : OracleConfig) (beneficiary : Address) (net fee : I128) :
    List (Address × I128) :=
  (if 0 < net then [(beneficiary, net)] else []) ++
    (if 0 < fee then [(config.treasury, fee)] else [])

theorem mintPairs_positive : ∀ p ∈ mintPairs config beneficiary net fee, 0 < p.2.val := by
  intro p hp
  unfold mintPairs at hp
  rcases List.mem_append.mp hp with h | h
  · split at h
    · rename_i hn
      rw [List.mem_singleton.mp h]
      exact hn
    · exact absurd h List.not_mem_nil
  · split at h
    · rename_i hn
      rw [List.mem_singleton.mp h]
      exact hn
    · exact absurd h List.not_mem_nil

theorem mintPairs_total (hn : 0 ≤ net.val) (hf : 0 ≤ fee.val) :
    Token.pairsTotal (mintPairs config beneficiary net fee) = net.val + fee.val := by
  unfold mintPairs
  simp only [I128.lt_iff, I128.val_zero]
  split <;> split <;> simp [Token.pairsTotal] <;> omega

theorem mintPairs_paidTo (hn : 0 ≤ net.val) (hf : 0 ≤ fee.val) (a : Address) :
    Token.paidTo a (mintPairs config beneficiary net fee) =
      (if beneficiary = a then net.val else 0) + if config.treasury = a then fee.val else 0 := by
  have hn : 0 < net.val ∨ net.val = 0 := by omega
  have hf : 0 < fee.val ∨ fee.val = 0 := by omega
  rcases hn with hn | hn <;> rcases hf with hf | hf <;>
    simp [mintPairs, Token.paidTo, I128.lt_iff, hn, hf]

theorem mintPositive_eq {recipient : Address} :
    mintPositive (creditOutside e sha256) token oracle recipient amount s =
      Token.State.mintEach e oracle (if 0 < amount then [(recipient, amount)] else []) s := by
  unfold mintPositive
  split
  · simp [creditOutside, Token.State.mintEach]
  · rfl

@[simp] theorem creditOutside_totalSupply :
    (creditOutside e sha256).totalSupply token s = .ok (s.totalSupply, s) := if_pos rfl

@[simp] theorem creditOutside_maxSupply :
    (creditOutside e sha256).maxSupply token s = .ok (s.maxSupply, s) := if_pos rfl

theorem mintCredits_eq_ok (h0 : 0 < total.val)
    (hm : 0 < (mintable s.totalSupply s.maxSupply total).val) :
    mintCreditsRespectingCap (creditOutside e sha256) oracle config token beneficiary total s =
        .ok (net, fee, s') ↔
      feeOf config (mintable s.totalSupply s.maxSupply total) = .ok fee ∧
        net = mintable s.totalSupply s.maxSupply total - fee ∧
        Token.State.mintEach e oracle (mintPairs config beneficiary net fee) s = .ok s' := by
  have h0 : ¬ total ≤ 0 := not_le.mpr h0
  have hm : ¬ mintable s.totalSupply s.maxSupply total ≤ 0 := not_le.mpr hm
  unfold mintCreditsRespectingCap
  simp only [h0, if_false, bind_eq_ok, creditOutside_totalSupply, creditOutside_maxSupply,
    Except.ok.injEq, exists_eq_left', hm, pure_eq_ok, Prod.mk.injEq, mintPositive_eq, mintPairs,
    Token.mintEach_append]
  constructor
  · rintro ⟨f, hf, u, hu, v, hv, rfl, rfl, rfl⟩
    exact ⟨hf, rfl, u, hu, hv⟩
  · rintro ⟨hf, rfl, u, hu, hv⟩
    exact ⟨fee, hf, u, hu, s', hv, rfl, rfl, rfl⟩

theorem mintCredits_none (h : total.val ≤ 0 ∨ (mintable s.totalSupply s.maxSupply total).val ≤ 0) :
    mintCreditsRespectingCap (creditOutside e sha256) oracle config token beneficiary total s =
      .ok (0, 0, s) := by
  unfold mintCreditsRespectingCap
  by_cases h0 : total ≤ 0
  · rw [if_pos h0]
    rfl
  · rw [if_neg h0]
    have hm : mintable s.totalSupply s.maxSupply total ≤ 0 := h.resolve_left h0
    simp only [creditOutside_totalSupply, creditOutside_maxSupply, bind, Except.bind, hm, if_true]
    rfl

/-- The credits fit the balances and the supply, and a bridge draws no more than is bridged. -/
structure Payable (s : Token.State) (oracle beneficiary treasury : Address) (net fee : ℤ) :
    Prop where
  balance : ∀ a, I128.Fits ((s.balance a).val +
    ((if beneficiary = a then net else 0) + if treasury = a then fee else 0))
  supply : I128.Fits (s.totalSupply.val + (net + fee))
  bridge : s.bridge = some oracle → net + fee ≤ s.bridgedToEvm.val

theorem payable_of_balanced {treasury : Address} {n f : ℤ} (hb : s.books.Balanced)
    (hever : I128.Fits (s.everMinted.val + total.val)) (hn : 0 ≤ n) (hf : 0 ≤ f)
    (hle : n + f ≤ total.val) (hne : s.bridge ≠ some oracle) :
    Payable s oracle beneficiary treasury n f := by
  have hsupply : s.totalSupply.val ≤ s.everMinted.val := by
    have hc : s.totalSupply.val + s.totalRetired.val + s.totalBurned.val = s.everMinted.val :=
      hb.conserved
    have hr : 0 ≤ s.totalRetired.val := hb.retired_nonneg
    have hu : 0 ≤ s.totalBurned.val := hb.burned_nonneg
    omega
  have hT : 0 ≤ s.totalSupply.val := hb.toBacked.total_nonneg
  have hlt := hever.2
  refine ⟨fun a => ?_, ⟨by omega, by omega⟩, fun h => absurd h hne⟩
  have h0 : 0 ≤ (s.balance a).val := hb.nonneg a
  have hs : (s.balance a).val ≤ s.totalSupply.val := hb.toBacked.le a
  constructor
  · split <;> split <;> omega
  · split <;> split <;> omega

/-- What counts against the cap stays under it. -/
def UnderCap (s : Token.State) : Prop := 0 < s.maxSupply.val → s.held ≤ s.maxSupply.val

/-- Minting succeeds with the admitted amount, split by the fee, and keeps the cap. -/
def MintsAdmitted (e : Env token) (sha256 : List (BitVec 8) → BytesN 32) (oracle : Address)
    (config : OracleConfig) (beneficiary : Address) (total : I128) (s : Token.State) : Prop :=
  ∃ net fee s',
    mintCreditsRespectingCap (creditOutside e sha256) oracle config token beneficiary total s =
      .ok (net, fee, s') ∧
    0 ≤ net.val ∧ 0 ≤ fee.val ∧ net.val + fee.val = admitted s total.val ∧
    fee.val = admitted s total.val * config.feeBps.toNat / 10000 ∧ (UnderCap s → UnderCap s')

def admittedFee (s : Token.State) (config : OracleConfig) (total : ℤ) : ℤ :=
  admitted s total * config.feeBps.toNat / 10000

theorem fee_bounds {a : ℤ} (ha : 0 ≤ a) (hbps : config.feeBps ≤ 10000) :
    0 ≤ a * config.feeBps.toNat / 10000 ∧ a * config.feeBps.toNat / 10000 ≤ a := by
  have hb : (config.feeBps.toNat : ℤ) ≤ 10000 := by
    have := UInt32.le_iff_toNat_le.mp hbps
    exact_mod_cast this
  constructor
  · positivity
  · apply Int.ediv_le_of_le_mul (by norm_num)
    gcongr

theorem mintable_bounds (h0 : 0 < total.val) :
    0 ≤ (mintable s.totalSupply s.maxSupply total).val ∧
      (mintable s.totalSupply s.maxSupply total).val ≤ total.val := by
  rw [val_mintable h0]
  split
  · split <;> omega
  · omega

theorem split_exact (h0 : 0 ≤ amount.val) (hbps : config.feeBps ≤ 10000)
    (hf : I128.Fits (amount.val * 10000)) (hfee : feeOf config amount = .ok fee)
    (hnet : net = amount - fee) :
    0 ≤ fee.val ∧ 0 ≤ net.val ∧ net.val + fee.val = amount.val ∧
      fee.val = amount.val * config.feeBps.toNat / 10000 := by
  have hv := (feeOf_eq_ok h0 hbps hf).mp hfee
  obtain ⟨hl, hu⟩ := fee_bounds h0 hbps
  rw [← hv] at hl hu
  have hn : net.val = amount.val - fee.val := hnet ▸ I128.val_sub_of_le hl hu
  exact ⟨hl, by omega, by omega, hv⟩

section Exact

variable (hB : 0 ≤ s.bridgedToEvm.val) (hbps : config.feeBps ≤ 10000) (h0 : 0 < total.val)
  (hmul : I128.Fits (total.val * 10000))

include hB hbps h0 hmul

theorem payable_of_mintsAdmitted
    (h : MintsAdmitted e sha256 oracle config beneficiary total s) :
    (mintable s.totalSupply s.maxSupply total).val = admitted s total.val ∧
      Payable s oracle beneficiary config.treasury
        (admitted s total.val - admittedFee s config total.val)
        (admittedFee s config total.val) := by
  obtain ⟨net, fee, s', hrun, hn, hf, hsum, hfee, -⟩ := h
  obtain ⟨hm0, hmt⟩ := mintable_bounds (s := s) h0
  have hnet : admitted s total.val - admittedFee s config total.val = net.val := by
    unfold admittedFee
    omega
  have hfee' : admittedFee s config total.val = fee.val := hfee.symm
  rw [hnet, hfee']
  rcases hm0.lt_or_eq with hm | hm
  · obtain ⟨hfo, hne, heach⟩ := (mintCredits_eq_ok h0 hm).mp hrun
    have hfit : I128.Fits ((mintable s.totalSupply s.maxSupply total).val * 10000) :=
      ⟨by omega, by have := hmul.2; omega⟩
    obtain ⟨-, -, hadd, -⟩ := split_exact hm0 hbps hfit hfo hne
    have hc := Token.mintEach_creditable heach
    refine ⟨hadd.symm.trans hsum, fun a => ?_, ?_, fun hb => ?_⟩
    · rw [← mintPairs_paidTo hn hf a]
      exact hc.balance a
    · rw [← mintPairs_total hn hf]
      exact hc.supply
    · have hd := (Token.mintEach_bridge hb heach).2
      rw [← mintPairs_total hn hf]
      by_cases hnil : mintPairs config beneficiary net fee = []
      · rw [hnil]
        exact hB
      · exact hd hnil
  · rw [mintCredits_none (Or.inr hm.ge)] at hrun
    simp only [Except.ok.injEq, Prod.mk.injEq] at hrun
    obtain ⟨rfl, rfl, rfl⟩ := hrun
    rw [I128.val_zero] at hsum ⊢
    refine ⟨by omega, fun a => ?_, ?_, fun _ => hB⟩
    · simpa using (s.balance a).fits
    · simpa using s.totalSupply.fits

variable (hever : I128.Fits (s.everMinted.val + total.val)) (hp : s.paused = false)
  (hauth : e.auth oracle = true ∧ (oracle = s.readMinter ∨ oracle = s.admin))

include hever hp hauth

theorem mintsAdmitted_of_payable
    (hclip : (mintable s.totalSupply s.maxSupply total).val = admitted s total.val)
    (hpay : Payable s oracle beneficiary config.treasury
      (admitted s total.val - admittedFee s config total.val)
      (admittedFee s config total.val)) :
    MintsAdmitted e sha256 oracle config beneficiary total s := by
  obtain ⟨hm0, hmt⟩ := mintable_bounds (s := s) h0
  rcases hm0.lt_or_eq with hm | hm
  · have hfit : I128.Fits ((mintable s.totalSupply s.maxSupply total).val * 10000) :=
      ⟨by omega, by have := hmul.2; omega⟩
    obtain ⟨hl, hu⟩ := fee_bounds hm0 hbps
    have hmax := (mintable s.totalSupply s.maxSupply total).val_lt
    obtain ⟨fee, hfee⟩ : ∃ fee : I128, fee.val =
        (mintable s.totalSupply s.maxSupply total).val * config.feeBps.toNat / 10000 :=
      ⟨⟨_, by omega, by omega⟩, rfl⟩
    have hfo := (feeOf_eq_ok hm0 hbps hfit).mpr hfee
    obtain ⟨net, hnet⟩ : ∃ net, net = mintable s.totalSupply s.maxSupply total - fee := ⟨_, rfl⟩
    obtain ⟨hf, hn, hadd, -⟩ := split_exact hm0 hbps hfit hfo hnet
    have hF : admittedFee s config total.val = fee.val := by
      unfold admittedFee
      rw [hfee, hclip]
    have hN : admitted s total.val - admittedFee s config total.val = net.val := by omega
    rw [hN, hF] at hpay
    have hsum : Token.pairsTotal (mintPairs config beneficiary net fee) = net.val + fee.val :=
      mintPairs_total hn hf
    have hadm : s.Admissible e oracle (mintPairs config beneficiary net fee) := by
      refine ⟨⟨mintPairs_positive, fun a => ?_, ?_, ?_⟩, hp, hauth⟩
      · rw [mintPairs_paidTo hn hf a]
        exact hpay.balance a
      · rw [hsum]
        exact hpay.supply
      · have hlow := s.everMinted.le_val
        rw [hsum]
        exact ⟨by omega, by have := hever.2; omega⟩
    have hroom : 0 < s.maxSupply.val → s.held + (net.val + fee.val) ≤ s.maxSupply.val := by
      intro hpos
      have ha : admitted s total.val = min total.val (max 0 (s.maxSupply.val - s.held)) :=
        if_pos hpos
      omega
    obtain ⟨s', hs'⟩ := Token.mintEach_accepts (fun hb => hsum ▸ hpay.bridge hb) hB hadm
      (fun hpos => hsum ▸ hroom hpos)
    refine ⟨net, fee, s', (mintCredits_eq_ok h0 hm).mpr ⟨hfo, hnet, hs'⟩, hn, hf, by omega, ?_,
      fun _ => ?_⟩
    · rw [hfee, hclip]
    · obtain ⟨hset, hheld⟩ := Token.mintEach_held_le hs'
      have hcap : s'.maxSupply = s.maxSupply := congrArg (fun x => x.2.2.2.2) hset
      intro hpos
      rw [hcap] at hpos ⊢
      have := hroom hpos
      omega
  · refine ⟨0, 0, s, mintCredits_none (Or.inr hm.ge), le_rfl, le_rfl, ?_, ?_, id⟩
    · rw [← hclip, ← hm]
      rfl
    · rw [← hclip, ← hm]
      simp

end Exact

/--
On an unpaused token of which the oracle is a minter, the oracle mints what the
cap admits exactly when bridged credits and wraps are out of the way and the
credits fit.
-/
theorem mintCredits_admitted_iff {sw : Token.State × W} (h : (Token.machine token R).Reachable sw)
    (e : Env token) (sha256 : List (BitVec 8) → BytesN 32) (beneficiary : Address)
    (hp : sw.1.paused = false)
    (hauth : e.auth oracle = true ∧ (oracle = sw.1.readMinter ∨ oracle = sw.1.admin))
    (hbps : config.feeBps ≤ 10000) (h0 : 0 ≤ total.val) (hmul : I128.Fits (total.val * 10000))
    (hever : I128.Fits (sw.1.everMinted.val + total.val)) :
    MintsAdmitted e sha256 oracle config beneficiary total sw.1 ↔
      Unobstructed sw.1 total.val ∧
        Payable sw.1 oracle beneficiary config.treasury
          (admitted sw.1 total.val - admittedFee sw.1 config total.val)
          (admittedFee sw.1 config total.val) := by
  have hB := (Token.nonneg_reach h).1
  rcases h0.lt_or_eq with h0 | h0
  · rw [← mintable_eq_admitted_iff h0 hB]
    constructor
    · exact payable_of_mintsAdmitted hB hbps h0 hmul
    · rintro ⟨hclip, hpay⟩
      exact mintsAdmitted_of_payable hB hbps h0 hmul hever hp hauth hclip hpay
  · have ha : admitted sw.1 total.val = 0 := by
      rw [← h0]
      unfold admitted
      split <;> omega
    have hfee : admittedFee sw.1 config total.val = 0 := by simp [admittedFee, ha]
    rw [hfee, ha]
    constructor
    · intro _
      refine ⟨fun hlt => absurd h0 hlt.ne, fun a => ?_, ?_, fun _ => hB⟩
      · simpa using (sw.1.balance a).fits
      · simpa using sw.1.totalSupply.fits
    · intro _
      refine ⟨0, 0, sw.1, mintCredits_none (Or.inl h0.ge), le_rfl, le_rfl, ?_, ?_, id⟩
      · rw [ha]
        rfl
      · simp [ha]

section Sample

abbrev minter : Address := .contract 2

/-- The environment in which the sample oracle calls the token. -/
abbrev oracleEnv : Env Token.home := .signed 0 0 minter (by decide)

def fivePercent : OracleConfig :=
  { stakingToken := .contract 3, treasury := .account 5, feeBps := 500 }

def bridgedUnder (cap : I128) : Token.State × Unit :=
  (Token.machine Token.home Token.closedRegistry).calls Token.deployed
    [Token.signedBy 0 (.setMaxSupply (.account 0) cap),
      Token.signedBy 0 (.setBridge (.account 0) (.account 9)),
      Token.signedBy 0 (.mintTo (.account 0) (.account 9) 10),
      Token.signedBy 9 (.burn (.account 9) (.account 9) 10),
      Token.signedBy 0 (.setMinter (.account 0) minter)]

theorem bridgedUnder_reach (cap : I128) :
    (Token.machine Token.home Token.closedRegistry).Reach Token.noSelfTransfer
      (bridgedUnder cap) :=
  Token.deployed_reach.calls (by simp [Token.signedBy, Token.noSelfTransfer, Token.Call.toSelf])

theorem mintCredits_admitted_hundred :
    (bridgedUnder 100).1.bridgedToEvm.val = 10 ∧
      MintsAdmitted oracleEnv (fun _ => 0) minter fivePercent (.account 1) 40
        (bridgedUnder 100).1 := by
  have hever : I128.Fits ((bridgedUnder 100).1.everMinted.val + (40 : I128).val) := by decide
  have hpay : Payable (bridgedUnder 100).1 minter (.account 1) (.account 5) 38 2 :=
    payable_of_balanced (Token.balanced_reach (bridgedUnder_reach 100)) hever (by decide)
      (by decide) (by decide) (by decide)
  exact ⟨by decide, (mintCredits_admitted_iff (bridgedUnder_reach 100).free oracleEnv (fun _ => 0)
    (.account 1) (by decide) (by decide) (by decide) (by decide) (by decide) (by decide)).mpr
    ⟨by unfold Unobstructed; decide, hpay⟩⟩

/-- The oracle sees room for ten credits that the bridged ones already fill. -/
theorem bridged_reverts_mint :
    (Token.machine Token.home Token.closedRegistry).Reachable (bridgedUnder 10) ∧
      (bridgedUnder 10).1.readMinter = minter ∧ (bridgedUnder 10).1.paused = false ∧
      mintCreditsRespectingCap (creditOutside oracleEnv (fun _ => 0)) minter fivePercent Token.home
        (.account 1) 10 (bridgedUnder 10).1 = .error (.message "max supply exceeded") ∧
      ¬ MintsAdmitted oracleEnv (fun _ => 0) minter fivePercent (.account 1) 10
        (bridgedUnder 10).1 := by
  have herr : mintCreditsRespectingCap (creditOutside oracleEnv (fun _ => 0)) minter fivePercent
      Token.home (.account 1) 10 (bridgedUnder 10).1 = .error (.message "max supply exceeded") := by
    rfl
  refine ⟨(bridgedUnder_reach 10).free, by decide, by decide, herr, ?_⟩
  rintro ⟨net, fee, s', hrun, -⟩
  rw [herr] at hrun
  cases hrun

end Sample

end WaterCredits.Oracle
