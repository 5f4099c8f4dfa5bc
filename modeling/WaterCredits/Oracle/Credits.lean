import WaterCredits.Oracle.Robust

/-! # The credit formula over the integers

The formula is stated once more without machine integers. Whatever the source
computes without an abort is its value, a result never exceeds the gross
credits, and better water never earns less.
-/

namespace WaterCredits.Oracle

open Foundation

variable {config : OracleConfig} {med : Reading} {baselines : Baselines} {windowSecs : UInt64}
  {r : FinalizationResult} {subs : List ReadingSubmission}

section Validated

/-- The values that a sensor can produce. -/
structure Validated (r : Reading) : Prop where
  ph : 0 ≤ r.ph.toInt ∧ r.ph.toInt ≤ 1400
  flowRate : 0 ≤ r.flowRate.toInt
  totalNitrogen : 0 ≤ r.totalNitrogen.toInt
  totalPhosphorus : 0 ≤ r.totalPhosphorus.toInt
  dissolvedOxygen : 0 ≤ r.dissolvedOxygen.toInt
  turbidity : 0 ≤ r.turbidity.toInt ∧ r.turbidity.toInt ≤ 10000
  temperature : 0 ≤ r.temperature.toInt ∧ r.temperature.toInt ≤ 500

theorem validateSensorReading_eq_ok {reading : Reading} {u : Unit} :
    validateSensorReading reading = .ok u ↔ Validated reading := by
  have hzero : (0 : Int64).toInt = 0 := Int64.toInt_zero
  have hph : (1400 : Int64).toInt = 1400 := by rfl
  have hturbidity : (10000 : Int64).toInt = 10000 := by rfl
  have htemperature : (500 : Int64).toInt = 500 := by rfl
  simp only [validateSensorReading, bind_eq_ok, ensure_eq_ok, exists_const, Int64.le_iff_toInt_le,
    hzero, hph, hturbidity, htemperature]
  constructor
  · rintro ⟨h1, h2, h3, h4, h5, h6, h7⟩
    exact ⟨h1, h2, h3, h4, h5, h6, h7⟩
  · rintro ⟨h1, h2, h3, h4, h5, h6, h7⟩
    exact ⟨h1, h2, h3, h4, h5, h6, h7⟩

def MedianOf (med : Reading) : Prop :=
  ∃ subs : List ReadingSubmission,
    (∀ sub ∈ subs, validateSensorReading sub.toReading = .ok ()) ∧ medians subs = .ok med

theorem Between.validated {honest : List ReadingSubmission} (h : Between honest med)
    (hv : ∀ sub ∈ honest, Validated sub.toReading) : Validated med := by
  have low {field : Reading → Int64}
      (hb : ∃ a ∈ honest, (field a.toReading).toInt ≤ (field med).toInt)
      (h0 : ∀ r, Validated r → 0 ≤ (field r).toInt) : 0 ≤ (field med).toInt := by
    obtain ⟨a, ha, hle⟩ := hb
    exact (h0 _ (hv a ha)).trans hle
  have high {field : Reading → Int64} {n : ℤ}
      (hb : ∃ b ∈ honest, (field med).toInt ≤ (field b.toReading).toInt)
      (h0 : ∀ r, Validated r → (field r).toInt ≤ n) : (field med).toInt ≤ n := by
    obtain ⟨b, hb, hle⟩ := hb
    exact hle.trans (h0 _ (hv b hb))
  simp only [Between, Reading.fields, List.forall_mem_cons] at h
  obtain ⟨hph, hturbidity, hoxygen, htemperature, hflow, hnitrogen, hphosphorus, -⟩ := h
  constructor
  · exact ⟨low hph.1 fun r h => h.ph.1, high hph.2 fun r h => h.ph.2⟩
  · exact low hflow.1 fun r h => h.flowRate
  · exact low hnitrogen.1 fun r h => h.totalNitrogen
  · exact low hphosphorus.1 fun r h => h.totalPhosphorus
  · exact low hoxygen.1 fun r h => h.dissolvedOxygen
  · exact ⟨low hturbidity.1 fun r h => h.turbidity.1, high hturbidity.2 fun r h => h.turbidity.2⟩
  · exact ⟨low htemperature.1 fun r h => h.temperature.1,
      high htemperature.2 fun r h => h.temperature.2⟩

theorem MedianOf.validated (h : MedianOf med) : Validated med := by
  obtain ⟨subs, hv, hm⟩ := h
  have hpos : 0 < subs.length := by
    have hph := medians_field hm (·.ph) (by simp [Reading.fields])
    exact (medianI64_eq_ok.mp hph).1.1.trans_eq (List.length_map _)
  -- no submission is taken for a corrupt one
  have hnone : 2 * subs.countP (fun _ => false) < subs.length := by simpa using hpos
  have hb := @medians_between subs med hm (fun _ => false) hnone
  exact hb.validated fun sub hs =>
    validateSensorReading_eq_ok.mp (hv sub (List.mem_of_mem_filter hs))

end Validated

namespace Credits

/-- The nutrient removed below a baseline over a window, in whole kilograms. -/
def removed (med flow baseline windowSecs : ℤ) : ℤ :=
  if med < baseline then (baseline - med) * flow * windowSecs / 1000000 else 0

/-- The deductions of a reading in basis points. -/
def penalty (config : OracleConfig) (med : Reading) (tempThreshold : ℤ) : ℤ :=
  min 8000 ((if med.ph.toInt < config.qualityThresholdPh.toInt ∨
        config.qualityThresholdPhMax.toInt < med.ph.toInt then 2000 else 0) +
    (if config.qualityThresholdTurbidity.toInt < med.turbidity.toInt then 2000 else 0) +
    (if med.dissolvedOxygen.toInt < config.qualityThresholdDo.toInt then 2000 else 0) +
    (if tempThreshold < med.temperature.toInt then 1000 else 0))

def volumetric (flow : ℤ) : ℤ := if 0 < flow then flow * 100 / 1000 else 0

/-- What is left of the gross credits, rounded down. -/
def total (gross penalty : ℤ) : ℤ := max (gross * (10000 - penalty) / 10000) 0

section Bounds

variable {med flow baseline window med' flow' baseline' window' gross gross' cut cut' : ℤ}

theorem removed_eq : removed med flow baseline window =
    max (baseline - med) 0 * flow * window / 1000000 := by
  unfold removed
  split
  · rw [max_eq_left (by omega)]
  · rw [max_eq_right (by omega)]
    simp

theorem removed_nonneg (hf : 0 ≤ flow) (hw : 0 ≤ window) :
    0 ≤ removed med flow baseline window := by
  rw [removed_eq]
  exact Int.ediv_nonneg (by positivity) (by norm_num)

theorem removed_mono (hm : med' ≤ med) (hf : flow ≤ flow') (hb : baseline ≤ baseline')
    (hw : window ≤ window') (hf0 : 0 ≤ flow) (hw0 : 0 ≤ window) :
    removed med flow baseline window ≤ removed med' flow' baseline' window' := by
  rw [removed_eq, removed_eq]
  have hgap : max (baseline - med) 0 ≤ max (baseline' - med') 0 := by omega
  have hgap0 : 0 ≤ max (baseline - med) 0 := le_max_right _ _
  have hf0' : 0 ≤ flow' := hf0.trans hf
  refine Int.ediv_le_ediv (by norm_num) ?_
  gcongr

theorem volumetric_nonneg : 0 ≤ volumetric flow := by
  unfold volumetric
  split <;> omega

theorem volumetric_mono (h : flow ≤ flow') : volumetric flow ≤ volumetric flow' := by
  unfold volumetric
  split <;> split <;> omega

theorem penalty_nonneg (config : OracleConfig) (med : Reading) (tempThreshold : ℤ) :
    0 ≤ penalty config med tempThreshold := by
  unfold penalty
  split_ifs <;> norm_num

theorem penalty_le (config : OracleConfig) (med : Reading) (tempThreshold : ℤ) :
    penalty config med tempThreshold ≤ 8000 := min_le_left _ _

theorem total_nonneg : 0 ≤ total gross cut := le_max_right _ _

theorem total_le (h0 : 0 ≤ cut) (h : cut ≤ 10000) : total gross cut ≤ max gross 0 := by
  refine max_le ?_ (le_max_right _ _)
  rcases le_total 0 gross with hg | hg
  · calc gross * (10000 - cut) / 10000 ≤ gross * 10000 / 10000 :=
          Int.ediv_le_ediv (by norm_num) (mul_le_mul_of_nonneg_left (by omega) hg)
      _ = gross := Int.mul_ediv_cancel _ (by norm_num)
      _ ≤ max gross 0 := le_max_left _ _
  · have hnonpos : gross * (10000 - cut) ≤ 0 := mul_nonpos_of_nonpos_of_nonneg hg (by omega)
    exact (show gross * (10000 - cut) / 10000 ≤ 0 by omega).trans (le_max_right _ _)

theorem total_mono (hg0 : 0 ≤ gross) (hg : gross ≤ gross') (hc : cut' ≤ cut) (h : cut ≤ 10000) :
    total gross cut ≤ total gross' cut' := by
  refine max_le_max (Int.ediv_le_ediv (by norm_num) ?_) le_rfl
  exact mul_le_mul hg (by omega) (by omega) (by omega)

theorem penalty_mono {config : OracleConfig} {med med' : Reading} {threshold : ℤ}
    (hph : med'.ph = med.ph) (hturbidity : med'.turbidity.toInt ≤ med.turbidity.toInt)
    (hoxygen : med.dissolvedOxygen.toInt ≤ med'.dissolvedOxygen.toInt)
    (htemperature : med'.temperature.toInt ≤ med.temperature.toInt) :
    penalty config med' threshold ≤ penalty config med threshold := by
  have hcut {c c' : Prop} [Decidable c] [Decidable c'] {n : ℤ} (hn : 0 ≤ n) (h : c' → c) :
      (if c' then n else 0) ≤ if c then n else 0 := by
    split_ifs
    · exact le_rfl
    · exact absurd (h ‹c'›) ‹¬ c›
    · exact hn
    · exact le_rfl
  unfold penalty
  rw [hph]
  refine min_le_min le_rfl (add_le_add (add_le_add (add_le_add le_rfl ?_) ?_) ?_)
  · exact hcut (by norm_num) fun h => h.trans_le hturbidity
  · exact hcut (by norm_num) fun h => hoxygen.trans_lt h
  · exact hcut (by norm_num) fun h => h.trans_le htemperature

end Bounds

end Credits

/-- The values of the formula. -/
structure Terms where
  nRemoved : ℤ
  pRemoved : ℤ
  penalty : ℤ
  volumetricCredit : ℤ
  total : ℤ

def FinalizationResult.terms (r : FinalizationResult) : Terms where
  nRemoved := r.nRemoved.val
  pRemoved := r.pRemoved.val
  penalty := r.penalty.toInt
  volumetricCredit := r.volumetricCredit.val
  total := r.total.val

theorem max_tdiv (a : ℤ) : max (a.tdiv 10000) 0 = max (a / 10000) 0 := by
  rcases le_total 0 a with h | h
  · rw [Int.tdiv_eq_ediv_of_nonneg h]
  · have htrunc : a.tdiv 10000 ≤ 0 := by
      have hmono : a.tdiv 10000 ≤ Int.tdiv 0 10000 := Int.tdiv_le_tdiv (by norm_num) h
      rwa [Int.zero_tdiv] at hmono
    have hfloor : a / 10000 ≤ 0 := by omega
    rw [max_eq_right htrunc, max_eq_right hfloor]

section Exact

variable (config : OracleConfig) (med : Reading) (baselines : Baselines) (windowSecs : UInt64)

def grossCredits : ℤ :=
  Credits.removed med.totalNitrogen.toInt med.flowRate.toInt baselines.n.val windowSecs.toNat *
      config.creditPerKgN.val +
    Credits.removed med.totalPhosphorus.toInt med.flowRate.toInt baselines.p.val windowSecs.toNat *
      config.creditPerKgP.val +
    Credits.volumetric med.flowRate.toInt

/-- The formula on the medians of a window. -/
def exactTerms : Terms where
  nRemoved :=
    Credits.removed med.totalNitrogen.toInt med.flowRate.toInt baselines.n.val windowSecs.toNat
  pRemoved :=
    Credits.removed med.totalPhosphorus.toInt med.flowRate.toInt baselines.p.val windowSecs.toNat
  penalty := Credits.penalty config med baselines.temp.val
  volumetricCredit := Credits.volumetric med.flowRate.toInt
  total := Credits.total (grossCredits config med baselines windowSecs)
    (Credits.penalty config med baselines.temp.val)

variable {config med baselines windowSecs}

theorem removed_exact {nutrient : String} {value flow : Int64} {baseline x : I128}
    (hv : 0 ≤ value.toInt) (hf : 0 ≤ flow.toInt)
    (h : removed nutrient value flow baseline windowSecs = .ok x) :
    x.val = Credits.removed value.toInt flow.toInt baseline.val windowSecs.toNat := by
  unfold removed at h
  unfold Credits.removed
  simp only [I128.lt_iff, val_ofI64] at h
  split at h
  · rename_i hlt
    simp only [bind_eq_ok, orPanic_eq_ok, I128.checkedMul_eq_some, pure_eq_ok, val_ofI64,
      val_ofU64] at h
    obtain ⟨y, hy, z, hz, rfl⟩ := h
    have hgap : (baseline - ofI64 value).val = baseline.val - value.toInt := by
      rw [I128.val_sub_of_le (by rwa [val_ofI64]) (by rw [val_ofI64]; exact hlt.le), val_ofI64]
    have hz0 : 0 ≤ z.val := by
      rw [hz, hy, hgap]
      have hpos : 0 ≤ baseline.val - value.toInt := by omega
      positivity
    have hmillion : (1000000 : I128).val = 1000000 := by rfl
    rw [if_pos hlt, I128.val_div_of_nonneg hz0 (by rw [hmillion]; norm_num), hmillion, hz, hy, hgap]
  · rename_i hlt
    cases h
    rw [if_neg hlt]
    rfl

theorem volumetric_exact {flow : Int64} {x : I128} (h : volumetric flow = .ok x) :
    x.val = Credits.volumetric flow.toInt := by
  have hzero : (0 : Int64).toInt = 0 := Int64.toInt_zero
  unfold volumetric at h
  unfold Credits.volumetric
  simp only [Int64.lt_iff_toInt_lt, hzero] at h
  split at h
  · rename_i hlt
    have hhundred : (100 : I128).val = 100 := by rfl
    have hthousand : (1000 : I128).val = 1000 := by rfl
    simp only [bind_eq_ok, orPanic_eq_ok, I128.checkedMul_eq_some, pure_eq_ok, val_ofI64,
      hhundred] at h
    obtain ⟨y, hy, rfl⟩ := h
    rw [if_pos hlt, I128.val_div_of_nonneg (by omega) (by rw [hthousand]; norm_num), hthousand, hy]
  · rename_i hlt
    cases h
    rw [if_neg hlt]
    rfl

theorem penalty_exact (tempThreshold : I128) :
    (qualityPenalty config med tempThreshold).toInt =
      Credits.penalty config med tempThreshold.val := by
  unfold qualityPenalty Credits.penalty
  simp only [← Int64.lt_iff_toInt_lt, I128.lt_iff, val_ofI64]
  -- the cap is never reached, as all deductions together are 7000
  split_ifs <;> first
    | rfl
    | exact absurd (by assumption : (8000 : Int64) < _) (by decide)

theorem computeFinalization_exact (hm : Validated med)
    (h : computeFinalization config med baselines windowSecs = .ok r) :
    r.terms = exactTerms config med baselines windowSecs := by
  simp only [computeFinalization, bind_eq_ok, orPanic_eq_ok, Option.bind_eq_some_iff,
    I128.checkedMul_eq_some, I128.checkedAdd_eq_some, pure_eq_ok] at h
  obtain ⟨n, hn, p, hp, v, hv, nCredit, hnc, pCredit, hpc, gross, ⟨sum, hs, hg⟩, product, hprod,
    rfl⟩ := h
  have hn := removed_exact hm.totalNitrogen hm.flowRate hn
  have hp := removed_exact hm.totalPhosphorus hm.flowRate hp
  have hv := volumetric_exact hv
  have hcut : (qualityPenalty config med baselines.temp).toInt =
      Credits.penalty config med baselines.temp.val := penalty_exact baselines.temp
  have hgross : gross.val = grossCredits config med baselines windowSecs := by
    rw [hg, hs, hnc, hpc, hn, hp, hv]
    rfl
  have hcut0 := Credits.penalty_nonneg config med baselines.temp.val
  have hcut1 := Credits.penalty_le config med baselines.temp.val
  have hbase : (10000 : I128).val = 10000 := by rfl
  have hshare : (10000 - ofI64 (qualityPenalty config med baselines.temp)).val =
      10000 - Credits.penalty config med baselines.temp.val := by
    rw [I128.val_sub, val_ofI64, hcut, hbase]
    rw [val_ofI64, hcut, hbase]
    exact ⟨by omega, by omega⟩
  have htotal : (max (product / 10000) 0).val = Credits.total
      (grossCredits config med baselines windowSecs)
      (Credits.penalty config med baselines.temp.val) := by
    rw [hgross, hshare] at hprod
    rw [I128.val_max, I128.val_div (I128.fits_tdiv _ (by rw [hbase]; norm_num)), hbase,
      I128.val_zero,
      hprod]
    exact max_tdiv _
  unfold FinalizationResult.terms exactTerms
  simp only [hn, hp, hcut, hv, htotal]

end Exact

/-- Water that is no worse: more of it, over a longer window, and cleaner. -/
structure NoWorse (med med' : Reading) (baselines baselines' : Baselines)
    (windowSecs windowSecs' : UInt64) : Prop where
  ph : med'.ph = med.ph
  temp : baselines'.temp = baselines.temp
  flowRate : med.flowRate ≤ med'.flowRate
  window : windowSecs ≤ windowSecs'
  baselineN : baselines.n ≤ baselines'.n
  baselineP : baselines.p ≤ baselines'.p
  totalNitrogen : med'.totalNitrogen ≤ med.totalNitrogen
  totalPhosphorus : med'.totalPhosphorus ≤ med.totalPhosphorus
  turbidity : med'.turbidity ≤ med.turbidity
  temperature : med'.temperature ≤ med.temperature
  dissolvedOxygen : med.dissolvedOxygen ≤ med'.dissolvedOxygen

theorem exactTotal_mono {med' : Reading} {baselines' : Baselines} {windowSecs' : UInt64}
    (hm : Validated med) (hn : 0 ≤ config.creditPerKgN) (hp : 0 ≤ config.creditPerKgP)
    (h : NoWorse med med' baselines baselines' windowSecs windowSecs') :
    (exactTerms config med baselines windowSecs).total ≤
      (exactTerms config med' baselines' windowSecs').total := by
  have hflow := Int64.le_iff_toInt_le.mp h.flowRate
  have hnitrogen := Int64.le_iff_toInt_le.mp h.totalNitrogen
  have hphosphorus := Int64.le_iff_toInt_le.mp h.totalPhosphorus
  have hwindow : (windowSecs.toNat : ℤ) ≤ windowSecs'.toNat := by
    exact_mod_cast UInt64.le_iff_toNat_le.mp h.window
  have hwindow0 : (0 : ℤ) ≤ windowSecs.toNat := Int.natCast_nonneg _
  have hremovedN := Credits.removed_mono hnitrogen hflow h.baselineN hwindow hm.flowRate hwindow0
  have hremovedP := Credits.removed_mono hphosphorus hflow h.baselineP hwindow hm.flowRate hwindow0
  have hrateN : 0 ≤ config.creditPerKgN.val := hn
  have hrateP : 0 ≤ config.creditPerKgP.val := hp
  have hgross : grossCredits config med baselines windowSecs ≤
      grossCredits config med' baselines' windowSecs' :=
    add_le_add (add_le_add (mul_le_mul_of_nonneg_right hremovedN hrateN)
      (mul_le_mul_of_nonneg_right hremovedP hrateP)) (Credits.volumetric_mono hflow)
  have hgross0 : 0 ≤ grossCredits config med baselines windowSecs :=
    add_nonneg (add_nonneg (mul_nonneg (Credits.removed_nonneg hm.flowRate hwindow0) hrateN)
      (mul_nonneg (Credits.removed_nonneg hm.flowRate hwindow0) hrateP)) Credits.volumetric_nonneg
  have hcut : Credits.penalty config med' baselines'.temp.val ≤
      Credits.penalty config med baselines.temp.val := by
    rw [h.temp]
    exact Credits.penalty_mono h.ph (Int64.le_iff_toInt_le.mp h.turbidity)
      (Int64.le_iff_toInt_le.mp h.dissolvedOxygen) (Int64.le_iff_toInt_le.mp h.temperature)
  have hle := Credits.penalty_le config med baselines.temp.val
  exact Credits.total_mono hgross0 hgross hcut (by omega)

structure CreditsSound (config : OracleConfig) (med : Reading) (baselines : Baselines)
    (windowSecs : UInt64) (r : FinalizationResult) : Prop where
  exact : r.terms = exactTerms config med baselines windowSecs
  penalty : 0 ≤ r.penalty.toInt ∧ r.penalty.toInt ≤ 8000
  total : 0 ≤ r.total.val ∧ r.total.val ≤ max (grossCredits config med baselines windowSecs) 0
  nRemoved : 0 ≤ r.nRemoved.val
  pRemoved : 0 ≤ r.pRemoved.val
  volumetricCredit : 0 ≤ r.volumetricCredit.val
  monotone : 0 ≤ config.creditPerKgN → 0 ≤ config.creditPerKgP →
    ∀ med' baselines' windowSecs' r', MedianOf med' →
      NoWorse med med' baselines baselines' windowSecs windowSecs' →
      computeFinalization config med' baselines' windowSecs' = .ok r' → r.total ≤ r'.total

/-- The formula of every configuration is exact, bounded and monotone on medians. -/
theorem credits_sound (hm : MedianOf med)
    (h : computeFinalization config med baselines windowSecs = .ok r) :
    CreditsSound config med baselines windowSecs r := by
  have hv := hm.validated
  have hexact := computeFinalization_exact hv h
  have hwindow0 : (0 : ℤ) ≤ windowSecs.toNat := Int.natCast_nonneg _
  have hcut : r.penalty.toInt = Credits.penalty config med baselines.temp.val :=
    congrArg Terms.penalty hexact
  have htotal : r.total.val = Credits.total (grossCredits config med baselines windowSecs)
      (Credits.penalty config med baselines.temp.val) := congrArg Terms.total hexact
  have hcut0 := Credits.penalty_nonneg config med baselines.temp.val
  have hcut1 := Credits.penalty_le config med baselines.temp.val
  constructor
  · exact hexact
  · rw [hcut]
    exact ⟨hcut0, hcut1⟩
  · rw [htotal]
    exact ⟨Credits.total_nonneg, Credits.total_le hcut0 (by omega)⟩
  · exact (Credits.removed_nonneg hv.flowRate hwindow0).trans_eq
      (congrArg Terms.nRemoved hexact).symm
  · exact (Credits.removed_nonneg hv.flowRate hwindow0).trans_eq
      (congrArg Terms.pRemoved hexact).symm
  · exact Credits.volumetric_nonneg.trans_eq (congrArg Terms.volumetricCredit hexact).symm
  · intro hn hp med' baselines' windowSecs' r' hm' hworse h'
    have htotal' := congrArg Terms.total (computeFinalization_exact hm'.validated h')
    have hmono := exactTotal_mono hv hn hp hworse
    rw [I128.le_iff, htotal]
    exact hmono.trans_eq htotal'.symm

section Sample

/-- Clear water at five thousand litres a second. -/
def fullFlow : Reading := { clearWater with flowRate := 5000 }

theorem fullFlow_median : MedianOf fullFlow := by
  refine ⟨[{ fullFlow with oracle := .account 1, nonce := 1, timestamp := 0 }], ?_, by rfl⟩
  rintro sub hs
  obtain rfl := List.mem_singleton.mp hs
  rfl

theorem credits_sound_fullFlow : ∃ r,
    computeFinalization installed.1.config fullFlow ⟨10, 2, 300⟩ 3600 = .ok r ∧
    r.total.val = 2120 ∧ CreditsSound installed.1.config fullFlow ⟨10, 2, 300⟩ 3600 r := by
  have hr : ∃ r, computeFinalization installed.1.config fullFlow ⟨10, 2, 300⟩ 3600 = .ok r ∧
      r.total.val = 2120 := ⟨_, rfl, by rfl⟩
  obtain ⟨r, h, htotal⟩ := hr
  exact ⟨r, h, htotal, credits_sound fullFlow_median h⟩

end Sample

end WaterCredits.Oracle
