import WaterCredits.Foundation.Ranks
import WaterCredits.Oracle.Median

/-! # The median of a column

The source sorts a column in place, in a buffer that it fills partly. Sinking
each key into the sorted prefix gives the same list, which is the sorted one. So
the median depends on the values and not on their order, and lies between the
values of any majority.
-/

namespace WaterCredits.Oracle

open Foundation

variable {W : Type} {o : Outside W} {contract : Address} {s : State} {p : ProjectId} {w : W}
  {subs subs' : List ReadingSubmission} {values values' : List Int64} {timestamp : UInt64}
  {med : Reading} {m : Int64}

section Sorted

theorem sink_perm (key : Int64) (sorted : List Int64) : (sink key sorted).Perm (key :: sorted) := by
  induction sorted with
  | nil => rfl
  | cons x rest ih =>
    rw [sink]
    split
    · exact (ih.cons x).trans (.swap key x rest)
    · rfl

theorem sinkAll_perm (values sorted : List Int64) :
    (values.foldl (fun sorted key => sink key sorted) sorted).Perm (values ++ sorted) := by
  induction values generalizing sorted with
  | nil => rfl
  | cons key values ih =>
    exact (ih (sink key sorted)).trans
      (((sink_perm key sorted).append_left values).trans List.perm_middle)

theorem insertionSort_perm (values : List Int64) : (insertionSort values).Perm values := by
  have h := sinkAll_perm values []
  rw [List.append_nil] at h
  exact (List.reverse_perm _).trans h

theorem sink_sorted {key : Int64} {sorted : List Int64}
    (h : sorted.Pairwise fun a b => b.toInt ≤ a.toInt) :
    (sink key sorted).Pairwise fun a b => b.toInt ≤ a.toInt := by
  induction sorted with
  | nil => simp [sink]
  | cons x rest ih =>
    obtain ⟨hx, hrest⟩ := List.pairwise_cons.mp h
    rw [sink]
    split
    · rename_i hlt
      refine List.pairwise_cons.mpr ⟨fun a ha => ?_, ih hrest⟩
      rcases List.mem_cons.mp ((sink_perm key rest).mem_iff.mp ha) with rfl | ha
      · exact (Int64.lt_iff_toInt_lt.mp hlt).le
      · exact hx a ha
    · rename_i hnlt
      have hle : x.toInt ≤ key.toInt := not_lt.mp fun hlt => hnlt (Int64.lt_iff_toInt_lt.mpr hlt)
      refine List.pairwise_cons.mpr ⟨fun a ha => ?_, h⟩
      rcases List.mem_cons.mp ha with rfl | ha
      · exact hle
      · exact (hx a ha).trans hle

theorem sinkAll_sorted {values sorted : List Int64}
    (h : sorted.Pairwise fun a b => b.toInt ≤ a.toInt) :
    (values.foldl (fun sorted key => sink key sorted) sorted).Pairwise
      fun a b => b.toInt ≤ a.toInt := by
  induction values generalizing sorted with
  | nil => exact h
  | cons key values ih => exact ih (sink_sorted h)

theorem insertionSort_arranges (values : List Int64) :
    Arranges ((insertionSort values).map Int64.toInt) (values.map Int64.toInt) where
  perm := (insertionSort_perm values).map _
  sorted := by
    rw [insertionSort, List.pairwise_map, List.pairwise_reverse]
    exact sinkAll_sorted List.Pairwise.nil

theorem insertionSort_congr (h : values'.Perm values) :
    insertionSort values' = insertionSort values := by
  have heq := (insertionSort_arranges values').unique
    ((insertionSort_arranges values).congr (h.symm.map _))
  exact List.map_injective_iff.mpr (fun _ _ => Int64.toInt_inj.mp) heq

end Sorted

section InPlace

/-- Move the larger elements below a position up by one, and store the key in the gap. -/
def shiftUp (key : Int64) : ℕ → List Int64 → List Int64
  | 0, arr => arr.set 0 key
  | j + 1, arr =>
    if key < arr.getD j 0 then shiftUp key j (arr.set (j + 1) (arr.getD j 0))
    else arr.set (j + 1) key

/-- Sort the first `n` elements of a buffer in place. -/
def sortInPlace (n : ℕ) (arr : List Int64) : List Int64 :=
  (List.range' 1 (n - 1)).foldl (fun arr i => shiftUp (arr.getD i 0) i arr) arr

/-- The median as the source computes it, in a buffer of fixed length. -/
def medianInPlace (values : List Int64) : Result Int64 := do
  let n := values.length
  ensure (n ≠ 0) "median of empty vec"
  ensure (n ≤ MEDIAN_BUFFER_LEN) "median input exceeds oracle buffer capacity"
  let arr := sortInPlace n (values ++ List.replicate (MEDIAN_BUFFER_LEN - n) 0)
  if n % 2 = 0 then
    let a := ofI64 (arr.getD (n / 2 - 1) 0)
    let b := ofI64 (arr.getD (n / 2) 0)
    return Int64.ofInt ((a + b) / 2).val
  else
    return arr.getD (n / 2) 0

/-- A key sinks into the sorted prefix, whatever its own place holds. -/
theorem shiftUp_eq (key x : Int64) (sorted rest : List Int64) :
    shiftUp key sorted.length (sorted.reverse ++ x :: rest) =
      (sink key sorted).reverse ++ rest := by
  induction sorted generalizing x rest with
  | nil => rfl
  | cons y sorted ih =>
    have hget : ((y :: sorted).reverse ++ x :: rest).getD sorted.length 0 = y := by simp
    have hset (z : Int64) : ((y :: sorted).reverse ++ x :: rest).set (sorted.length + 1) z =
        sorted.reverse ++ y :: z :: rest := by
      simp
    rw [List.length_cons, shiftUp, hget, hset, hset, sink]
    split
    · rw [ih, List.reverse_cons, List.append_assoc]
      rfl
    · simp

theorem sortLoop_eq (sorted values rest : List Int64) :
    (List.range' sorted.length values.length).foldl (fun arr i => shiftUp (arr.getD i 0) i arr)
        (sorted.reverse ++ (values ++ rest)) =
      (values.foldl (fun sorted key => sink key sorted) sorted).reverse ++ rest := by
  induction values generalizing sorted with
  | nil => rfl
  | cons key values ih =>
    have hget : (sorted.reverse ++ (key :: values ++ rest)).getD sorted.length 0 = key := by simp
    have hlength : (sink key sorted).length = sorted.length + 1 := (sink_perm key sorted).length_eq
    rw [List.length_cons, List.range'_succ, List.foldl_cons, hget, List.cons_append, shiftUp_eq,
      List.foldl_cons, ← ih, hlength]

theorem sortInPlace_eq (values rest : List Int64) :
    sortInPlace values.length (values ++ rest) = insertionSort values ++ rest := by
  cases values with
  | nil => rfl
  | cons x values => exact sortLoop_eq [x] values rest

theorem medianInPlace_eq : medianInPlace values = medianI64 values := by
  cases values with
  | nil => rfl
  | cons x rest =>
    have hget (i : ℕ) (hi : i < (x :: rest).length) (pad : List Int64) :
        (insertionSort (x :: rest) ++ pad).getD i 0 = (insertionSort (x :: rest)).getD i 0 :=
      List.getD_append _ _ _ _ (hi.trans_eq (insertionSort_perm _).length_eq.symm)
    have hn : (x :: rest).length = rest.length + 1 := rfl
    unfold medianInPlace medianI64
    simp only [sortInPlace_eq, hget ((x :: rest).length / 2) (by omega),
      hget ((x :: rest).length / 2 - 1) (by omega)]

end InPlace

section Value

theorem toInt_average (a b : Int64) :
    (Int64.ofInt ((ofI64 a + ofI64 b) / 2).val).toInt = (a.toInt + b.toInt).tdiv 2 := by
  have hal := a.le_toInt
  have hau := a.toInt_lt
  have hbl := b.le_toInt
  have hbu := b.toInt_lt
  have hlow : -2 ^ 63 ≤ (a.toInt + b.toInt).tdiv 2 := le_average hal hbl
  have hhigh : (a.toInt + b.toInt).tdiv 2 ≤ 2 ^ 63 - 1 := average_le (by omega) (by omega)
  have hsum : (ofI64 a + ofI64 b).val = a.toInt + b.toInt := by
    rw [I128.val_add, val_ofI64, val_ofI64]
    rw [val_ofI64, val_ofI64]
    exact ⟨by omega, by omega⟩
  have htwo : (2 : I128).val = 2 := by rfl
  have hdiv : ((ofI64 a + ofI64 b) / 2).val = (a.toInt + b.toInt).tdiv 2 := by
    rw [I128.val_div, hsum, htwo]
    rw [hsum, htwo]
    exact ⟨by omega, by omega⟩
  rw [hdiv]
  exact Int64.toInt_ofInt_of_le hlow (by omega)

theorem medianI64_eq_ok : medianI64 values = .ok m ↔
    FitsBuffer values.length ∧ m.toInt = middle ((insertionSort values).map Int64.toInt) := by
  have hlength := (insertionSort_perm values).length_eq
  have hget (i : ℕ) : ((insertionSort values).map Int64.toInt).getD i 0 =
      ((insertionSort values).getD i 0).toInt := by
    rw [← Int64.toInt_zero]
    exact List.getD_map ..
  have hfits : FitsBuffer values.length ↔ values.length ≠ 0 ∧ values.length ≤ MEDIAN_BUFFER_LEN :=
    and_congr_left fun _ => Nat.one_le_iff_ne_zero
  unfold medianI64 middle
  simp only [bind_eq_ok, ensure_eq_ok, exists_const, hfits, List.length_map, hlength, hget]
  split
  · simp only [pure_eq_ok, ← toInt_average, Int64.toInt_inj, @eq_comm _ m, and_assoc]
  · simp only [pure_eq_ok, Int64.toInt_inj, @eq_comm _ m, and_assoc]

theorem medianI64_total (h : FitsBuffer values.length) : ∃ m, medianI64 values = .ok m := by
  have hne : values.length ≠ 0 := Nat.one_le_iff_ne_zero.mp h.1
  have hle : values.length ≤ MEDIAN_BUFFER_LEN := h.2
  unfold medianI64
  simp only [bind_eq_ok, ensure_eq_ok, exists_const, hne, hle, ne_eq, not_false_eq_true, true_and]
  split
  · exact ⟨_, rfl⟩
  · exact ⟨_, rfl⟩

theorem medianI64_congr (h : values'.Perm values) : medianI64 values' = medianI64 values := by
  unfold medianI64
  rw [insertionSort_congr h, h.length_eq]

theorem medianI64_between {honest corrupt : List Int64} (h : medianI64 values = .ok m)
    (hp : values.Perm (honest ++ corrupt)) (hc : 2 * corrupt.length < values.length) :
    (∃ a ∈ honest, a.toInt ≤ m.toInt) ∧ ∃ b ∈ honest, m.toInt ≤ b.toInt := by
  obtain ⟨-, hm⟩ := medianI64_eq_ok.mp h
  have hperm : (values.map Int64.toInt).Perm
      (honest.map Int64.toInt ++ corrupt.map Int64.toInt) := by
    rw [← List.map_append]
    exact hp.map _
  have hb := middle_between (insertionSort_arranges values) hperm (by simpa using hc)
  rw [← hm] at hb
  simpa using hb

end Value

section Columns

def Reading.fields : List (Reading → Int64) :=
  [(·.ph), (·.turbidity), (·.dissolvedOxygen), (·.temperature), (·.flowRate), (·.totalNitrogen),
    (·.totalPhosphorus)]

theorem medians_field (h : medians subs = .ok med) :
    ∀ field ∈ Reading.fields, medianI64 (subs.map (field ·.toReading)) = .ok (field med) := by
  simp only [medians, bind_eq_ok, pure_eq_ok] at h
  obtain ⟨ph, hph, turbidity, hturbidity, oxygen, hoxygen, temperature, htemperature, flow, hflow,
    nitrogen, hnitrogen, phosphorus, hphosphorus, rfl⟩ := h
  simp only [Reading.fields, List.forall_mem_cons]
  exact ⟨hph, hturbidity, hoxygen, htemperature, hflow, hnitrogen, hphosphorus, by simp⟩

theorem medians_congr (h : subs'.Perm subs) : medians subs' = medians subs := by
  unfold medians
  simp only [medianI64_congr (h.map _)]

theorem computeResult_perm (h : subs'.Perm subs) :
    s.computeResult p timestamp subs' = s.computeResult p timestamp subs := by
  unfold State.computeResult
  rw [medians_congr h, h.length_eq]

theorem verifyWindow_perm (h : subs'.Perm subs) :
    s.verifyWindow p o contract timestamp subs' w =
      s.verifyWindow p o contract timestamp subs w := by
  unfold State.verifyWindow
  rw [computeResult_perm h]

/-- Every value of a reading lies between values of the listed ones. -/
def Between (honest : List ReadingSubmission) (med : Reading) : Prop :=
  ∀ field ∈ Reading.fields, (∃ a ∈ honest, (field a.toReading).toInt ≤ (field med).toInt) ∧
    ∃ b ∈ honest, (field med).toInt ≤ (field b.toReading).toInt

theorem medians_between (h : medians subs = .ok med) {corrupt : Address → Bool}
    (hc : 2 * subs.countP (corrupt ·.oracle) < subs.length) :
    Between (subs.filter fun sub => !corrupt sub.oracle) med := by
  intro field hf
  have hperm := (subs.filter_append_perm (corrupt ·.oracle)).symm.trans List.perm_append_comm
  have hmap := hperm.map (field ·.toReading)
  rw [List.map_append] at hmap
  have hb := medianI64_between (medians_field h field hf) hmap (by
    rwa [List.length_map, List.length_map, ← List.countP_eq_length_filter])
  simpa using hb

end Columns

/-- What the median of a column is, and what it does not depend on. -/
structure MedianSound (values : List Int64) : Prop where
  inPlace : medianInPlace values = medianI64 values
  value : ∃ m sorted, medianI64 values = .ok m ∧ Arranges sorted (values.map Int64.toInt) ∧
    m.toInt = middle sorted
  order : ∀ values', values'.Perm values → medianI64 values' = medianI64 values
  honest : ∀ m honest corrupt, medianI64 values = .ok m → values.Perm (honest ++ corrupt) →
    2 * corrupt.length < values.length →
    (∃ a ∈ honest, a.toInt ≤ m.toInt) ∧ ∃ b ∈ honest, m.toInt ≤ b.toInt

/-- What the result of a window does not depend on, and who decides its medians. -/
structure WindowSound (s : State) (p : ProjectId) (o : Outside W) (contract : Address)
    (timestamp : UInt64) (subs : List ReadingSubmission) (w : W) : Prop where
  order : ∀ subs', subs'.Perm subs → s.verifyWindow p o contract timestamp subs' w =
    s.verifyWindow p o contract timestamp subs w
  honest : ∀ (corrupt : Address → Bool) med, medians subs = .ok med →
    2 * subs.countP (corrupt ·.oracle) < subs.length →
    Between (subs.filter fun sub => !corrupt sub.oracle) med

section Minority

variable {roster : List Address} {corrupt : Address → Bool}

/-- Whatever these oracles submit, no minority of them drives a median out of the honest range. -/
def Robust (roster : List Address) : Prop :=
  ∀ (subs : List ReadingSubmission) med (corrupt : Address → Bool), subs.map (·.oracle) = roster →
    (∀ sub ∈ subs, validateSensorReading sub.toReading = .ok ()) → medians subs = .ok med →
      2 * roster.dedup.countP corrupt < roster.dedup.length →
        Between (subs.filter fun sub => !corrupt sub.oracle) med

/-- A minority of the oracles brings a minority of the submissions. -/
def Balanced (roster : List Address) : Prop :=
  ∀ corrupt : Address → Bool, 2 * roster.dedup.countP corrupt < roster.dedup.length →
    2 * roster.countP corrupt < roster.length

theorem balanced_of_nodup (h : roster.Nodup) : Balanced roster := by
  intro corrupt hc
  rwa [h.dedup] at hc

theorem robust_of_balanced (h : Balanced roster) : Robust roster := by
  rintro subs med corrupt rfl - hm hc
  refine medians_between hm ?_
  have hcount := h corrupt hc
  rwa [List.countP_map, List.length_map] at hcount

/-- The corrupt oracles report a flow that is twenty times the one of the others. -/
def flooded (corrupt : Address → Bool) (a : Address) : ReadingSubmission :=
  { clearWater with
    flowRate := if corrupt a = true then 100 else 5
    oracle := a
    nonce := 0
    timestamp := 0 }

theorem flooded_valid (a : Address) :
    validateSensorReading (flooded corrupt a).toReading = .ok () := by
  unfold flooded
  split <;> rfl

theorem lt_median_flooded (h : medianI64 (roster.map fun a => (flooded corrupt a).flowRate) = .ok m)
    (hc : roster.length ≤ 2 * roster.countP corrupt) : 5 < m.toInt := by
  obtain ⟨⟨hpos, -⟩, hm⟩ := medianI64_eq_ok.mp h
  rw [hm]
  have hperm := (roster.filter_append_perm corrupt).symm.map
    fun a => (flooded corrupt a).flowRate.toInt
  rw [List.map_append] at hperm
  have hflow (a : Address) : (flooded corrupt a).flowRate.toInt =
      if corrupt a = true then 100 else 5 := by
    unfold flooded
    split <;> rfl
  have harranges := insertionSort_arranges (roster.map fun a => (flooded corrupt a).flowRate)
  rw [List.map_map] at harranges
  refine lt_middle harranges hperm ?_ ?_ ?_ ?_
  · have hlen := List.length_eq_countP_add_countP corrupt (l := roster)
    simp only [List.length_map, ← List.countP_eq_length_filter]
    simp only [Bool.not_eq_true, Bool.decide_eq_false] at hlen
    omega
  · rintro hnil
    rw [List.map_eq_nil_iff] at hnil
    simp [hnil] at hpos
  · simp [hflow]
    grind
  · simp [hflow]
    grind

theorem medians_total (h : FitsBuffer subs.length) : ∃ med, medians subs = .ok med := by
  have hcol (field : ReadingSubmission → Int64) : ∃ m, medianI64 (subs.map field) = .ok m :=
    medianI64_total (by rwa [List.length_map])
  choose m hm using hcol
  exact ⟨_, by simp only [medians, hm]; rfl⟩

theorem balanced_of_robust (hf : FitsBuffer roster.length) (h : Robust roster) :
    Balanced roster := by
  intro corrupt hc
  by_contra hcount
  obtain ⟨med, hm⟩ : ∃ med, medians (roster.map (flooded corrupt)) = .ok med :=
    medians_total (by simpa using hf)
  have horacles : (roster.map (flooded corrupt)).map (·.oracle) = roster := by
    rw [List.map_map]
    exact List.map_id roster
  obtain ⟨-, b, hb, hle⟩ := h (roster.map (flooded corrupt)) med corrupt horacles
    (by simp [flooded_valid]) hm hc (·.flowRate) (by simp [Reading.fields])
  have hflow := medians_field hm (·.flowRate) (by simp [Reading.fields])
  rw [List.map_map] at hflow
  have hlt := lt_median_flooded hflow (not_lt.mp hcount)
  obtain ⟨hb, hhonest⟩ := List.mem_filter.mp hb
  obtain ⟨a, -, rfl⟩ := List.mem_map.mp hb
  have hfive : (flooded corrupt a).flowRate = 5 := if_neg (by simpa [flooded] using hhonest)
  rw [hfive] at hle
  exact absurd (hlt.trans_le hle) (by decide)

end Minority

/--
The median of every column that fits the buffer is the middle of its sorted
values, and neither the order of the submissions nor a minority of them decides
it. A minority of the oracles decides no median of a window exactly if it brings
a minority of the submissions, as it does when no oracle takes both paths.
-/
theorem medians_sound (contract : Address) (o : Outside W) :
    (∀ values, FitsBuffer values.length → MedianSound values) ∧
      (∀ (s : State) p timestamp subs w, WindowSound s p o contract timestamp subs w) ∧
      (∀ roster, FitsBuffer roster.length → (Robust roster ↔ Balanced roster)) ∧
      ∀ tr sw, (machine contract o).Run onePath tr sw →
        ∀ p window, sw.1.windowState p = some window →
          Balanced (window.submissions.map (·.oracle)) := by
  refine ⟨?_, ?_, fun roster hf => ⟨balanced_of_robust hf, robust_of_balanced⟩, ?_⟩
  · intro values h
    constructor
    · exact medianInPlace_eq
    · obtain ⟨m, hm⟩ := medianI64_total h
      exact ⟨m, _, hm, insertionSort_arranges values, (medianI64_eq_ok.mp hm).2⟩
    · exact fun values' hp => medianI64_congr hp
    · exact fun m honest corrupt hm hp hc => medianI64_between hm hp hc
  · intro s p timestamp subs w
    exact ⟨fun subs' h => verifyWindow_perm h, fun corrupt med hm hc => medians_between hm hc⟩
  · intro tr sw h p window hw
    exact balanced_of_nodup (((attested_run h).distinct p).nodup window hw)

set_option maxRecDepth 2000 in
/-- The two largest values, a negative average that is truncated, and one oracle on both paths. -/
theorem medians_sound_extreme :
    (MedianSound [Int64.maxValue, Int64.maxValue] ∧
      medianI64 [Int64.maxValue, Int64.maxValue] = .ok Int64.maxValue) ∧
    (MedianSound [-3, 7, Int64.minValue, 0] ∧
      medianI64 [-3, 7, Int64.minValue, 0] = .ok (-1)) ∧
    Robust [.account 1, .account 2, .account 3] ∧
    ¬ Robust [.account 1, .account 1, .account 2, .account 3] ∧
    ∃ window, paired.1.windowState 7 = some window ∧
      Balanced (window.submissions.map (·.oracle)) := by
  obtain ⟨hvalues, -, hroster, hrun⟩ := medians_sound station offline
  refine ⟨⟨hvalues _ ⟨by decide, by decide⟩, by rfl⟩,
    ⟨hvalues _ ⟨by decide, by decide⟩, by rfl⟩, ?_, fun hr => ?_, ?_⟩
  · exact (hroster _ ⟨by decide, by decide⟩).mpr (balanced_of_nodup (by decide))
  · have hb := (hroster _ ⟨by decide, by decide⟩).mp hr
    exact absurd (hb (· = .account 1) (by decide)) (by decide)
  · have hsome : (paired.1.windowState 7).isSome = true := by rfl
    obtain ⟨window, hw⟩ := Option.isSome_iff_exists.mp hsome
    obtain ⟨tr, h⟩ := paired_run
    exact ⟨window, hw, hrun tr _ h 7 window hw⟩

section Sample

def threeReports : List (Event station Unit) :=
  [calledAt 0 0 (.addOracle (.account 0) (.account 1)),
    calledAt 0 0 (.addOracle (.account 0) (.account 2)),
    calledAt 0 0 (.addOracle (.account 0) (.account 3)),
    calledAt 0 0 (.addOracle (.account 0) (.account 4)),
    calledAt 0 0 (.updateConfig (.account 0) { installed.1.config with minOracles := 4 }),
    calledAt 0 0 (.openWindow (.account 0) 7),
    calledAt 0 1 (.commitReading (.account 1) 7 1 0),
    calledAt 0 2 (.commitReading (.account 2) 7 1 0),
    calledAt 0 3 (.commitReading (.account 3) 7 1 0),
    calledAt 300 9 (.beginRevealPhase 7),
    calledAt 300 1 (.revealReading (.account 1) 7
      { clearWater with flowRate := 100, nonce := 1, salt := 0 }),
    calledAt 300 2 (.revealReading (.account 2) 7 { clearWater with nonce := 1, salt := 0 }),
    calledAt 300 3 (.revealReading (.account 3) 7 { clearWater with nonce := 1, salt := 0 })]

def swayed : State × Unit :=
  (machine station offline).calls installed (threeReports ++
    [calledAt 300 1 (.submitReading (.account 1) 7 2 { clearWater with flowRate := 100 })])

def flows (s : State) (p : ProjectId) : List (Address × Int64) :=
  ((s.windowState p).map fun window => window.submissions.map fun sub =>
    (sub.oracle, sub.flowRate)).getD []

set_option maxRecDepth 4000 in
/-- One oracle of three drives the median flow from five to fifty-two. -/
theorem minority_sways_median :
    (machine station offline).Reachable swayed ∧
      flows swayed.1 7 = [(.account 1, 100), (.account 2, 5), (.account 3, 5), (.account 1, 100)] ∧
      (∃ r, swayed.1.lastResult 7 = some r ∧ r.oracleCount = 4) ∧
      medianI64 ((flows swayed.1 7).map Prod.snd) = .ok 52 := by
  have hcount : (swayed.1.lastResult 7).map (·.oracleCount) = some 4 := by rfl
  exact ⟨Machine.Reachable.calls ⟨_, .init installed_init⟩ _, by rfl,
    Option.map_eq_some_iff.mp hcount, by rfl⟩

end Sample

end WaterCredits.Oracle
