import WaterCredits.Foundation.Index
import WaterCredits.Oracle.Tally

/-! # The whitelist and its quorum

The whitelist is kept three times, as a mark for each oracle, as a list and as
a count. Adding and removing an oracle change all three together, and neither
they nor a new configuration ever undo a quorum.
-/

namespace WaterCredits.Oracle

open Foundation Function

variable {contract : Address} {W : Type} {o : Outside W} {e : Env contract} {s s' : State}
  {w w' : W} {c : Call} {admin a : Address} {tr : Trace (State × W) (Event contract W)}

/-- The three records of the whitelist agree, and it is no larger than a quorum can be. -/
structure Enlisted (s : State) : Prop where
  indexed : Indexes (fun a => s.oracleActive a = true) s.oracleList
  count : s.oracleCount.toNat = s.oracleList.length
  capped : s.config.maxOracles.toNat ≤ MAX_ORACLES_HARD_LIMIT.toNat
  count_le : s.oracleCount.toNat ≤ MAX_ORACLES_HARD_LIMIT.toNat

/-- There are enough oracles for a window to be finalized. -/
def State.Quorate (s : State) : Prop := s.config.minOracles.toNat ≤ s.oracleCount.toNat

theorem removeOracle_checks (h : s.removeOracle e admin a = .ok s') :
    s.oracleActive a = true ∧ s.config.minOracles.toNat < s.oracleCount.toNat := by
  simp only [State.removeOracle, bind_eq_ok, ensure_eq_ok] at h
  obtain ⟨_, -, _, ha, _, -, _, hc, -⟩ := h
  exact ⟨ha, UInt32.lt_iff_toNat_lt.mp hc⟩

theorem execute_bounds (h : execute o e s w c = .ok (s', w')) :
    s'.config = s.config ∨ s'.oracleCount = s.oracleCount ∧ s'.Quorate ∧
      s'.config.maxOracles.toNat ≤ MAX_ORACLES_HARD_LIMIT.toNat ∧
      s'.config.feeBps.toNat ≤ 10000 := by
  rcases execute_reconfigures h with heq | ⟨admin, config, rfl, hu⟩
  · exact .inl heq
  · obtain ⟨-, -, -, hmax, hmin, hfee, rfl⟩ := updateConfig_cases hu
    exact .inr ⟨rfl, UInt32.le_iff_toNat_le.mp hmin, UInt32.le_iff_toNat_le.mp hmax,
      UInt32.le_iff_toNat_le.mp hfee⟩

section Step

theorem Enlisted.add (hi : Enlisted s) (h : s.addOracle e admin a = .ok s') :
    Enlisted s' ∧ (s.Quorate → s'.Quorate) := by
  obtain ⟨ha, hlt, rfl⟩ := addOracle_cases h
  have hroom : s.oracleCount.toNat < MAX_ORACLES_HARD_LIMIT.toNat :=
    (UInt32.lt_iff_toNat_lt.mp hlt).trans_le hi.capped
  have hmax : MAX_ORACLES_HARD_LIMIT.toNat = 10 := rfl
  have hcount : (s.oracleCount + 1).toNat = s.oracleCount.toNat + 1 := by
    rw [UInt32.toNat_add, UInt32.toNat_one]
    omega
  have hnew : a ∉ s.oracleList := by simp [hi.indexed.mem_iff, ha]
  have hset : update s.oracleActive a true a = true := update_self ..
  have hindex := hi.indexed.insert (a := a) (Q := fun b => update s.oracleActive a true b = true)
    hset fun b hb => by rw [update_of_ne hb]
  rw [if_neg hnew] at hindex
  refine ⟨⟨hindex, ?_, hi.capped, ?_⟩, fun hq => ?_⟩
  · simp only [hcount, hi.count, List.length_append, List.length_singleton]
  · simp only [hcount]
    omega
  · have hq : s.config.minOracles.toNat ≤ s.oracleCount.toNat := hq
    simp only [State.Quorate, hcount]
    omega

theorem Enlisted.remove (hi : Enlisted s) (h : s.removeOracle e admin a = .ok s') :
    Enlisted s' ∧ (s.Quorate → s'.Quorate) := by
  obtain ⟨ha, hlt⟩ := removeOracle_checks h
  obtain ⟨-, rfl⟩ := removeOracle_cases h
  have hone : (1 : UInt32) ≤ s.oracleCount := UInt32.le_iff_toNat_le.mpr (by
    rw [UInt32.toNat_one]
    omega)
  have hcount : (s.oracleCount - 1).toNat = s.oracleCount.toNat - 1 :=
    UInt32.toNat_sub_of_le _ _ hone
  have hcleared : ¬ update s.oracleActive a false a = true := by simp
  have hlength := hi.indexed.length_erase ha
  have hindex := hi.indexed.erase (a := a) (Q := fun b => update s.oracleActive a false b = true)
    hcleared fun b hb => by rw [update_of_ne hb]
  refine ⟨⟨hindex, ?_, hi.capped, ?_⟩, fun _ => ?_⟩
  · have := hi.count
    simp only [hcount]
    omega
  · have := hi.count_le
    simp only [hcount]
    omega
  · simp only [State.Quorate, hcount]
    omega

theorem enlisted_execute (hi : Enlisted s) (h : execute o e s w c = .ok (s', w')) :
    Enlisted s' ∧ (s.Quorate → s'.Quorate) := by
  cases hc : c.enlists with
  | true =>
    cases c with
    | addOracle => exact hi.add (within_eq_ok.mp h).1
    | removeOracle => exact hi.remove (within_eq_ok.mp h).1
    | _ => cases hc
  | false =>
    have hcount := execute_count hc h
    have hindex : Indexes (fun a => s'.oracleActive a = true) s'.oracleList ∧
        s'.oracleCount.toNat = s'.oracleList.length := by
      rcases execute_roster h with ⟨hlist, hact⟩ | ⟨_, _, rfl, -⟩ | ⟨_, _, rfl, -⟩
      · rw [hlist, hact, hcount]
        exact ⟨hi.indexed, hi.count⟩
      · cases hc
      · cases hc
    rcases execute_bounds h with hconfig | ⟨-, hquorate, hcap, -⟩
    · refine ⟨⟨hindex.1, hindex.2, hconfig ▸ hi.capped, hcount ▸ hi.count_le⟩, fun hq => ?_⟩
      unfold State.Quorate at hq ⊢
      rwa [hconfig, hcount]
    · exact ⟨⟨hindex.1, hindex.2, hcap, hcount ▸ hi.count_le⟩, fun _ => hquorate⟩

end Step

/-- The whitelist of a state, and what its past promises of its quorum. -/
structure WhitelistKept (tr : Trace (State × W) (Event contract W)) (s : State) : Prop where
  count : s.oracleCount.toNat = s.oracleList.length
  nodup : s.oracleList.Nodup
  mem_iff : ∀ a, a ∈ s.oracleList ↔ s.oracleActive a = true
  limit : s.oracleCount.toNat ≤ 10
  quorum : ∀ st ∈ tr, st.before.1.Quorate → s.Quorate

/--
The whitelist is coherent in every state of every run, and once there are
enough oracles for a quorum there always are.
-/
theorem whitelist_kept {sw : State × W} (h : (machine contract o).Run Machine.anyCall tr sw) :
    WhitelistKept tr sw.1 := by
  have hrun : Enlisted sw.1 ∧ ∀ st ∈ tr, st.before.1.Quorate → sw.1.Quorate := by
    refine h.invariant
      (I := fun tr sw => Enlisted sw.1 ∧ ∀ st ∈ tr, st.before.1.Quorate → sw.1.Quorate) ?_ ?_
    · rintro ⟨s, w⟩ ⟨admin, stakingToken, treasury, hs⟩
      obtain ⟨-, rfl⟩ := initialise_eq_ok.mp hs
      exact ⟨⟨.nil (by simp), rfl, le_rfl, Nat.zero_le _⟩, by simp⟩
    · rintro tr ⟨s, w⟩ ev ⟨s', w'⟩ - ⟨hi, hq⟩ - hs
      cases ev with
      | outside u =>
        cases hs
        exact ⟨hi, List.forall_mem_cons.mpr ⟨id, hq⟩⟩
      | call e c =>
        obtain ⟨hi', hkeep⟩ := enlisted_execute hi hs
        exact ⟨hi', List.forall_mem_cons.mpr ⟨hkeep, fun st hst hb => hkeep (hq st hst hb)⟩⟩
  obtain ⟨hi, hq⟩ := hrun
  exact ⟨hi.count, hi.indexed.nodup, hi.indexed.mem_iff, hi.count_le, hq⟩

section Sample

set_option maxRecDepth 2000 in
theorem whitelist_kept_finalized :
    ∃ tr, (machine station offline).Run Machine.anyCall tr
        ((machine station offline).calls installed regularRun) ∧
      WhitelistKept tr ((machine station offline).calls installed regularRun).1 := by
  obtain ⟨tr, h, -⟩ := Machine.Run.calls (L := regularRun) (G := Machine.anyCall)
    (fun _ _ _ _ _ => trivial) (.init (installed_init (o := offline))) (by simp)
    (List.Subset.refl _)
  exact ⟨tr, h, whitelist_kept h⟩

end Sample

end WaterCredits.Oracle
