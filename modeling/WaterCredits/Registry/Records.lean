import WaterCredits.Foundation.Log
import WaterCredits.Foundation.Machine
import WaterCredits.Registry.Calls

/-! # The records and their indexes

The records of a run form a journal. The registry numbers it, and its two
secondary indexes list the numbers of the entries of each retiree and of each
project, as long as the counter of the records does not wrap around.
-/

namespace WaterCredits.Registry

open Foundation Function

variable {contract : Address} {e : Env contract} {s s' : State} {c : Call}
  {J : List RetirementRecord} {r : RetirementRecord}

def standalone (contract : Address) : Machine State (Env contract × Call) Panic where
  init s := ∃ admin, initialise none admin = .ok s
  step l s := execute l.1 s l.2

def Call.entry (e : Env contract) (s : State) : Call → Option RetirementRecord
  | .recordRetirement caller retiree projectId amount purpose metadataUri => some {
      id := s.recordCount + 1
      creditToken := caller
      timestamp := e.timestamp
      retiree, projectId, amount, purpose, metadataUri }
  | _ => none

def recorded (tr : Trace State (Env contract × Call)) : List RetirementRecord :=
  written (fun st => st.label.2.entry st.label.1 st.before) tr

def State.books (s : State) := (s.recordCount, s.totalRetired, s.record, s.retireeIndex,
  s.retireeCount, s.projectIndex, s.projectCount)

/-- A call enters a record into the books. -/
structure Enters (s s' : State) (r : RetirementRecord) : Prop where
  id : r.id = s.recordCount + 1
  positive : 0 < r.amount.val
  total : s'.totalRetired.val = s.totalRetired.val + r.amount.val
  recordCount : s'.recordCount = r.id
  record : s'.record = update s.record r.id (some r)
  retireeIndex : s'.retireeIndex =
    update s.retireeIndex (r.retiree, s.retireeCount r.retiree) (some r.id)
  retireeCount : s'.retireeCount =
    update s.retireeCount r.retiree (s.retireeCount r.retiree + 1)
  projectIndex : s'.projectIndex =
    update s.projectIndex (r.projectId, s.projectCount r.projectId) (some r.id)
  projectCount : s'.projectCount =
    update s.projectCount r.projectId (s.projectCount r.projectId + 1)

theorem execute_books (h : execute e s c = .ok s') :
    (c.entry e s = none ∧ s'.books = s.books) ∨ ∃ r, c.entry e s = some r ∧ Enters s s' r := by
  cases c with
  | initialise => simp [execute, initialise] at h
  | recordRetirement =>
    simp only [execute, State.recordRetirement, bind_eq_ok, ensure_eq_ok, orPanic_eq_ok,
      I128.checkedAdd_eq_some, pure_eq_ok] at h
    obtain ⟨⟨_, _⟩, ⟨_, -, _, -, _, h0, _, htotal, rfl, rfl⟩, rfl⟩ := h
    exact .inr ⟨_, rfl, rfl, h0, htotal, rfl, rfl, rfl, rfl, rfl, rfl⟩
  | setAuthorizedCaller =>
    simp only [execute, State.setAuthorizedCaller, bind_eq_ok, pure_eq_ok] at h
    obtain ⟨_, -, _, -, rfl⟩ := h
    exact .inl ⟨rfl, rfl⟩

/-- The storage after the records of a journal. -/
structure Holds (J : List RetirementRecord) (s : State) : Prop where
  numbered : ∀ (k : ℕ) (r : RetirementRecord), J[k]? = some r → r.id = .ofNat (k + 1)
  positive : ∀ r ∈ J, 0 < r.amount.val
  records : Logged s.recordCount (fun i => s.record (i + 1)) J
  retirees : LoggedBy (·.retiree) (·.id) s.retireeCount s.retireeIndex J
  projects : LoggedBy (·.projectId) (·.id) s.projectCount s.projectIndex J
  total : s.totalRetired.val = (J.map (·.amount.val)).sum
  keyed : ∀ id r, s.record id = some r → r.id = id ∧ 0 < r.amount.val

namespace Holds

theorem congr (h : Holds J s) (heq : s'.books = s.books) : Holds J s' := by
  simp only [State.books, Prod.mk.injEq] at heq
  obtain ⟨hcount, htotal, hrecord, hri, hrc, hpi, hpc⟩ := heq
  constructor
  · exact h.numbered
  · exact h.positive
  · rw [hcount, hrecord]
    exact h.records
  · rw [hri, hrc]
    exact h.retirees
  · rw [hpi, hpc]
    exact h.projects
  · rw [htotal, h.total]
  · rw [hrecord]
    exact h.keyed

theorem enter (h : Holds J s) (hr : Enters s s' r) : Holds (J ++ [r]) s' := by
  constructor
  · apply forall_getElem?_concat h.numbered
    rw [hr.id, h.records.counter]
    exact (UInt64.ofNat_add ..).symm
  · intro r' hr'
    rcases List.mem_append.mp hr' with hr' | hr'
    · exact h.positive r' hr'
    · rw [List.mem_singleton.mp hr']
      exact hr.positive
  · rw [hr.recordCount, hr.id]
    apply h.records.append
    ext i : 1
    rw [hr.record, hr.id, update_apply, update_apply]
    simp only [UInt64.add_left_inj]
  · exact h.retirees.append hr.retireeCount hr.retireeIndex
  · exact h.projects.append hr.projectCount hr.projectIndex
  · rw [hr.total, h.total, List.map_append, List.sum_append]
    simp
  · intro id r' hr'
    rw [hr.record, update_apply] at hr'
    split at hr'
    · rename_i hid
      obtain rfl := Option.some.inj hr'
      exact ⟨hid.symm, hr.positive⟩
    · exact h.keyed id r' hr'

variable (h : Holds J s) (hJ : J.length < 2 ^ 64)

include h hJ

theorem record_iff {id : UInt64} : s.record id = some r ↔ r ∈ J ∧ r.id = id := by
  have hentry : s.record id = J[(id - 1).toNat]? := by
    rw [← h.records.entries hJ, UInt64.sub_add_cancel]
  constructor
  · intro hr
    refine ⟨List.mem_of_getElem? (hentry ▸ hr), (h.keyed id r hr).1⟩
  · rintro ⟨hr, rfl⟩
    obtain ⟨k, hk⟩ := List.mem_iff_getElem?.mp hr
    have hlt : k < 2 ^ 64 := (List.getElem?_eq_some_iff.mp hk).1.trans hJ
    rw [hentry, h.numbered k r hk, UInt64.ofNat_add, UInt64.ofNat_one, UInt64.add_sub_cancel,
      UInt64.toNat_ofNat_of_lt' hlt, hk]

theorem stored_iff {id : UInt64} :
    (s.record id).isSome = true ↔ 1 ≤ id ∧ id ≤ s.recordCount := by
  have hsome := h.records.isSome_iff hJ (i := id - 1)
  rw [UInt64.sub_add_cancel] at hsome
  have hlt := id.toNat_lt
  have hcount := s.recordCount.toNat_lt
  rw [hsome, UInt64.lt_iff_toNat_lt, UInt64.le_iff_toNat_le, UInt64.le_iff_toNat_le,
    UInt64.toNat_sub, UInt64.toNat_one]
  omega

/-- The numbers grow along the journal, and so along each part of it. -/
theorem increasing {A : Type} [DecidableEq A] (owner : RetirementRecord → A) (a : A) :
    ((part owner a J).map (·.id)).Pairwise (· < ·) := by
  have hnumbered : Numbered (fun r : RetirementRecord => r.id.toNat) J := by
    intro k r hk
    have hlt : k + 1 < 2 ^ 64 := Nat.lt_of_le_of_lt (List.getElem?_eq_some_iff.mp hk).1 hJ
    have hid := congrArg UInt64.toNat (h.numbered k r hk)
    rwa [UInt64.toNat_ofNat_of_lt' hlt] at hid
  have hgrow := List.pairwise_map.mp hnumbered.increasing
  exact List.pairwise_map.mpr
    ((hgrow.filter _).imp fun hlt => UInt64.lt_iff_toNat_lt.mpr hlt)

theorem enumerates {A : Type} [DecidableEq A] {owner : RetirementRecord → A}
    {count : A → UInt64} {index : A × UInt64 → Option UInt64}
    (hindex : LoggedBy owner (·.id) count index J) (a : A) :
    Enumerates (count a) (fun i => index (a, i)) fun id =>
      ∃ r, s.record id = some r ∧ owner r = a := by
  apply (hindex a).enumerates
  · rw [List.length_map]
    exact length_part_le.trans_lt hJ
  · exact h.increasing hJ owner a
  · intro id
    simp only [List.mem_map, mem_part, h.record_iff hJ]
    constructor
    · rintro ⟨r, ⟨hr, ha⟩, hid⟩
      exact ⟨r, ⟨hr, hid⟩, ha⟩
    · rintro ⟨r, ⟨hr, hid⟩, ha⟩
      exact ⟨r, ⟨hr, ha⟩, hid⟩

end Holds

variable {tr pre post : Trace State (Env contract × Call)}

theorem holds_run (h : (standalone contract).Run Machine.anyCall tr s) :
    Holds (recorded tr) s := by
  refine h.invariant (I := fun tr s => Holds (recorded tr) s) ?_ ?_
  · rintro s ⟨admin, hs⟩
    obtain ⟨-, rfl⟩ := initialise_eq_ok.mp hs
    exact ⟨by simp [recorded], by simp [recorded], .nil, .nil, .nil, rfl, by simp⟩
  · rintro tr s ⟨e, c⟩ s' - hi - hs
    rcases execute_books hs with ⟨hnone, heq⟩ | ⟨r, hsome, hr⟩
    · rw [recorded, written_of_none hnone]
      exact hi.congr heq
    · rw [recorded, written_of_some hsome]
      exact hi.enter hr

/-- The numbers up to the counter have records, which the indexes and the totals cover. -/
structure Represents (tr : Trace State (Env contract × Call)) (s : State) : Prop where
  stored : ∀ id, (s.record id).isSome = true ↔ 1 ≤ id ∧ id ≤ s.recordCount
  keyed : ∀ id r, s.record id = some r → r.id = id ∧ 0 < r.amount.val
  kept : ∀ st ∈ tr, ∀ id r, st.before.record id = some r → s.record id = some r
  retirees : ∀ a, Enumerates (s.retireeCount a) (fun i => s.retireeIndex (a, i)) fun id =>
    ∃ r, s.record id = some r ∧ r.retiree = a
  projects : ∀ p, Enumerates (s.projectCount p) (fun i => s.projectIndex (p, i)) fun id =>
    ∃ r, s.record id = some r ∧ r.projectId = p
  total : ∑ k ∈ Finset.range s.recordCount.toNat,
    (s.record (.ofNat k + 1)).elim 0 (·.amount.val) = s.totalRetired.val
  retireeCounts : (support fun a => (s.retireeCount a).toNat).Finite ∧
    ∑ᶠ a, (s.retireeCount a).toNat = s.recordCount.toNat
  projectCounts : (support fun p => (s.projectCount p).toNat).Finite ∧
    ∑ᶠ p, (s.projectCount p).toNat = s.recordCount.toNat

/--
The records say their numbers and are positive in all runs, and with fewer than
`2 ^ 64` records the whole registry is consistent.
-/
theorem records_represented (h : (standalone contract).Run Machine.anyCall tr s) :
    (∀ id r, s.record id = some r → r.id = id ∧ 0 < r.amount.val) ∧
      ((recorded tr).length < 2 ^ 64 → Represents tr s) := by
  have hs := holds_run h
  refine ⟨hs.keyed, fun hlt => ?_⟩
  have hcount := hs.records.toNat_count hlt
  constructor
  · exact fun id => hs.stored_iff hlt
  · exact hs.keyed
  · intro st hst id r hr
    obtain ⟨post, pre, rfl⟩ := List.append_of_mem hst
    obtain ⟨hpre, -⟩ := h.split
    have hlater : recorded (post ++ st :: pre) = recorded pre ++ recorded (post ++ [st]) :=
      written_split
    have hbefore : st.before.record (id - 1 + 1) = some r := by rwa [UInt64.sub_add_cancel]
    have hafter := (holds_run hpre).records.mono (hlater ▸ hs.records) (hlater ▸ hlt) hbefore
    simpa only [UInt64.sub_add_cancel] using hafter
  · exact hs.enumerates hlt hs.retirees
  · exact hs.enumerates hlt hs.projects
  · rw [hs.total]
    exact hs.records.sum_entries hlt _
  · exact hcount ▸ hs.retirees.finsum_counts hlt
  · exact hcount ▸ hs.projects.finsum_counts hlt

section Sample

/-- The environment of a sample call by the account `0`. -/
abbrev clerkEnv : Env (.contract 9) := .signed 0 0 (.account 0) account_ne_contract

def recording : Call := .recordRetirement (.account 0) (.account 1) 7 1 "offset" ""

/-- The account `0` has recorded `k` units, one at a time. -/
structure Stacked (k : ℕ) (s : State) : Prop where
  admin : s.admin = .account 0
  count : s.recordCount = .ofNat k
  total : s.totalRetired.val = k
  first : 0 < k → (s.record 1).isSome = true

theorem Stacked.record {k : ℕ} (h : Stacked k s) (hk : k < 2 ^ 64) :
    ∃ s', execute clerkEnv s recording = .ok s' ∧ Stacked (k + 1) s' := by
  have hone : (1 : I128).val = 1 := rfl
  have htotal : (s.totalRetired + 1).val = s.totalRetired.val + (1 : I128).val := by
    apply I128.val_add
    rw [h.total, hone]
    exact ⟨by omega, by omega⟩
  have hcount : s.recordCount + 1 = .ofNat (k + 1) := by
    rw [h.count]
    exact (UInt64.ofNat_add ..).symm
  have hstep : ∃ s', execute clerkEnv s recording = .ok s' ∧ s'.admin = s.admin := by
    simp only [execute, recording, State.recordRetirement, bind_eq_ok, ensure_eq_ok, orPanic_eq_ok,
      Env.requireAuth_eq_ok, I128.checkedAdd_eq_some, pure_eq_ok]
    exact ⟨_, ⟨⟨_, _⟩, ⟨(), by rfl, (), .inl h.admin.symm, (), by decide, _, htotal, rfl⟩, rfl⟩,
      rfl⟩
  obtain ⟨s', hs, hadmin⟩ := hstep
  rcases execute_books hs with ⟨hnone, -⟩ | ⟨r, hr, henter⟩
  · cases hnone
  · obtain rfl := Option.some.inj hr
    refine ⟨s', hs, hadmin.trans h.admin, henter.recordCount.trans hcount, ?_, fun _ => ?_⟩
    · rw [henter.total, h.total]
      rfl
    · rw [henter.record, update_apply]
      split
      · rfl
      · rename_i hne
        apply h.first
        by_contra hzero
        obtain rfl : k = 0 := by omega
        exact hne hcount.symm

theorem stacked_run (k : ℕ) (hk : k ≤ 2 ^ 64) : ∃ tr s,
    (standalone (.contract 9)).Run Machine.anyCall tr s ∧ (recorded tr).length = k ∧
      Stacked k s := by
  induction k with
  | zero => exact ⟨[], _, .init ⟨.account 0, rfl⟩, rfl, rfl, rfl, rfl, by simp⟩
  | succ k ih =>
    obtain ⟨tr, s, hrun, hlength, hs⟩ := ih (by omega)
    obtain ⟨s', hstep, hs'⟩ := hs.record hk
    refine ⟨_, s', hrun.step (l := (clerkEnv, recording)) trivial hstep, ?_, hs'⟩
    have hentry : ∃ r, Call.entry clerkEnv s recording = some r := ⟨_, rfl⟩
    obtain ⟨r, hr⟩ := hentry
    rw [recorded, written_of_some (x := r) hr, List.length_append, List.length_singleton]
    exact congrArg (· + 1) hlength

/-- After `2 ^ 64` records the registry counts none. -/
theorem record_count_wraps :
    ∃ tr s, (standalone (.contract 9)).Run Machine.anyCall tr s ∧ ¬ Represents tr s := by
  obtain ⟨tr, s, hrun, -, hs⟩ := stacked_run (2 ^ 64) le_rfl
  refine ⟨tr, s, hrun, fun h => ?_⟩
  have hzero : s.recordCount = 0 := hs.count
  have hle := ((h.stored 1).mp (hs.first (by norm_num))).2
  rw [hzero] at hle
  exact absurd hle (by decide)

/-- Two units of the account `1` are recorded. -/
theorem records_represented_stacked : ∃ tr s,
    (standalone (.contract 9)).Run Machine.anyCall tr s ∧ (recorded tr).length = 2 ∧
      s.totalRetired.val = 2 ∧ Represents tr s := by
  obtain ⟨tr, s, hrun, hlength, hs⟩ := stacked_run 2 (by norm_num)
  have hlt : (recorded tr).length < 2 ^ 64 := by
    rw [hlength]
    norm_num
  exact ⟨tr, s, hrun, hlength, hs.total, (records_represented hrun).2 hlt⟩

end Sample

end WaterCredits.Registry
