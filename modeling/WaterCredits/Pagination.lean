import WaterCredits.Foundation.Page
import WaterCredits.Oracle.History
import WaterCredits.Project.Identifiers
import WaterCredits.Registry.Records

/-! # The views that return pages

The registries and the oracle list their entries in pages. All views but one add
the offset and the limit without a check, so they return the entries of the page
as long as the sum fits into a word.
-/

namespace WaterCredits

open Foundation Function

/-- The panic of an addition in a build with overflow checks. -/
def addOverflow : Panic := .message "attempt to add with overflow"

namespace Registry

namespace State

variable {A : Type}

def listedAt (s : State) (index : A × UInt64 → Option UInt64) (owner : A) (pos : UInt64) :
    Option RetirementRecord :=
  (index (owner, pos)).bind s.record

def getRetirementsByRetiree (s : State) (retiree : Address) (mode : Overflow) (offset : UInt64)
    (limit : UInt32) : Result (List RetirementRecord) :=
  plainPage addOverflow mode (s.retireeCount retiree) (s.listedAt s.retireeIndex retiree) offset
    limit

def getRetirementsByProject (s : State) (projectId : BytesN 32) (mode : Overflow)
    (offset : UInt64) (limit : UInt32) : Result (List RetirementRecord) :=
  plainPage addOverflow mode (s.projectCount projectId) (s.listedAt s.projectIndex projectId)
    offset limit

end State

variable {contract : Address} {s s' : State} {r : RetirementRecord}

/-- Every position of the indexes leads to a record. -/
structure Listed (s : State) : Prop where
  retirees : ∀ a, Filled (s.retireeCount a) (s.listedAt s.retireeIndex a)
  projects : ∀ p, Filled (s.projectCount p) (s.listedAt s.projectIndex p)

theorem Listed.congr (h : Listed s) (heq : s'.books = s.books) : Listed s' := by
  simp only [State.books, Prod.mk.injEq] at heq
  obtain ⟨-, -, hrecord, hri, hrc, hpi, hpc⟩ := heq
  constructor
  · intro a i hi
    rw [State.listedAt, hri, hrecord]
    exact h.retirees a i (hrc ▸ hi)
  · intro p i hi
    rw [State.listedAt, hpi, hrecord]
    exact h.projects p i (hpc ▸ hi)

/-- A record and an index entry more leave no position without a record. -/
theorem listedAt_enter {A : Type} [DecidableEq A] {index index' : A × UInt64 → Option UInt64}
    {key : A × UInt64} (hr : Enters s s' r) (hindex : index' = update index key (some r.id)) :
    (s'.listedAt index' key.1 key.2).isSome = true ∧
      ∀ b i, (s.listedAt index b i).isSome = true → (s'.listedAt index' b i).isSome = true := by
  have hrecord : ∀ id, id = r.id ∨ (s.record id).isSome = true →
      (s'.record id).isSome = true := by
    intro id hid
    rw [hr.record, update_apply]
    split
    · rfl
    · rename_i hne
      exact hid.resolve_left hne
  constructor
  · rw [State.listedAt, hindex, update_self, Option.bind_some]
    exact hrecord r.id (.inl rfl)
  · intro b i hi
    rw [State.listedAt, hindex, update_apply]
    split
    · exact hrecord r.id (.inl rfl)
    · obtain ⟨old, hold⟩ := Option.isSome_iff_exists.mp hi
      obtain ⟨id, hid, hat⟩ := Option.bind_eq_some_iff.mp hold
      rw [hid, Option.bind_some]
      exact hrecord id (.inr (by rw [hat, Option.isSome_some]))

theorem Listed.enter (h : Listed s) (hr : Enters s s' r) : Listed s' := by
  obtain ⟨hretiree, hretirees⟩ := listedAt_enter hr hr.retireeIndex
  obtain ⟨hproject, hprojects⟩ := listedAt_enter hr hr.projectIndex
  constructor
  · exact Filled.append_owned h.retirees hr.retireeCount hretiree hretirees
  · exact Filled.append_owned h.projects hr.projectCount hproject hprojects

theorem listed_reach (h : (standalone contract).Reachable s) : Listed s := by
  refine h.invariant ?_ ?_
  · rintro s ⟨admin, hs⟩
    obtain ⟨-, rfl⟩ := initialise_eq_ok.mp hs
    exact ⟨fun a i hi => absurd hi UInt64.not_lt_zero, fun p i hi => absurd hi UInt64.not_lt_zero⟩
  · rintro - s ⟨e, c⟩ s' hi - hs
    rcases execute_books hs with ⟨-, heq⟩ | ⟨r, -, hr⟩
    · exact hi.congr heq
    · exact hi.enter hr

structure RetirementPages (s : State) : Prop where
  byRetiree : ∀ a, ∃ L, Lists (s.retireeCount a) (s.listedAt s.retireeIndex a) L ∧
    PlainPages (s.getRetirementsByRetiree a) L
  byProject : ∀ p, ∃ L, Lists (s.projectCount p) (s.listedAt s.projectIndex p) L ∧
    PlainPages (s.getRetirementsByProject p) L

theorem Listed.pages (h : Listed s) : RetirementPages s := by
  constructor
  · intro a
    obtain ⟨L, hL⟩ := (h.retirees a).lists
    exact ⟨L, hL, hL.plainPages⟩
  · intro p
    obtain ⟨L, hL⟩ := (h.projects p).lists
    exact ⟨L, hL, hL.plainPages⟩

end Registry

namespace Project.Registry

namespace State

/-- The project that the index lists at a position. -/
def entryAt (s : State) (pos : UInt64) : Option ProjectEntry := (s.projectIdAt pos).bind s.project

def listAll (s : State) : List ProjectEntry := collectTo s.entryAt 0 s.projectCount

def listPaginated (s : State) (mode : Overflow) (offset : UInt64) (limit : UInt32) :
    Result (List ProjectEntry) :=
  plainPage addOverflow mode s.projectCount s.entryAt offset limit

end State

variable {s : State}

/-- The pages of the projects, and the view that returns all of them. -/
structure ProjectPages (s : State) : Prop where
  paginated : Lists s.projectCount s.entryAt s.listAll ∧ PlainPages s.listPaginated s.listAll
  onePage : ∀ mode limit, limit.toNat = s.projectCount.toNat →
    s.listPaginated mode 0 limit = .ok s.listAll

theorem projectPages (h : Filled s.projectCount s.entryAt) : ProjectPages s := by
  obtain ⟨L, hL⟩ := h.lists
  have hall : s.listAll = L := by
    have hcollect : collect s.entryAt 0 (s.projectCount.toNat - (0 : UInt64).toNat) =
        (L.drop (0 : UInt64).toNat).take (s.projectCount.toNat - (0 : UInt64).toNat) :=
      hL.collect_eq (by simp)
    rw [UInt64.toNat_zero, Nat.sub_zero, List.drop_zero,
      List.take_of_length_le hL.length.le] at hcollect
    exact hcollect
  rw [← hall] at hL
  refine ⟨⟨hL, hL.plainPages⟩, fun mode limit hlimit => ?_⟩
  have hlt : (0 : UInt64).toNat + limit.toNat < 2 ^ 64 := by
    have hlimit := limit.toNat_lt
    rw [UInt64.toNat_zero]
    omega
  rw [State.listPaginated, hL.plainPage_eq hlt, slice, UInt64.toNat_zero, List.drop_zero,
    List.take_of_length_le (by rw [hL.length, hlimit])]

end Project.Registry

namespace Oracle

namespace State

def getResultHistory (s : State) (projectId : ProjectId) (mode : Overflow) (offset : UInt64)
    (limit : UInt32) : Result (List VerificationResult) :=
  plainPage addOverflow mode (s.resultCount projectId) (fun pos => s.resultAt (projectId, pos))
    offset limit

/-- Saturating, so that a huge offset gives an empty page rather than an overflow panic. -/
def getResultSummaries (s : State) (projectId : ProjectId) (offset : UInt64) (limit : UInt32) :
    Result (List VerificationSummary) :=
  saturatedPage (s.resultCount projectId) (fun pos => s.resultSummaryAt (projectId, pos)) offset
    limit

end State

variable {contract : Address} {W : Type} {o : Outside W} {s s' : State} {p : ProjectId}
  {r : VerificationResult} {subs : List ReadingSubmission}

theorem resultAt_filled {sw : State × W} (h : (machine contract o).Reachable sw) (p : ProjectId) :
    Filled (sw.1.resultCount p) fun pos => sw.1.resultAt (p, pos) := by
  suffices hi : sw.1.config.feeBps.toNat ≤ 10000 ∧
      ∀ p, Filled (sw.1.resultCount p) fun pos => sw.1.resultAt (p, pos) from hi.2 p
  refine h.invariant (I := fun sw => sw.1.config.feeBps.toNat ≤ 10000 ∧
    ∀ p, Filled (sw.1.resultCount p) fun pos => sw.1.resultAt (p, pos)) ?_ ?_
  · rintro ⟨s, w⟩ ⟨admin, stakingToken, treasury, hs⟩
    obtain ⟨-, rfl⟩ := initialise_eq_ok.mp hs
    exact ⟨Nat.zero_le _, fun p i hi => absurd hi UInt64.not_lt_zero⟩
  · rintro - ⟨s, w⟩ ev ⟨s', w'⟩ ⟨hfee, hi⟩ - hs
    cases ev with
    | outside u =>
      cases hs
      exact ⟨hfee, hi⟩
    | call e c =>
      refine ⟨execute_fee hfee hs, ?_⟩
      rcases execute_stores hfee hs rfl with ⟨-, -, ht⟩ | ⟨q, r, subs, -, ht, -, -⟩
      · have hresults : s'.results = s.results := congrArg Tally.results ht
        have hcount : s'.resultCount = s.resultCount := congrArg (·.resultCount) hresults
        have hat : s'.resultAt = s.resultAt := congrArg (·.resultAt) hresults
        intro p i hlt
        simp only [hcount, hat] at hlt ⊢
        exact hi p i hlt
      · refine Filled.append_owned hi ht.resultCount ?_ fun p i hsome => ?_
        · rw [ht.resultAt, update_self, Option.isSome_some]
        · rw [ht.resultAt, update_apply]
          split
          · rfl
          · exact hsome

structure ResultPages (s : State) (p : ProjectId) (L : List VerificationResult) : Prop where
  results : Lists (s.resultCount p) (fun pos => s.resultAt (p, pos)) L
  summaries : Lists (s.resultCount p) (fun pos => s.resultSummaryAt (p, pos)) (L.map (·.summary))
  history : PlainPages (s.getResultHistory p) L
  summarised : ExactPages (s.getResultSummaries p) (L.map (·.summary))
  projection_iff : ∀ offset limit,
    (∀ mode, List.map (·.summary) <$> s.getResultHistory p mode offset limit =
      s.getResultSummaries p offset limit) ↔ offset.toNat + limit.toNat < 2 ^ 64

theorem resultPages {sw : State × W} (h : (machine contract o).Reachable sw) (p : ProjectId) :
    ∃ L, ResultPages sw.1 p L := by
  obtain ⟨L, hL⟩ := (resultAt_filled h p).lists
  obtain ⟨tr, hrun⟩ := h
  have hsummaries : Lists (sw.1.resultCount p) (fun pos => sw.1.resultSummaryAt (p, pos))
      (L.map (·.summary)) := by
    constructor
    · rw [List.length_map, hL.length]
    · intro i hi
      rw [(chronicle_run hrun).summaries, hL.entries i hi, List.getElem?_map]
  refine ⟨L, hL, hsummaries, hL.plainPages, hsummaries.exactPages, fun offset limit => ?_⟩
  constructor
  · intro hmode
    by_contra hge
    have hpanic := (plainPage_overflow addOverflow (sw.1.resultCount p)
      (fun pos => sw.1.resultAt (p, pos)) (Nat.le_of_not_lt hge)).2
    have hmode := hmode .panicking
    rw [State.getResultHistory, hpanic] at hmode
    cases hmode
  · intro hlt mode
    rw [State.getResultHistory, hL.plainPage_eq hlt, State.getResultSummaries,
      hsummaries.saturatedPage_eq, slice, slice, ← List.map_drop, ← List.map_take]
    rfl

end Oracle

variable {c₁ c₂ c₃ : Address} {sha256 : List (BitVec 8) → BytesN 32} {W : Type}
  {o : Oracle.Outside W} {r : Registry.State} {p : Project.Registry.State}
  {sw : Oracle.State × W}

/-- All views return the slice of their list that an offset and a limit ask for. -/
structure PagesExact (r : Registry.State) (p : Project.Registry.State) (s : Oracle.State)
    (offset : UInt64) (limit : UInt32) : Prop where
  byRetiree : ∀ a L, Lists (r.retireeCount a) (r.listedAt r.retireeIndex a) L → ∀ mode,
    r.getRetirementsByRetiree a mode offset limit = .ok (slice L offset limit)
  byProject : ∀ a L, Lists (r.projectCount a) (r.listedAt r.projectIndex a) L → ∀ mode,
    r.getRetirementsByProject a mode offset limit = .ok (slice L offset limit)
  projects : ∀ mode, p.listPaginated mode offset limit = .ok (slice p.listAll offset limit)
  history : ∀ a L, Lists (s.resultCount a) (fun pos => s.resultAt (a, pos)) L → ∀ mode,
    s.getResultHistory a mode offset limit = .ok (slice L offset limit)
  summaries : ∀ a L, Lists (s.resultCount a) (fun pos => s.resultSummaryAt (a, pos)) L →
    s.getResultSummaries a offset limit = .ok (slice L offset limit)
  projection : ∀ a mode, List.map (·.summary) <$> s.getResultHistory a mode offset limit =
    s.getResultSummaries a offset limit

/--
The views of all contracts return the page that is asked for exactly when the
offset and the limit add up to a word, and the pages of each view make up its list.
-/
theorem pages_exact_iff (hr : (Registry.standalone c₁).Reachable r)
    (hp : (Project.Registry.standalone c₂ sha256).Reachable p)
    (ho : (Oracle.machine c₃ o).Reachable sw) :
    (∀ offset limit,
      PagesExact r p sw.1 offset limit ↔ offset.toNat + limit.toNat < 2 ^ 64) ∧
      Registry.RetirementPages r ∧ Project.Registry.ProjectPages p ∧
      ∀ a, ∃ L, Oracle.ResultPages sw.1 a L := by
  have hretirements := (Registry.listed_reach hr).pages
  have hresults := Oracle.resultPages ho
  obtain ⟨tr, hrun⟩ := hp
  have hprojects := Project.Registry.projectPages (Project.Registry.assigned_run hrun).2.filled
  refine ⟨fun offset limit => ?_, hretirements, hprojects, hresults⟩
  constructor
  · exact fun h => (hprojects.paginated.2.exact_iff offset limit).mp h.projects
  · intro hlt
    constructor
    · exact fun a L hL => (hL.plainPages.exact_iff offset limit).mpr hlt
    · exact fun a L hL => (hL.plainPages.exact_iff offset limit).mpr hlt
    · exact (hprojects.paginated.2.exact_iff offset limit).mpr hlt
    · exact fun a L hL => (hL.plainPages.exact_iff offset limit).mpr hlt
    · exact fun a L hL => hL.exactPages.exact offset limit
    · intro a
      obtain ⟨L, hL⟩ := hresults a
      exact (hL.projection_iff offset limit).mpr hlt

section Sample

/-- The last position and one entry: the sum does not fit, and the view panics. -/
theorem history_page_overflows : ∃ sw,
    (Oracle.machine Oracle.station Oracle.offline).Reachable sw ∧
      sw.1.getResultHistory 7 .panicking 18446744073709551615 1 = .error addOverflow ∧
      sw.1.getResultSummaries 7 18446744073709551615 1 = .ok [] ∧
      ¬ ∃ L, Lists (sw.1.resultCount 7) (fun pos => sw.1.resultAt (7, pos)) L ∧
        ∀ mode offset limit,
          sw.1.getResultHistory 7 mode offset limit = .ok (slice L offset limit) := by
  refine ⟨_, ⟨[], .init Oracle.installed_init⟩, by rfl, by rfl, ?_⟩
  rintro ⟨L, -, hpages⟩
  cases hpages .panicking 18446744073709551615 1

/-- Two retirements, two projects and one result. -/
theorem pages_exact_iff_listed : ∃ r p sw,
    (Registry.standalone (.contract 9)).Reachable r ∧ r.recordCount = 2 ∧
      (Project.Registry.standalone Project.directory Project.counterHash).Reachable p ∧
      p.projectCount = 2 ∧ (Oracle.machine Oracle.station Oracle.offline).Reachable sw ∧
      sw.1.resultCount 7 = 1 ∧ (∀ offset limit,
        PagesExact r p sw.1 offset limit ↔ offset.toNat + limit.toNat < 2 ^ 64) ∧
      Project.Registry.ProjectPages p := by
  obtain ⟨tr, r, hr, -, hstacked⟩ := Registry.stacked_run 2 (by norm_num)
  obtain ⟨ptr, p, hp, -, -, hcount⟩ := Project.lagoon_run 2
  obtain ⟨otr, s, ho, hended⟩ := Oracle.lone_ended
  obtain ⟨hexact, -, hprojects, -⟩ := pages_exact_iff ⟨tr, hr⟩ ⟨ptr, hp⟩ ⟨otr, ho⟩
  exact ⟨r, p, _, ⟨tr, hr⟩, hstacked.count, ⟨ptr, hp⟩, hcount, ⟨otr, ho⟩, hended.results, hexact,
    hprojects⟩

end Sample

end WaterCredits
