import WaterCredits.Foundation.Log
import WaterCredits.Oracle.Meter
import WaterCredits.Oracle.Nonces
import WaterCredits.Oracle.Roster

/-! # The history of results

Every stored result is an entry of a journal, from which the history of its
project, the last result, the summaries, the contributions and the minted
credits can be read off. The counters are machine words, so they number the
journal as long as they do not wrap around.
-/

namespace WaterCredits.Oracle

open Foundation Function

variable {contract : Address} {W : Type} {o : Outside W} {e : Env contract} {s s' : State}
  {w w' : W} {p q : ProjectId} {c : Call} {a : Address} {r : VerificationResult}
  {subs : List ReadingSubmission} {tr pre : Trace (State × W) (Event contract W)}
  {st : Step (State × W) (Event contract W)}

def VerificationResult.summary (r : VerificationResult) : VerificationSummary where
  totalCredits := r.totalCredits
  creditsMinted := r.creditsMinted
  oracleCount := r.oracleCount
  finalizedAt := r.finalizedAt

theorem Settles.resultSummaryAt (h : Settles s s' p subs r) : s'.resultSummaryAt =
    update s.resultSummaryAt (p, s.resultCount p) (some r.summary) :=
  congrArg (·.results.resultSummaryAt) h.tally

/-- A result as it was stored, with the oracles that contributed to it. -/
structure Entry where
  projectId : ProjectId
  result : VerificationResult
  oracles : List Address

def Event.project : Event contract W → Option ProjectId
  | .call _ c => c.project
  | .outside _ => none

def storedBy (st : Step (State × W) (Event contract W)) : Option Entry :=
  st.label.project.bind fun p =>
    if st.after.1.resultCount p = st.before.1.resultCount p then none
    else (st.after.1.lastResult p).map fun r =>
      { projectId := p
        result := r
        oracles := ((st.after.1.windowState p).map (·.submissions.map (·.oracle))).getD [] }

/-- The results that a run stored, in the order in which they were stored. -/
def journal (tr : Trace (State × W) (Event contract W)) : List Entry :=
  (tr.filterMap storedBy).reverse

def resultsOf (p : ProjectId) (tr : Trace (State × W) (Event contract W)) :
    List VerificationResult :=
  (part Entry.projectId p (journal tr)).map Entry.result

/-- How often an oracle contributed to a stored result. -/
def contributionsOf (a : Address) (tr : Trace (State × W) (Event contract W)) : ℕ :=
  ((journal tr).flatMap (·.oracles)).count a

/-- What a step mints, read off by making its call with a meter. -/
def mintedBy (o : Outside W) (st : Step (State × W) (Event contract W)) : ℤ :=
  match st.label with
  | .call e c =>
    match execute o.metered e st.before.1 (st.before.2, 0) c with
    | .ok (_, _, minted) => minted
    | .error _ => 0
  | .outside _ => 0

/-- What the calls of a run about a project mint. -/
def mintedFor (o : Outside W) (p : ProjectId) (tr : Trace (State × W) (Event contract W)) : ℤ :=
  ((tr.filter (·.label.project = some p)).map (mintedBy o)).sum

section Journal

theorem journal_of_none (h : storedBy st = none) : journal (st :: tr) = journal tr :=
  written_of_none h

theorem journal_of_some {x : Entry} (h : storedBy st = some x) :
    journal (st :: tr) = journal tr ++ [x] :=
  written_of_some h

theorem resultsOf_of_none (h : storedBy st = none) : resultsOf p (st :: tr) = resultsOf p tr := by
  unfold resultsOf
  rw [journal_of_none h]

theorem resultsOf_of_self {x : Entry} (h : storedBy st = some x) :
    resultsOf x.projectId (st :: tr) = resultsOf x.projectId tr ++ [x.result] := by
  have hpart : part Entry.projectId x.projectId (journal tr ++ [x]) =
      part Entry.projectId x.projectId (journal tr) ++ [x] := part_append_self
  unfold resultsOf
  rw [journal_of_some h, hpart, List.map_append, List.map_singleton]

theorem resultsOf_of_ne {x : Entry} (h : storedBy st = some x) (hp : x.projectId ≠ p) :
    resultsOf p (st :: tr) = resultsOf p tr := by
  have hpart : part Entry.projectId p (journal tr ++ [x]) = part Entry.projectId p (journal tr) :=
    part_append_other hp
  unfold resultsOf
  rw [journal_of_some h, hpart]

theorem resultsOf_split (p : ProjectId) (post pre : Trace (State × W) (Event contract W))
    (st : Step (State × W) (Event contract W)) :
    ∃ later, resultsOf p (post ++ st :: pre) = resultsOf p pre ++ later := by
  refine ⟨resultsOf p (post ++ [st]), ?_⟩
  have hjournal : journal (post ++ st :: pre) = journal pre ++ journal (post ++ [st]) :=
    written_split
  simp only [resultsOf, hjournal, part, List.filter_append, List.map_append]

theorem contributionsOf_of_none (h : storedBy st = none) :
    contributionsOf a (st :: tr) = contributionsOf a tr := by
  unfold contributionsOf
  rw [journal_of_none h]

theorem contributionsOf_of_some {x : Entry} (h : storedBy st = some x) :
    contributionsOf a (st :: tr) = contributionsOf a tr + x.oracles.count a := by
  unfold contributionsOf
  rw [journal_of_some h, List.flatMap_append, List.count_append, List.flatMap_singleton]

theorem mintedFor_of_ne (h : st.label.project ≠ some p) :
    mintedFor o p (st :: tr) = mintedFor o p tr := by
  unfold mintedFor
  rw [List.filter_cons_of_neg (by simpa using h)]

theorem mintedFor_of_eq (h : st.label.project = some p) :
    mintedFor o p (st :: tr) = mintedBy o st + mintedFor o p tr := by
  unfold mintedFor
  rw [List.filter_cons_of_pos (by simpa using h), List.map_cons, List.sum_cons]

end Journal

theorem execute_stores (hb : s.config.feeBps.toNat ≤ 10000)
    (h : execute o e s w c = .ok (s', w')) (hst : st = ⟨(s, w), .call e c, (s', w')⟩) :
    (storedBy st = none ∧ mintedBy o st = 0 ∧
        s'.tally = { s.tally with oracleCount := s'.oracleCount }) ∨
      ∃ p r subs, c.project = some p ∧ Settles s s' p subs r ∧ mintedBy o st = r.minted ∧
        storedBy st = some { projectId := p, result := r, oracles := subs.map (·.oracle) } := by
  obtain ⟨m, hm, hcase⟩ := execute_metered (n := 0) hb h
  have hminted : mintedBy o st = m := by
    subst hst
    simp only [mintedBy, hm, zero_add]
  cases hcase with
  | quiet ht =>
    refine .inl ⟨?_, hminted, ht⟩
    have hcount : s'.resultCount = s.resultCount := congrArg (·.results.resultCount) ht
    subst hst
    simp [storedBy, hcount]
  | @result p r subs hp hs =>
    refine .inr ⟨p, r, subs, hp, hs, hminted, ?_⟩
    have hcount : s'.resultCount p = s.resultCount p + 1 := by rw [hs.resultCount, update_self]
    have hlast : s'.lastResult p = some r := by rw [hs.lastResult, update_self]
    obtain ⟨window, hw, hsubs⟩ := Option.map_eq_some_iff.mp hs.stored
    subst hst
    simp [storedBy, Event.project, hp, hcount, hlast, hw, hsubs]

/-- The storage after a run, read off its journal. -/
structure Chronicle (o : Outside W) (tr : Trace (State × W) (Event contract W)) (s : State) :
    Prop where
  fee : s.config.feeBps.toNat ≤ 10000
  logged : ∀ p, Logged (s.resultCount p) (fun i => s.resultAt (p, i)) (resultsOf p tr)
  last : ∀ p, s.lastResult p = (resultsOf p tr).getLast?
  summaries : ∀ p i, s.resultSummaryAt (p, i) = (s.resultAt (p, i)).map (·.summary)
  submits : s.oracleSubmitCount = s.oracleFinalizedCount
  contributions : ∀ a, s.oracleFinalizedCount a = .ofNat (contributionsOf a tr)
  counts : ∀ x ∈ journal tr, x.result.oracleCount.toNat = x.oracles.length
  minted : ∀ p, ((resultsOf p tr).map (·.minted)).sum = mintedFor o p tr

namespace Chronicle

variable (h : Chronicle o tr s)

include h

theorem keep (hfee : s'.config.feeBps.toNat ≤ 10000) (hst : storedBy st = none)
    (hm : mintedBy o st = 0) (ht : s'.tally = { s.tally with oracleCount := s'.oracleCount }) :
    Chronicle o (st :: tr) s' := by
  have hr : s'.results = s.results := congrArg Tally.results ht
  have hsubmit : s'.oracleSubmitCount = s.oracleSubmitCount := congrArg Tally.submitCount ht
  have hcount : s'.oracleFinalizedCount = s.oracleFinalizedCount :=
    congrArg Tally.finalizedCount ht
  have hat : s'.resultAt = s.resultAt := congrArg Results.resultAt hr
  have hnext : s'.resultCount = s.resultCount := congrArg Results.resultCount hr
  constructor
  · exact hfee
  · intro p
    rw [resultsOf_of_none hst, hat, hnext]
    exact h.logged p
  · intro p
    rw [resultsOf_of_none hst]
    exact (congrFun (congrArg Results.lastResult hr) p).trans (h.last p)
  · intro p i
    rw [hat]
    exact (congrFun (congrArg Results.resultSummaryAt hr) (p, i)).trans (h.summaries p i)
  · rw [hsubmit, hcount, h.submits]
  · intro a
    rw [contributionsOf_of_none hst, hcount, h.contributions]
  · rw [journal_of_none hst]
    exact h.counts
  · intro p
    rw [resultsOf_of_none hst, h.minted]
    by_cases hp : st.label.project = some p
    · rw [mintedFor_of_eq hp, hm, zero_add]
    · rw [mintedFor_of_ne hp]

theorem store (hfee : s'.config.feeBps.toNat ≤ 10000) (hp : st.label.project = some p)
    (hs : Settles s s' p subs r) (hm : mintedBy o st = r.minted)
    (hst : storedBy st = some ⟨p, r, subs.map (·.oracle)⟩) : Chronicle o (st :: tr) s' := by
  have hself : resultsOf p (st :: tr) = resultsOf p tr ++ [r] := resultsOf_of_self hst
  have hother {q : ProjectId} (hq : q ≠ p) : resultsOf q (st :: tr) = resultsOf q tr :=
    resultsOf_of_ne hst (Ne.symm hq)
  constructor
  · exact hfee
  · have hlogged : LoggedBy Entry.projectId Entry.result s.resultCount s.resultAt (journal tr) :=
      h.logged
    unfold resultsOf
    rw [journal_of_some hst]
    exact hlogged.append hs.resultCount hs.resultAt
  · intro q
    by_cases hq : q = p
    · subst hq
      rw [hself, hs.lastResult, update_self, List.getLast?_concat]
    · rw [hother hq, hs.lastResult, update_of_ne hq, h.last]
  · intro q i
    rw [hs.resultSummaryAt, hs.resultAt, update_apply, update_apply]
    split
    · rfl
    · exact h.summaries q i
  · rw [hs.submitCount, hs.finalizedCount, h.submits]
  · intro a
    rw [hs.finalizedCount, credited_apply, h.contributions, contributionsOf_of_some hst]
    exact (UInt64.ofNat_add ..).symm
  · rw [journal_of_some hst]
    intro x hx
    rcases List.mem_append.mp hx with hx | hx
    · exact h.counts x hx
    · obtain rfl := List.mem_singleton.mp hx
      rw [List.length_map]
      exact hs.count
  · intro q
    by_cases hq : q = p
    · subst hq
      rw [hself, mintedFor_of_eq hp, hm, List.map_append, List.sum_append, h.minted]
      simp [add_comm]
    · have hne : st.label.project ≠ some q := by
        rw [hp]
        exact fun heq => hq (Option.some.inj heq).symm
      rw [hother hq, mintedFor_of_ne hne, h.minted]

end Chronicle

theorem execute_fee (hb : s.config.feeBps.toNat ≤ 10000)
    (h : execute o e s w c = .ok (s', w')) : s'.config.feeBps.toNat ≤ 10000 := by
  rcases execute_bounds h with hconfig | ⟨-, -, -, hfee⟩
  · rwa [hconfig]
  · exact hfee

theorem chronicle_run {sw : State × W} (h : (machine contract o).Run Machine.anyCall tr sw) :
    Chronicle o tr sw.1 := by
  refine h.invariant (I := fun tr sw => Chronicle o tr sw.1) ?_ ?_
  · rintro ⟨s, w⟩ ⟨admin, stakingToken, treasury, hs⟩
    obtain ⟨-, rfl⟩ := initialise_eq_ok.mp hs
    exact ⟨Nat.zero_le _, fun p => .nil, fun p => rfl, fun p i => rfl, rfl, fun a => rfl,
      fun x hx => absurd hx List.not_mem_nil, fun p => rfl⟩
  · rintro tr ⟨s, w⟩ ev ⟨s', w'⟩ - hi - hs
    cases ev with
    | outside u =>
      cases hs
      exact hi.keep hi.fee rfl rfl rfl
    | call e c =>
      have hfee := execute_fee hi.fee hs
      rcases execute_stores hi.fee hs rfl with ⟨hst, hm, ht⟩ | ⟨p, r, subs, hp, ht, hm, hst⟩
      · exact hi.keep hfee hst hm ht
      · exact hi.store hfee hp ht hm hst

/-- The history of a project is complete and unchanged, and accounts for what was minted. -/
structure ResultsKept (o : Outside W) (p : ProjectId) (tr : Trace (State × W) (Event contract W))
    (s : State) : Prop where
  entries : ∀ i, s.resultAt (p, i) = (resultsOf p tr)[i.toNat]?
  positions : ∀ i, (s.resultAt (p, i)).isSome = true ↔ i < s.resultCount p
  kept : ∀ st ∈ tr, ∀ i r, st.before.1.resultAt (p, i) = some r → s.resultAt (p, i) = some r
  last : s.lastResult p =
    if s.resultCount p = 0 then none else s.resultAt (p, s.resultCount p - 1)
  summaries : ∀ i, s.resultSummaryAt (p, i) = (s.resultAt (p, i)).map (·.summary)
  minted : ∑ k ∈ Finset.range (s.resultCount p).toNat,
      (s.resultAt (p, .ofNat k)).elim 0 (·.minted) =
    mintedFor o p tr

structure ContributionsKept (tr : Trace (State × W) (Event contract W)) (s : State) : Prop where
  finite : (support fun a => (s.oracleFinalizedCount a).toNat).Finite
  total : ∑ᶠ a, (s.oracleFinalizedCount a).toNat =
    ((journal tr).map (·.result.oracleCount.toNat)).sum

theorem results_kept {sw : State × W} (h : (machine contract o).Run Machine.anyCall tr sw)
    (hlt : (resultsOf p tr).length < 2 ^ 64) : ResultsKept o p tr sw.1 := by
  have hc := chronicle_run h
  have hlog := hc.logged p
  constructor
  · exact hlog.entries hlt
  · exact fun i => hlog.isSome_iff hlt
  · intro st hst i r hr
    obtain ⟨post, pre, rfl⟩ := List.append_of_mem hst
    obtain ⟨hpre, -⟩ := h.split
    obtain ⟨later, hlater⟩ := resultsOf_split p post pre st
    rw [hlater] at hlog hlt
    exact ((chronicle_run hpre).logged p).mono hlog hlt hr
  · rw [hc.last]
    exact hlog.getLast? hlt
  · exact hc.summaries p
  · exact (hlog.sum_entries hlt _).trans (hc.minted p)

theorem contributions_kept {sw : State × W} (h : (machine contract o).Run Machine.anyCall tr sw)
    (hlt : ∀ a, contributionsOf a tr < 2 ^ 64) : ContributionsKept tr sw.1 := by
  have hc := chronicle_run h
  have hcount : (fun a => (sw.1.oracleFinalizedCount a).toNat) =
      fun a => ((journal tr).flatMap (·.oracles)).count a := by
    ext a
    rw [hc.contributions, UInt64.toNat_ofNat']
    exact Nat.mod_eq_of_lt (hlt a)
  obtain ⟨hfinite, htotal⟩ := finsum_count ((journal tr).flatMap (·.oracles))
  refine ⟨hcount ▸ hfinite, ?_⟩
  rw [hcount, htotal, List.length_flatMap]
  exact congrArg List.sum (List.map_congr_left fun x hx => (hc.counts x hx).symm)

structure HistoryKept (o : Outside W) (tr : Trace (State × W) (Event contract W)) (s : State) :
    Prop where
  results : ∀ p, ResultsKept o p tr s
  counters : ∀ a, s.oracleSubmitCount a = s.oracleFinalizedCount a
  contributions : ContributionsKept tr s

/-- What a run keeps whose counters do not wrap around, and what it keeps anyway. -/
theorem history_kept {sw : State × W} (h : (machine contract o).Run Machine.anyCall tr sw) :
    (∀ p, (resultsOf p tr).length < 2 ^ 64 → ResultsKept o p tr sw.1) ∧
      (∀ p i, sw.1.resultSummaryAt (p, i) = (sw.1.resultAt (p, i)).map (·.summary)) ∧
      (∀ a, sw.1.oracleSubmitCount a = sw.1.oracleFinalizedCount a) ∧
      ((∀ a, contributionsOf a tr < 2 ^ 64) → ContributionsKept tr sw.1) := by
  have hc := chronicle_run h
  exact ⟨fun p => results_kept h, hc.summaries, congrFun hc.submits, contributions_kept h⟩

section Sample

/-- One reading makes a quorum. -/
def lone : State × Unit :=
  (machine station offline).calls installed
    [calledAt 0 0 (.addOracle (.account 0) (.account 1)),
      calledAt 0 0 (.updateConfig (.account 0) { installed.1.config with minOracles := 1 })]

/-- The oracle `1` may read in the empty window of the project `7`, which has `n` results. -/
structure Renewed (n : UInt64) (s : State) : Prop where
  admin : s.admin = .account 0
  active : s.oracleActive (.account 1) = true
  rules : s.rules = lone.1.rules
  counter : s.oracleNonce (7, .account 1) = n
  unmarked : s.oracleSubmitted (7, .account 1) = false
  window : s.windowState 7 = some (freshWindow 0)
  closed : s.openProjects = []
  results : s.resultCount 7 = n
  first : n ≠ 0 → (s.resultAt (7, 0)).isSome = true

def lastWindow (n : UInt64) : WindowState :=
  { freshWindow 0 with submissions := [nextSubmission n] }

structure Ended (n : UInt64) (s : State) : Prop where
  admin : s.admin = .account 0
  active : s.oracleActive (.account 1) = true
  rules : s.rules = lone.1.rules
  counter : s.oracleNonce (7, .account 1) = n
  window : s.windowState 7 = some { lastWindow n with finalized := true }
  closed : s.openProjects = []
  results : s.resultCount 7 = n
  first : (s.resultAt (7, 0)).isSome = true

/-- The storage after a reading that ends the window, before its result is stored. -/
def withLastReading (n : UInt64) (s : State) : State :=
  State.recordSubmission { s with openProjects := [7] } 7 (lastWindow n) (nextSubmission n)

def withResult (n : UInt64) (r : VerificationResult) (s : State) : State :=
  (((withLastReading n s).recordResult 7 r [nextSubmission n]).saveWindow 7
    { lastWindow n with finalized := true }).removeOpenProject 7

theorem lone_verifies (n : UInt64) : ∃ r,
    lone.1.verifyWindow 7 offline station 0 [nextSubmission n] () = .ok (r, ()) := by
  have hcolumns : medians [nextSubmission n] = medians [nextSubmission 0] := by rfl
  have hresult : lone.1.verifyWindow 7 offline station 0 [nextSubmission n] () =
      lone.1.verifyWindow 7 offline station 0 [nextSubmission 0] () := by
    unfold State.verifyWindow State.computeResult
    rw [hcolumns]
    rfl
  have hok : (lone.1.verifyWindow 7 offline station 0 [nextSubmission 0] ()).isOk = true := by
    decide
  obtain ⟨⟨r, u⟩, hr⟩ := exists_of_isOk hok
  exact ⟨r, hresult.trans hr⟩

theorem Renewed.ended {n : UInt64} {s : State} (h : Renewed n s) (r : VerificationResult) :
    Ended (n + 1) (withResult (n + 1) r s) := by
  have hcounter : (withResult (n + 1) r s).oracleNonce =
      update s.oracleNonce (7, .account 1) (n + 1) := rfl
  have hcount : (withResult (n + 1) r s).resultCount = update s.resultCount 7 (n + 1) := by
    rw [← h.results]
    rfl
  have hat : (withResult (n + 1) r s).resultAt = update s.resultAt (7, n) (some r) := by
    rw [← h.results]
    rfl
  constructor
  · exact h.admin
  · exact h.active
  · exact h.rules
  · rw [hcounter, update_self]
  · simp [withResult, State.removeOpenProject, State.saveWindow]
  · rfl
  · rw [hcount, update_self]
  · rw [hat]
    by_cases hn : n = 0
    · subst hn
      rw [update_self, Option.isSome_some]
    · have hne : ((7 : ProjectId), (0 : UInt64)) ≠ (7, n) :=
        fun heq => hn (congrArg Prod.snd heq).symm
      rw [update_of_ne hne]
      exact h.first hn

theorem Ended.reset {n : UInt64} {s : State} (h : Ended n s) :
    ∃ s', (machine station offline).step resetting (s, ()) = .ok (s', ()) ∧ Renewed n s' := by
  have hstep : ∃ s', s.resetWindow
      (.signed 0 0 (.account 0) account_ne_contract : Env station) (.account 0) 7 = .ok s' ∧
        Renewed n s' := by
    simp only [State.resetWindow, State.requireAdmin_eq_ok, bind_eq_ok, orPanic_eq_ok, h.window]
    refine ⟨_, ⟨(), ⟨by rfl, h.admin.symm⟩, _, rfl, rfl⟩, ?_⟩
    constructor
    · exact h.admin
    · exact h.active
    · exact h.rules
    · exact h.counter
    · simp [State.saveWindow, lastWindow, nextSubmission]
    · simp only [State.saveWindow, update_self]
      rfl
    · exact h.closed
    · exact h.results
    · exact fun _ => h.first
  obtain ⟨s', hs, h'⟩ := hstep
  exact ⟨s', within_eq_ok.mpr ⟨hs, rfl⟩, h'⟩

theorem Renewed.submit {n : UInt64} {s : State} (h : Renewed n s) : ∃ s',
    (machine station offline).step (nextReading (n + 1)) (s, ()) = .ok (s', ()) ∧
      Ended (n + 1) s' := by
  have hconfig : s.config = lone.1.config := congrArg Prod.fst h.rules
  have hfree : ¬ 0 < s.config.minStake := by
    rw [hconfig]
    decide
  have hquorum : s.config.minOracles.toNat ≤ 1 := by
    rw [hconfig]
    decide
  have hadd : s.addOpenProject 7 = .ok { s with openProjects := [7] } := by
    rw [addOpenProject_eq_ok, h.closed, hconfig]
    exact ⟨fun _ => by decide, by simp⟩
  obtain ⟨r, hr⟩ := lone_verifies (n + 1)
  have hresult : (withLastReading (n + 1) s).verifyWindow 7 offline station 0
      [nextSubmission (n + 1)] () = .ok (r, ()) := (verifyWindow_congr h.rules).trans hr
  have hfinal : (withLastReading (n + 1) s).finalizeDirect 7 offline station 0
      (lastWindow (n + 1)) () = .ok (r, withResult (n + 1) r s, ()) :=
    bind_eq_ok.mpr ⟨_, hresult, rfl⟩
  refine ⟨_, discard_eq_ok.mpr ⟨some r, ?_⟩, h.ended r⟩
  simp only [State.submitReading, State.requireOracle_eq_ok, bind_eq_ok, ensure_eq_ok, h.window,
    Option.getD_some, hadd]
  refine ⟨(), by rfl, (), ⟨h.active, fun hs => absurd hs hfree⟩, (), by rfl, (), by rw [h.counter],
    (), h.unmarked, (), rfl, _, rfl, ?_⟩
  exact (if_pos hquorum).trans (bind_eq_ok.mpr ⟨_, hfinal, rfl⟩)

theorem lone_ended : ∃ tr s, (machine station offline).Run Machine.anyCall tr (s, ()) ∧
    Ended 1 s := by
  obtain ⟨tr, h⟩ := Machine.Reachable.calls ⟨_, .init (installed_init (o := offline))⟩
    [calledAt 0 0 (.addOracle (.account 0) (.account 1)),
      calledAt 0 0 (.updateConfig (.account 0) { installed.1.config with minOracles := 1 }),
      calledAt 0 0 (.openWindow (.account 0) 7), nextReading 1]
  exact ⟨tr, _, h, by rfl, by rfl, by rfl, by rfl, by rfl, by rfl, by rfl, by rfl⟩

theorem ended_run (k : ℕ) : ∃ tr s, (machine station offline).Run Machine.anyCall tr (s, ()) ∧
    Ended (.ofNat (k + 1)) s := by
  induction k with
  | zero => exact lone_ended
  | succ k ih =>
    obtain ⟨tr, s, hr, h⟩ := ih
    obtain ⟨s', hs', h'⟩ := h.reset
    obtain ⟨s'', hs'', h''⟩ := h'.submit
    have hn : UInt64.ofNat (k + 1) + 1 = UInt64.ofNat (k + 1 + 1) :=
      UInt64.toNat_inj.mp (by simp [UInt64.toNat_add])
    exact ⟨_, s'', (hr.step trivial hs').step trivial hs'', hn ▸ h''⟩

/-- After `2 ^ 64` results the history of a project counts none. -/
theorem history_wraps_around : ∃ tr sw, (machine station offline).Run Machine.anyCall tr sw ∧
    ¬ HistoryKept offline tr sw.1 := by
  obtain ⟨tr, s, hr, h⟩ := ended_run (2 ^ 64 - 1)
  have hzero : s.resultCount 7 = 0 := h.results
  refine ⟨tr, _, hr, fun hk => ?_⟩
  have hlt := ((hk.results 7).positions 0).mp h.first
  rw [hzero] at hlt
  exact absurd hlt (by decide)

/-- One reading stores the only result of the project `7`. -/
theorem history_kept_lone : ∃ tr sw, (machine station offline).Run Machine.anyCall tr sw ∧
    (resultsOf 7 tr).length = 1 ∧ ResultsKept offline 7 tr sw.1 ∧ ContributionsKept tr sw.1 := by
  have h := (Machine.Run.init (G := Machine.anyCall) (installed_init (o := offline))).call
    (l := calledAt 0 0 (.addOracle (.account 0) (.account 1))) trivial (by rfl)
  have h := h.call (l := calledAt 0 0
    (.updateConfig (.account 0) { installed.1.config with minOracles := 1 })) trivial (by rfl)
  have h := h.call (l := calledAt 0 0 (.openWindow (.account 0) 7)) trivial (by rfl)
  have h := h.call (l := nextReading 1) trivial (by rfl)
  obtain ⟨hresults, -, -, hcontributions⟩ := history_kept h
  refine ⟨_, _, h, by rfl, hresults 7 (by decide), hcontributions fun a => ?_⟩
  exact List.count_le_length.trans_lt (by decide)

end Sample

end WaterCredits.Oracle
