import WaterCredits.Oracle.Dedup

/-! # Commitments bind readings

In an opened window every submission stands on a commitment of the same window,
as long as readings come through reveals only and no oracle is removed while it
has a commitment. Commitments are stored before the first submission.
-/

namespace WaterCredits.Oracle

open Foundation Function

variable {contract : Address} {W : Type} {o : Outside W} {e : Env contract} {s s' : State}
  {w w' : W} {p : ProjectId} {a : Address} {c : Call} {v v' : View}
  {oracles oracles' : List Address} {seg tr : Trace (State × W) (Event contract W)}
  {st : Step (State × W) (Event contract W)} {sub : ReadingSubmission} {D : Set RevealParams}

/--
In opened windows readings come through reveals of messages in `D`, and no
oracle is removed while it has a commitment.
-/
def sealedPath (D : Set RevealParams) : Guard (State × W) (Event contract W) := fun tr sw ev =>
  match ev with
  | .call _ (.submitReading _ p _ _) => ¬ Opened (Event.opens p) tr
  | .call _ (.removeOracle _ a) => ∀ p, sw.1.commitment (p, a) = none
  | .call _ (.revealReading _ _ params) => params ∈ D
  | _ => True

/-- The step in which an oracle stored a commitment, before any submission to the window. -/
structure Commits (p : ProjectId) (a : Address) (info : CommitInfo)
    (cm : Step (State × W) (Event contract W)) : Prop where
  label : ∃ e, cm.label = .call e (.commitReading a p info.nonce info.commitment)
  phase : ∃ window, InPhase (cm.before.1.view p) .commit window ∧ window.submissions = []

structure Reveals (o : Outside W) (D : Set RevealParams) (p : ProjectId) (sub : ReadingSubmission)
    (rv : Step (State × W) (Event contract W)) (pre : Trace (State × W) (Event contract W)) :
    Prop where
  phase : ∃ window, InPhase (rv.before.1.view p) .reveal window
  bound : ∃ e params, rv.label = .call e (.revealReading sub.oracle p params) ∧ params ∈ D ∧
    sub = revealSub e sub.oracle params ∧
    ∃ cm ∈ pre, Commits p sub.oracle ⟨sha256Commitment o params, params.nonce⟩ cm

def RevealedIn (o : Outside W) (D : Set RevealParams) (p : ProjectId)
    (seg : Trace (State × W) (Event contract W)) (sub : ReadingSubmission) : Prop :=
  ∃ post rv pre, seg = post ++ rv :: pre ∧ Reveals o D p sub rv pre

theorem RevealedIn.cons (h : RevealedIn o D p seg sub) : RevealedIn o D p (st :: seg) sub := by
  obtain ⟨post, rv, pre, rfl, h⟩ := h
  exact ⟨st :: post, rv, pre, rfl, h⟩

/-- The commitments and submissions of a project stand in its current window. -/
structure Sealed (o : Outside W) (D : Set RevealParams) (p : ProjectId) (oracles : List Address)
    (tr : Trace (State × W) (Event contract W)) (v : View) : Prop where
  unopened : ¬ Opened (Event.opens p) tr → ∀ a, v.commitment a = none
  clean : ∀ window, v.window = some window → window.phase = .commit →
    window.submissions = [] ∧ Opened (Event.opens p) tr
  committed : ∀ a info, v.commitment a = some info →
    a ∈ oracles ∧ (∃ window, v.window = some window ∧ window.finalized = false) ∧
      ∃ cm ∈ segment (Event.opens p) tr, Commits p a info cm
  revealed : Opened (Event.opens p) tr → ∀ window, v.window = some window →
    ∀ sub ∈ window.submissions, RevealedIn o D p (segment (Event.opens p) tr) sub

namespace Sealed

theorem fresh {window : WindowState} (ho : Event.opens p st.label = true)
    (hw : v.window = some window) (hs : window.submissions = [])
    (hc : ∀ a, v.commitment a = none) : Sealed o D p oracles (st :: tr) v where
  unopened _ := hc
  clean window' hw' _ := by
    rw [hw] at hw'
    cases hw'
    exact ⟨hs, opened_cons.mpr (.inl ho)⟩
  committed a info h := by
    rw [hc a] at h
    cases h
  revealed _ window' hw' sub hsub := by
    rw [hw] at hw'
    cases hw'
    rw [hs] at hsub
    exact absurd hsub List.not_mem_nil

theorem keep (h : Sealed o D p oracles tr v) (hn : Event.opens p st.label = false)
    (hw : ∀ window', v'.window = some window' → ∃ window, v.window = some window ∧
      window'.submissions = window.submissions ∧ (window'.phase = .commit → window.phase = .commit))
    (hc : ∀ a info, v'.commitment a = some info → v.commitment a = some info ∧ a ∈ oracles' ∧
      ∃ window', v'.window = some window' ∧ window'.finalized = false) :
    Sealed o D p oracles' (st :: tr) v' := by
  have ho : Opened (Event.opens p) (st :: tr) ↔ Opened (Event.opens p) tr := by
    rw [opened_cons, hn]
    simp
  constructor
  · intro hno a
    cases hcom : v'.commitment a with
    | none => rfl
    | some info =>
      have hnone := h.unopened (fun hop => hno (ho.mpr hop)) a
      exact absurd (hnone.symm.trans (hc a info hcom).1) (by simp)
  · intro window' hw' hph
    obtain ⟨window, hwin, hsub, hphase⟩ := hw window' hw'
    obtain ⟨hnil, hop⟩ := h.clean window hwin (hphase hph)
    exact ⟨hsub.trans hnil, ho.mpr hop⟩
  · intro a info ha
    obtain ⟨hv, hmem, hwin⟩ := hc a info ha
    obtain ⟨-, -, cm, hcm, hcommits⟩ := h.committed a info hv
    refine ⟨hmem, hwin, cm, ?_, hcommits⟩
    rw [segment_of_not hn]
    exact List.mem_cons_of_mem _ hcm
  · intro hop window' hw' sub hsub
    obtain ⟨window, hwin, heq, -⟩ := hw window' hw'
    rw [heq] at hsub
    rw [segment_of_not hn]
    exact (h.revealed (ho.mp hop) window hwin sub hsub).cons

theorem cleared (h : Sealed o D p oracles tr v) (hsub : oracles ⊆ oracles')
    {f : Address → Option CommitInfo} (hf : ∀ a info, f a = some info → v.commitment a = some info)
    (a : Address) : (if a ∈ oracles' then none else f a) = none := by
  split
  · rfl
  · rename_i hn
    cases hc : f a with
    | none => rfl
    | some info => exact absurd (hsub (h.committed a info (hf a info hc)).1) hn

theorem commit {n : UInt64} {commitment : BytesN 32} {window : WindowState}
    (h : Sealed o D p oracles tr v) (hlabel : st.label = .call e (.commitReading a p n commitment))
    (hv : st.before.1.view p = v) (hph : InPhase v .commit window) (ha : a ∈ oracles')
    (hlisted : ∀ b info, v.commitment b = some info → b ∈ oracles') :
    Sealed o D p oracles' (st :: tr)
      { v with commitment := update v.commitment a (some ⟨commitment, n⟩) } := by
  obtain ⟨hnil, hop⟩ := h.clean window hph.stored hph.phase_eq
  have hn : Event.opens p st.label = false := by rw [hlabel]; rfl
  constructor
  · intro hno
    exact absurd (opened_cons.mpr (.inr hop)) hno
  · intro window' hw' hph'
    exact ⟨(h.clean window' hw' hph').1, opened_cons.mpr (.inr hop)⟩
  · intro b info hb
    rw [segment_of_not hn]
    by_cases hba : b = a
    · subst hba
      have hinfo : info = ⟨commitment, n⟩ := by simpa using hb.symm
      subst hinfo
      exact ⟨ha, ⟨window, hph.stored, hph.unfinished⟩, st, List.mem_cons_self, ⟨e, hlabel⟩, window,
        hv ▸ hph, hnil⟩
    · have hb : v.commitment b = some info := by simpa [update_of_ne hba] using hb
      obtain ⟨-, hwin, cm, hcm, hcommits⟩ := h.committed b info hb
      exact ⟨hlisted b info hb, hwin, cm, List.mem_cons_of_mem _ hcm, hcommits⟩
  · intro _ window' hw' sub hsub
    rw [segment_of_not hn]
    exact (h.revealed hop window' hw' sub hsub).cons

theorem direct {window : WindowState} {timestamp : UInt64} {closed : Bool}
    (h : Sealed o D p oracles tr v) (hno : ¬ Opened (Event.opens p) (st :: tr))
    (hw : v.window.getD { phase := .reveal, openedAt := timestamp } = window) :
    Sealed o D p oracles' (st :: tr) (v.submit window sub closed) := by
  have hbefore : ¬ Opened (Event.opens p) tr := fun hop => hno (opened_cons.mpr (.inr hop))
  have hnone := h.unopened hbefore
  constructor
  · exact fun _ => hnone
  · intro window' hw' hph
    cases hw'
    cases hv : v.window with
    | none =>
      rw [hv] at hw
      subst hw
      cases hph
    | some window' =>
      rw [hv] at hw
      have heq : window' = window := hw
      exact absurd (h.clean window' hv (heq ▸ hph)).2 hbefore
  · intro b info hb
    exact absurd ((hnone b).symm.trans hb) (by simp)
  · exact fun hop => absurd hop hno

theorem reveal {params : RevealParams} {window : WindowState} {closed : Bool}
    (h : Sealed o D p oracles tr v) (hlabel : st.label = .call e (.revealReading a p params))
    (hv : st.before.1.view p = v) (hD : params ∈ D) (hph : InPhase v .reveal window)
    (hc : v.commitment a = some ⟨sha256Commitment o params, params.nonce⟩)
    (hlisted : ∀ b info, v.commitment b = some info → b ∈ oracles') :
    Sealed o D p oracles' (st :: tr) (v.reveal oracles window (revealSub e a params) closed) := by
  obtain ⟨-, -, cm, hcm, hcommits⟩ := h.committed a _ hc
  have hop : Opened (Event.opens p) tr := by
    by_contra hno
    exact absurd ((h.unopened hno a).symm.trans hc) (by simp)
  have hn : Event.opens p st.label = false := by rw [hlabel]; rfl
  have hwin (window' : WindowState)
      (hw' : (v.reveal oracles window (revealSub e a params) closed).window = some window') :
      window'.submissions = window.submissions ++ [revealSub e a params] ∧
        window'.phase ≠ .commit := by
    cases closed <;> cases hw'
    · exact ⟨rfl, by simp [hph.phase_eq]⟩
    · exact ⟨rfl, by simp⟩
  constructor
  · intro hno
    exact absurd (opened_cons.mpr (.inr hop)) hno
  · intro window' hw' hcom
    exact absurd hcom (hwin window' hw').2
  · intro b info hb
    cases closed
    · obtain ⟨-, -, cm, hcm, hcommits⟩ := h.committed b info hb
      refine ⟨hlisted b info hb, ⟨_, rfl, hph.unfinished⟩, cm, ?_, hcommits⟩
      rw [segment_of_not hn]
      exact List.mem_cons_of_mem _ hcm
    · have hgone := h.cleared (List.Subset.refl _) (fun _ _ => id) b
      exact absurd (hgone.symm.trans hb) (by simp)
  · intro _ window' hw' sub hsub
    rw [segment_of_not hn]
    rw [(hwin window' hw').1] at hsub
    rcases List.mem_append.mp hsub with hold | hnew
    · exact (h.revealed hop window hph.stored sub hold).cons
    · rw [List.mem_singleton.mp hnew]
      exact ⟨[], st, _, rfl, ⟨window, hv ▸ hph⟩, e, params, hlabel, hD, rfl, cm, hcm, hcommits⟩

end Sealed

def Listed (s : State) : Prop := ∀ a, s.oracleActive a = true → a ∈ s.oracleList

theorem Move.sealed (hm : Move o e s p (s.view p) c v')
    (hg : sealedPath D tr (s, w) (.call e c)) (hl : Listed s)
    (hsame : c.project = some p → s'.oracleList = s.oracleList)
    (hroster : ∀ a, (s.view p).commitment a ≠ none → a ∈ s.oracleList → a ∈ s'.oracleList)
    (h : Sealed o D p s.oracleList tr (s.view p)) :
    Sealed o D p s'.oracleList (⟨(s, w), .call e c, (s', w')⟩ :: tr) v' := by
  have hlisted {a : Address} {info : CommitInfo} (ha : (s.view p).commitment a = some info) :
      a ∈ s'.oracleList := hroster a (by simp [ha]) (h.committed a info ha).1
  cases hm with
  | idle hc =>
    have hn : Event.opens p (.call e c : Event contract W) = false := Event.opens_of_ne hc
    exact h.keep hn (fun window hw => ⟨window, hw, rfl, id⟩) fun a info ha =>
      ⟨ha, hlisted ha, (h.committed a info ha).2.1⟩
  | openWindow hd =>
    apply Sealed.fresh (by simp [Event.opens]) rfl rfl
    intro a
    cases hc : (s.view p).commitment a with
    | none => rfl
    | some info =>
      obtain ⟨-, ⟨window, hw, hf⟩, -⟩ := h.committed a info hc
      exact absurd (hf.symm.trans (hd window hw)) (by simp)
  | resetWindow hw =>
    apply Sealed.fresh (by simp [Event.opens]) rfl rfl
    intro a
    exact h.cleared (List.subset_append_right _ _) (fun _ _ => id) a
  | commitReading ha hf hph =>
    exact h.commit rfl rfl hph (hsame rfl ▸ hl _ ha) fun _ _ hb => hlisted hb
  | beginRevealPhase hph =>
    refine h.keep rfl ?_ fun a info ha => ⟨ha, hlisted ha, _, rfl, hph.unfinished⟩
    rintro window' hw'
    cases hw'
    exact ⟨_, hph.stored, rfl, fun hc => absurd hc (by simp)⟩
  | @finalizeWindow window closed hph =>
    have hpen (a : Address) (info : CommitInfo)
        (ha : ((s.view p).penalize s.oracleList).commitment a = some info) :
        (s.view p).commitment a = some info := View.commitment_of_penalize ha
    cases closed
    · exact h.keep rfl (fun window hw => ⟨window, hw, rfl, id⟩) fun a info ha =>
        ⟨hpen a info ha, hlisted (hpen a info ha), (h.committed a info (hpen a info ha)).2.1⟩
    · refine h.keep rfl ?_ fun a info ha => ?_
      · rintro window' hw'
        cases hw'
        exact ⟨_, hph.stored, rfl, fun hc => absurd hc (by simp)⟩
      · exact absurd ((h.cleared (List.Subset.refl _) hpen a).symm.trans ha) (by simp)
  | submitReading ha hs hw hf =>
    refine h.direct (fun hop => ?_) hw
    rcases opened_cons.mp hop with ho | ho
    · cases ho
    · exact absurd ho hg
  | revealReading ha hs hc hph => exact h.reveal rfl rfl hg hph hc fun _ _ hb => hlisted hb

theorem Listed.execute (hl : Listed s) (h : execute o e s w c = .ok (s', w')) : Listed s' := by
  intro a ha
  rcases execute_roster h with ⟨hlist, hact⟩ | ⟨-, b, -, hlist, hact⟩ | ⟨-, b, -, hlist, hact⟩
  · rw [hact] at ha
    rw [hlist]
    exact hl a ha
  · rw [hlist, List.mem_append, List.mem_singleton]
    rw [hact, update_apply] at ha
    split at ha
    · exact .inr ‹_›
    · exact .inl (hl a ha)
  · rw [hlist]
    rw [hact, update_apply] at ha
    split at ha
    · cases ha
    · exact List.mem_filter.mpr ⟨hl a ha, by simpa⟩

/-- The commitments and submissions of all projects along a run. -/
structure AllSealed (o : Outside W) (D : Set RevealParams)
    (tr : Trace (State × W) (Event contract W)) (s : State) : Prop where
  listed : Listed s
  project : ∀ p, Sealed o D p s.oracleList tr (s.view p)

theorem allSealed_step {ev : Event contract W} (h : AllSealed o D tr s)
    (hg : sealedPath D tr (s, w) ev) (hs : step o ev (s, w) = .ok (s', w')) :
    AllSealed o D (⟨(s, w), ev, (s', w')⟩ :: tr) s' := by
  cases ev with
  | outside v =>
    cases hs
    exact ⟨h.listed, fun p => (h.project p).keep rfl (fun window hw => ⟨window, hw, rfl, id⟩)
      fun a info ha => ⟨ha, ((h.project p).committed a info ha).1,
        ((h.project p).committed a info ha).2.1⟩⟩
  | call e c =>
    refine ⟨h.listed.execute hs, fun p => ?_⟩
    refine (execute_move p hs).sealed hg h.listed (fun hc => ?_) (fun a ha hmem => ?_) (h.project p)
    · rcases execute_roster hs with ⟨hlist, -⟩ | ⟨_, b, rfl, -⟩ | ⟨_, b, rfl, -⟩
      · exact hlist
      · cases hc
      · cases hc
    · rcases execute_roster hs with ⟨hlist, -⟩ | ⟨_, b, -, hlist, -⟩ | ⟨_, b, rfl, hlist, -⟩
      · rwa [hlist]
      · rw [hlist]
        exact List.mem_append_left _ hmem
      · rw [hlist]
        refine List.mem_filter.mpr ⟨hmem, ?_⟩
        have hne : a ≠ b := by
          rintro rfl
          exact ha (hg p)
        simpa using hne

theorem allSealed_run {sw : State × W} (h : (machine contract o).Run (sealedPath D) tr sw) :
    AllSealed o D tr sw.1 := by
  refine Machine.Run.invariant (I := fun tr sw => AllSealed o D tr sw.1) ?_ ?_ h
  · rintro ⟨s, w⟩ ⟨admin, stakingToken, treasury, hs⟩
    obtain ⟨-, rfl⟩ := initialise_eq_ok.mp hs
    refine ⟨?_, fun p => ⟨fun _ _ => rfl, ?_, ?_, ?_⟩⟩
    · rintro a ha
      cases ha
    · rintro window hw
      cases hw
    · rintro a info ha
      cases ha
    · rintro _ window hw
      cases hw
  · rintro tr ⟨s, w⟩ ev ⟨s', w'⟩ - hi hg hs
    exact allSealed_step hi hg hs

theorem sha256Commitment_inj (hinj : Set.InjOn o.sha256 (preimage '' D)) {x y : RevealParams}
    (hx : x ∈ D) (hy : y ∈ D) (h : sha256Commitment o x = sha256Commitment o y) : x = y :=
  preimage_injective (hinj ⟨x, hx, rfl⟩ ⟨y, hy, rfl⟩ h)

/--
A submission stands on a commitment of its window: it was revealed in the reveal
phase, against a commitment that its oracle stored in the commit phase, when the
window had no submission; and the commitment opens to no other message of `D`.
-/
def Bound (o : Outside W) (D : Set RevealParams) (tr : Trace (State × W) (Event contract W))
    (p : ProjectId) (sub : ReadingSubmission) : Prop :=
  ∃ post rv pre e params, segment (Event.opens p) tr = post ++ rv :: pre ∧
    rv.label = .call e (.revealReading sub.oracle p params) ∧
    sub = revealSub e sub.oracle params ∧
    (∃ window, InPhase (rv.before.1.view p) .reveal window) ∧
    ∃ cm ∈ pre, Commits p sub.oracle ⟨sha256Commitment o params, params.nonce⟩ cm ∧
      ∀ params' ∈ D, sha256Commitment o params' = sha256Commitment o params → params' = params

/--
Let the hash be injective on the messages that oracles encode. Then every
submission in an opened window stands on a commitment of that window.
-/
theorem submissions_bound (hinj : Set.InjOn o.sha256 (preimage '' D)) {sw : State × W}
    (h : (machine contract o).Run (sealedPath D) tr sw) (hop : Opened (Event.opens p) tr)
    {window : WindowState} (hw : sw.1.windowState p = some window)
    (hsub : sub ∈ window.submissions) : Bound o D tr p sub := by
  obtain ⟨post, rv, pre, hseg, hph, e, params, hl, hD, heq, cm, hcm, hcommits⟩ :=
    ((allSealed_run h).project p).revealed hop window hw sub hsub
  exact ⟨post, rv, pre, e, params, hseg, hl, heq, hph, cm, hcm, hcommits,
    fun params' hD' hash => sha256Commitment_inj hinj hD' hD hash⟩

section Sample

/-- The messages of the accounts `1` and `2`. -/
def firstReveal : RevealParams := { clearWater with nonce := 1, salt := 11 }

@[inherit_doc firstReveal]
def secondReveal : RevealParams :=
  { ph := 640, turbidity := 2, dissolvedOxygen := 80, flowRate := 6, temperature := 21
    totalNitrogen := 4, totalPhosphorus := 1, nonce := 1, salt := 12 }

/-- The hashes of the two messages. -/
def firstDigest : BytesN 32 :=
  0xdebb1035cba0f396f20ba03b2f716794e3704264205f283122d4b9091bdd9e29

@[inherit_doc firstDigest]
def secondDigest : BytesN 32 :=
  0x72e2d50b69cbb686b71171cc71a4f3d479aa47fdb2336576f5c8a55dfd906276

/-- The hash of the sample host, which is right on the two messages. -/
def sampleHash (m : List (BitVec 8)) : BytesN 32 :=
  if m = preimage firstReveal then firstDigest
  else if m = preimage secondReveal then secondDigest
  else 0

def digests : Outside Unit := { offline with sha256 := sampleHash }

set_option maxRecDepth 2000 in
theorem preimage_second_ne : preimage secondReveal ≠ preimage firstReveal := by decide

theorem digests_first : digests.sha256 (preimage firstReveal) = firstDigest := by
  have h : digests.sha256 = sampleHash := rfl
  rw [h, sampleHash, if_pos rfl]

theorem digests_second : digests.sha256 (preimage secondReveal) = secondDigest := by
  have h : digests.sha256 = sampleHash := rfl
  rw [h, sampleHash, if_neg preimage_second_ne, if_pos rfl]

theorem digests_injOn :
    Set.InjOn digests.sha256 (preimage '' ({firstReveal, secondReveal} : Set RevealParams)) := by
  have hne : digests.sha256 (preimage firstReveal) ≠ digests.sha256 (preimage secondReveal) := by
    rw [digests_first, digests_second]
    decide
  rintro _ ⟨x, hx, rfl⟩ _ ⟨y, hy, rfl⟩ h
  rcases hx with rfl | rfl <;> rcases hy with rfl | rfl
  · rfl
  · exact absurd h hne
  · exact absurd h.symm hne
  · rfl

/-- Two oracles commit and reveal; the default quorum of three keeps the window open. -/
def bothRevealed : List (Event station Unit) :=
  [calledAt 0 1 (.commitReading (.account 1) 7 1 firstDigest),
    calledAt 0 2 (.commitReading (.account 2) 7 1 secondDigest),
    calledAt 300 9 (.beginRevealPhase 7),
    calledAt 300 1 (.revealReading (.account 1) 7 firstReveal),
    calledAt 300 2 (.revealReading (.account 2) 7 secondReveal)]

def listing : List (Event station Unit) :=
  [calledAt 0 0 (.addOracle (.account 0) (.account 1)),
    calledAt 0 0 (.addOracle (.account 0) (.account 2))]

def opening : Event station Unit := calledAt 0 0 (.openWindow (.account 0) 7)

def opened : State × Unit :=
  (machine station digests).call ((machine station digests).calls installed listing) opening

theorem opened_run {G : Guard (State × Unit) (Event station Unit)}
    {L : List (Event station Unit)}
    (hG : ∀ l ∈ opening :: listing ++ L, ∀ tr sw,
      (∀ st ∈ tr, st.label ∈ opening :: listing ++ L) → G tr sw l) :
    ∃ tr, (machine station digests).Run G tr ((machine station digests).calls opened L) ∧
      Opened (Event.opens 7) tr ∧ ∀ st ∈ tr, st.label ∈ opening :: listing ++ L := by
  have hinit := Machine.Run.init (m := machine station digests) (G := G) installed_init
  obtain ⟨tr, h, -, hl⟩ := Machine.Run.calls (L := opening :: listing ++ L) hG hinit (by simp)
    (r := listing) (by simp)
  have hopen := h.call (l := opening) (hG opening (by simp) tr _ hl) (by rfl)
  obtain ⟨tr', h', hsuf, hl'⟩ := Machine.Run.calls hG hopen
    (List.forall_mem_cons.mpr ⟨by simp, hl⟩) (r := L) (by simp)
  refine ⟨tr', h', ?_, hl'⟩
  exact Opened.mono ⟨_, List.mem_cons_self, by simp [opening, calledAt, Event.opens]⟩ hsuf.subset

set_option maxRecDepth 2000 in
theorem submissions_bound_both :
    ∃ tr window, (machine station digests).Run (sealedPath {firstReveal, secondReveal}) tr
        ((machine station digests).calls opened bothRevealed) ∧
      ((machine station digests).calls opened bothRevealed).1.windowState 7 = some window ∧
      window.submissions.length = 2 ∧
      ∀ sub ∈ window.submissions, Bound digests {firstReveal, secondReveal} tr 7 sub := by
  have hG : ∀ l ∈ opening :: listing ++ bothRevealed, ∀ tr sw,
      (∀ st ∈ tr, st.label ∈ opening :: listing ++ bothRevealed) →
      sealedPath (W := Unit) {firstReveal, secondReveal} tr sw l := by
    simp [opening, listing, bothRevealed, calledAt, sealedPath]
  obtain ⟨tr, h, hop, -⟩ := opened_run hG
  have hlen : (((machine station digests).calls opened bothRevealed).1.windowState 7).map
      (·.submissions.length) = some 2 := by rfl
  obtain ⟨window, hw, hn⟩ := Option.map_eq_some_iff.mp hlen
  exact ⟨tr, window, h, hw, hn, fun sub hsub => submissions_bound digests_injOn h hop hw hsub⟩

def oneDirect : List (Event station Unit) :=
  [calledAt 0 1 (.commitReading (.account 1) 7 1 firstDigest),
    calledAt 300 9 (.beginRevealPhase 7),
    calledAt 300 1 (.revealReading (.account 1) 7 firstReveal),
    calledAt 301 2 (.submitReading (.account 2) 7 1 clearWater)]

set_option maxRecDepth 2000 in
theorem direct_reading_unbound :
    ∃ tr window sub, (machine station digests).Run Machine.anyCall tr
        ((machine station digests).calls opened oneDirect) ∧ Opened (Event.opens 7) tr ∧
      ((machine station digests).calls opened oneDirect).1.windowState 7 = some window ∧
      sub ∈ window.submissions ∧ sub.oracle = .account 2 ∧
      ∀ D, ¬ Bound digests D tr 7 sub := by
  obtain ⟨tr, h, hop, hl⟩ := opened_run (G := Machine.anyCall) (L := oneDirect)
    fun _ _ _ _ _ => trivial
  have horacles : (((machine station digests).calls opened oneDirect).1.windowState 7).map
      (·.submissions.map (·.oracle)) = some [.account 1, .account 2] := by rfl
  obtain ⟨window, hw, hmap⟩ := Option.map_eq_some_iff.mp horacles
  have hmem : Address.account 2 ∈ window.submissions.map (·.oracle) := by simp [hmap]
  obtain ⟨sub, hsub, hor⟩ := List.mem_map.mp hmem
  refine ⟨tr, window, sub, h, hop, hw, hsub, hor, ?_⟩
  rintro D ⟨post, rv, pre, e, params, hseg, hlabel, -⟩
  have hrv : rv ∈ tr := mem_of_mem_segment (hseg ▸ List.mem_append_right _ List.mem_cons_self)
  have hmem := hl rv hrv
  rw [hlabel, hor] at hmem
  simp [opening, listing, oneDirect, calledAt] at hmem

end Sample

end WaterCredits.Oracle
