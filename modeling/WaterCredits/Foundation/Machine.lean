import WaterCredits.Foundation.Result

/-! # Transition systems with rollback

A machine accepts or rejects each call, and a rejected call leaves its state
as it was. A run records the accepted calls, the most recent first. Runs may be
restricted by a guard on the calls they accept, which reads the run so far.
-/

namespace Foundation

variable {σ Λ ε : Type*}

/-- Initial states and a step that may reject its call. -/
structure Machine (σ Λ ε : Type*) where
  init : σ → Prop
  step : Λ → σ → Except ε σ

/-- An accepted call with the states before and after it. -/
structure Step (σ Λ : Type*) where
  before : σ
  label : Λ
  after : σ

/-- The accepted calls of a run, the most recent first. -/
abbrev Trace (σ Λ : Type*) := List (Step σ Λ)

/-- A condition on the next accepted call, given the run so far and its last state. -/
abbrev Guard (σ Λ : Type*) := Trace σ Λ → σ → Λ → Prop

namespace Machine

variable (m : Machine σ Λ ε) {G G' : Guard σ Λ}

/-- Runs from an initial state whose accepted calls all meet the guard. -/
inductive Run (G : Guard σ Λ) : Trace σ Λ → σ → Prop
  | init {s : σ} : m.init s → Run G [] s
  | step {tr : Trace σ Λ} {s s' : σ} {l : Λ} :
      Run G tr s → G tr s l → m.step l s = .ok s' → Run G (⟨s, l, s'⟩ :: tr) s'

def anyCall : Guard σ Λ := fun _ _ _ => True

def Reach (G : Guard σ Λ) (s : σ) : Prop := ∃ tr, m.Run G tr s

/-- The states reached by arbitrary runs. -/
abbrev Reachable (s : σ) : Prop := m.Reach anyCall s

/-- A rejected call is rolled back. -/
def call (s : σ) (l : Λ) : σ :=
  match m.step l s with
  | .ok s' => s'
  | .error _ => s

/-- The state after a sequence of calls, accepted or not. -/
def calls (s : σ) (ls : List Λ) : σ := ls.foldl m.call s

/-- The same machine, started in a given state. -/
def startedIn (s : σ) : Machine σ Λ ε := { m with init := (· = s) }

variable {m}

theorem Run.mono {tr : Trace σ Λ} {s : σ} (h : m.Run G tr s) (hG : ∀ tr s l, G tr s l → G' tr s l) :
    m.Run G' tr s := by
  induction h with
  | init h => exact .init h
  | step _ hg hs ih => exact .step ih (hG _ _ _ hg) hs

theorem Run.free {tr : Trace σ Λ} {s : σ} (h : m.Run G tr s) : m.Run anyCall tr s :=
  h.mono fun _ _ _ _ => trivial

theorem Reach.free {s : σ} (h : m.Reach G s) : m.Reachable s := h.imp fun _ => Run.free

theorem Run.of_startedIn {s₀ : σ} {tr : Trace σ Λ} {s : σ} (h : (m.startedIn s₀).Run G tr s)
    (h0 : m.init s₀) : m.Run G tr s := by
  induction h with
  | init hs => exact .init (hs ▸ h0)
  | step _ hg hs ih => exact .step ih hg hs

theorem Run.invariant {I : Trace σ Λ → σ → Prop} (h0 : ∀ s, m.init s → I [] s)
    (hstep : ∀ tr s l s', m.Run G tr s → I tr s → G tr s l → m.step l s = .ok s' →
      I (⟨s, l, s'⟩ :: tr) s')
    {tr : Trace σ Λ} {s : σ} (h : m.Run G tr s) : I tr s := by
  induction h with
  | init h => exact h0 _ h
  | step hr hg hs ih => exact hstep _ _ _ _ hr ih hg hs

theorem Reach.invariant {I : σ → Prop} (h0 : ∀ s, m.init s → I s)
    (hstep : ∀ tr s l s', I s → G tr s l → m.step l s = .ok s' → I s')
    {s : σ} (h : m.Reach G s) : I s := by
  obtain ⟨tr, h⟩ := h
  exact h.invariant (I := fun _ s => I s) h0 fun tr s l s' _ hi hg hs => hstep tr s l s' hi hg hs

/-- Every accepted call of a run starts in a state reached by the run before it. -/
theorem Run.mem {tr : Trace σ Λ} {s : σ} (h : m.Run G tr s) :
    ∀ st ∈ tr, ∃ tr', m.Run G tr' st.before ∧ G tr' st.before st.label ∧
      m.step st.label st.before = .ok st.after := by
  induction h with
  | init => simp
  | step hr hg hs ih =>
    intro st hst
    rcases List.mem_cons.mp hst with rfl | hst
    · exact ⟨_, hr, hg, hs⟩
    · exact ih st hst

theorem Run.split {post pre : Trace σ Λ} {st : Step σ Λ} {s : σ}
    (h : m.Run G (post ++ st :: pre) s) :
    m.Run G pre st.before ∧ G pre st.before st.label ∧
      m.step st.label st.before = .ok st.after := by
  induction post generalizing s with
  | nil =>
    cases h with
    | step hr hg hs => exact ⟨hr, hg, hs⟩
  | cons _ post ih =>
    cases h with
    | step hr _ _ => exact ih hr

theorem Run.since {post pre : Trace σ Λ} {st : Step σ Λ} {s : σ}
    (h : m.Run G (post ++ st :: pre) s) :
    (m.startedIn st.after).Run (fun tr => G (tr ++ st :: pre)) post s := by
  induction post generalizing s with
  | nil =>
    cases h with
    | step _ _ _ => exact .init rfl
  | cons _ post ih =>
    cases h with
    | step hr hg hs => exact (ih hr).step hg hs

theorem Run.append {P : Λ → Prop} {tr tr' : Trace σ Λ} {s s' : σ}
    (h : m.Run (fun _ _ l => P l) tr s) (h' : (m.startedIn s).Run (fun _ _ l => P l) tr' s') :
    m.Run (fun _ _ l => P l) (tr' ++ tr) s' := by
  induction h' with
  | init hs => exact hs ▸ h
  | step _ hl hs ih => exact ih.step hl hs

theorem Run.restrict {P : Λ → Prop} {tr : Trace σ Λ} {s : σ} (h : m.Run G tr s)
    (hP : ∀ st ∈ tr, P st.label) : m.Run (fun _ _ l => P l) tr s := by
  induction h with
  | init h => exact .init h
  | step _ _ hs ih =>
    obtain ⟨hl, htr⟩ := List.forall_mem_cons.mp hP
    exact (ih htr).step hl hs

/--
Calls that find a mark missing and leave it behind are accepted at most once, if
no call removes the mark.
-/
theorem Run.once {q : Λ → Bool} {P : σ → Prop}
    (hq : ∀ l s s', q l = true → m.step l s = .ok s' → ¬ P s ∧ P s')
    (hP : ∀ tr s l s', m.Run G tr s → G tr s l → m.step l s = .ok s' → P s → P s')
    {tr : Trace σ Λ} {s : σ} (h : m.Run G tr s) :
    tr.countP (fun st => q st.label) ≤ 1 ∧ (¬ P s → tr.countP (fun st => q st.label) = 0) := by
  induction h with
  | init => simp
  | @step tr s s' l hr hg hs ih =>
    obtain ⟨hle, hzero⟩ := ih
    rw [List.countP_cons]
    cases hl : q l with
    | true =>
      obtain ⟨hn, hp⟩ := hq l s s' hl hs
      simp [hzero hn, hp]
    | false =>
      have hback : ¬ P s' → ¬ P s := fun hn hp => hn (hP tr s l s' hr hg hs hp)
      simpa using ⟨hle, fun hn => by simpa using hzero (hback hn)⟩

/--
A property that each call of a run keeps exactly when it meets a condition
holds after all calls of a run exactly when all of them meet the condition.
-/
theorem Run.after_iff {P I : σ → Prop} {C : Step σ Λ → Prop} (h0 : ∀ s, m.init s → I s)
    (hstep : ∀ tr s l s', m.Run G tr s → I s → G tr s l → m.step l s = .ok s' →
      (P s' ↔ C ⟨s, l, s'⟩) ∧ (C ⟨s, l, s'⟩ → I s'))
    {tr : Trace σ Λ} {s : σ} (h : m.Run G tr s) :
    ((∀ st ∈ tr, P st.after) ↔ ∀ st ∈ tr, C st) ∧ ((∀ st ∈ tr, C st) → I s) := by
  induction h with
  | init hs => exact ⟨by simp, fun _ => h0 _ hs⟩
  | step hr hg hs ih =>
    obtain ⟨hiff, hinv⟩ := ih
    simp only [List.forall_mem_cons, hiff]
    constructor
    · constructor
      · rintro ⟨hp, hc⟩
        exact ⟨(hstep _ _ _ _ hr (hinv hc) hg hs).1.mp hp, hc⟩
      · rintro ⟨hl, hc⟩
        exact ⟨(hstep _ _ _ _ hr (hinv hc) hg hs).1.mpr hl, hc⟩
    · rintro ⟨hl, hc⟩
      exact (hstep _ _ _ _ hr (hinv hc) hg hs).2 hl

theorem call_cases (s : σ) (l : Λ) : m.call s l = s ∨ m.step l s = .ok (m.call s l) := by
  unfold call; split <;> simp_all

theorem call_of_error {s : σ} {l : Λ} {p : ε} (h : m.step l s = .error p) : m.call s l = s := by
  unfold call
  rw [h]

theorem call_of_ok {s s' : σ} {l : Λ} (h : m.step l s = .ok s') : m.call s l = s' := by
  unfold call
  rw [h]

theorem step_call {s : σ} {l : Λ} (h : (m.step l s).isOk = true) :
    m.step l s = .ok (m.call s l) := by
  obtain ⟨s', hs⟩ := exists_of_isOk h
  unfold call
  rw [hs]

theorem Run.call {tr : Trace σ Λ} {s : σ} {l : Λ} (h : m.Run G tr s) (hG : G tr s l)
    (hs : (m.step l s).isOk = true) : m.Run G (⟨s, l, m.call s l⟩ :: tr) (m.call s l) :=
  h.step hG (step_call hs)

theorem Reach.calls {s : σ} (h : m.Reach G s) {ls : List Λ} (hG : ∀ l ∈ ls, ∀ tr s, G tr s l) :
    m.Reach G (m.calls s ls) := by
  induction ls generalizing s with
  | nil => exact h
  | cons l ls ih =>
    obtain ⟨hl, hls⟩ := List.forall_mem_cons.mp hG
    refine ih ?_ hls
    rcases call_cases (m := m) s l with he | he
    · rwa [he]
    · obtain ⟨tr, hr⟩ := h
      exact ⟨_, hr.step (hl _ _) he⟩

theorem Run.calls {L : List Λ} (hG : ∀ l ∈ L, ∀ tr s, (∀ st ∈ tr, st.label ∈ L) → G tr s l)
    {tr : Trace σ Λ} {s : σ} (h : m.Run G tr s) (htr : ∀ st ∈ tr, st.label ∈ L) {r : List Λ}
    (hr : r ⊆ L) :
    ∃ tr', m.Run G tr' (m.calls s r) ∧ tr <:+ tr' ∧ ∀ st ∈ tr', st.label ∈ L := by
  induction r generalizing tr s with
  | nil => exact ⟨tr, h, List.suffix_rfl, htr⟩
  | cons l r ih =>
    obtain ⟨hl, hr⟩ := List.cons_subset.mp hr
    rcases call_cases (m := m) s l with he | he
    · have hc : m.calls s (l :: r) = m.calls s r := congrArg (m.calls · r) he
      exact hc ▸ ih h htr hr
    · obtain ⟨tr', hrun, hsuf, hL⟩ :=
        ih (h.step (hG l hl tr s htr) he) (List.forall_mem_cons.mpr ⟨hl, htr⟩) hr
      exact ⟨tr', hrun, (List.suffix_cons _ _).trans hsuf, hL⟩

theorem Reachable.calls {s : σ} (h : m.Reachable s) (ls : List Λ) : m.Reachable (m.calls s ls) :=
  Reach.calls h fun _ _ _ _ => trivial

/--
A list is worked off: if for every listed key that is ready some call of the
given kind strikes it out and leaves the others ready, a run of such calls, one
for each key, leaves the list empty.
-/
theorem exists_run_drain {κ : Type*} [DecidableEq κ] (list : σ → List κ) (Ready : σ → κ → Prop)
    (P : Λ → Prop) (Rel : σ → σ → Prop) (refl : ∀ s, Rel s s)
    (trans : ∀ {s t u}, Rel s t → Rel t u → Rel s u)
    (strike : ∀ s k, k ∈ list s → Ready s k → ∃ l s', P l ∧ m.step l s = .ok s' ∧
      list s' = (list s).filter (· ≠ k) ∧ Rel s s' ∧ ∀ k' ≠ k, Ready s k' → Ready s' k')
    {s : σ} (hd : (list s).Nodup) (hr : ∀ k ∈ list s, Ready s k) :
    ∃ tr s', (m.startedIn s).Run (fun _ _ l => P l) tr s' ∧ list s' = [] ∧
      tr.length = (list s).length ∧ Rel s s' := by
  generalize hl : list s = ks at hd hr
  induction ks generalizing s with
  | nil => exact ⟨[], s, .init rfl, hl, rfl, refl s⟩
  | cons k ks ih =>
    obtain ⟨hnew, hd⟩ := List.nodup_cons.mp hd
    obtain ⟨hk, hks⟩ := List.forall_mem_cons.mp hr
    obtain ⟨l, t, hp, hs, ht, hrel, hkept⟩ := strike s k (hl ▸ List.mem_cons_self) hk
    have hrest : list t = ks := by
      rw [ht, hl, List.filter_cons_of_neg (by simp), List.filter_eq_self]
      intro k' hk'
      exact decide_eq_true fun he => hnew (he ▸ hk')
    obtain ⟨tr, s', hrun, hempty, hlen, hrel'⟩ := ih hrest hd
      fun k' hk' => hkept k' (fun he => hnew (he ▸ hk')) (hks k' hk')
    have hfirst : (m.startedIn s).Run (fun _ _ l => P l) [⟨s, l, t⟩] t := .step (.init rfl) hp hs
    refine ⟨tr ++ [⟨s, l, t⟩], s', hfirst.append hrun, hempty, ?_, trans hrel hrel'⟩
    rw [List.length_append, hlen]
    rfl

end Machine

section Written

variable {E : Type*} {f : Step σ Λ → Option E} {st : Step σ Λ} {tr pre post : Trace σ Λ} {x : E}

/-- What the calls of a run write, in their order. -/
def written (f : Step σ Λ → Option E) (tr : Trace σ Λ) : List E := (tr.filterMap f).reverse

@[simp] theorem written_nil : written f [] = [] := rfl

theorem written_of_none (h : f st = none) : written f (st :: tr) = written f tr := by
  rw [written, List.filterMap_cons_none h, written]

theorem written_of_some (h : f st = some x) : written f (st :: tr) = written f tr ++ [x] := by
  rw [written, List.filterMap_cons_some h, List.reverse_cons, written]

theorem mem_written : x ∈ written f tr ↔ ∃ st ∈ tr, f st = some x := by simp [written]

theorem written_split :
    written f (post ++ st :: pre) = written f pre ++ written f (post ++ [st]) := by
  rw [← List.singleton_append, ← List.append_assoc]
  simp only [written, List.filterMap_append, List.reverse_append]

end Written

end Foundation
