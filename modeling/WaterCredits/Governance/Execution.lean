import WaterCredits.Governance.Lifecycle

/-! # Executing a proposal in its two modes

Atomic execution demands of every generic call that it returns nothing, best
effort only that it succeeds. The modes therefore agree on actions that succeed
one after the other exactly when none of these returns a value. Best effort runs
every action, and its report is right unless an action is carried out in part,
which only the sweeps over the registered contracts can be.
-/

namespace WaterCredits.Governance

open Foundation (Machine bind_eq_ok pure_eq_ok require_eq_ok)
open Function

variable {contract caller : Address} {W : Type} {C : Contracts W} {e : Env contract}
  {s s' t : State} {w w' v : W} {id : UInt64} {p : Proposal} {action : GovernanceAction}
  {actions : List GovernanceAction} {vals : List Val} {results : List Bool}

def GovernanceAction.call (C : Contracts W) (contract : Address) (action : GovernanceAction)
    (w : W) :
    Result (Val × W) :=
  C.call contract action.target action.function action.args w

/-- No action of the list is one of the built-in operations. -/
def Generic (actions : List GovernanceAction) : Prop :=
  ∀ action ∈ actions, action.protocolAction = .none

/-- The calls of all actions succeed, one after the other, and return these values. -/
inductive InOrder (C : Contracts W) (contract : Address) :
    List GovernanceAction → W → List Val → W → Prop
  | nil {w : W} : InOrder C contract [] w [] w
  | cons {action : GovernanceAction} {rest : List GovernanceAction} {w v w' : W} {val : Val}
      {vals : List Val} : action.call C contract w = .ok (val, v) →
        InOrder C contract rest v vals w' →
      InOrder C contract (action :: rest) w (val :: vals) w'

/-- The calls that an action stands for: the built-in ones sweep over the registered contracts. -/
def State.callsFor (contract : Address) (s : State) (action : GovernanceAction) :
    List GovernanceAction :=
  let sweep (function : String) : List GovernanceAction :=
    (s.registeredTokens ++ s.registeredOracles).map fun target =>
      ⟨target, function, [.address contract], .none⟩
  match action.protocolAction with
  | .emergencyPause => sweep "pause"
  | .emergencyUnpause => sweep "unpause"
  | .none => [action]

/-- What this contract records when all calls of an action have succeeded. -/
def State.recorded (s : State) (action : GovernanceAction) : State :=
  match action.protocolAction with
  | .emergencyPause => { s with protocolPaused := true }
  | .emergencyUnpause => { s with protocolPaused := false }
  | .none => s

/--
What a list of actions does when failures are skipped, with one entry for each
action. The entry is set when all calls of the action succeed one after the
other and take effect, and not set when they all fail and leave everything as it
was. In either case the rest runs on.
-/
inductive Reported (C : Contracts W) (contract : Address) :
    List GovernanceAction → List Bool → State × W → State × W → Prop
  | nil {sw : State × W} : Reported C contract [] [] sw sw
  | done {action : GovernanceAction} {rest : List GovernanceAction} {results : List Bool}
      {s : State} {w v : W} {vals : List Val} {sw' : State × W} :
      InOrder C contract (s.callsFor contract action) w vals v →
      Reported C contract rest results (s.recorded action, v) sw' →
      Reported C contract (action :: rest) (true :: results) (s, w) sw'
  | failed {action : GovernanceAction} {rest : List GovernanceAction} {results : List Bool}
      {s : State} {w : W} {sw' : State × W} :
      s.callsFor contract action ≠ [] →
      (∀ call ∈ s.callsFor contract action, ∃ err, call.call C contract w = .error err) →
      Reported C contract rest results (s, w) sw' →
      Reported C contract (action :: rest) (false :: results) (s, w) sw'

theorem InOrder.unique {us : List Val} (h : InOrder C contract actions w vals w')
    (h' : InOrder C contract actions w us v) : us = vals ∧ v = w' := by
  induction h generalizing us with
  | nil =>
    cases h'
    exact ⟨rfl, rfl⟩
  | cons hcall _ ih =>
    cases h' with
    | cons hcall' hrest =>
      obtain ⟨rfl, rfl⟩ := Prod.mk.inj (Except.ok.inj (hcall'.symm.trans hcall))
      obtain ⟨rfl, rfl⟩ := ih hrest
      exact ⟨rfl, rfl⟩

section Attempts

/-- Which of the calls succeed when failures are skipped, and the world that they leave. -/
def attempt (C : Contracts W) (contract : Address) : List GovernanceAction → W → List Bool × W
  | [], w => ([], w)
  | action :: rest, w =>
    match action.call C contract w with
    | .ok (_, v) => (true :: (attempt C contract rest v).1, (attempt C contract rest v).2)
    | .error _ => (false :: (attempt C contract rest w).1, (attempt C contract rest w).2)

/-- Some of the calls succeed and some fail. -/
def Mixed (C : Contracts W) (contract : Address) (calls : List GovernanceAction) (w : W) : Prop :=
  true ∈ (attempt C contract calls w).1 ∧ false ∈ (attempt C contract calls w).1

/-- No action of the list is carried out in part. -/
def State.Whole (C : Contracts W) (contract : Address) (s : State) :
    List GovernanceAction → W → Prop
  | [], _ => True
  | action :: rest, w => ¬ Mixed C contract (s.callsFor contract action) w ∧
      s.Whole C contract rest (attempt C contract (s.callsFor contract action) w).2

theorem attempt_cons_ok {rest : List GovernanceAction} {val : Val}
    (h : action.call C contract w = .ok (val, v)) : attempt C contract (action :: rest) w =
      (true :: (attempt C contract rest v).1, (attempt C contract rest v).2) := by
  simp only [attempt, h]

theorem attempt_cons_error {rest : List GovernanceAction} {err : Panic}
    (h : action.call C contract w = .error err) : attempt C contract (action :: rest) w =
      (false :: (attempt C contract rest w).1, (attempt C contract rest w).2) := by
  simp only [attempt, h]

theorem attempt_append (C : Contracts W) (contract : Address) (calls rest : List GovernanceAction)
    (w : W) :
    attempt C contract (calls ++ rest) w =
      ((attempt C contract calls w).1 ++
          (attempt C contract rest (attempt C contract calls w).2).1,
        (attempt C contract rest (attempt C contract calls w).2).2) := by
  induction calls generalizing w with
  | nil => rfl
  | cons call calls ih =>
    rw [List.cons_append]
    cases h : call.call C contract w with
    | ok r => rw [attempt_cons_ok h, attempt_cons_ok h, ih, List.cons_append]
    | error err => rw [attempt_cons_error h, attempt_cons_error h, ih, List.cons_append]

theorem InOrder.attempt (h : InOrder C contract actions w vals v) :
    attempt C contract actions w = (List.replicate actions.length true, v) := by
  induction h with
  | nil => rfl
  | cons hcall _ ih => rw [attempt_cons_ok hcall, ih, List.length_cons, List.replicate_succ]

theorem attempt_of_error (h : ∀ call ∈ actions, ∃ err, call.call C contract w = .error err) :
    attempt C contract actions w = (List.replicate actions.length false, w) := by
  induction actions with
  | nil => rfl
  | cons action rest ih =>
    obtain ⟨⟨err, hcall⟩, hrest⟩ := List.forall_mem_cons.mp h
    rw [attempt_cons_error hcall, ih hrest, List.length_cons, List.replicate_succ]

theorem and_append (xs ys : List Bool) : (xs ++ ys).and = (xs.and && ys.and) := List.all_append

theorem and_eq_true_iff {xs : List Bool} : xs.and = true ↔ false ∉ xs := by
  simp [List.and]

theorem inOrder_of_attempt (h : false ∉ (attempt C contract actions w).1) :
    ∃ vals, InOrder C contract actions w vals (attempt C contract actions w).2 := by
  induction actions generalizing w with
  | nil => exact ⟨[], .nil⟩
  | cons action rest ih =>
    cases hcall : action.call C contract w with
    | ok r =>
      rw [attempt_cons_ok hcall] at h ⊢
      obtain ⟨vals, hrest⟩ := ih fun hf => h (List.mem_cons_of_mem _ hf)
      exact ⟨r.1 :: vals, .cons hcall hrest⟩
    | error err =>
      rw [attempt_cons_error hcall] at h
      exact absurd List.mem_cons_self h

/-- Calls that all fail leave the world as it was, so each of them fails in it. -/
theorem error_of_attempt (h : true ∉ (attempt C contract actions w).1) :
    ∀ call ∈ actions, ∃ err, call.call C contract w = .error err := by
  induction actions with
  | nil => simp
  | cons action rest ih =>
    cases hcall : action.call C contract w with
    | ok r =>
      rw [attempt_cons_ok hcall] at h
      exact absurd List.mem_cons_self h
    | error err =>
      rw [attempt_cons_error hcall] at h
      exact List.forall_mem_cons.mpr ⟨⟨err, hcall⟩, ih fun ht => h (List.mem_cons_of_mem _ ht)⟩

theorem callsFor_recorded (action : GovernanceAction) :
    (s.recorded action).callsFor contract = s.callsFor contract := by
  unfold State.recorded
  split <;> rfl

theorem whole_congr (h : t.callsFor contract = s.callsFor contract) :
    t.Whole C contract actions w ↔ s.Whole C contract actions w := by
  induction actions generalizing w with
  | nil => exact Iff.rfl
  | cons _ _ ih => simp only [State.Whole, h, ih]

theorem Reported.whole {sw : State × W}
    (h : Reported C contract actions results (s, w) sw) : s.Whole C contract actions w := by
  generalize hsw : (s, w) = sw₀ at h
  induction h generalizing s w with
  | nil => trivial
  | done hcalls _ ih =>
    cases hsw
    refine ⟨fun hm => ?_, ?_⟩
    · rw [Mixed, hcalls.attempt] at hm
      exact absurd (List.eq_of_mem_replicate hm.2) (by simp)
    · rw [hcalls.attempt]
      exact (whole_congr (callsFor_recorded _)).mp (ih rfl)
  | failed _ herror _ ih =>
    cases hsw
    refine ⟨fun hm => ?_, ?_⟩
    · rw [Mixed, attempt_of_error herror] at hm
      exact absurd (List.eq_of_mem_replicate hm.1) (by simp)
    · rw [attempt_of_error herror]
      exact ih rfl

end Attempts

section Dispatch

theorem dispatch_bestEffort_ok {target : Address} {function : String} {args : List Val} {val : Val}
    (h : C.call contract target function args w = .ok (val, v)) :
    C.dispatch contract target function args w true = .ok (true, v) := by
  simp [Contracts.dispatch, Contracts.tryCall, h]

theorem dispatch_bestEffort_error {target : Address} {function : String} {args : List Val}
    {err : Panic} (h : C.call contract target function args w = .error err) :
    C.dispatch contract target function args w true = .ok (false, w) := by
  simp [Contracts.dispatch, Contracts.tryCall, h]

/-- Atomic dispatch takes a call that returns nothing, and no other. -/
theorem dispatch_atomic_iff {target : Address} {function : String} {args : List Val} {ok : Bool} :
    C.dispatch contract target function args w false = .ok (ok, v) ↔
      C.call contract target function args w = .ok (.void, v) ∧ ok = true := by
  simp only [Contracts.dispatch, Bool.false_eq_true, if_false, bind_eq_ok, require_eq_ok,
    pure_eq_ok,
    Prod.mk.injEq]
  constructor
  · rintro ⟨⟨val, u⟩, hcall, _, rfl, rfl, rfl⟩
    exact ⟨hcall, rfl⟩
  · rintro ⟨hcall, rfl⟩
    exact ⟨(.void, v), hcall, (), rfl, rfl, rfl⟩

/-- A generic action dispatches its call, and leaves the state of this contract alone. -/
theorem dispatchAction_generic {bestEffort ok : Bool} (h : action.protocolAction = .none) :
    s.dispatchAction C contract action bestEffort w = .ok (ok, t, v) ↔
      C.dispatch contract action.target action.function action.args w bestEffort = .ok (ok, v) ∧
        t = s := by
  simp only [State.dispatchAction, h, bind_eq_ok, pure_eq_ok, Prod.mk.injEq]
  constructor
  · rintro ⟨⟨ok', u⟩, hd, rfl, rfl, rfl⟩
    exact ⟨hd, rfl⟩
  · rintro ⟨hd, rfl⟩
    exact ⟨(ok, v), hd, rfl, rfl, rfl⟩

theorem dispatch_attempt (C : Contracts W) (contract : Address) (action : GovernanceAction)
    (w : W) : C.dispatch contract action.target action.function action.args w true =
      .ok ((attempt C contract [action] w).1.and, (attempt C contract [action] w).2) := by
  cases h : action.call C contract w with
  | ok r =>
    rw [attempt_cons_ok h]
    exact dispatch_bestEffort_ok h
  | error err =>
    rw [attempt_cons_error h]
    exact dispatch_bestEffort_error h

theorem dispatchEach_attempt (C : Contracts W) (contract : Address) (function : String)
    (args : List Val) (targets : List Address) (w : W) :
    C.dispatchEach contract function args true targets w =
      .ok ((attempt C contract (targets.map (⟨·, function, args, .none⟩)) w).1.and,
        (attempt C contract (targets.map (⟨·, function, args, .none⟩)) w).2) := by
  induction targets generalizing w with
  | nil => rfl
  | cons target rest ih =>
    have hd := dispatch_attempt C contract ⟨target, function, args, .none⟩ w
    have hsplit := attempt_append C contract [⟨target, function, args, .none⟩]
      (rest.map (⟨·, function, args, .none⟩)) w
    rw [List.singleton_append] at hsplit
    rw [List.map_cons, hsplit, and_append]
    simp only [Contracts.dispatchEach, hd, ih, Foundation.ok_bind]
    rfl

theorem switchAll_attempt (C : Contracts W) (contract : Address) (s : State) (function : String)
    (paused : Bool) (w : W) :
    let calls := (s.registeredTokens ++ s.registeredOracles).map
      (⟨·, function, [.address contract], .none⟩)
    s.switchAll C contract function paused true w =
      .ok ((attempt C contract calls w).1.and,
        if (attempt C contract calls w).1.and = true then { s with protocolPaused := paused }
        else s,
        (attempt C contract calls w).2) := by
  simp only [List.map_append, attempt_append, and_append, State.switchAll, dispatchEach_attempt,
    Foundation.ok_bind]
  split
  · rename_i hall
    rw [hall]
    rfl
  · rename_i hall
    rw [Bool.eq_false_of_not_eq_true hall]
    rfl

/-- Best effort makes all calls of an action, and asks whether all of them succeeded. -/
theorem dispatchAction_attempt (C : Contracts W) (contract : Address) (s : State)
    (action : GovernanceAction) (w : W) :
    s.dispatchAction C contract action true w =
      .ok ((attempt C contract (s.callsFor contract action) w).1.and,
        if (attempt C contract (s.callsFor contract action) w).1.and = true
          then s.recorded action else s,
        (attempt C contract (s.callsFor contract action) w).2) := by
  unfold State.dispatchAction State.callsFor State.recorded
  cases action.protocolAction with
  | emergencyPause => exact switchAll_attempt C contract s "pause" true w
  | emergencyUnpause => exact switchAll_attempt C contract s "unpause" false w
  | none =>
    simp only [dispatch_attempt, ite_self]
    rfl

/-- Best effort never aborts, and reports every action that is not carried out in part. -/
theorem dispatchActions_bestEffort (C : Contracts W) (contract : Address)
    (actions : List GovernanceAction) (s : State) (w : W) :
    ∃ results t v, State.dispatchActions C contract true actions s w = .ok (results, t, v) ∧
      results.length = actions.length ∧
      (s.Whole C contract actions w → Reported C contract actions results (s, w) (t, v)) := by
  induction actions generalizing s w with
  | nil => exact ⟨[], s, w, rfl, rfl, fun _ => .nil⟩
  | cons action rest ih =>
    have hd := dispatchAction_attempt C contract s action w
    cases hall : (attempt C contract (s.callsFor contract action) w).1.and with
    | true =>
      obtain ⟨results, t, v, hrest, hlength, hreported⟩ := ih (s.recorded action)
        (attempt C contract (s.callsFor contract action) w).2
      obtain ⟨vals, hcalls⟩ := inOrder_of_attempt (and_eq_true_iff.mp hall)
      rw [hall, if_pos rfl] at hd
      refine ⟨true :: results, t, v, ?_, congrArg (· + 1) hlength, fun hwhole => ?_⟩
      · simp only [State.dispatchActions, hd, Foundation.ok_bind, hrest]
        rfl
      · exact .done hcalls (hreported ((whole_congr (callsFor_recorded _)).mpr hwhole.2))
    | false =>
      obtain ⟨results, t, v, hrest, hlength, hreported⟩ := ih s
        (attempt C contract (s.callsFor contract action) w).2
      rw [hall, if_neg Bool.false_ne_true] at hd
      refine ⟨false :: results, t, v, ?_, congrArg (· + 1) hlength, fun hwhole => ?_⟩
      · simp only [State.dispatchActions, hd, Foundation.ok_bind, hrest]
        rfl
      · have hfalse : false ∈ (attempt C contract (s.callsFor contract action) w).1 := by
          by_contra hn
          exact absurd (and_eq_true_iff.mpr hn) (by simp [hall])
        have herror := error_of_attempt fun ht => hwhole.1 ⟨ht, hfalse⟩
        have hsame := attempt_of_error herror
        refine .failed ?_ herror ?_
        · intro hnil
          rw [hnil] at hfalse
          exact List.not_mem_nil hfalse
        · have hrest' := hreported hwhole.2
          rwa [hsame] at hrest'

theorem InOrder.bestEffort (h : InOrder C contract actions w vals w') (hg : Generic actions) :
    State.dispatchActions C contract true actions s w =
      .ok (List.replicate actions.length true, s, w') := by
  induction h with
  | nil => rfl
  | cons hcall _ ih =>
    obtain ⟨hp, hg⟩ := List.forall_mem_cons.mp hg
    have hd := (dispatchAction_generic (s := s) hp).mpr ⟨dispatch_bestEffort_ok hcall, rfl⟩
    simp [State.dispatchActions, hd, ih hg, List.replicate_succ]

/-- Atomic execution takes calls that succeed in order and return nothing. -/
theorem InOrder.atomic (h : InOrder C contract actions w vals w') (hg : Generic actions)
    (hv : ∀ val ∈ vals, val = .void) :
    State.dispatchActions C contract false actions s w =
      .ok (List.replicate actions.length true, s, w') := by
  induction h with
  | nil => rfl
  | cons hcall _ ih =>
    obtain ⟨hp, hg⟩ := List.forall_mem_cons.mp hg
    obtain ⟨hvoid, hrest⟩ := List.forall_mem_cons.mp hv
    have hd := (dispatchAction_generic (s := s) hp).mpr
      ⟨dispatch_atomic_iff.mpr ⟨hvoid ▸ hcall, rfl⟩, rfl⟩
    simp [State.dispatchActions, hd, ih hg hrest, List.replicate_succ]

theorem inOrder_of_atomic (hg : Generic actions)
    (h : State.dispatchActions C contract false actions s w = .ok (results, t, w')) :
    InOrder C contract actions w (List.replicate actions.length .void) w' := by
  induction actions generalizing s w results with
  | nil =>
    simp only [State.dispatchActions, pure_eq_ok, Prod.mk.injEq] at h
    obtain ⟨-, -, rfl⟩ := h
    exact .nil
  | cons action rest ih =>
    obtain ⟨hp, hg⟩ := List.forall_mem_cons.mp hg
    simp only [State.dispatchActions, bind_eq_ok, pure_eq_ok] at h
    obtain ⟨⟨ok, u, x⟩, hd, ⟨results', t', x'⟩, hrest, heq⟩ := h
    cases heq
    obtain ⟨hcall, -⟩ := dispatch_atomic_iff.mp ((dispatchAction_generic hp).mp hd).1
    exact .cons hcall (ih hg hrest)

end Dispatch

structure Executable (e : Env contract) (s : State) (caller : Address) (id : UInt64)
    (p : Proposal) :
    Prop where
  authorised : e.auth caller = true
  member : s.member caller = true
  stored : s.proposal id = some p
  approved : p.status = .approved
  elapsed : p.timelockEndsAt ≤ e.timestamp

theorem execute_eq_ok (h : Executable e s caller id p) :
    s.execute C e caller id w = .ok (s', w') ↔ ∃ results t,
      State.dispatchActions C contract p.allowPartialExecution p.actions (s.removeFromActive id) w =
        .ok (results, t, w') ∧
      s' = t.saveProposal id { p with
        status := .executed
        actionResults := if p.allowPartialExecution = true then results else p.actionResults } := by
  simp only [State.execute, bind_eq_ok, State.requireMember_eq_ok, State.expectProposal_eq_ok,
    ensure_eq_ok, pure_eq_ok, Prod.mk.injEq]
  constructor
  · rintro ⟨_, -, q, hq, _, -, _, -, ⟨results, t, x⟩, hd, rfl, rfl⟩
    obtain rfl : q = p := Option.some.inj (hq.symm.trans h.stored)
    exact ⟨results, t, hd, rfl⟩
  · rintro ⟨results, t, hd, rfl⟩
    exact ⟨(), ⟨h.authorised, h.member⟩, p, h.stored, (), h.approved, (), h.elapsed,
      (results, t, w'), hd, rfl, rfl⟩

def State.inMode (s : State) (id : UInt64) (p : Proposal) (bestEffort : Bool) : State :=
  s.saveProposal id { p with allowPartialExecution := bestEffort }

theorem Executable.inMode (h : Executable e s caller id p) (bestEffort : Bool) :
    Executable e (s.inMode id p bestEffort) caller id
      { p with allowPartialExecution := bestEffort } where
  authorised := h.authorised
  member := h.member
  stored := by simp [State.inMode, State.saveProposal]
  approved := h.approved
  elapsed := h.elapsed

/-- How the two modes of executing a proposal go together. -/
structure ModesAgree (C : Contracts W) (e : Env contract) (s : State) (caller : Address)
    (id : UInt64)
    (p : Proposal) (w : W) : Prop where
  success : Generic p.actions → ∀ vals w', InOrder C contract p.actions w vals w' →
    ∀ bestEffort, ∃ s', (s.inMode id p bestEffort).execute C e caller id w = .ok (s', w')
  report : ∃ s' w' results t, (s.inMode id p true).execute C e caller id w = .ok (s', w') ∧
    s'.proposal id = some { p with
      allowPartialExecution := true
      status := .executed
      actionResults := results } ∧
    results.length = p.actions.length ∧
    Reported C contract p.actions results ((s.inMode id p true).removeFromActive id, w) (t, w')

/--
An executable proposal, with any callees, fares the same in both modes and is
reported rightly exactly when generic actions that succeed one after the other
return nothing, and no action is carried out in part.
-/
theorem modes_agree (h : Executable e s caller id p) (C : Contracts W) (w : W) :
    ModesAgree C e s caller id p w ↔
      (Generic p.actions → ∀ vals w',
        InOrder C contract p.actions w vals w' → ∀ val ∈ vals, val = .void) ∧
      s.Whole C contract p.actions w := by
  have hsame : ((s.inMode id p true).removeFromActive id).Whole C contract p.actions w ↔
      s.Whole C contract p.actions w := whole_congr rfl
  constructor
  · rintro ⟨hsuccess, s', v, results, t, -, -, -, hreported⟩
    refine ⟨fun hg vals w' hin val hval => ?_, hsame.mp hreported.whole⟩
    obtain ⟨s', hexec⟩ := hsuccess hg vals w' hin false
    obtain ⟨results, t, hd, -⟩ := (execute_eq_ok (h.inMode false)).mp hexec
    obtain ⟨rfl, -⟩ := hin.unique (inOrder_of_atomic hg hd)
    exact List.eq_of_mem_replicate hval
  · rintro ⟨hv, hwhole⟩
    constructor
    · intro hg vals w' hin bestEffort
      have hd : State.dispatchActions C contract bestEffort p.actions
          ((s.inMode id p bestEffort).removeFromActive id) w =
            .ok (List.replicate p.actions.length true,
              (s.inMode id p bestEffort).removeFromActive id, w') := by
        cases bestEffort with
        | true => exact hin.bestEffort hg
        | false => exact hin.atomic hg (hv hg vals w' hin)
      exact ⟨_, (execute_eq_ok (h.inMode bestEffort)).mpr ⟨_, _, hd, rfl⟩⟩
    · obtain ⟨results, t, w', hd, hlength, hreported⟩ := dispatchActions_bestEffort C contract
        p.actions ((s.inMode id p true).removeFromActive id) w
      refine ⟨_, w', results, t, (execute_eq_ok (h.inMode true)).mpr ⟨_, _, hd, rfl⟩, ?_, hlength,
        hreported (hsame.mpr hwhole)⟩
      simp [State.saveProposal]

section Sample

/-- A counter, which has a method that returns nothing and one that returns the new count. -/
def counter : Contracts ℕ where
  invoke _ _ function _ n :=
    if function = "increment" then .ok (.void, n + 1)
    else if function = "next" then .ok (.other (UInt64.ofNat (n + 1)), n + 1)
    else .error .invokeFailed

def memberAt (timestamp : UInt64) (key : BytesN 32) : Env council :=
  .signed timestamp 0 (.account key) (account_ne_council key)

/-- Two of three members have approved a call on the counter. -/
def passed (function : String) : State × ℕ :=
  (machine council counter).calls (founded.1, 0)
    [.call (memberAt 0 1)
        (.propose (.account 1) "count" "" [⟨.contract 7, function, [], .none⟩] false),
      .call (memberAt 0 1) (.vote (.account 1) 1 true),
      .call (memberAt 0 2) (.vote (.account 2) 1 true)]

theorem passed_reachable (function : String) :
    (machine council counter).Reachable (passed function) := by
  have h0 : (machine council counter).Reachable (founded.1, 0) :=
    ⟨_, .init ⟨.account 0, [.account 1, .account 2, .account 3], rfl⟩⟩
  exact h0.calls _

/-- A call that returns a number aborts the atomic execution and none of best effort. -/
theorem counted_call_aborts : ∃ p, (machine council counter).Reachable (passed "next") ∧
    Executable (memberAt 86400 3) (passed "next").1 (.account 3) 1 p ∧
    ¬ ModesAgree counter (memberAt 86400 3) (passed "next").1 (.account 3) 1 p 0 := by
  refine ⟨_, passed_reachable "next", ⟨by decide, by decide, rfl, by decide, by decide⟩,
    fun ha => ?_⟩
  have hin : InOrder counter council [⟨.contract 7, "next", [], .none⟩] 0 [.other 1] 1 :=
    .cons rfl .nil
  have hgeneric : Generic [⟨.contract 7, "next", [], .none⟩] := by simp [Generic]
  obtain ⟨s', hexec⟩ := ha.success hgeneric [.other 1] 1 hin false
  cases hexec

theorem modes_agree_increment : ∃ p,
    Executable (memberAt 86400 3) (passed "increment").1 (.account 3) 1 p ∧
    ModesAgree counter (memberAt 86400 3) (passed "increment").1 (.account 3) 1 p 0 := by
  have he : ∃ p, Executable (memberAt 86400 3) (passed "increment").1 (.account 3) 1 p ∧
      p.actions = [⟨.contract 7, "increment", [], .none⟩] :=
    ⟨_, ⟨by decide, by decide, rfl, by decide, by decide⟩, rfl⟩
  obtain ⟨p, h, hp⟩ := he
  refine ⟨p, h, (modes_agree h counter 0).mpr ⟨fun _ vals w' hin => ?_, ?_⟩⟩
  · rw [hp] at hin
    cases hin with
    | cons hcall hrest =>
      cases hcall
      cases hrest
      simp
  · rw [hp]
    refine ⟨fun hm => ?_, trivial⟩
    have hresults : false ∈ [true] := hm.2
    simp at hresults

end Sample

end WaterCredits.Governance
