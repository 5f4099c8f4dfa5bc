import WaterCredits.Governance.Execution
import WaterCredits.Oracle.Calls
import WaterCredits.Token.Calls

/-! # The emergency switch of the protocol

Governance pauses and unpauses the registered tokens and oracles by name. A
contract obeys when governance is its admin or its pause guardian. An atomic
sweep demands that all of them obey, best effort switches those that do, and
only a clean sweep is recorded.
-/

namespace WaterCredits.Protocol

open Foundation (Machine bind_eq_ok pure_eq_ok)
open Function
open Governance (Contracts Val)

/-- What is deployed at an address. -/
inductive Instance
  | token (t : Token.State)
  | oracle (o : Oracle.State)

namespace Instance

variable {target : Address}

def admin : Instance → Address
  | .token t => t.admin
  | .oracle o => o.admin

def pauseGuardian : Instance → Option Address
  | .token t => t.pauseGuardian
  | .oracle o => o.pauseGuardian

def setPaused (paused : Bool) : Instance → Instance
  | .token t => .token { t with paused }
  | .oracle o => .oracle { o with paused }

/-- The two entry points of the pause switch. -/
def switch (e : Env target) (paused : Bool) (caller : Address) : Instance → Result Instance
  | .token t => do
    let t ← if paused = true then t.pause e caller else t.unpause e caller
    return .token t
  | .oracle o => do
    let o ← if paused = true then o.pause e caller else o.unpause e caller
    return .oracle o

def obeys (d : Instance) (a : Address) : Bool :=
  decide (a = d.admin) || decide (d.pauseGuardian = some a)

theorem obeys_iff {d : Instance} {a : Address} :
    d.obeys a = true ↔ a = d.admin ∨ d.pauseGuardian = some a := by
  simp only [obeys, Bool.or_eq_true, decide_eq_true_eq]

@[simp] theorem obeys_setPaused (d : Instance) (paused : Bool) (a : Address) :
    (d.setPaused paused).obeys a = d.obeys a := by cases d <;> rfl

@[simp] theorem setPaused_setPaused (d : Instance) (p q : Bool) :
    (d.setPaused p).setPaused q = d.setPaused q := by cases d <;> rfl

theorem switch_eq_ok {e : Env target} {paused : Bool} {caller : Address} {d d' : Instance} :
    d.switch e paused caller = .ok d' ↔
      e.auth caller = true ∧ d.obeys caller = true ∧ d' = d.setPaused paused := by
  rw [obeys_iff]
  cases d <;> cases paused <;>
    simp [switch, setPaused, admin, pauseGuardian, Token.State.pause, Token.State.unpause,
      Oracle.State.pause, Oracle.State.unpause, @eq_comm _ d', and_assoc]

end Instance

abbrev Deployed := Address → Option Instance

def switchName (paused : Bool) : String := if paused = true then "pause" else "unpause"

def deployed (rest : Contracts Deployed) : Contracts Deployed where
  invoke caller target function args w :=
    match args with
    | [.address a] =>
      if function = "pause" ∨ function = "unpause" then
        if h : caller = target then .error .invokeFailed
        else do
          let d ← Foundation.expect (w target) .invokeFailed
          let d ← d.switch (.signed 0 0 caller h : Env target) (decide (function = "pause")) a
          return (.void, update w target (some d))
      else rest.invoke caller target function args w
    | _ => rest.invoke caller target function args w

variable {contract : Address} {rest : Contracts Deployed} {w w' : Deployed} {a b : Address}
  {as : List Address} {paused bestEffort ok : Bool}

def obeys (contract : Address) (w : Deployed) (a : Address) : Bool :=
  decide (a ≠ contract) && (w a).any (·.obeys contract)

/-- The listed contracts that obey are switched, and nothing else is touched. -/
def switched (contract : Address) (paused : Bool) (as : List Address) (w : Deployed) : Deployed :=
  fun a => if a ∈ as ∧ obeys contract w a = true then (w a).map (·.setPaused paused) else w a

/-- Switching changes nobody's admin or guardian. -/
@[simp] theorem obeys_switched (b : Address) :
    obeys contract (switched contract paused as w) b = obeys contract w b := by
  unfold obeys switched
  split
  · cases w b <;> simp
  · rfl

theorem switched_nil : switched contract paused [] w = w := by
  funext a
  simp [switched]

theorem switched_cons : switched contract paused as (switched contract paused [a] w) =
    switched contract paused (a :: as) w := by
  funext b
  by_cases hb : obeys contract w b = true
  · by_cases hm : b ∈ as
    · cases hw : w b <;> simp [switched, hb, hm, hw]
      split <;> simp
    · by_cases he : b = a <;> simp [switched, hb, hm, he]
      simp [he ▸ hm]
  · simp [switched, hb]

theorem switched_single {d : Instance} (ho : obeys contract w a = true) (hd : w a = some d) :
    update w a (some (d.setPaused paused)) = switched contract paused [a] w := by
  funext b
  by_cases hb : b = a
  · subst hb
    simp [switched, ho, hd]
  · simp [switched, hb]

theorem call_switch {val : Val} :
    (deployed rest).call contract a (switchName paused) [.address contract] w = .ok (val, w') ↔
      obeys contract w a = true ∧ val = .void ∧ w' = switched contract paused [a] w := by
  have hname : switchName paused = "pause" ∨ switchName paused = "unpause" := by
    cases paused <;> simp [switchName]
  have hpaused : decide (switchName paused = "pause") = paused := by cases paused <;> decide
  by_cases ha : a = contract
  · simp [Contracts.call, obeys, ha]
  simp only [Contracts.call, if_neg ha, deployed, if_pos hname, dif_neg (Ne.symm ha), hpaused,
    bind_eq_ok, Foundation.expect_eq_ok, Instance.switch_eq_ok, pure_eq_ok, Prod.mk.injEq]
  constructor
  · rintro ⟨d, hd, d', ⟨-, ho, rfl⟩, rfl, rfl⟩
    have hobeys : obeys contract w a = true := by simp [obeys, ha, hd, ho]
    exact ⟨hobeys, rfl, switched_single hobeys hd⟩
  · rintro ⟨hobeys, rfl, rfl⟩
    obtain ⟨d, hd, ho⟩ : ∃ d, w a = some d ∧ d.obeys contract = true := by
      simpa [obeys, ha, Option.any_eq_true] using hobeys
    exact ⟨d, hd, _, ⟨by simp [Env.signed], ho, rfl⟩, rfl, switched_single hobeys hd⟩

theorem dispatch_switch :
    (deployed rest).dispatch contract a (switchName paused) [.address contract] w bestEffort =
        .ok (ok, w') ↔
      (bestEffort = false → obeys contract w a = true) ∧ ok = obeys contract w a ∧
        w' = switched contract paused [a] w := by
  cases bestEffort with
  | false =>
    rw [Governance.dispatch_atomic_iff, call_switch]
    constructor
    · rintro ⟨⟨ho, -, rfl⟩, rfl⟩
      exact ⟨fun _ => ho, ho.symm, rfl⟩
    · rintro ⟨ho, rfl, rfl⟩
      exact ⟨⟨ho rfl, rfl, rfl⟩, ho rfl⟩
  | true =>
    simp only [Bool.true_eq_false, false_implies, true_and]
    cases ho : obeys contract w a with
    | true =>
      rw [Governance.dispatch_bestEffort_ok (call_switch.mpr ⟨ho, rfl, rfl⟩)]
      simp [@eq_comm _ _ ok, @eq_comm _ _ w']
    | false =>
      have hnone : switched contract paused [a] w = w := by
        funext b
        by_cases hb : b = a <;> simp [switched, hb, ho]
      cases hcall : (deployed rest).call contract a (switchName paused) [.address contract] w with
      | ok r =>
        obtain ⟨hobeys, -⟩ := call_switch.mp hcall
        simp [ho] at hobeys
      | error err =>
        rw [Governance.dispatch_bestEffort_error hcall, hnone]
        simp [@eq_comm _ _ ok, @eq_comm _ _ w']

theorem dispatchEach_switch :
    (deployed rest).dispatchEach contract (switchName paused) [.address contract] bestEffort as w =
        .ok (ok, w') ↔
      (bestEffort = false → as.all (obeys contract w) = true) ∧ ok = as.all (obeys contract w) ∧
        w' = switched contract paused as w := by
  induction as generalizing w w' ok with
  | nil => simp [Contracts.dispatchEach, switched_nil, @eq_comm _ _ ok, @eq_comm _ _ w']
  | cons a as ih =>
    have hobeys : obeys contract (switched contract paused [a] w) = obeys contract w :=
      funext fun _ => obeys_switched _
    simp only [Contracts.dispatchEach, bind_eq_ok, pure_eq_ok, List.all_cons, Bool.and_eq_true]
    constructor
    · rintro ⟨⟨x, v⟩, hx, ⟨y, v'⟩, hy, heq⟩
      obtain ⟨rfl, rfl⟩ := Prod.mk.inj heq
      obtain ⟨hfirst, rfl, rfl⟩ := dispatch_switch.mp hx
      obtain ⟨hrest, rfl, rfl⟩ := ih.mp hy
      rw [hobeys] at hrest ⊢
      exact ⟨fun hb => ⟨hfirst hb, hrest hb⟩, rfl, switched_cons⟩
    · rintro ⟨hall, rfl, rfl⟩
      refine ⟨_, dispatch_switch.mpr ⟨fun hb => (hall hb).1, rfl, rfl⟩, _,
        ih.mpr ⟨fun hb => ?_, rfl, rfl⟩, by rw [hobeys, switched_cons]⟩
      rw [hobeys]
      exact (hall hb).2

def registered (s : Governance.State) : List Address := s.registeredTokens ++ s.registeredOracles

/-- The record of a sweep, which a failure leaves out. -/
def recorded (s : Governance.State) (paused clean : Bool) : Governance.State :=
  if clean = true then { s with protocolPaused := paused } else s

variable {s s' : Governance.State} {e : Env contract}

theorem switched_append {bs : List Address} :
    switched contract paused bs (switched contract paused as w) =
      switched contract paused (as ++ bs) w := by
  induction as generalizing w with
  | nil => rw [switched_nil, List.nil_append]
  | cons a as ih => rw [← switched_cons, ih, List.cons_append, switched_cons]

theorem switchAll_switch :
    s.switchAll (deployed rest) contract (switchName paused) paused bestEffort w =
        .ok (ok, s', w') ↔
      (bestEffort = false → (registered s).all (obeys contract w) = true) ∧
        ok = (registered s).all (obeys contract w) ∧ s' = recorded s paused ok ∧
        w' = switched contract paused (registered s) w := by
  have hobeys (as : List Address) :
      obeys contract (switched contract paused as w) = obeys contract w :=
    funext fun _ => obeys_switched _
  simp only [Governance.State.switchAll, bind_eq_ok, registered, List.all_append]
  constructor
  · rintro ⟨⟨x, v⟩, hx, ⟨y, v'⟩, hy, h⟩
    obtain ⟨htokens, rfl, rfl⟩ := dispatchEach_switch.mp hx
    obtain ⟨horacles, rfl, rfl⟩ := dispatchEach_switch.mp hy
    rw [hobeys] at horacles h
    rw [switched_append] at h
    refine ⟨fun hb => by rw [htokens hb, horacles hb]; rfl, ?_⟩
    split at h <;> cases h
    · rename_i hall
      exact ⟨hall.symm, rfl, rfl⟩
    · rename_i hall
      exact ⟨(Bool.eq_false_of_not_eq_true hall).symm, rfl, rfl⟩
  · rintro ⟨hall, rfl, rfl, rfl⟩
    simp only [Bool.and_eq_true] at hall
    refine ⟨_, dispatchEach_switch.mpr ⟨fun hb => (hall hb).1, rfl, rfl⟩, _,
      dispatchEach_switch.mpr ⟨fun hb => ?_, rfl, rfl⟩, ?_⟩
    · rw [hobeys]
      exact (hall hb).2
    rw [hobeys, switched_append]
    unfold recorded
    split
    · rename_i hclean
      rw [hclean]
      rfl
    · rename_i hclean
      rw [Bool.eq_false_of_not_eq_true hclean]
      rfl

def emergency (paused : Bool) (admin : Address) : Governance.Call :=
  if paused = true then .emergencyPause admin else .emergencyUnpause admin

/-- The built-in operation of a proposal that makes the sweep. -/
def emergencyAction (paused : Bool) : Governance.ProtocolAction :=
  if paused = true then .emergencyPause else .emergencyUnpause

structure Sweeps (C : Contracts Deployed) (e : Env contract) (s : Governance.State) (w : Deployed)
    (paused : Bool) : Prop where
  called : ∀ admin s' w', Governance.run C e s w (emergency paused admin) = .ok (s', w') ↔
    e.auth admin = true ∧ admin = s.admin ∧ (∀ a ∈ registered s, obeys contract w a = true) ∧
      s' = { s with protocolPaused := paused } ∧ w' = switched contract paused (registered s) w
  dispatched : ∀ action : Governance.GovernanceAction,
    action.protocolAction = emergencyAction paused → ∀ bestEffort ok s' w',
      s.dispatchAction C contract action bestEffort w = .ok (ok, s', w') ↔
        (bestEffort = false → ∀ a ∈ registered s, obeys contract w a = true) ∧
          (ok = true ↔ ∀ a ∈ registered s, obeys contract w a = true) ∧
          s' = recorded s paused ok ∧ w' = switched contract paused (registered s) w

/--
A sweep switches exactly the registered contracts that obey governance and
touches nothing else. Without best effort it fails unless all of them obey, and
it is recorded exactly if they do.
-/
theorem emergency_sweeps (rest : Contracts Deployed) (e : Env contract) (s : Governance.State)
    (w : Deployed) (paused : Bool) : Sweeps (deployed rest) e s w paused := by
  constructor
  · intro admin s' w'
    have hrun : Governance.run (deployed rest) e s w (emergency paused admin) = (do
        s.requireAdmin e admin
        let (_, s, w) ← s.switchAll (deployed rest) contract (switchName paused) paused false w
        return (s, w)) := by cases paused <;> rfl
    simp only [hrun, bind_eq_ok, Governance.State.requireAdmin_eq_ok, pure_eq_ok]
    constructor
    · rintro ⟨_, ⟨hauth, hadmin⟩, ⟨ok, t, v⟩, h, heq⟩
      cases heq
      obtain ⟨hall, rfl, hs, hw⟩ := switchAll_switch.mp h
      rw [hall rfl] at hs
      exact ⟨hauth, hadmin, List.all_eq_true.mp (hall rfl), hs, hw⟩
    · rintro ⟨hauth, hadmin, hall, rfl, rfl⟩
      have hall := List.all_eq_true.mpr hall
      exact ⟨(), ⟨hauth, hadmin⟩, _, switchAll_switch.mpr ⟨fun _ => hall, rfl, rfl, rfl⟩, by
        rw [hall]; rfl⟩
  · intro action haction bestEffort ok s' w'
    have hdispatch : s.dispatchAction (deployed rest) contract action bestEffort w =
        s.switchAll (deployed rest) contract (switchName paused) paused bestEffort w := by
      unfold Governance.State.dispatchAction
      cases paused <;> rw [haction] <;> rfl
    rw [hdispatch, switchAll_switch, List.all_eq_true]
    refine and_congr_right fun _ => and_congr_left fun _ => ?_
    rw [← List.all_eq_true]
    exact Bool.eq_iff_iff

end WaterCredits.Protocol
