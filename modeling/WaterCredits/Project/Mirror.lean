import WaterCredits.Project.Registration

/-! # A project in both contracts

The factory repeats each update in the configured registry, so a project that
has the same status and owner in both keeps them the same. The registry takes
updates of its own as well, which never reach the factory.
-/

namespace WaterCredits.Project

open Foundation Function

variable {contract factory registry : Address} {W : Type} {o : Outside W}
  {sha256 : List (BitVec 8) → BytesN 32} {rs rs' : Registries} {id q : BytesN 32}
  {sys sys' : System W} {a : Action factory W} {tr : Trace (System W) (Action factory W)}

/-- The documented transitions of a status. -/
inductive Transition : String → String → Prop
  | activate : Transition "registered" "active"
  | complete : Transition "active" "completed"
  | suspend : Transition "active" "suspended"
  | reactivate : Transition "completed" "active"
  | reregister : Transition "suspended" "registered"

theorem isValidStatusTransition_iff {current new : String} :
    isValidStatusTransition current new = true ↔ current = new ∨ Transition current new := by
  unfold isValidStatusTransition
  rw [decide_eq_true_iff]
  constructor
  · rintro (h | ⟨rfl, rfl⟩ | ⟨rfl, rfl⟩ | ⟨rfl, rfl⟩ | ⟨rfl, rfl⟩ | ⟨rfl, rfl⟩)
    · exact .inl h
    · exact .inr .activate
    · exact .inr .complete
    · exact .inr .suspend
    · exact .inr .reactivate
    · exact .inr .reregister
  · rintro (h | h)
    · exact .inl h
    · cases h <;> simp

structure Standing where
  status : String
  owner : Address

inductive Update
  | status (status : String)
  | owner (owner : Address)

def Standing.change (p : Standing) : Option Update → Standing
  | none => p
  | some (.status status) => { p with status }
  | some (.owner owner) => { p with owner }

@[simp] theorem Standing.change_none {p : Standing} : p.change none = p := rfl

/-- A standing changes by an update that the status graph permits. -/
structure Changed (u : Option Update) (before after : Option Standing) : Prop where
  eq : after = before.map (·.change u)
  valid : ∀ p ∈ before, isValidStatusTransition p.status (p.change u).status = true

theorem Changed.refl {p : Option Standing} : Changed none p p :=
  ⟨by simp, fun _ _ => isValidStatusTransition_self⟩

theorem changed_write {α : Type} {f : BytesN 32 → Option α} {g : α → Standing} {u : Option Update}
    {x x' : α} (hx : f q = some x) (hu : g x' = (g x).change u)
    (hv : isValidStatusTransition (g x).status (g x').status = true) (id : BytesN 32) :
    Changed (if q = id then u else none) ((f id).map g) ((update f q (some x') id).map g) := by
  by_cases hq : q = id
  · subst hq
    rw [if_pos rfl, update_self, hx]
    refine ⟨congrArg some hu, fun p hp => ?_⟩
    cases hp
    rwa [← hu]
  · rw [if_neg hq, update_of_ne (Ne.symm hq)]
    exact .refl

def Follows (before after : Option Standing) : Prop :=
  after.map (·.status) = before.map (·.status) ∨
    ∃ p p', before = some p ∧ after = some p' ∧ Transition p.status p'.status

theorem Changed.follows {p p' : Option Standing} {u : Option Update} (h : Changed u p p') :
    Follows p p' := by
  rw [h.eq]
  cases p with
  | none => exact .inl rfl
  | some p =>
    rcases isValidStatusTransition_iff.mp (h.valid p rfl) with heq | ht
    · exact .inl (by simp [heq])
    · exact .inr ⟨p, p.change u, rfl, rfl, ht⟩

namespace Registry

variable {e : Env contract} {s s' : State} {c : Call}

def State.standing (s : State) (id : BytesN 32) : Option Standing :=
  (s.project id).map fun entry => ⟨entry.status, entry.owner⟩

def Call.update (id : BytesN 32) : Call → Option Update
  | .updateStatus _ projectId status => if projectId = id then some (.status status) else none
  | .updateOwner _ projectId newOwner => if projectId = id then some (.owner newOwner) else none
  | _ => none

def Call.registers : Call → Bool
  | .register .. => true
  | _ => false

theorem execute_standing (hc : c.registers = false) (h : execute sha256 e s c = .ok s')
    (id : BytesN 32) : Changed (c.update id) (s.standing id) (s'.standing id) := by
  cases c with
  | initialise => simp [execute, initialise] at h
  | register => cases hc
  | setAuthorizedCaller =>
    simp only [execute, State.setAuthorizedCaller, bind_eq_ok, pure_eq_ok] at h
    obtain ⟨_, -, _, -, rfl⟩ := h
    exact .refl
  | updateStatus =>
    obtain ⟨entry, he, ht, hs⟩ := updateStatus_cases h
    rw [State.standing, State.standing, hs]
    exact changed_write (u := some (.status _)) he (by rfl) ht id
  | updateOwner =>
    obtain ⟨entry, he, hs⟩ := updateOwner_cases h
    rw [State.standing, State.standing, hs]
    refine changed_write (u := some (.owner _)) he ?_ ?_ id
    · rfl
    · exact isValidStatusTransition_self

end Registry

namespace Registries

def standing (rs : Registries) (registry : Address) (id : BytesN 32) : Option Standing :=
  (rs registry).bind (·.standing id)

variable {r r' : Registry.State} {target : Address} {u : Option Update}

theorem standing_of_deployed (h : rs registry = some r) :
    rs.standing registry id = r.standing id := by
  simp [standing, h]

theorem changed_update (hr : rs registry = some r)
    (h : Changed u (r.standing id) (r'.standing id)) :
    Changed (if registry = target then u else none) (rs.standing target id)
      (standing (update rs registry (some r')) target id) := by
  by_cases ht : registry = target
  · subst ht
    rw [if_pos rfl, standing_of_deployed hr, standing_of_deployed (update_self ..)]
    exact h
  · rw [if_neg ht, standing, standing, update_of_ne (Ne.symm ht)]
    exact .refl

theorem changed_crossCall {α : Type} {s : Factory.State} {u : Option Update}
    {call : (registry : Address) → Registry.State → Result (α × Registry.State)}
    (hreg : s.projectRegistry = some registry) (hx : s.crossCall rs call = .ok rs')
    (hc : ∀ r a r', call registry r = .ok (a, r') →
      Changed u (r.standing id) (r'.standing id)) :
    Changed (if registry = target then u else none) (rs.standing target id)
      (rs'.standing target id) := by
  rcases Factory.crossCall_cases hx with ⟨hn, -⟩ | ⟨registry', r, r', a, hs, hr, hok, rfl⟩
  · rw [hreg] at hn
    cases hn
  · obtain rfl : registry = registry' := Option.some.inj (hreg.symm.trans hs)
    exact changed_update hr (hc r a r' hok)

end Registries

namespace Factory

variable {e : Env contract} {s s' : State} {c : Call}

def State.standing (s : State) (id : BytesN 32) : Option Standing :=
  (s.project id).map fun project => ⟨project.status, project.owner⟩

def Call.update (id : BytesN 32) : Call → Option Update
  | .updateProjectStatus _ projectId status =>
      if projectId = id then some (.status status) else none
  | .updateProjectOwner _ projectId newOwner =>
      if projectId = id then some (.owner newOwner) else none
  | _ => none

end Factory

/-- The calls after the registrations, with one registry configured throughout. -/
def updatesOnly (registry : Address) : Guard (System W) (Action factory W)
  | _, _, .factory _ (.registerProject ..) => False
  | _, _, .factory _ (.setProjectRegistry _ configured) => configured = some registry
  | _, _, .registry _ _ c => c.registers = false
  | _, _, _ => True

namespace Action

def onFactory (id : BytesN 32) : Action factory W → Option Update
  | .factory _ c => c.update id
  | _ => none

/-- The update of a project that an action asks for in a registry, when `registry` is configured. -/
def onRegistry (registry target : Address) (id : BytesN 32) : Action factory W → Option Update
  | .factory _ c => if registry = target then c.update id else none
  | .registry a _ c => if a = target then c.update id else none
  | _ => none

/-- A direct call on the registry at an address leaves status and owner of a project as they are. -/
def Leaves (sys : System W) (registry : Address) (id : BytesN 32) : Action factory W → Prop
  | .registry a _ c => a = registry →
      ∀ p, sys.registries.standing registry id = some p → p.change (c.update id) = p
  | _ => True

end Action

structure Moves (registry : Address) (a : Action factory W) (sys sys' : System W) : Prop where
  configured : sys'.factory.projectRegistry = some registry
  factory : ∀ id, Changed (a.onFactory id) (sys.factory.standing id) (sys'.factory.standing id)
  registries : ∀ target id, Changed (a.onRegistry registry target id)
    (sys.registries.standing target id) (sys'.registries.standing target id)

theorem step_moves (hg : updatesOnly registry tr sys a)
    (hreg : sys.factory.projectRegistry = some registry) (h : System.step o a sys = .ok sys') :
    Moves registry a sys sys' := by
  cases a with
  | factory e c =>
    cases c with
    | initialise => simp [System.step, System.execute, Factory.initialise] at h
    | setProjectRegistry admin configured =>
      simp only [System.step, System.execute, Factory.State.setProjectRegistry, bind_eq_ok,
        pure_eq_ok] at h
      obtain ⟨_, ⟨_, -, rfl⟩, rfl⟩ := h
      refine ⟨hg, fun id => .refl, fun target id => ?_⟩
      have hquiet : Action.onRegistry (W := W) registry target id
        (.factory e (.setProjectRegistry admin configured)) = none := ite_self none
      rw [hquiet]
      exact .refl
    | registerProject => exact hg.elim
    | updateProjectStatus admin projectId status =>
      simp only [System.step, System.execute, bind_eq_ok, pure_eq_ok] at h
      obtain ⟨⟨f, rs⟩, hu, rfl⟩ := h
      obtain ⟨project, hp, ht, hf, hconf, hx⟩ := Factory.updateProjectStatus_cases hu
      refine ⟨hconf.trans hreg, fun id => ?_, fun target id => ?_⟩
      · simp only [Factory.State.standing, hf]
        exact changed_write (u := some (.status _)) hp (by rfl) ht id
      · apply Registries.changed_crossCall hreg hx
        intro r b r' hok
        obtain ⟨t, hok, heq⟩ := map_eq_ok.mp hok
        cases heq
        have hcall : Registry.execute o.sha256 _ _ (.updateStatus _ _ _) = .ok _ := hok
        exact Registry.execute_standing rfl hcall id
    | updateProjectOwner caller projectId newOwner =>
      simp only [System.step, System.execute, bind_eq_ok, pure_eq_ok] at h
      obtain ⟨⟨f, rs⟩, hu, rfl⟩ := h
      obtain ⟨project, hp, hf, hconf, hx⟩ := Factory.updateProjectOwner_cases hu
      refine ⟨hconf.trans hreg, fun id => ?_, fun target id => ?_⟩
      · simp only [Factory.State.standing, hf]
        refine changed_write (u := some (.owner _)) hp ?_ ?_ id
        · rfl
        · exact isValidStatusTransition_self
      · apply Registries.changed_crossCall hreg hx
        intro r b r' hok
        obtain ⟨t, hok, heq⟩ := map_eq_ok.mp hok
        cases heq
        have hcall : Registry.execute o.sha256 _ _ (.updateOwner _ _ _) = .ok _ := hok
        exact Registry.execute_standing rfl hcall id
  | deploy b admin =>
    simp only [System.step, bind_eq_ok, Registry.initialise_eq_ok, pure_eq_ok] at h
    obtain ⟨r, ⟨hn, rfl⟩, rfl⟩ := h
    refine ⟨hreg, fun id => .refl, fun target id => ?_⟩
    by_cases ht : target = b
    · subst ht
      have hold : sys.registries.standing target id = none := by
        rw [Registries.standing, hn]
        rfl
      rw [hold, Registries.standing_of_deployed (update_self ..)]
      exact .refl
    · simp only [Registries.standing, update_of_ne ht]
      exact .refl
  | registry b e c =>
    simp only [System.step, unwrap, bind_eq_ok, expect_eq_ok, pure_eq_ok] at h
    obtain ⟨r, hr, r', hc, rfl⟩ := h
    exact ⟨hreg, fun id => .refl, fun target id =>
      Registries.changed_update hr (Registry.execute_standing hg hc id)⟩
  | outside w =>
    obtain rfl := pure_eq_ok.mp h
    exact ⟨hreg, fun id => .refl, fun target id => .refl⟩

/-- The factory and the registry at an address have a project with the same status and owner. -/
def Mirrored (sys : System W) (registry : Address) (id : BytesN 32) : Prop :=
  ∃ p, sys.factory.standing id = some p ∧ sys.registries.standing registry id = some p

/-- The two stay the same exactly when a direct call leaves them as they are. -/
theorem Moves.mirrored_step (hm : Moves registry a sys sys') (h : Mirrored sys registry id) :
    Mirrored sys' registry id ↔ a.Leaves sys registry id := by
  obtain ⟨p, hf, hr⟩ := h
  have hf' := (hm.factory id).eq
  have hr' := (hm.registries registry id).eq
  rw [hf, Option.map_some] at hf'
  rw [hr, Option.map_some] at hr'
  have hsame : Mirrored sys' registry id ↔
      p.change (a.onFactory id) = p.change (a.onRegistry registry registry id) := by
    simp [Mirrored, hf', hr', eq_comm]
  rw [hsame]
  cases a with
  | factory e c => simp [Action.onFactory, Action.onRegistry, Action.Leaves]
  | deploy | outside => simp [Action.onFactory, Action.onRegistry, Action.Leaves]
  | registry b e c =>
    by_cases hb : b = registry
    · simp [Action.onFactory, Action.onRegistry, Action.Leaves, hb, hr, eq_comm]
    · simp [Action.onFactory, Action.onRegistry, Action.Leaves, hb]

variable {sys₀ : System W}

theorem configured_run (hreg : sys₀.factory.projectRegistry = some registry)
    (h : ((System.machine factory o).startedIn sys₀).Run (updatesOnly registry) tr sys) :
    sys.factory.projectRegistry = some registry := by
  refine h.invariant (I := fun _ s => s.factory.projectRegistry = some registry) ?_ ?_
  · rintro _ rfl
    exact hreg
  · exact fun _ _ _ _ _ hi hg hs => (step_moves hg hi hs).configured

/--
While a registry stays configured, a project that has the same status and owner
in both contracts keeps them the same exactly as long as no direct call on the
registry changes them, and every status follows the documented graph.
-/
theorem mirrored_iff (hreg : sys₀.factory.projectRegistry = some registry)
    (hm : Mirrored sys₀ registry id)
    (h : ((System.machine factory o).startedIn sys₀).Run (updatesOnly registry) tr sys) :
    ((∀ st ∈ tr, Mirrored st.after registry id) ↔
        ∀ st ∈ tr, st.label.Leaves st.before registry id) ∧
      ∀ st ∈ tr, ∀ q, Follows (st.before.factory.standing q) (st.after.factory.standing q) ∧
        ∀ target, Follows (st.before.registries.standing target q)
          (st.after.registries.standing target q) := by
  constructor
  · refine (h.after_iff (P := (Mirrored · registry id)) (I := (Mirrored · registry id))
      (C := fun st => st.label.Leaves st.before registry id) ?_ ?_).1
    · rintro _ rfl
      exact hm
    · intro tr s a s' hr hi hg hs
      have hiff := (step_moves hg (configured_run hreg hr) hs).mirrored_step hi
      exact ⟨hiff, hiff.mpr⟩
  · intro st hst q
    obtain ⟨tr', hr, hg, hs⟩ := h.mem st hst
    have hmoves := step_moves hg (configured_run hreg hr) hs
    exact ⟨(hmoves.factory q).follows, fun target => (hmoves.registries target q).follows⟩

section Sample

def twins : System Unit :=
  (System.machine foundry plainHost).calls founded (attached ++
    [.factory byAdmin
      (.registerProject (.account 0) "wetland" 0 0 "v1" (.account 1) 5 0 none)])

abbrev wetland : BytesN 32 := plainHost.sha256 (preimage 0 "wetland" "v1" 0 0 5)

def activation : Action foundry Unit :=
  .factory byAdmin (.updateProjectStatus (.account 0) wetland "active")

def directActivation : Action foundry Unit :=
  .registry directory byAdmin (.updateStatus (.account 0) wetland "active")

theorem mirrored_iff_activation : ∃ sys',
    System.step plainHost activation twins = .ok sys' ∧ Mirrored sys' directory wetland := by
  obtain ⟨sys', hs⟩ : ∃ sys', System.step plainHost activation twins = .ok sys' := ⟨_, rfl⟩
  have hm : Mirrored twins directory wetland := ⟨⟨"registered", .account 1⟩, rfl, rfl⟩
  have hr : ((System.machine foundry plainHost).startedIn twins).Run (updatesOnly directory)
      [] twins := .init rfl
  have hrun := hr.step (l := activation) trivial hs
  have hl : activation.Leaves twins directory wetland := trivial
  have hiff := (mirrored_iff rfl hm hrun).1
  exact ⟨sys', hs, hiff.mpr (List.forall_mem_singleton.mpr hl) _ List.mem_cons_self⟩

theorem unmirrored_by_the_registry :
    (System.machine foundry plainHost).Reachable twins ∧
      twins.factory.projectRegistry = some directory ∧ Mirrored twins directory wetland ∧
      ∃ sys', System.step plainHost directActivation twins = .ok sys' ∧
        ¬ Mirrored sys' directory wetland := by
  have hr : (System.machine foundry plainHost).Reachable founded :=
    ⟨_, .init ⟨rfl, .account 0, rfl⟩⟩
  refine ⟨hr.calls _, rfl, ⟨⟨"registered", .account 1⟩, rfl, rfl⟩, _, rfl, ?_⟩
  rintro ⟨p, hf, hp⟩
  have hactive : some p.status = some "active" := congrArg (Option.map Standing.status) hp.symm
  have hkept : some p.status = some "registered" := congrArg (Option.map Standing.status) hf.symm
  simp [hactive] at hkept

end Sample

end WaterCredits.Project
