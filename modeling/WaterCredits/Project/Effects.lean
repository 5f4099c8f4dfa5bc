import WaterCredits.Project.Calls

/-! # What the calls do to projects

The inversion lemma of each call on a registry and on the factory, and what no
call takes away: a registered project stays registered.
-/

namespace WaterCredits.Project

open Foundation Function

variable {contract factory registry caller admin owner newOwner : Address} {W : Type}
  {o : Outside W} {sha256 : List (BitVec 8) → BytesN 32} {rs rs' : Registries} {w w' : W}
  {id projectId : BytesN 32} {name methodology status : String} {latitude longitude : Int64}
  {areaHectares : UInt64}

theorem isValidStatusTransition_self : isValidStatusTransition status status = true := by
  simp [isValidStatusTransition]

def newEntry (e : Env contract) (id : BytesN 32) (name : String) (latitude longitude : Int64)
    (methodology : String) (owner : Address) (areaHectares : UInt64) : ProjectEntry where
  id := id
  name := name
  owner := owner
  latitude := latitude
  longitude := longitude
  methodology := methodology
  areaHectares := areaHectares
  status := "registered"
  registeredAt := e.timestamp

theorem isSome_update {α β : Type} [DecidableEq α] {f : α → Option β} {a b : α} {x : β}
    (h : (f a).isSome = true) : (update f b (some x) a).isSome = true := by
  rw [update_apply]
  split
  · rfl
  · exact h

namespace Registry

variable {e : Env contract} {s s' : State} {c : Call}

theorem register_cases
    (h : s.register sha256 e caller name latitude longitude methodology owner areaHectares =
      .ok (id, s')) :
    s.Trusts caller ∧
      sha256 (preimage s.projectCount name methodology latitude longitude areaHectares) = id ∧
      s'.project = update s.project id
        (some (newEntry e id name latitude longitude methodology owner areaHectares)) := by
  simp only [State.register, bind_eq_ok, ensure_eq_ok, generateProjectId_eq_ok, pure_eq_ok,
    Prod.mk.injEq] at h
  obtain ⟨_, -, _, ht, _, -, _, -, _, -, _, -, id', ⟨-, -, hid⟩, rfl, rfl⟩ := h
  exact ⟨ht, hid, rfl⟩

theorem updateStatus_cases (h : s.updateStatus e caller projectId status = .ok s') :
    ∃ entry, s.project projectId = some entry ∧
      isValidStatusTransition entry.status status = true ∧
      s'.project = update s.project projectId (some { entry with status }) := by
  simp only [State.updateStatus, bind_eq_ok, ensure_eq_ok, orPanic_eq_ok] at h
  obtain ⟨_, -, _, -, _, -, entry, he, h⟩ := h
  refine ⟨entry, he, ?_⟩
  split at h
  · rename_i heq
    obtain rfl := pure_eq_ok.mp h
    subst heq
    exact ⟨isValidStatusTransition_self, (update_eq_self_iff.mpr he.symm).symm⟩
  · simp only [bind_eq_ok, ensure_eq_ok, pure_eq_ok] at h
    obtain ⟨_, ht, rfl⟩ := h
    exact ⟨ht, rfl⟩

theorem updateOwner_cases (h : s.updateOwner e caller projectId newOwner = .ok s') :
    ∃ entry, s.project projectId = some entry ∧
      s'.project = update s.project projectId (some { entry with owner := newOwner }) := by
  simp only [State.updateOwner, bind_eq_ok, ensure_eq_ok, orPanic_eq_ok, pure_eq_ok] at h
  obtain ⟨_, -, entry, he, _, -, rfl⟩ := h
  exact ⟨entry, he, rfl⟩

theorem execute_keeps (hc : execute sha256 e s c = .ok s') (h : (s.project id).isSome = true) :
    (s'.project id).isSome = true := by
  cases c with
  | initialise => simp [execute, initialise] at hc
  | register =>
    obtain ⟨⟨id', s''⟩, hr, rfl⟩ := map_eq_ok.mp hc
    rw [(register_cases hr).2.2]
    exact isSome_update h
  | updateStatus =>
    obtain ⟨entry, -, -, hs⟩ := updateStatus_cases hc
    rw [hs]
    exact isSome_update h
  | setAuthorizedCaller =>
    simp only [execute, State.setAuthorizedCaller, bind_eq_ok, pure_eq_ok] at hc
    obtain ⟨_, -, _, -, rfl⟩ := hc
    exact h
  | updateOwner =>
    obtain ⟨entry, -, hs⟩ := updateOwner_cases hc
    rw [hs]
    exact isSome_update h

end Registry

namespace Factory

variable {e : Env contract} {s s' : State}

theorem crossCall_cases {α : Type}
    {call : (registry : Address) → Registry.State → Result (α × Registry.State)}
    (h : s.crossCall rs call = .ok rs') :
    s.projectRegistry = none ∧ rs' = rs ∨
      ∃ registry r r' a, s.projectRegistry = some registry ∧ rs registry = some r ∧
        call registry r = .ok (a, r') ∧ rs' = update rs registry (some r') := by
  unfold State.crossCall at h
  cases hr : s.projectRegistry with
  | none =>
    rw [hr] at h
    exact .inl ⟨rfl, (pure_eq_ok.mp h).symm⟩
  | some registry =>
    rw [hr] at h
    obtain ⟨⟨a, rs''⟩, hi, rfl⟩ := map_eq_ok.mp h
    obtain ⟨r, r', hrs, hc, hup⟩ := Registries.invoke_eq_ok.mp hi
    exact .inr ⟨registry, r, r', a, rfl, hrs, hc, hup.symm⟩

theorem registerProject_cases {creditTokenWasmHash : BytesN 32} {minter : Option Address}
    (h : s.registerProject o e admin name latitude longitude methodology owner areaHectares
      creditTokenWasmHash minter rs w = .ok (id, s', rs', w')) :
    o.sha256 (preimage s.projectCount name methodology latitude longitude areaHectares) = id ∧
      s.project id = none ∧ s'.projectRegistry = s.projectRegistry ∧
      (∃ creditToken, s'.project = update s.project id (some {
        id, name, latitude, longitude, methodology, owner, areaHectares, creditToken
        status := "registered"
        registrationDate := e.timestamp })) ∧
      s.crossCall rs (fun registry r => r.register o.sha256 (e.invoke registry) contract name
        latitude longitude methodology owner areaHectares) = .ok rs' := by
  simp only [State.registerProject, bind_eq_ok, ensure_eq_ok, generateProjectId_eq_ok, pure_eq_ok,
    Prod.mk.injEq] at h
  obtain ⟨_, -, _, -, _, -, _, -, _, -, _, -, _, -, _, ⟨-, -, hid⟩, _, hn, ⟨creditToken, w₁⟩, -,
    w₂, -, w₃, -, rs'', hx, rfl, rfl, rfl, -⟩ := h
  exact ⟨hid, by simpa using hn, rfl, ⟨creditToken, rfl⟩, hx⟩

theorem updateProjectStatus_cases
    (h : s.updateProjectStatus e admin projectId status rs = .ok (s', rs')) :
    ∃ project, s.project projectId = some project ∧
      isValidStatusTransition project.status status = true ∧
      s'.project = update s.project projectId (some { project with status }) ∧
      s'.projectRegistry = s.projectRegistry ∧
      s.crossCall rs (fun registry r =>
        ((), ·) <$> r.updateStatus (e.invoke registry) contract projectId status) = .ok rs' := by
  simp only [State.updateProjectStatus, bind_eq_ok, ensure_eq_ok, orPanic_eq_ok] at h
  obtain ⟨_, -, rs'', hx, _, -, project, hp, h⟩ := h
  refine ⟨project, hp, ?_⟩
  split at h
  · rename_i heq
    obtain ⟨rfl, rfl⟩ := Prod.mk.inj (pure_eq_ok.mp h)
    subst heq
    exact ⟨isValidStatusTransition_self, (update_eq_self_iff.mpr hp.symm).symm, rfl, hx⟩
  · simp only [bind_eq_ok, ensure_eq_ok, pure_eq_ok, Prod.mk.injEq] at h
    obtain ⟨_, ht, rfl, rfl⟩ := h
    exact ⟨ht, rfl, rfl, hx⟩

theorem updateProjectOwner_cases
    (h : s.updateProjectOwner e caller projectId newOwner rs = .ok (s', rs')) :
    ∃ project, s.project projectId = some project ∧
      s'.project = update s.project projectId (some { project with owner := newOwner }) ∧
      s'.projectRegistry = s.projectRegistry ∧
      s.crossCall rs (fun registry r =>
        ((), ·) <$> r.updateOwner (e.invoke registry) contract projectId newOwner) = .ok rs' := by
  simp only [State.updateProjectOwner, bind_eq_ok, ensure_eq_ok, orPanic_eq_ok, pure_eq_ok,
    Prod.mk.injEq] at h
  obtain ⟨_, -, project, hp, _, -, rs'', hx, rfl, rfl⟩ := h
  exact ⟨project, hp, rfl, rfl, hx⟩

end Factory

def Registries.Holds (rs : Registries) (registry : Address) (id : BytesN 32) : Prop :=
  ∃ r, rs registry = some r ∧ (r.project id).isSome = true

theorem Registries.Holds.update {r r' : Registry.State} {a : Address} (h : rs.Holds registry id)
    (hr : rs a = some r) (hk : (r.project id).isSome = true → (r'.project id).isSome = true) :
    Registries.Holds (update rs a (some r')) registry id := by
  obtain ⟨t, ht, hs⟩ := h
  by_cases ha : registry = a
  · subst ha
    obtain rfl : r = t := Option.some.inj (hr.symm.trans ht)
    exact ⟨r', update_self .., hk hs⟩
  · exact ⟨t, (update_of_ne ha ..).trans ht, hs⟩

theorem Registries.Holds.crossCall {α : Type} {s : Factory.State}
    {call : (registry : Address) → Registry.State → Result (α × Registry.State)}
    (h : rs.Holds registry id) (hx : s.crossCall rs call = .ok rs')
    (hk : ∀ a r b r', call a r = .ok (b, r') → (r.project id).isSome = true →
      (r'.project id).isSome = true) : rs'.Holds registry id := by
  rcases Factory.crossCall_cases hx with ⟨-, rfl⟩ | ⟨a, r, r', b, -, hr, hc, rfl⟩
  · exact h
  · exact h.update hr (hk a r b r' hc)

variable {sys sys' : System W}

theorem step_holds {a : Action factory W} (hs : System.step o a sys = .ok sys')
    (h : sys.registries.Holds registry id) : sys'.registries.Holds registry id := by
  cases a with
  | factory e c =>
    cases c with
    | initialise => simp [System.step, System.execute, Factory.initialise] at hs
    | setProjectRegistry =>
      simp only [System.step, System.execute, Factory.State.setProjectRegistry, bind_eq_ok,
        pure_eq_ok] at hs
      obtain ⟨f, -, rfl⟩ := hs
      exact h
    | registerProject =>
      simp only [System.step, System.execute, bind_eq_ok, pure_eq_ok] at hs
      obtain ⟨⟨id', f, rs, w⟩, hr, rfl⟩ := hs
      obtain ⟨-, -, -, -, hx⟩ := Factory.registerProject_cases hr
      exact h.crossCall hx fun a r b r' hc =>
        Registry.execute_keeps (c := .register ..) (map_eq_ok.mpr ⟨(b, r'), hc, rfl⟩)
    | updateProjectStatus =>
      simp only [System.step, System.execute, bind_eq_ok, pure_eq_ok] at hs
      obtain ⟨⟨f, rs⟩, hr, rfl⟩ := hs
      obtain ⟨-, -, -, -, -, hx⟩ := Factory.updateProjectStatus_cases hr
      exact h.crossCall hx fun a r b r' hc => by
        obtain ⟨t, ht, heq⟩ := map_eq_ok.mp hc
        cases heq
        have hcall : Registry.execute o.sha256 _ _ (.updateStatus _ _ _) = .ok _ := ht
        exact Registry.execute_keeps hcall
    | updateProjectOwner =>
      simp only [System.step, System.execute, bind_eq_ok, pure_eq_ok] at hs
      obtain ⟨⟨f, rs⟩, hr, rfl⟩ := hs
      obtain ⟨-, -, -, -, hx⟩ := Factory.updateProjectOwner_cases hr
      exact h.crossCall hx fun a r b r' hc => by
        obtain ⟨t, ht, heq⟩ := map_eq_ok.mp hc
        cases heq
        have hcall : Registry.execute o.sha256 _ _ (.updateOwner _ _ _) = .ok _ := ht
        exact Registry.execute_keeps hcall
  | deploy a admin =>
    simp only [System.step, bind_eq_ok, Registry.initialise_eq_ok, pure_eq_ok] at hs
    obtain ⟨r, ⟨hn, rfl⟩, rfl⟩ := hs
    obtain ⟨t, ht, hk⟩ := h
    have hne : registry ≠ a := by
      rintro rfl
      cases ht.symm.trans hn
    exact ⟨t, (update_of_ne hne ..).trans ht, hk⟩
  | registry a e c =>
    simp only [System.step, unwrap, bind_eq_ok, expect_eq_ok, pure_eq_ok] at hs
    obtain ⟨r, hr, r', hc, rfl⟩ := hs
    exact h.update hr (Registry.execute_keeps hc)
  | outside w =>
    obtain rfl := pure_eq_ok.mp hs
    exact h

theorem run_holds {G : Guard (System W) (Action factory W)}
    {tr : Trace (System W) (Action factory W)}
    (h : ((System.machine factory o).startedIn sys).Run G tr sys')
    (hk : sys.registries.Holds registry id) : sys'.registries.Holds registry id := by
  refine h.invariant (I := fun _ s => s.registries.Holds registry id) ?_ ?_
  · rintro _ rfl
    exact hk
  · exact fun _ _ _ _ _ hi _ hs => step_holds hs hi

end WaterCredits.Project
