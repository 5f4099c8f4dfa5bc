import WaterCredits.Project.Mirror
import Mathlib.Data.Set.Card
import Mathlib.Logic.Relation

/-! # The chronicle of a project

What the factory stores about a project is what the accepted calls say: the
registration, signed by the admin, and every update since then, along the status
graph or by a new owner that the admin or the owner before signed for.
-/

namespace WaterCredits.Project

open Foundation Function

variable {factory : Address} {W : Type} {o : Outside W} {id : BytesN 32} {sys sys' : System W}
  {a : Action factory W} {p q : ProjectInfo} {st : Step (System W) (Action factory W)}
  {tr : Trace (System W) (Action factory W)}

def ProjectInfo.revise (p : ProjectInfo) : Option Update → ProjectInfo
  | none => p
  | some (.status status) => { p with status }
  | some (.owner owner) => { p with owner }

/-- What the factory checks of a project. -/
structure ProjectInfo.Valid (p : ProjectInfo) : Prop where
  named : p.name.utf8ByteSize ≠ 0
  name_le : p.name.utf8ByteSize ≤ 128
  methodology_le : p.methodology.utf8ByteSize ≤ 128
  latitude : -90000000 ≤ p.latitude ∧ p.latitude ≤ 90000000
  longitude : -180000000 ≤ p.longitude ∧ p.longitude ≤ 180000000
  areaHectares : p.areaHectares ≠ 0

namespace Action

def SignedBy (x : Address) (a : Action factory W) : Prop :=
  ∃ e c, a = .factory e c ∧ e.auth x = true

def founds : Action factory W → Bool
  | .factory _ (.registerProject ..) => true
  | _ => false

theorem onFactory_of_founds (h : a.founds = true) : a.onFactory id = none := by
  cases a with
  | factory e c => cases c <;> first | rfl | cases h
  | deploy | registry | outside => rfl

end Action

structure Registers (o : Outside W) (a : Action factory W) (sys : System W) (id : BytesN 32)
    (p : ProjectInfo) : Prop where
  signed : a.SignedBy sys.factory.admin
  fresh : sys.factory.project id = none
  hashed : o.sha256 (preimage sys.factory.projectCount p.name p.methodology p.latitude p.longitude
    p.areaHectares) = id
  call : ∃ e admin creditTokenWasmHash minter w,
    a = .factory e (.registerProject admin p.name p.latitude p.longitude p.methodology p.owner
      p.areaHectares creditTokenWasmHash minter) ∧
    o.deploy id creditTokenWasmHash sys.world = .ok (p.creditToken, w) ∧
    p.registrationDate = e.timestamp
  id : p.id = id
  status : p.status = "registered"
  valid : p.Valid

def Entitled (sys : System W) (p : ProjectInfo) (id : BytesN 32) (a : Action factory W) : Prop :=
  match a.onFactory id with
  | none => True
  | some (.status status) =>
    a.SignedBy sys.factory.admin ∧ isValidStatusTransition p.status status = true
  | some (.owner _) => a.SignedBy sys.factory.admin ∨ a.SignedBy p.owner

/-- What the accepted calls of a run say about a project. -/
inductive Chronicle (o : Outside W) (id : BytesN 32) :
    Trace (System W) (Action factory W) → ProjectInfo → Prop
  | registered {st : Step (System W) (Action factory W)} {tr : Trace (System W) (Action factory W)}
      {p : ProjectInfo} (h : Registers o st.label st.before id p) : Chronicle o id (st :: tr) p
  | revised {st : Step (System W) (Action factory W)} {tr : Trace (System W) (Action factory W)}
      {p : ProjectInfo} (h : Chronicle o id tr p) (he : Entitled st.before p id st.label) :
      Chronicle o id (st :: tr) (p.revise (st.label.onFactory id))

theorem Registers.founds (h : Registers o a sys id p) : a.founds = true := by
  obtain ⟨e, admin, hash, minter, w, rfl, -⟩ := h.call
  rfl

theorem Registers.unique {id' : BytesN 32} (h : Registers o a sys id p)
    (h' : Registers o a sys id' q) : id = id' ∧ p = q := by
  obtain ⟨e, admin, hash, minter, w, rfl, hdeploy, hdate⟩ := h.call
  obtain ⟨e', admin', hash', minter', w', heq, hdeploy', hdate'⟩ := h'.call
  obtain ⟨pid, name, latitude, longitude, methodology, owner, status, token, date, area⟩ := p
  obtain ⟨qid, name', latitude', longitude', methodology', owner', status', token', date', area'⟩ :=
    q
  simp only [Action.factory.injEq, Factory.Call.registerProject.injEq] at heq
  obtain ⟨rfl, rfl, rfl, rfl, rfl, rfl, rfl, rfl, rfl, rfl⟩ := heq
  have hid : id = id' := h.hashed.symm.trans h'.hashed
  subst hid
  have htoken : token = token' := congrArg Prod.fst (Except.ok.inj (hdeploy.symm.trans hdeploy'))
  have hpid : pid = qid := h.id.trans h'.id.symm
  have hstatus : status = status' := h.status.trans h'.status.symm
  have hdates : date = date' := hdate.trans hdate'.symm
  rw [htoken, hpid, hstatus, hdates]
  exact ⟨rfl, rfl⟩

inductive Deed (o : Outside W) (a : Action factory W) (sys sys' : System W) : Prop
  | founds (id : BytesN 32) (p : ProjectInfo) (h : Registers o a sys id p)
      (hp : sys'.factory.project = update sys.factory.project id (some p))
      (hn : sys'.factory.projectCount = sys.factory.projectCount + 1)
  | revises (ha : a.founds = false)
      (he : ∀ id p, sys.factory.project id = some p → Entitled sys p id a)
      (hp : ∀ id, sys'.factory.project id =
        (sys.factory.project id).map (·.revise (a.onFactory id)))
      (hn : sys'.factory.projectCount = sys.factory.projectCount)

theorem Deed.still (ha : a.founds = false) (hn : ∀ id, a.onFactory id = none)
    (h : sys'.factory.project = sys.factory.project)
    (hcount : sys'.factory.projectCount = sys.factory.projectCount) : Deed o a sys sys' := by
  refine .revises ha (fun id p _ => ?_) (fun id => ?_) hcount
  · rw [Entitled, hn id]
    trivial
  · rw [h, hn id]
    exact Option.map_id'.symm

theorem Deed.write {u : Update} (ha : a.founds = false)
    (hu : ∀ id', a.onFactory id' = if id = id' then some u else none)
    (hp : sys.factory.project id = some p) (he : Entitled sys p id a)
    (h : sys'.factory.project = update sys.factory.project id (some (p.revise (some u))))
    (hcount : sys'.factory.projectCount = sys.factory.projectCount) : Deed o a sys sys' := by
  refine .revises ha (fun id' q hq => ?_) (fun id' => ?_) hcount
  · rcases eq_or_ne id id' with rfl | hne
    · obtain rfl : p = q := Option.some.inj (hp.symm.trans hq)
      exact he
    · rw [Entitled, hu, if_neg hne]
      trivial
  · rw [h, hu]
    rcases eq_or_ne id id' with rfl | hne
    · rw [update_self, if_pos rfl, hp, Option.map_some]
    · rw [update_of_ne hne.symm, if_neg hne]
      exact Option.map_id'.symm

section Calls

variable {e : Env factory} {f : Factory.State} {rs : Registries} {w : W} {admin caller : Address}
  {projectId creditTokenWasmHash : BytesN 32} {name methodology status : String}
  {latitude longitude : Int64} {areaHectares : UInt64} {owner newOwner : Address}
  {minter : Option Address}

theorem registerProject_deed
    (h : sys.factory.registerProject o e admin name latitude longitude methodology owner
      areaHectares creditTokenWasmHash minter sys.registries sys.world = .ok (id, f, rs, w)) :
    f.admin = sys.factory.admin ∧ Deed o (.factory e (.registerProject admin name latitude longitude
      methodology owner areaHectares creditTokenWasmHash minter)) sys ⟨f, rs, w⟩ := by
  simp only [Factory.State.registerProject, bind_eq_ok, ensure_eq_ok,
    Factory.State.requireAdmin_eq_ok, generateProjectId_eq_ok, pure_eq_ok, Prod.mk.injEq] at h
  obtain ⟨_, ⟨hauth, hadmin⟩, _, hne, _, hle, _, hm, _, hlat, _, hlon, _, harea, _, ⟨-, -, hid⟩, _,
    hfresh, ⟨token, w₁⟩, hdeploy, w₂, -, w₃, -, rs', -, rfl, rfl, rfl, -⟩ := h
  refine ⟨rfl, .founds _ _ ?_ rfl rfl⟩
  refine ⟨⟨e, _, rfl, hadmin ▸ hauth⟩, Option.isNone_iff_eq_none.mp hfresh, hid, ?_, rfl, rfl, ?_⟩
  · exact ⟨e, admin, _, minter, w₁, rfl, hdeploy, rfl⟩
  · exact ⟨hne, hle, hm, hlat, hlon, harea⟩

theorem updateProjectStatus_deed
    (h : sys.factory.updateProjectStatus e admin projectId status sys.registries = .ok (f, rs)) :
    f.admin = sys.factory.admin ∧
      Deed o (.factory e (.updateProjectStatus admin projectId status)) sys
        { sys with factory := f, registries := rs } := by
  obtain ⟨project, hp, ht, hf, -, -⟩ := Factory.updateProjectStatus_cases h
  simp only [Factory.State.updateProjectStatus, bind_eq_ok, Factory.State.requireAdmin_eq_ok] at h
  obtain ⟨_, ⟨hauth, rfl⟩, rs', -, _, -, p, -, h⟩ := h
  have hrest : f.admin = sys.factory.admin ∧ f.projectCount = sys.factory.projectCount := by
    split at h
    · cases h
      exact ⟨rfl, rfl⟩
    · simp only [bind_eq_ok, pure_eq_ok, Prod.mk.injEq] at h
      obtain ⟨_, -, rfl, -⟩ := h
      exact ⟨rfl, rfl⟩
  refine ⟨hrest.1, .write (u := .status status) rfl (fun _ => rfl) hp ?_ hf hrest.2⟩
  simp only [Entitled, Action.onFactory, Factory.Call.update, if_pos]
  exact ⟨⟨e, _, rfl, hauth⟩, ht⟩

theorem updateProjectOwner_deed
    (h : sys.factory.updateProjectOwner e caller projectId newOwner sys.registries = .ok (f, rs)) :
    f.admin = sys.factory.admin ∧
      Deed o (.factory e (.updateProjectOwner caller projectId newOwner)) sys
        { sys with factory := f, registries := rs } := by
  simp only [Factory.State.updateProjectOwner, bind_eq_ok, ensure_eq_ok, Env.requireAuth_eq_ok,
    orPanic_eq_ok, pure_eq_ok, Prod.mk.injEq] at h
  obtain ⟨_, hauth, p, hp, _, hcaller, rs', -, rfl, rfl⟩ := h
  refine ⟨rfl, .write (u := .owner newOwner) rfl (fun _ => rfl) hp ?_ rfl rfl⟩
  simp only [Entitled, Action.onFactory, Factory.Call.update, if_pos]
  rcases hcaller with rfl | rfl
  · exact .inl ⟨e, _, rfl, hauth⟩
  · exact .inr ⟨e, _, rfl, hauth⟩

end Calls

theorem step_deed (hs : System.step o a sys = .ok sys') :
    sys'.factory.admin = sys.factory.admin ∧ Deed o a sys sys' := by
  cases a with
  | factory e c =>
    cases c with
    | initialise => simp [System.step, System.execute, Factory.initialise] at hs
    | setProjectRegistry =>
      simp only [System.step, System.execute, Factory.State.setProjectRegistry, bind_eq_ok,
        pure_eq_ok] at hs
      obtain ⟨_, ⟨_, -, rfl⟩, rfl⟩ := hs
      exact ⟨rfl, .still rfl (fun _ => rfl) rfl rfl⟩
    | registerProject =>
      simp only [System.step, System.execute, bind_eq_ok, pure_eq_ok] at hs
      obtain ⟨⟨id, f, rs, w⟩, h, rfl⟩ := hs
      exact registerProject_deed h
    | updateProjectStatus =>
      simp only [System.step, System.execute, bind_eq_ok, pure_eq_ok] at hs
      obtain ⟨⟨f, rs⟩, h, rfl⟩ := hs
      exact updateProjectStatus_deed h
    | updateProjectOwner =>
      simp only [System.step, System.execute, bind_eq_ok, pure_eq_ok] at hs
      obtain ⟨⟨f, rs⟩, h, rfl⟩ := hs
      exact updateProjectOwner_deed h
  | deploy b admin =>
    simp only [System.step, bind_eq_ok, pure_eq_ok] at hs
    obtain ⟨r, -, rfl⟩ := hs
    exact ⟨rfl, .still rfl (fun _ => rfl) rfl rfl⟩
  | registry b e c =>
    simp only [System.step, bind_eq_ok, pure_eq_ok] at hs
    obtain ⟨r, -, r', -, rfl⟩ := hs
    exact ⟨rfl, .still rfl (fun _ => rfl) rfl rfl⟩
  | outside w =>
    obtain rfl := pure_eq_ok.mp hs
    exact ⟨rfl, .still rfl (fun _ => rfl) rfl rfl⟩

/-- What every stored project satisfies. -/
structure ProjectInfo.Sound (id : BytesN 32) (p : ProjectInfo) : Prop where
  id : p.id = id
  valid : p.Valid
  status : Relation.ReflTransGen Transition "registered" p.status

theorem Entitled.sound (he : Entitled sys p id a) (h : p.Sound id) :
    (p.revise (a.onFactory id)).Sound id := by
  unfold Entitled at he
  cases hu : a.onFactory id with
  | none => exact h
  | some u =>
    obtain ⟨hid, ⟨hne, hle, hm, hlat, hlon, harea⟩, hstatus⟩ := h
    rw [hu] at he
    cases u with
    | owner => exact ⟨hid, ⟨hne, hle, hm, hlat, hlon, harea⟩, hstatus⟩
    | status status =>
      refine ⟨hid, ⟨hne, hle, hm, hlat, hlon, harea⟩, ?_⟩
      rcases isValidStatusTransition_iff.mp he.2 with heq | ht
      · exact heq ▸ hstatus
      · exact hstatus.tail ht

theorem Chronicle.sound (h : Chronicle o id tr p) : p.Sound id := by
  induction h with
  | registered h => exact ⟨h.id, h.valid, h.status ▸ .refl⟩
  | revised _ he ih => exact he.sound ih

theorem Deed.chronicle (h : Deed o a sys sys')
    (hi : ∀ id p, sys.factory.project id = some p ↔ Chronicle o id tr p) (id : BytesN 32)
    (p : ProjectInfo) :
    sys'.factory.project id = some p ↔ Chronicle o id (⟨sys, a, sys'⟩ :: tr) p := by
  cases h with
  | founds id₀ p₀ h hp =>
    have hrevise (id : BytesN 32) (q : ProjectInfo) : q.revise (a.onFactory id) = q := by
      rw [Action.onFactory_of_founds h.founds]
      rfl
    rw [hp]
    constructor
    · intro hsome
      rcases eq_or_ne id id₀ with rfl | hne
      · rw [update_self] at hsome
        exact .registered (Option.some.inj hsome ▸ h)
      · rw [update_of_ne hne] at hsome
        have hentitled : Entitled sys p id a := by
          rw [Entitled, Action.onFactory_of_founds h.founds]
          trivial
        exact hrevise id p ▸ ((hi id p).mp hsome).revised hentitled
    · rintro (hreg | ⟨hold, -⟩)
      · obtain ⟨rfl, rfl⟩ := h.unique hreg
        exact update_self ..
      · rename_i q
        have hq := (hi id q).mpr hold
        have hne : id ≠ id₀ := by
          rintro rfl
          cases h.fresh.symm.trans hq
        rw [update_of_ne hne, hq, hrevise id q]
  | revises ha he hp =>
    rw [hp]
    constructor
    · intro hsome
      obtain ⟨q, hq, rfl⟩ := Option.map_eq_some_iff.mp hsome
      exact ((hi id q).mp hq).revised (he id q hq)
    · rintro (hreg | ⟨hold, -⟩)
      · cases hreg.founds.symm.trans ha
      · rw [(hi id _).mpr hold]
        rfl

def foundings (tr : Trace (System W) (Action factory W)) : ℕ := tr.countP fun st => st.label.founds

theorem foundings_cons :
    foundings (⟨sys, a, sys'⟩ :: tr) = foundings tr + a.founds.toNat := by
  rw [foundings, List.countP_cons, foundings]
  cases a.founds <;> rfl

def Factory.State.ids (s : Factory.State) : Set (BytesN 32) := {id | (s.project id).isSome = true}

/--
The factory stores of each project what the accepted calls say, has as many
projects as it registered, and counts them in a machine word.
-/
structure Chronicled (o : Outside W) (tr : Trace (System W) (Action factory W)) (sys : System W) :
    Prop where
  chronicle : ∀ id p, sys.factory.project id = some p ↔ Chronicle o id tr p
  sound : ∀ id p, sys.factory.project id = some p → p.Sound id
  finite : sys.factory.ids.Finite
  ncard : sys.factory.ids.ncard = foundings tr
  counted : sys.factory.projectCount = UInt64.ofNat (foundings tr)
  admin : ∀ st ∈ tr, st.before.factory.admin = sys.factory.admin

theorem Chronicled.step (h : Chronicled o tr sys) (hs : System.step o a sys = .ok sys') :
    Chronicled o (⟨sys, a, sys'⟩ :: tr) sys' := by
  obtain ⟨hadmin, hdeed⟩ := step_deed hs
  have hchronicle := hdeed.chronicle h.chronicle
  have hids : sys'.factory.ids.Finite ∧
      sys'.factory.ids.ncard = foundings (⟨sys, a, sys'⟩ :: tr) ∧
      sys'.factory.projectCount = UInt64.ofNat (foundings (⟨sys, a, sys'⟩ :: tr)) := by
    rw [foundings_cons]
    cases hdeed with
    | founds id p hreg hp hn =>
      have hinsert : sys'.factory.ids = insert id sys.factory.ids := by
        ext i
        rcases eq_or_ne i id with rfl | hne
        · simp [Factory.State.ids, hp]
        · simp [Factory.State.ids, hp, hne]
      have hnew : id ∉ sys.factory.ids := by simp [Factory.State.ids, hreg.fresh]
      rw [hinsert, hreg.founds, hn, h.counted, Set.ncard_insert_of_notMem hnew h.finite, h.ncard]
      exact ⟨h.finite.insert id, rfl, (UInt64.ofNat_add _ _).symm⟩
    | revises ha he hp hn =>
      have hsame : sys'.factory.ids = sys.factory.ids := by
        ext i
        simp [Factory.State.ids, hp]
      rw [hsame, ha, hn]
      exact ⟨h.finite, h.ncard, h.counted⟩
  obtain ⟨hfinite, hncard, hcounted⟩ := hids
  refine ⟨hchronicle, fun id p hp => ((hchronicle id p).mp hp).sound, hfinite, hncard, hcounted, ?_⟩
  intro st hst
  rcases List.mem_cons.mp hst with rfl | hst
  · exact hadmin.symm
  · exact (h.admin st hst).trans hadmin.symm

/-- In every run the factory has the projects of its chronicle. -/
theorem projects_chronicled {G : Guard (System W) (Action factory W)}
    (h : (System.machine factory o).Run G tr sys) : Chronicled o tr sys := by
  refine h.invariant (I := Chronicled o) ?_ fun _ _ _ _ _ hi _ hs => hi.step hs
  rintro sys ⟨-, admin, hf⟩
  simp only [Factory.initialise, bind_eq_ok, pure_eq_ok] at hf
  obtain ⟨_, -, hf⟩ := hf
  have hempty : sys.factory.ids = ∅ := by
    rw [← hf]
    ext id
    simp [Factory.State.ids]
  refine ⟨fun id p => ?_, fun id p hp => ?_, hempty ▸ Set.finite_empty, ?_, ?_, ?_⟩
  · rw [← hf]
    exact iff_of_false (by simp) (fun h => by cases h)
  · rw [← hf] at hp
    cases hp
  · rw [hempty, Set.ncard_empty]
    rfl
  · rw [← hf]
    rfl
  · exact fun st hst => absurd hst List.not_mem_nil

section Sample

def handedOver : System Unit :=
  (System.machine foundry plainHost).calls twins [activation,
    .factory (.signed 0 0 (.account 1) account_ne_contract)
      (.updateProjectOwner (.account 1) wetland (.account 3))]

theorem projects_chronicled_handedOver : ∃ tr : Trace (System Unit) (Action foundry Unit),
    handedOver.factory.standing wetland = some ⟨"active", .account 3⟩ ∧
      Chronicled plainHost tr handedOver := by
  have hstart : (System.machine foundry plainHost).Reachable founded :=
    ⟨_, .init ⟨rfl, .account 0, rfl⟩⟩
  have htwins : (System.machine foundry plainHost).Reachable twins := hstart.calls _
  obtain ⟨tr, h⟩ := htwins.calls [activation,
    .factory (.signed 0 0 (.account 1) account_ne_contract)
      (.updateProjectOwner (.account 1) wetland (.account 3))]
  exact ⟨tr, by rfl, projects_chronicled h⟩

end Sample

end WaterCredits.Project
