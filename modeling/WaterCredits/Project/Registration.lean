import WaterCredits.Project.Effects

/-! # Registration in both contracts

The factory and the registry derive the identifier of a project from counters of
their own. A registration reaches the registry under the identifier that the
factory returns when the counters agree, and hardly otherwise.
-/

namespace WaterCredits.Project

open Foundation Function

structure ProjectEntry.Describes (entry : ProjectEntry) (name : String)
    (latitude longitude : Int64) (methodology : String) (owner : Address) (areaHectares : UInt64)
    (status : String) : Prop where
  name : entry.name = name
  latitude : entry.latitude = latitude
  longitude : entry.longitude = longitude
  methodology : entry.methodology = methodology
  owner : entry.owner = owner
  areaHectares : entry.areaHectares = areaHectares
  status : entry.status = status

def Agree (s : Factory.State) (rs : Registries) (registry : Address) (id : BytesN 32) : Prop :=
  ∃ project r entry, s.project id = some project ∧ rs registry = some r ∧
    r.project id = some entry ∧
    entry.Describes project.name project.latitude project.longitude project.methodology
      project.owner project.areaHectares project.status

/--
A new project of the factory has the same identifier in the registry: the
counters agree, the hash of two messages collides, or the registry has such a
project under it already.
-/
def Aligned (sha256 : List (BitVec 8) → BytesN 32) (s : Factory.State) (r : Registry.State)
    (name : String) (latitude longitude : Int64) (methodology : String) (owner : Address)
    (areaHectares : UInt64) : Prop :=
  let message (count : UInt64) := preimage count name methodology latitude longitude areaHectares
  r.projectCount = s.projectCount ∨
    (message r.projectCount ≠ message s.projectCount ∧
      sha256 (message r.projectCount) = sha256 (message s.projectCount)) ∨
    ∃ entry, r.project (sha256 (message s.projectCount)) = some entry ∧
      entry.Describes name latitude longitude methodology owner areaHectares "registered"

variable {contract registry admin owner : Address} {W : Type} {o : Outside W} {e : Env contract}
  {s s' : Factory.State} {rs rs' : Registries} {w w' : W} {id creditTokenWasmHash : BytesN 32}
  {name methodology : String} {latitude longitude : Int64} {areaHectares : UInt64}
  {minter : Option Address}

/--
An accepted registration leaves the same project in the configured registry,
under the identifier that it returns, exactly when the two were aligned; from
then on the registry keeps an entry under that identifier.
-/
theorem registered_iff
    (h : s.registerProject o e admin name latitude longitude methodology owner areaHectares
      creditTokenWasmHash minter rs w = .ok (id, s', rs', w'))
    (hreg : s.projectRegistry = some registry) :
    (Agree s' rs' registry id ↔ ∃ r, rs registry = some r ∧
        Aligned o.sha256 s r name latitude longitude methodology owner areaHectares) ∧
      (Agree s' rs' registry id → ∀ tr sys,
        ((System.machine contract o).startedIn ⟨s', rs', w'⟩).Run Machine.anyCall tr sys →
          sys.registries.Holds registry id) := by
  obtain ⟨rfl, -, -, ⟨creditToken, hp⟩, hx⟩ := Factory.registerProject_cases h
  rcases Factory.crossCall_cases hx with ⟨hn, -⟩ | ⟨registry', r, r', id', hs, hr, hc, rfl⟩
  · rw [hreg] at hn
    cases hn
  obtain rfl : registry = registry' := Option.some.inj (hreg.symm.trans hs)
  obtain ⟨-, rfl, hr'⟩ := Registry.register_cases hc
  constructor
  · have hagree : Agree s' (update rs registry (some r')) registry
        (o.sha256 (preimage s.projectCount name methodology latitude longitude areaHectares)) ↔
        ∃ entry, r'.project (o.sha256 (preimage s.projectCount name methodology latitude longitude
          areaHectares)) = some entry ∧
          entry.Describes name latitude longitude methodology owner areaHectares "registered" := by
      simp [Agree, hp]
    have haligned : (∃ t, rs registry = some t ∧
        Aligned o.sha256 s t name latitude longitude methodology owner areaHectares) ↔
        Aligned o.sha256 s r name latitude longitude methodology owner areaHectares := by
      simp [hr]
    rw [hagree, haligned, hr', Aligned]
    by_cases hid : o.sha256 (preimage r.projectCount name methodology latitude longitude
        areaHectares) = o.sha256 (preimage s.projectCount name methodology latitude longitude
        areaHectares)
    · refine iff_of_true ⟨_, (congrArg _ hid.symm).trans (update_self ..), ?_⟩ ?_
      · exact ⟨rfl, rfl, rfl, rfl, rfl, rfl, rfl⟩
      by_cases hcount : r.projectCount = s.projectCount
      · exact .inl hcount
      · exact .inr (.inl ⟨mt preimage_count.mp hcount, hid⟩)
    · rw [update_of_ne (Ne.symm hid)]
      have hcount : r.projectCount ≠ s.projectCount := fun heq => hid (by rw [heq])
      simp [hid, hcount]
  · rintro ⟨project, t, entry, -, ht, he, -⟩ tr sys hrun
    exact run_holds hrun ⟨t, ht, by simp [he]⟩

section Sample

/-- The addresses that the samples deploy the factory and the registry at. -/
abbrev foundry : Address := .contract 1

@[inherit_doc foundry]
abbrev directory : Address := .contract 2

/-- Every token deploys and initialises; a hash tells counters and first letters of names apart. -/
def plainHost : Outside Unit where
  sha256 message := BitVec.ofNat _ (256 * (message.getD 7 0).toNat + (message.getD 12 0).toNat)
  deploy salt _ w := .ok (.contract salt, w)
  initialise _ _ _ _ _ _ _ w := .ok w
  setMinter _ _ _ _ w := .ok w

/-- A sample call that the admin of both contracts authorises. -/
def byAdmin {id : BytesN 32} : Env (.contract id) := .signed 0 0 (.account 0) account_ne_contract

def attached : List (Action foundry Unit) :=
  [.deploy directory (.account 0),
    .registry directory byAdmin (.setAuthorizedCaller (.account 0) foundry true),
    .factory byAdmin (.setProjectRegistry (.account 0) (some directory))]

def founded : System Unit where
  factory := { admin := .account 0 }
  world := ()

/-- Both contracts are ready for their first project. -/
def paired : System Unit := (System.machine foundry plainHost).calls founded attached

theorem registered_iff_first : ∃ id s' rs' w',
    paired.factory.registerProject plainHost (byAdmin : Env foundry) (.account 0) "wetland"
      0 0 "v1" (.account 1) 5 0 none paired.registries () = .ok (id, s', rs', w') ∧
      Agree s' rs' directory id := by
  obtain ⟨id, s', rs', w', h⟩ : ∃ id s' rs' w',
      paired.factory.registerProject plainHost (byAdmin : Env foundry) (.account 0)
        "wetland" 0 0 "v1" (.account 1) 5 0 none paired.registries () = .ok (id, s', rs', w') :=
    ⟨_, _, _, _, rfl⟩
  have hiff : Agree s' rs' directory id ↔ _ := (registered_iff h rfl).1
  exact ⟨id, s', rs', w', h, hiff.mpr ⟨_, rfl, .inl rfl⟩⟩

/-- The registry has a project of its own before the first one of the factory. -/
def outpaced : System Unit :=
  (System.machine foundry plainHost).calls founded (attached ++
    [.registry directory byAdmin (.register (.account 0) "lagoon" 0 0 "v1" (.account 1) 5)])

theorem registered_under_another_id :
    (System.machine foundry plainHost).Reachable outpaced ∧
      outpaced.factory.projectRegistry = some directory ∧ ∃ id s' rs' w',
      outpaced.factory.registerProject plainHost (byAdmin : Env foundry) (.account 0)
          "wetland" 0 0 "v1" (.account 1) 5 0 none outpaced.registries () =
        .ok (id, s', rs', w') ∧
      ¬ Agree s' rs' directory id ∧
      s'.updateProjectOwner (byAdmin : Env foundry) (.account 0) id (.account 3) rs' =
        .error (.message "project not found") := by
  have hr : (System.machine foundry plainHost).Reachable founded :=
    ⟨_, .init ⟨rfl, .account 0, rfl⟩⟩
  refine ⟨hr.calls _, rfl, _, _, _, _, rfl, ?_, rfl⟩
  rintro ⟨project, r, entry, -, hr, he, -⟩
  cases hr
  have hn : some entry = none := he.symm.trans rfl
  cases hn

end Sample

end WaterCredits.Project
