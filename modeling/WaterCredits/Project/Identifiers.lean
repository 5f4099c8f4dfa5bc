import WaterCredits.Foundation.Page
import WaterCredits.Project.Chronicle

/-! # Unique identifiers

An identifier is the hash of a message that starts with a counter, so the
messages of one registry are all different until the counter wraps around. The
factory looks for the identifier before it writes a project.
-/

namespace WaterCredits.Project

open Foundation Function

section Messages

variable {count count' : UInt64} {name name' methodology methodology' : List (BitVec 8)}
  {latitude latitude' longitude longitude' : Int64} {areaHectares areaHectares' : UInt64}
  {text text' : String}

/-- The bytes that an identifier hashes, with texts of any bytes. -/
def message (count : UInt64) (name methodology : List (BitVec 8)) (latitude longitude : Int64)
    (areaHectares : UInt64) : List (BitVec 8) :=
  bytes 8 count.toBitVec ++ (prefixed name ++ (prefixed methodology ++
    (bytes 8 latitude.toBitVec ++ (bytes 8 longitude.toBitVec ++ bytes 8 areaHectares.toBitVec))))

theorem message_inj (hn : name.length < 2 ^ 32) (hn' : name'.length < 2 ^ 32)
    (hm : methodology.length < 2 ^ 32) (hm' : methodology'.length < 2 ^ 32) :
    message count name methodology latitude longitude areaHectares =
        message count' name' methodology' latitude' longitude' areaHectares' ↔
      count = count' ∧ name = name' ∧ methodology = methodology' ∧ latitude = latitude' ∧
        longitude = longitude' ∧ areaHectares = areaHectares' := by
  have hword : ∀ a b : UInt64, (a.toBitVec : BitVec (8 * 8)) = b.toBitVec ↔ a = b :=
    fun _ _ => UInt64.toBitVec_inj
  have hint : ∀ a b : Int64, (a.toBitVec : BitVec (8 * 8)) = b.toBitVec ↔ a = b :=
    fun _ _ => Int64.toBitVec_inj
  have harea : bytes 8 areaHectares.toBitVec = bytes 8 areaHectares'.toBitVec ↔
      areaHectares = areaHectares' :=
    ⟨fun h => UInt64.toBitVec_inj.mp (bytes_injective h), fun h => h ▸ rfl⟩
  simp only [message, bytes_append_inj, prefixed_append_inj hn hn', prefixed_append_inj hm hm',
    harea, hint]
  exact and_congr_left' (hword count count')

theorem length_utf8 : (utf8 text).length = text.utf8ByteSize := by
  rw [utf8, List.length_map, Array.length_toList]
  exact String.size_toByteArray

theorem utf8_injective (h : utf8 text = utf8 text') : text = text' := by
  have hbytes := List.map_injective_iff.mpr (fun _ _ => UInt8.toBitVec_inj.mp) h
  exact String.toByteArray_inj.mp (ByteArray.ext (Array.toList_inj.mp hbytes))

theorem preimage_eq {name methodology : String} :
    preimage count name methodology latitude longitude areaHectares =
      message count (utf8 name) (utf8 methodology) latitude longitude areaHectares := by
  simp only [preimage, message, prefixed, length_utf8, List.append_assoc]
  rfl

theorem preimage_inj {name name' methodology methodology' : String}
    (hn : name.utf8ByteSize ≤ 128) (hn' : name'.utf8ByteSize ≤ 128)
    (hm : methodology.utf8ByteSize ≤ 128) (hm' : methodology'.utf8ByteSize ≤ 128) :
    preimage count name methodology latitude longitude areaHectares =
        preimage count' name' methodology' latitude' longitude' areaHectares' ↔
      count = count' ∧ name = name' ∧ methodology = methodology' ∧ latitude = latitude' ∧
        longitude = longitude' ∧ areaHectares = areaHectares' := by
  have hfits : ∀ text : String, text.utf8ByteSize ≤ 128 → (utf8 text).length < 2 ^ 32 := by
    intro text htext
    rw [length_utf8]
    omega
  have htext : ∀ text text', utf8 text = utf8 text' ↔ text = text' :=
    fun text text' => ⟨utf8_injective, congrArg utf8⟩
  rw [preimage_eq, preimage_eq, message_inj (hfits _ hn) (hfits _ hn') (hfits _ hm) (hfits _ hm'),
    htext, htext]

end Messages

namespace Registry

variable {contract : Address} {sha256 : List (BitVec 8) → BytesN 32} {e : Env contract}
  {s s' : State} {c : Call} {id : BytesN 32} {m : List (BitVec 8)}
  {tr : Trace State (Env contract × Call)}

def standalone (contract : Address) (sha256 : List (BitVec 8) → BytesN 32) :
    Machine State (Env contract × Call) Panic where
  init s := ∃ admin, initialise none admin = .ok s
  step l s := execute sha256 l.1 s l.2

def Call.hashed (s : State) : Call → Option (List (BitVec 8))
  | .register _ name latitude longitude methodology _ areaHectares =>
      some (preimage s.projectCount name methodology latitude longitude areaHectares)
  | _ => none

def Call.returned (sha256 : List (BitVec 8) → BytesN 32) (e : Env contract) (s : State) :
    Call → Option (BytesN 32)
  | .register caller name latitude longitude methodology owner areaHectares =>
      (s.register sha256 e caller name latitude longitude methodology owner
        areaHectares).toOption.map Prod.fst
  | _ => none

def hashed (tr : Trace State (Env contract × Call)) : List (List (BitVec 8)) :=
  written (fun st => st.label.2.hashed st.before) tr

def issued (sha256 : List (BitVec 8) → BytesN 32) (tr : Trace State (Env contract × Call)) :
    List (BytesN 32) :=
  written (fun st => st.label.2.returned sha256 st.label.1 st.before) tr

def CountedBy (count : UInt64) (m : List (BitVec 8)) : Prop :=
  ∃ rest, m = bytes 8 count.toBitVec ++ rest

/-- A registration writes an entry under the identifier that it returns. -/
structure Registers (sha256 : List (BitVec 8) → BytesN 32) (s s' : State)
    (m : List (BitVec 8)) : Prop where
  counted : CountedBy s.projectCount m
  project : ∃ entry : ProjectEntry, entry.id = sha256 m ∧
    s'.project = update s.project (sha256 m) (some entry)
  projectIdAt : s'.projectIdAt = update s.projectIdAt s.projectCount (some (sha256 m))
  projectCount : s'.projectCount = s.projectCount + 1

/-- The index and the identifiers of the entries stay. -/
structure Retains (s s' : State) : Prop where
  ids : ∀ id, (s'.project id).map (·.id) = (s.project id).map (·.id)
  projectIdAt : s'.projectIdAt = s.projectIdAt
  projectCount : s'.projectCount = s.projectCount

theorem ids_update {entry entry' : ProjectEntry} (h : s.project id = some entry)
    (hid : entry'.id = entry.id) (x : BytesN 32) :
    (update s.project id (some entry') x).map (·.id) = (s.project x).map (·.id) := by
  rcases eq_or_ne x id with rfl | hne
  · rw [update_self, h, Option.map_some, Option.map_some, hid]
  · rw [update_of_ne hne]

theorem execute_index (h : execute sha256 e s c = .ok s') :
    (c.hashed s = none ∧ c.returned sha256 e s = none ∧ Retains s s') ∨
      ∃ m, c.hashed s = some m ∧ c.returned sha256 e s = some (sha256 m) ∧
        Registers sha256 s s' m := by
  cases c with
  | initialise => simp [execute, initialise] at h
  | register =>
    obtain ⟨⟨id, t⟩, hr, rfl⟩ := map_eq_ok.mp h
    have hreturned := congrArg (fun r => (Except.toOption r).map Prod.fst) hr
    simp only [State.register, bind_eq_ok, ensure_eq_ok, generateProjectId_eq_ok, pure_eq_ok,
      Prod.mk.injEq] at hr
    obtain ⟨_, -, _, -, _, -, _, -, _, -, _, -, id', ⟨-, -, rfl⟩, rfl, rfl⟩ := hr
    exact .inr ⟨_, rfl, hreturned, ⟨_, rfl⟩, ⟨_, rfl, rfl⟩, rfl, rfl⟩
  | updateStatus =>
    simp only [execute, State.updateStatus, bind_eq_ok, ensure_eq_ok, orPanic_eq_ok] at h
    obtain ⟨_, -, _, -, _, -, entry, he, h⟩ := h
    refine .inl ⟨rfl, rfl, ?_⟩
    split at h
    · obtain rfl := pure_eq_ok.mp h
      exact ⟨fun _ => rfl, rfl, rfl⟩
    · simp only [bind_eq_ok, ensure_eq_ok, pure_eq_ok] at h
      obtain ⟨_, -, rfl⟩ := h
      exact ⟨ids_update he rfl, rfl, rfl⟩
  | setAuthorizedCaller =>
    simp only [execute, State.setAuthorizedCaller, bind_eq_ok, pure_eq_ok] at h
    obtain ⟨_, -, _, -, rfl⟩ := h
    exact .inl ⟨rfl, rfl, fun _ => rfl, rfl, rfl⟩
  | updateOwner =>
    simp only [execute, State.updateOwner, bind_eq_ok, ensure_eq_ok, orPanic_eq_ok,
      pure_eq_ok] at h
    obtain ⟨_, -, entry, he, _, -, rfl⟩ := h
    exact .inl ⟨rfl, rfl, ids_update he rfl, rfl, rfl⟩

/-- The index and the entries after some messages. -/
structure Assigned (sha256 : List (BitVec 8) → BytesN 32) (M : List (List (BitVec 8)))
    (s : State) : Prop where
  counted : ∀ k m, M[k]? = some m → CountedBy (.ofNat k) m
  logged : Logged s.projectCount s.projectIdAt (M.map sha256)
  filled : Filled s.projectCount fun i => (s.projectIdAt i).bind s.project
  keyed : ∀ id x, (s.project id).map (·.id) = some x → x = id
  listed : ∀ id, (s.project id).isSome = true → id ∈ M.map sha256

namespace Assigned

variable {M : List (List (BitVec 8))}

theorem retain (h : Assigned sha256 M s) (hs : Retains s s') : Assigned sha256 M s' := by
  have hsome : ∀ id, (s'.project id).isSome = (s.project id).isSome := by
    intro id
    rw [← Option.isSome_map (f := (·.id)), hs.ids, Option.isSome_map]
  constructor
  · exact h.counted
  · rw [hs.projectCount, hs.projectIdAt]
    exact h.logged
  · intro i hi
    rw [hs.projectCount] at hi
    obtain ⟨entry, hentry⟩ := Option.isSome_iff_exists.mp (h.filled i hi)
    obtain ⟨id, hid, he⟩ := Option.bind_eq_some_iff.mp hentry
    simp only [hs.projectIdAt, hid, Option.bind_some, hsome, he, Option.isSome_some]
  · intro id x hx
    rw [hs.ids] at hx
    exact h.keyed id x hx
  · intro id hid
    rw [hsome] at hid
    exact h.listed id hid

theorem register (h : Assigned sha256 M s) (hs : Registers sha256 s s' m) :
    Assigned sha256 (M ++ [m]) s' := by
  obtain ⟨entry, hid, hproject⟩ := hs.project
  constructor
  · apply forall_getElem?_concat h.counted
    have hcount := h.logged.counter
    rw [List.length_map] at hcount
    exact hcount ▸ hs.counted
  · rw [hs.projectCount, List.map_append, List.map_singleton]
    exact h.logged.append hs.projectIdAt
  · rw [hs.projectCount]
    apply h.filled.append
    · simp only [hs.projectIdAt, hproject, update_self, Option.bind_some, Option.isSome_some]
    · intro i hi
      obtain ⟨old, hold⟩ := Option.isSome_iff_exists.mp hi
      obtain ⟨id, hat, he⟩ := Option.bind_eq_some_iff.mp hold
      have hkept : (s'.project id).isSome = true := by
        rw [hproject]
        exact isSome_update (by rw [he, Option.isSome_some])
      rw [hs.projectIdAt, update_apply]
      split
      · simp only [hproject, Option.bind_some, update_self, Option.isSome_some]
      · rwa [hat, Option.bind_some]
  · intro id x hx
    rw [hproject, update_apply] at hx
    split at hx
    · rename_i heq
      rw [heq, ← hid]
      exact (Option.some.inj hx).symm
    · exact h.keyed id x hx
  · intro id hsome
    rw [hproject, update_apply] at hsome
    rw [List.map_append, List.map_singleton, List.mem_append, List.mem_singleton]
    split at hsome
    · rename_i heq
      exact .inr heq
    · exact .inl (h.listed id hsome)

end Assigned

theorem assigned_run (h : (standalone contract sha256).Run Machine.anyCall tr s) :
    issued sha256 tr = (hashed tr).map sha256 ∧ Assigned sha256 (hashed tr) s := by
  refine h.invariant (I := fun tr s => issued sha256 tr = (hashed tr).map sha256 ∧
    Assigned sha256 (hashed tr) s) ?_ ?_
  · rintro s ⟨admin, hs⟩
    obtain ⟨-, rfl⟩ := initialise_eq_ok.mp hs
    refine ⟨rfl, fun k m hk => ?_, .nil, fun i hi => ?_, fun id x hx => ?_, fun id hid => ?_⟩
    · simp [hashed] at hk
    · exact absurd hi (UInt64.not_lt_zero)
    · simp at hx
    · simp at hid
  · rintro tr s ⟨e, c⟩ s' - ⟨heq, hi⟩ - hs
    rcases execute_index hs with ⟨hnone, hnone', hr⟩ | ⟨m, hm, hid, hr⟩
    · rw [issued, hashed, written_of_none hnone', written_of_none hnone]
      exact ⟨heq, hi.retain hr⟩
    · rw [issued, hashed, written_of_some hid, written_of_some hm, List.map_append,
        List.map_singleton]
      exact ⟨congrArg (· ++ [sha256 m]) heq, hi.register hr⟩

theorem CountedBy.value_eq {count : UInt64} (h : CountedBy count m) :
    value (m.take 8) = count.toNat := by
  obtain ⟨rest, rfl⟩ := h
  rw [List.take_left' length_bytes, value_bytes, UInt64.toNat_toBitVec]

/-- The counters of the messages are different until they have all been used. -/
theorem Assigned.nodup {M : List (List (BitVec 8))} (h : Assigned sha256 M s)
    (hM : M.length ≤ 2 ^ 64) : M.Nodup := by
  have hnumbered : Numbered (fun m => value (m.take 8) + 1) M := by
    intro k m hk
    have hlt : k < 2 ^ 64 := (List.getElem?_eq_some_iff.mp hk).1.trans_le hM
    have hvalue := (h.counted k m hk).value_eq
    rw [UInt64.toNat_ofNat_of_lt' hlt] at hvalue
    exact congrArg (· + 1) hvalue
  exact hnumbered.nodup

/-- The identifiers that a registry has returned are different, and none was written over. -/
structure UniqueIds (sha256 : List (BitVec 8) → BytesN 32)
    (tr : Trace State (Env contract × Call)) (s : State) : Prop where
  distinct : (issued sha256 tr).Nodup
  fresh : ∀ st ∈ tr, ∀ id, st.label.2.returned sha256 st.label.1 st.before = some id →
    st.before.project id = none
  indexed : ∀ i j id, i < s.projectCount → j < s.projectCount → s.projectIdAt i = some id →
    s.projectIdAt j = some id → i = j
  stored : ∀ i, i < s.projectCount → ∃ id entry, s.projectIdAt i = some id ∧
    s.project id = some entry ∧ entry.id = id

theorem Assigned.stored {M : List (List (BitVec 8))} (h : Assigned sha256 M s) (i : UInt64)
    (hi : i < s.projectCount) : ∃ id entry, s.projectIdAt i = some id ∧
      s.project id = some entry ∧ entry.id = id := by
  obtain ⟨entry, hentry⟩ := Option.isSome_iff_exists.mp (h.filled i hi)
  obtain ⟨id, hid, he⟩ := Option.bind_eq_some_iff.mp hentry
  exact ⟨id, entry, hid, he, h.keyed id entry.id (congrArg _ he)⟩

theorem uniqueIds_run (h : (standalone contract sha256).Run Machine.anyCall tr s)
    (hlength : (issued sha256 tr).length ≤ 2 ^ 64)
    (hsha : Set.InjOn sha256 {m | m ∈ hashed tr}) : UniqueIds sha256 tr s := by
  obtain ⟨heq, hs⟩ := assigned_run h
  rw [heq, List.length_map] at hlength
  have hdistinct : ((hashed tr).map sha256).Nodup :=
    (hs.nodup hlength).map_on fun m hm m' hm' => hsha hm hm'
  constructor
  · rwa [heq]
  · intro st hst id hid
    by_contra hsome
    obtain ⟨post, pre, rfl⟩ := List.append_of_mem hst
    obtain ⟨hpre, -, hstep⟩ := h.split
    obtain ⟨-, hbefore⟩ := assigned_run hpre
    have hold := hbefore.listed id (Option.isSome_iff_ne_none.mpr hsome)
    rcases execute_index hstep with ⟨-, hnone, -⟩ | ⟨m, hm, hid', -⟩
    · rw [hid] at hnone
      cases hnone
    · obtain rfl := Option.some.inj (hid.symm.trans hid')
      have hwritten : hashed (post ++ st :: pre) = hashed pre ++ hashed (post ++ [st]) :=
        written_split
      have hnew : m ∈ hashed (post ++ [st]) := mem_written.mpr ⟨st, by simp, hm⟩
      rw [hwritten, List.map_append] at hdistinct
      exact (List.nodup_append.mp hdistinct).2.2 _ hold _ (List.mem_map_of_mem hnew) rfl
  · intro i j id hi hj hid hid'
    have hcount := hs.logged.counter
    rcases Nat.lt_or_ge (hashed tr).length (2 ^ 64) with hlt | hge
    · have hlt : ((hashed tr).map sha256).length < 2 ^ 64 := by rwa [List.length_map]
      rw [hs.logged.entries hlt] at hid hid'
      have hbound := (List.getElem?_eq_some_iff.mp hid).1
      exact UInt64.toNat_inj.mp ((List.getElem?_inj hbound hdistinct).mp (hid.trans hid'.symm))
    · obtain hfull : (hashed tr).length = 2 ^ 64 := le_antisymm hlength hge
      rw [hcount, List.length_map, hfull] at hi
      exact absurd hi (UInt64.not_lt_zero)
  · exact hs.stored

end Registry

section Factory

variable {factory : Address} {W : Type} {o : Outside W} {s s' : System W} {a : Action factory W}
  {tr : Trace (System W) (Action factory W)} {id : BytesN 32}

def Action.returned (o : Outside W) (s : System W) : Action factory W → Option (BytesN 32)
  | .factory e (.registerProject admin name latitude longitude methodology owner areaHectares
      creditTokenWasmHash minter) =>
      (s.factory.registerProject o e admin name latitude longitude methodology owner areaHectares
        creditTokenWasmHash minter s.registries s.world).toOption.map Prod.fst
  | _ => none

def founding (o : Outside W) (tr : Trace (System W) (Action factory W)) : List (BytesN 32) :=
  written (fun st => st.label.returned o st.before) tr

theorem step_projects (h : System.step o a s = .ok s')
    (hid : (s.factory.project id).isSome = true) : (s'.factory.project id).isSome = true := by
  cases (step_deed h).2 with
  | founds id' p _ hp => exact hp ▸ isSome_update hid
  | revises _ _ hp => rwa [hp, Option.isSome_map]

theorem step_returned (h : System.step o a s = .ok s') (hid : a.returned o s = some id) :
    s.factory.project id = none ∧ (s'.factory.project id).isSome = true := by
  cases a with
  | factory e c =>
    cases c with
    | registerProject =>
      simp only [System.step, System.execute, bind_eq_ok, pure_eq_ok] at h
      obtain ⟨⟨new, f, rs, w⟩, hr, rfl⟩ := h
      have hreturned := congrArg (fun r => (Except.toOption r).map Prod.fst) hr
      obtain rfl := Option.some.inj (hreturned.symm.trans hid)
      obtain ⟨-, hnone, -, ⟨creditToken, hp⟩, -⟩ := Factory.registerProject_cases hr
      exact ⟨hnone, by simp only [hp, update_self, Option.isSome_some]⟩
    | _ => cases hid
  | _ => cases hid

/-- The identifiers that a factory has returned are different, and none was written over. -/
structure UniqueProjects (o : Outside W) (tr : Trace (System W) (Action factory W)) : Prop where
  distinct : (founding o tr).Nodup
  fresh : ∀ st ∈ tr, ∀ id, st.label.returned o st.before = some id →
    st.before.factory.project id = none

theorem uniqueProjects_run (h : (System.machine factory o).Run Machine.anyCall tr s) :
    UniqueProjects o tr := by
  have hrun : (founding o tr).Nodup ∧
      ∀ id ∈ founding o tr, (s.factory.project id).isSome = true := by
    refine h.invariant (I := fun tr s => (founding o tr).Nodup ∧
      ∀ id ∈ founding o tr, (s.factory.project id).isSome = true) ?_ ?_
    · exact fun s _ => ⟨List.nodup_nil, fun id hid => absurd hid List.not_mem_nil⟩
    · rintro tr s a s' - ⟨hnodup, hi⟩ - hs
      cases ha : a.returned o s with
      | none =>
        rw [founding, written_of_none ha]
        exact ⟨hnodup, fun id hid => step_projects hs (hi id hid)⟩
      | some id =>
        obtain ⟨hnone, hsome⟩ := step_returned hs ha
        rw [founding, written_of_some ha]
        constructor
        · rw [List.nodup_append]
          refine ⟨hnodup, List.nodup_singleton id, ?_⟩
          rintro id' hid' _ hid rfl
          have hstored := hi _ hid'
          rw [List.mem_singleton.mp hid, hnone] at hstored
          cases hstored
        · intro id' hid'
          rcases List.mem_append.mp hid' with hid' | hid'
          · exact step_projects hs (hi id' hid')
          · rwa [List.mem_singleton.mp hid']
  constructor
  · exact hrun.1
  · intro st hst id hid
    obtain ⟨tr', -, -, hstep⟩ := h.mem st hst
    exact (step_returned hstep hid).1

end Factory

/-- Equal messages come from equal inputs, whatever the bytes of their texts are. -/
structure MessagesDecode : Prop where
  bytes : ∀ (count count' : UInt64) (name name' methodology methodology' : List (BitVec 8))
    (latitude latitude' longitude longitude' : Int64) (areaHectares areaHectares' : UInt64),
    name.length ≤ 128 → name'.length ≤ 128 → methodology.length ≤ 128 →
      methodology'.length ≤ 128 →
      message count name methodology latitude longitude areaHectares =
        message count' name' methodology' latitude' longitude' areaHectares' →
      count = count' ∧ name = name' ∧ methodology = methodology' ∧ latitude = latitude' ∧
        longitude = longitude' ∧ areaHectares = areaHectares'
  texts : ∀ (count count' : UInt64) (name name' methodology methodology' : String)
    (latitude latitude' longitude longitude' : Int64) (areaHectares areaHectares' : UInt64),
    name.utf8ByteSize ≤ 128 → name'.utf8ByteSize ≤ 128 → methodology.utf8ByteSize ≤ 128 →
      methodology'.utf8ByteSize ≤ 128 →
      preimage count name methodology latitude longitude areaHectares =
        preimage count' name' methodology' latitude' longitude' areaHectares' →
      count = count' ∧ name = name' ∧ methodology = methodology' ∧ latitude = latitude' ∧
        longitude = longitude' ∧ areaHectares = areaHectares'

theorem messages_decode : MessagesDecode := by
  constructor
  · intro count count' name name' methodology methodology' latitude latitude' longitude longitude'
      areaHectares areaHectares' hn hn' hm hm'
    exact (message_inj (by omega) (by omega) (by omega) (by omega)).mp
  · intro count count' name name' methodology methodology' latitude latitude' longitude longitude'
      areaHectares areaHectares' hn hn' hm hm'
    exact (preimage_inj hn hn' hm hm').mp

/--
Messages tell their inputs apart. So the identifiers of a registry are unique
while its counter has unused values and the hashed messages do not collide. The
factory gives out no identifier twice in any case.
-/
theorem project_ids_unique {contract factory : Address} {W : Type} {o : Outside W}
    {sha256 : List (BitVec 8) → BytesN 32}
    {tr : Trace Registry.State (Env contract × Registry.Call)}
    {s : Registry.State} {ftr : Trace (System W) (Action factory W)} {sys : System W}
    (h : (Registry.standalone contract sha256).Run Machine.anyCall tr s)
    (hf : (System.machine factory o).Run Machine.anyCall ftr sys) :
    MessagesDecode ∧
      (∀ i, i < s.projectCount → ∃ id entry, s.projectIdAt i = some id ∧
        s.project id = some entry ∧ entry.id = id) ∧
      ((Registry.issued sha256 tr).length ≤ 2 ^ 64 →
        Set.InjOn sha256 {m | m ∈ Registry.hashed tr} → Registry.UniqueIds sha256 tr s) ∧
      UniqueProjects o ftr :=
  ⟨messages_decode, (Registry.assigned_run h).2.stored, Registry.uniqueIds_run h,
    uniqueProjects_run hf⟩

section Sample

def counterHash (m : List (BitVec 8)) : BytesN 32 := .ofNat _ (value (m.take 8))

/-- The message of the project that the samples register. -/
def lagoon (count : UInt64) : List (BitVec 8) := preimage count "lagoon" "v1" 0 0 5

def registering : Registry.Call := .register (.account 0) "lagoon" 0 0 "v1" (.account 1) 5

theorem counterHash_lagoon {count : UInt64} :
    (counterHash (lagoon count)).toNat = count.toNat := by
  have hvalue : value ((lagoon count).take 8) = count.toNat := Registry.CountedBy.value_eq ⟨_, rfl⟩
  have hlt := count.toNat_lt
  rw [counterHash, hvalue, BitVec.toNat_ofNat, Nat.mod_eq_of_lt (by omega)]

theorem counterHash_injOn : Set.InjOn counterHash (Set.range lagoon) := by
  rintro _ ⟨count, rfl⟩ _ ⟨count', rfl⟩ heq
  have hcount := congrArg BitVec.toNat heq
  rw [counterHash_lagoon, counterHash_lagoon] at hcount
  rw [UInt64.toNat_inj.mp hcount]

theorem register_lagoon {s : Registry.State} (hadmin : s.admin = .account 0) :
    ∃ s', Registry.execute counterHash (byAdmin : Env directory) s registering = .ok s' ∧
      s'.admin = .account 0 ∧ s'.projectCount = s.projectCount + 1 := by
  simp only [Registry.execute, registering, Registry.State.register, map_eq_ok, bind_eq_ok,
    ensure_eq_ok, Env.requireAuth_eq_ok, generateProjectId_eq_ok, pure_eq_ok]
  exact ⟨_, ⟨(_, _), ⟨(), by rfl, (), .inl hadmin.symm, (), by decide, (), by decide, (), by decide,
    (), by decide, _, ⟨by decide, by decide, rfl⟩, rfl⟩, rfl⟩, hadmin, rfl⟩

theorem lagoon_run (k : ℕ) : ∃ tr s,
    (Registry.standalone directory counterHash).Run Machine.anyCall tr s ∧
      Registry.hashed tr = (List.range k).map (fun j => lagoon (.ofNat j)) ∧
      s.admin = .account 0 ∧ s.projectCount = .ofNat k := by
  induction k with
  | zero => exact ⟨[], _, .init ⟨.account 0, rfl⟩, rfl, rfl, rfl⟩
  | succ k ih =>
    obtain ⟨tr, s, hrun, hhashed, hadmin, hcount⟩ := ih
    obtain ⟨s', hs, hadmin', hcount'⟩ := register_lagoon hadmin
    refine ⟨_, s', hrun.step (l := (byAdmin, registering)) trivial hs, ?_, hadmin', ?_⟩
    · have hm : Registry.Call.hashed s registering = some (lagoon s.projectCount) := rfl
      rw [Registry.hashed, written_of_some hm, List.range_succ, List.map_append, List.map_singleton,
        hcount]
      exact congrArg (· ++ [lagoon (.ofNat k)]) hhashed
    · rw [hcount', hcount]
      exact (UInt64.ofNat_add ..).symm

/-- When the counter starts again, the same project gets the same identifier again. -/
theorem identifier_issued_again : ∃ tr s,
    (Registry.standalone directory counterHash).Run Machine.anyCall tr s ∧
      Set.InjOn counterHash {m | m ∈ Registry.hashed tr} ∧
      ¬ Registry.UniqueIds counterHash tr s := by
  obtain ⟨tr, s, hrun, hhashed, -, -⟩ := lagoon_run (2 ^ 64 + 1)
  refine ⟨tr, s, hrun, counterHash_injOn.mono ?_, fun h => ?_⟩
  · intro m hm
    obtain ⟨j, -, rfl⟩ := List.mem_map.mp (hhashed ▸ hm)
    exact ⟨_, rfl⟩
  · have hdistinct := h.distinct
    rw [(Registry.assigned_run hrun).1, hhashed, List.map_map] at hdistinct
    have hwrap : UInt64.ofNat 0 = UInt64.ofNat (2 ^ 64) := rfl
    have hagain : (0 : ℕ) = 2 ^ 64 := List.inj_on_of_nodup_map hdistinct (by simp) (by simp)
      (congrArg (fun count => counterHash (lagoon count)) hwrap)
    norm_num at hagain

/-- A registry registers the same project twice, and a factory another one. -/
theorem project_ids_unique_lagoon : ∃ tr s ftr sys,
    (Registry.standalone directory counterHash).Run Machine.anyCall tr s ∧
      (System.machine foundry plainHost).Run Machine.anyCall ftr sys ∧
      (Registry.issued counterHash tr).length = 2 ∧ Registry.UniqueIds counterHash tr s ∧
      (founding plainHost ftr).length = 1 ∧ UniqueProjects plainHost ftr := by
  obtain ⟨tr, s, hrun, hhashed, -, -⟩ := lagoon_run 2
  have hfounded := (Machine.Run.init (m := System.machine foundry plainHost)
    (G := Machine.anyCall) (s := founded) ⟨rfl, .account 0, rfl⟩).call
    (l := .factory byAdmin
      (.registerProject (.account 0) "wetland" 0 0 "v1" (.account 1) 5 0 none)) trivial (by rfl)
  obtain ⟨-, -, hids, hprojects⟩ := project_ids_unique hrun hfounded
  have hlength : (Registry.issued counterHash tr).length = 2 := by
    rw [(Registry.assigned_run hrun).1, hhashed]
    rfl
  have hsha : Set.InjOn counterHash {m | m ∈ Registry.hashed tr} := by
    apply counterHash_injOn.mono
    intro m hm
    obtain ⟨j, -, rfl⟩ := List.mem_map.mp (hhashed ▸ hm)
    exact ⟨_, rfl⟩
  exact ⟨tr, s, _, _, hrun, hfounded, hlength, hids (by omega) hsha, by rfl, hprojects⟩

end Sample

end WaterCredits.Project
