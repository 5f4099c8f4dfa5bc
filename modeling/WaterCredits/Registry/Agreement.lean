import WaterCredits.Foundation.Journal
import WaterCredits.Registry.System
import WaterCredits.Token.Archive

/-! # Tokens and registry agree

The retirements of a run form a journal. The registry holds its entries by number,
and each token certifies its own part of it, so the two logs name each other.
-/

namespace WaterCredits.Registry

open Foundation Function

variable {registry : Address}

def Action.entry (s : System) : Action registry → Option RetirementRecord
  | .token creditToken e (.retire holder amount purpose metadataUri) =>
      (s.token creditToken).map fun t => {
        id := s.registry.recordCount + 1
        retiree := holder
        projectId := t.metadata.projectId
        creditToken, amount, purpose, metadataUri
        timestamp := e.timestamp }
  | _ => none

def journal : Trace System (Action registry) → List RetirementRecord
  | [] => []
  | st :: tr => journal tr ++ (st.label.entry st.before).toList

def RetirementRecord.certificate (r : RetirementRecord) : Token.RetirementCertificate where
  retiree := r.retiree
  projectId := r.projectId
  amount := r.amount
  purpose := r.purpose
  timestamp := r.timestamp
  metadataUri := r.metadataUri
  registryRecordId := some r.id

def RetirementRecord.units (r : RetirementRecord) : ℤ := r.amount.val

def RetirementRecord.number (r : RetirementRecord) : ℕ := r.id.toNat

abbrev ofToken (token : Address) : List RetirementRecord → List RetirementRecord :=
  part RetirementRecord.creditToken token

structure Archived (L : List RetirementRecord) (t : Token.State) : Prop where
  count : t.certCount.toNat = L.length
  cert : ∀ i, t.cert i = L[i.toNat]?.map RetirementRecord.certificate
  total : t.totalRetired.val = (L.map RetirementRecord.units).sum

/-- The registry and the tokens hold the retirements of a journal. -/
structure Mirrors (J : List RetirementRecord) (s : System) : Prop where
  numbered : Numbered RetirementRecord.number J
  positive : ∀ r ∈ J, 0 < r.units
  count : s.registry.recordCount.toNat = J.length
  record : ∀ id r, s.registry.record id = some r ↔ r ∈ J ∧ r.id = id
  total : s.registry.totalRetired.val = (J.map RetirementRecord.units).sum
  archived : ∀ a t, s.token a = some t → Archived (ofToken a J) t
  deployed : ∀ r ∈ J, (s.token r.creditToken).isSome = true

/-- The certificates of one state are still there, unchanged, in a later one. -/
def Kept (s s' : System) : Prop := ∀ a t, s.token a = some t →
  ∃ t', s'.token a = some t' ∧ t.certCount ≤ t'.certCount ∧
    ∀ i, i < t.certCount → t'.cert i = t.cert i

variable {s s' s'' : System} {J : List RetirementRecord} {r : RetirementRecord} {a : Address}
  {t t' : Token.State}

theorem Kept.refl (s : System) : Kept s s := fun _ t h => ⟨t, h, UInt64.le_refl _, fun _ _ => rfl⟩

theorem Kept.trans (h : Kept s s') (h' : Kept s' s'') : Kept s s'' := by
  intro a t ht
  obtain ⟨t', ht', hle, hcert⟩ := h a t ht
  obtain ⟨t'', ht'', hle', hcert'⟩ := h' a t' ht'
  refine ⟨t'', ht'', UInt64.le_trans hle hle', fun i hi => ?_⟩
  rw [hcert' i (UInt64.lt_of_lt_of_le hi hle), hcert i hi]

theorem Kept.write (ha : s.token a = some t) (hs : s'.token = update s.token a (some t'))
    (hle : t.certCount ≤ t'.certCount) (hcert : ∀ i, i < t.certCount → t'.cert i = t.cert i) :
    Kept s s' := by
  intro b u hu
  rw [hs]
  rcases eq_or_ne b a with rfl | hne
  · rw [ha] at hu
    obtain rfl := Option.some.inj hu
    exact ⟨t', update_self .., hle, hcert⟩
  · exact ⟨u, (update_of_ne hne ..).trans hu, UInt64.le_refl _, fun _ _ => rfl⟩

theorem succ_toNat {n : UInt64} (h : n.toNat + 1 < 2 ^ 64) : (n + 1).toNat = n.toNat + 1 := by
  rw [UInt64.toNat_add, UInt64.toNat_one, Nat.mod_eq_of_lt h]

theorem Archived.empty (hc : t.certCount = 0) (hcert : t.cert = fun _ => none)
    (ht : t.totalRetired = 0) : Archived [] t := by
  constructor
  · simp [hc]
  · simp [hcert]
  · simp [ht]

theorem Archived.of_eq {L : List RetirementRecord} (h : Archived L t)
    (heq : t'.archive = t.archive) : Archived L t' := by
  simp only [Token.State.archive, Prod.mk.injEq] at heq
  obtain ⟨hcert, hcount, htotal⟩ := heq
  constructor
  · rw [hcount]
    exact h.count
  · rw [hcert]
    exact h.cert
  · rw [htotal]
    exact h.total

theorem Archived.append {L : List RetirementRecord} (h : Archived L t)
    (hlen : L.length + 1 < 2 ^ 64)
    (hfits : I128.Fits (t.totalRetired.val + r.amount.val))
    (heq : t'.archive = (Function.update t.cert t.certCount (some r.certificate), t.certCount + 1,
      t.totalRetired + r.amount)) : Archived (L ++ [r]) t' := by
  simp only [Token.State.archive, Prod.mk.injEq] at heq
  obtain ⟨hcert, hcount, htotal⟩ := heq
  have hsucc : (t.certCount + 1).toNat = t.certCount.toNat + 1 :=
    succ_toNat (by rw [h.count]; exact hlen)
  constructor
  · rw [hcount, hsucc, h.count, List.length_append]
    rfl
  · intro i
    rw [hcert, update_apply, h.cert, getElem?_concat, ← h.count]
    simp only [UInt64.toNat_inj]
    split <;> rfl
  · rw [htotal, I128.val_add hfits, h.total, List.map_append, List.sum_append]
    simp [RetirementRecord.units]

theorem Mirrors.empty (hr : s.registry.recordCount = 0 ∧ s.registry.totalRetired = 0 ∧
    s.registry.record = fun _ => none) (ht : s.token = fun _ => none) : Mirrors [] s := by
  obtain ⟨hcount, htotal, hrecord⟩ := hr
  constructor
  · exact .nil
  · simp
  · simp [hcount]
  · simp [hrecord]
  · simp [htotal]
  · simp [ht]
  · simp

theorem Mirrors.write (h : Mirrors J s) (hr : s'.registry = s.registry)
    (hs : s'.token = update s.token a (some t)) (ht : Archived (ofToken a J) t) :
    Mirrors J s' := by
  constructor
  · exact h.numbered
  · exact h.positive
  · exact hr ▸ h.count
  · exact hr ▸ h.record
  · exact hr ▸ h.total
  · intro b u hu
    rw [hs] at hu
    rcases eq_or_ne b a with rfl | hne
    · rw [update_self] at hu
      exact Option.some.inj hu ▸ ht
    · rw [update_of_ne hne] at hu
      exact h.archived b u hu
  · intro r hr
    rw [hs]
    rcases eq_or_ne r.creditToken a with heq | hne
    · simp [heq]
    · rw [update_of_ne hne]
      exact h.deployed r hr

theorem Mirrors.append (h : Mirrors J s) (hlen : J.length + 1 < 2 ^ 64)
    (hid : r.id = s.registry.recordCount + 1) (h0 : 0 < r.amount.val)
    (hcount : s'.registry.recordCount = r.id)
    (htotal : s'.registry.totalRetired.val = s.registry.totalRetired.val + r.amount.val)
    (hrecord : s'.registry.record = update s.registry.record r.id (some r))
    (hs : s'.token = update s.token r.creditToken (some t))
    (ht : Archived (ofToken r.creditToken J ++ [r]) t) : Mirrors (J ++ [r]) s' := by
  have hnumber : r.number = J.length + 1 := by
    rw [RetirementRecord.number, hid, succ_toNat (by rw [h.count]; exact hlen), h.count]
  have hnew : ∀ r' ∈ J, r'.id ≠ r.id := by
    intro r' hr' heq
    have hle := h.numbered.le hr'
    have hsame : r'.number = r.number := congrArg UInt64.toNat heq
    omega
  constructor
  · exact h.numbered.append hnumber
  · intro r' hr'
    rcases List.mem_append.mp hr' with hr' | hr'
    · exact h.positive r' hr'
    · rw [List.mem_singleton.mp hr']
      exact h0
  · simp only [hcount, List.length_append, List.length_singleton]
    exact hnumber
  · intro id r'
    simp only [hrecord, List.mem_append, List.mem_singleton]
    rcases eq_or_ne id r.id with rfl | hne
    · rw [update_self, Option.some.injEq]
      constructor
      · rintro rfl
        exact ⟨.inr rfl, rfl⟩
      · rintro ⟨hr' | rfl, heq⟩
        · exact absurd heq (hnew r' hr')
        · rfl
    · rw [update_of_ne hne, h.record]
      constructor
      · rintro ⟨hr', heq⟩
        exact ⟨.inl hr', heq⟩
      · rintro ⟨hr' | rfl, heq⟩
        · exact ⟨hr', heq⟩
        · exact absurd heq.symm hne
  · rw [List.map_append, List.sum_append, ← h.total]
    simpa [RetirementRecord.units] using htotal
  · intro b u hu
    rw [hs] at hu
    rcases eq_or_ne b r.creditToken with rfl | hne
    · rw [update_self] at hu
      rw [ofToken, part_append_self, ← Option.some.inj hu]
      exact ht
    · rw [update_of_ne hne] at hu
      rw [ofToken, part_append_other hne.symm]
      exact h.archived b u hu
  · intro r' hr'
    rw [hs]
    rcases eq_or_ne r'.creditToken r.creditToken with heq | hne
    · simp [heq]
    · rw [update_of_ne hne]
      rcases List.mem_append.mp hr' with hr' | hr'
      · exact h.deployed r' hr'
      · exact absurd (congrArg _ (List.mem_singleton.mp hr')) hne

theorem Mirrors.part_undeployed (h : Mirrors J s) (ha : s.token a = none) : ofToken a J = [] := by
  apply List.eq_nil_iff_forall_not_mem.mpr
  intro r hr
  obtain ⟨hr, heq⟩ := mem_part.mp hr
  have hdeployed := h.deployed r hr
  rw [heq, ha] at hdeployed
  cases hdeployed

theorem Mirrors.fits {amount total : I128} (h : Mirrors J s) (ha : s.token a = some t)
    (h0 : 0 < amount.val) (htotal : total.val = s.registry.totalRetired.val + amount.val) :
    I128.Fits (t.totalRetired.val + amount.val) := by
  have hpart := h.archived a t ha
  have hle : t.totalRetired.val ≤ s.registry.totalRetired.val := by
    rw [hpart.total, h.total]
    exact sum_part_le fun r hr => (h.positive r hr).le
  have hnonneg : 0 ≤ t.totalRetired.val := by
    rw [hpart.total]
    apply List.sum_nonneg
    intro n hn
    obtain ⟨r, hr, rfl⟩ := List.mem_map.mp hn
    exact (h.positive r (mem_part.mp hr).1).le
  have hlt := total.val_lt
  exact ⟨by omega, by omega⟩

variable {token : Address} {e : Env token} {tr : Trace System (Action registry)}
  {l : Action registry}

theorem deploy_mirrors {admin : Address} {name symbol methodology : String}
    {projectId : BytesN 32} (hm : Mirrors J s)
    (h : step (.deploy token e admin name symbol projectId methodology : Action registry) s =
      .ok s') :
    Mirrors J s' ∧ Kept s s' := by
  simp only [step, bind_eq_ok, pure_eq_ok, Token.initialise_eq_ok] at h
  obtain ⟨t, ⟨hnone, rfl⟩, rfl⟩ := h
  constructor
  · exact hm.write rfl rfl (hm.part_undeployed hnone ▸ Archived.empty rfl rfl rfl)
  · intro b u hu
    have hne : b ≠ token := by
      rintro rfl
      rw [hnone] at hu
      cases hu
    exact ⟨u, (update_of_ne hne ..).trans hu, UInt64.le_refl _, fun _ _ => rfl⟩

theorem registry_mirrors {e : Env registry} {c : Call} (hm : Mirrors J s)
    (hg : tokensRecord tr s (.registry e c)) (h : step (.registry e c) s = .ok s') :
    Mirrors J s' ∧ Kept s s' := by
  cases c with
  | initialise => simp [step, execute, Registry.initialise] at h
  | recordRetirement => exact hg.elim
  | setAuthorizedCaller =>
    simp only [step, execute, State.setAuthorizedCaller, bind_eq_ok, pure_eq_ok] at h
    obtain ⟨_, ⟨_, -, _, -, rfl⟩, rfl⟩ := h
    constructor
    · exact ⟨hm.numbered, hm.positive, hm.count, hm.record, hm.total, hm.archived, hm.deployed⟩
    · exact .refl s

theorem rest_mirrors {c : Token.Call} (hm : Mirrors J s) (hc : c.retiring = false)
    (h : step (.token token e c : Action registry) s = .ok s') : Mirrors J s' ∧ Kept s s' := by
  simp only [step, bind_eq_ok, unwrap, expect_eq_ok, pure_eq_ok] at h
  obtain ⟨t, ht, ⟨t', x⟩, hstep, rfl⟩ := h
  obtain ⟨heq, rfl⟩ := Token.step_archive_eq hc hstep
  constructor
  · exact hm.write rfl rfl ((hm.archived token t ht).of_eq heq)
  · simp only [Token.State.archive, Prod.mk.injEq] at heq
    obtain ⟨hcert, hcount, -⟩ := heq
    exact .write ht rfl (hcount ▸ UInt64.le_refl _) fun i _ => congrFun hcert i

theorem retire_mirrors {holder : Address} {amount : I128} {purpose metadataUri : String}
    (hm : Mirrors J s) (hlen : J.length + 1 < 2 ^ 64)
    (hg : ∀ t, s.token token = some t → t.retirementRegistry = some registry)
    (h : step (.token token e (.retire holder amount purpose metadataUri) : Action registry) s =
      .ok s') :
    ∃ r, Action.entry s (.token token e (.retire holder amount purpose metadataUri) :
        Action registry) = some r ∧ Mirrors (J ++ [r]) s' ∧ Kept s s' := by
  simp only [step, bind_eq_ok, unwrap, expect_eq_ok, pure_eq_ok] at h
  obtain ⟨t, ht, ⟨t', x⟩, hstep, rfl⟩ := h
  obtain ⟨recordId, hrecord, harchive⟩ := Token.retire_cases (hg t ht) hstep
  simp only [seenBy, if_true] at hrecord
  obtain ⟨h0, hid, hcount, htotal, hrecord⟩ := recordRetirement_cases hrecord
  obtain ⟨r, hr⟩ : ∃ r : RetirementRecord, r = {
      id := s.registry.recordCount + 1
      retiree := holder
      projectId := t.metadata.projectId
      creditToken := token
      amount, purpose, metadataUri
      timestamp := e.timestamp } := ⟨_, rfl⟩
  have hpart := hm.archived token t ht
  have hamount : r.amount = amount := by rw [hr]
  have hfits : I128.Fits (t.totalRetired.val + r.amount.val) :=
    hm.fits ht (hamount ▸ h0) (hamount ▸ htotal)
  have hlength : (ofToken token J).length + 1 < 2 ^ 64 := by
    have hle : (ofToken token J).length ≤ J.length := length_part_le
    omega
  have htoken : r.creditToken = token := by rw [hr]
  have harchived : Archived (ofToken r.creditToken J ++ [r]) t' := by
    rw [htoken]
    apply hpart.append hlength hfits
    rw [harchive, hr, hid]
    rfl
  refine ⟨r, ?_, ?_, ?_⟩
  · rw [hr]
    simp only [Action.entry, ht]
    rfl
  · apply hm.append hlen (t := t')
    · rw [hr]
    · rw [hr]
      exact h0
    · rw [hcount, hid, hr]
    · rw [htotal, hr]
    · rw [hrecord, hid, hr]
      rfl
    · rw [htoken]
    · exact harchived
  · simp only [Token.State.archive, Prod.mk.injEq] at harchive
    obtain ⟨hcert, hcount, -⟩ := harchive
    have hsucc : (t.certCount + 1).toNat = t.certCount.toNat + 1 :=
      succ_toNat (by rw [hpart.count]; exact hlength)
    refine .write ht rfl ?_ fun i hi => ?_
    · rw [hcount, UInt64.le_iff_toNat_le, hsucc]
      exact Nat.le_succ _
    · rw [hcert, update_of_ne (UInt64.ne_of_lt hi)]

theorem step_mirrors (hm : Mirrors J s) (hlen : l.retires = true → J.length + 1 < 2 ^ 64)
    (hg : tokensRecord tr s l) (h : step l s = .ok s') :
    (l.entry s).toList.length = l.retires.toNat ∧ Mirrors (J ++ (l.entry s).toList) s' ∧
      Kept s s' := by
  cases hl : l.retires with
  | false =>
    have hnone : l.entry s = none := by
      cases l with
      | token _ _ c =>
        cases c with
        | retire => cases hl
        | _ => rfl
      | _ => rfl
    rw [hnone, Option.toList_none, List.append_nil]
    refine ⟨rfl, ?_⟩
    cases l with
    | deploy => exact deploy_mirrors hm h
    | registry => exact registry_mirrors hm hg h
    | token _ _ c =>
      refine rest_mirrors hm ?_ h
      cases c with
      | retire => cases hl
      | _ => rfl
  | true =>
    cases l with
    | deploy | registry => cases hl
    | token _ _ c =>
      cases c with
      | retire =>
        obtain ⟨r, hr, hmirrors⟩ := retire_mirrors hm (hlen hl) hg h
        rw [hr]
        exact ⟨rfl, hmirrors⟩
      | _ => cases hl

theorem init_mirrors (h : (machine registry).init s) : Mirrors [] s := by
  obtain ⟨ht, admin, hr⟩ := h
  obtain ⟨-, hr⟩ := initialise_eq_ok.mp hr
  apply Mirrors.empty _ ht
  rw [hr]
  exact ⟨rfl, rfl, rfl⟩

theorem run_mirrors (h : (machine registry).Run tokensRecord tr s)
    (hlt : retirements tr < 2 ^ 64) :
    (journal tr).length = retirements tr ∧ Mirrors (journal tr) s ∧ ∀ st ∈ tr, Kept st.after s := by
  induction h with
  | init h => exact ⟨rfl, init_mirrors h, by simp⟩
  | @step tr s s' l hr hg hs ih =>
    have hcount : retirements (⟨s, l, s'⟩ :: tr) = retirements tr + l.retires.toNat := by
      unfold retirements
      rw [List.countP_cons]
      cases l.retires <;> rfl
    obtain ⟨hlength, hm, hkept⟩ := ih (by omega)
    have hlen : l.retires = true → (journal tr).length + 1 < 2 ^ 64 := by
      intro hl
      rw [hl, Bool.toNat_true] at hcount
      omega
    obtain ⟨hentry, hm', hstep⟩ := step_mirrors hm hlen hg hs
    refine ⟨?_, hm', ?_⟩
    · rw [journal, List.length_append, hentry, hlength, hcount]
    · intro st hst
      rcases List.mem_cons.mp hst with rfl | hst
      · exact .refl s'
      · exact (hkept st hst).trans hstep

structure Names (s : System) (token : Address) (cert : Token.RetirementCertificate)
    (r : RetirementRecord) : Prop where
  id : cert.registryRecordId = some r.id
  record : s.registry.record r.id = some r
  retiree : r.retiree = cert.retiree
  projectId : r.projectId = cert.projectId
  amount : r.amount = cert.amount
  purpose : r.purpose = cert.purpose
  metadataUri : r.metadataUri = cert.metadataUri
  timestamp : r.timestamp = cert.timestamp
  creditToken : r.creditToken = token

def System.Certified (s : System) (token : Address) (i : UInt64)
    (cert : Token.RetirementCertificate) : Prop :=
  ∃ t, s.token token = some t ∧ i < t.certCount ∧ t.cert i = some cert

def System.retiredBy (s : System) (token : Address) : ℤ :=
  match s.token token with
  | some t => t.totalRetired.val
  | none => 0

def certified (t : Token.State) (i : UInt64) : ℤ :=
  match t.cert i with
  | some cert => cert.amount.val
  | none => 0

/-- The logs and totals of the tokens and of the registry agree. -/
structure Agreed (s : System) : Prop where
  stored : ∀ a t i, s.token a = some t → ((t.cert i).isSome = true ↔ i < t.certCount)
  named : ∀ a i cert, s.Certified a i cert → ∃ r, Names s a cert r
  distinct : ∀ a i cert b j cert', s.Certified a i cert → s.Certified b j cert' →
    cert.registryRecordId = cert'.registryRecordId → a = b ∧ i = j
  covered : ∀ id r, s.registry.record id = some r →
    ∃ a i cert, s.Certified a i cert ∧ cert.registryRecordId = some id
  total : ∑ᶠ a, s.retiredBy a = s.registry.totalRetired.val
  summed : ∀ a t, s.token a = some t →
    ∑ i ∈ Finset.range t.certCount.toNat, certified t (.ofNat i) = t.totalRetired.val

namespace Mirrors

variable (hm : Mirrors J s)

include hm

theorem certified_iff {i : UInt64} {cert : Token.RetirementCertificate} :
    s.Certified a i cert ↔ (s.token a).isSome = true ∧
      ∃ r, (ofToken a J)[i.toNat]? = some r ∧ r.certificate = cert := by
  constructor
  · rintro ⟨t, ht, -, hcert⟩
    rw [(hm.archived a t ht).cert, Option.map_eq_some_iff] at hcert
    exact ⟨by rw [ht]; rfl, hcert⟩
  · rintro ⟨hsome, r, hr, rfl⟩
    obtain ⟨t, ht⟩ := Option.isSome_iff_exists.mp hsome
    have hpart := hm.archived a t ht
    refine ⟨t, ht, ?_, ?_⟩
    · rw [UInt64.lt_iff_toNat_lt, hpart.count]
      exact (List.getElem?_eq_some_iff.mp hr).1
    · rw [hpart.cert, hr]
      rfl

theorem agreed (hlen : J.length < 2 ^ 64) : Agreed s := by
  constructor
  · intro a t i ht
    have hpart := hm.archived a t ht
    rw [hpart.cert, Option.isSome_map, UInt64.lt_iff_toNat_lt, hpart.count]
    simp
  · intro a i cert hcert
    obtain ⟨-, r, hr, rfl⟩ := hm.certified_iff.mp hcert
    obtain ⟨hmem, htoken⟩ := mem_part.mp (List.mem_of_getElem? hr)
    exact ⟨r, rfl, (hm.record r.id r).mpr ⟨hmem, rfl⟩, rfl, rfl, rfl, rfl, rfl, rfl, htoken⟩
  · intro a i cert b j cert' hcert hcert' heq
    obtain ⟨-, r, hr, rfl⟩ := hm.certified_iff.mp hcert
    obtain ⟨-, r', hr', rfl⟩ := hm.certified_iff.mp hcert'
    obtain ⟨hmem, htoken⟩ := mem_part.mp (List.mem_of_getElem? hr)
    obtain ⟨hmem', htoken'⟩ := mem_part.mp (List.mem_of_getElem? hr')
    have hid : r.id = r'.id := Option.some.inj heq
    have hsame : r = r' := hm.numbered.inj hmem hmem' (congrArg UInt64.toNat hid)
    obtain rfl : a = b := by rw [← htoken, ← htoken', hsame]
    refine ⟨rfl, UInt64.toNat_inj.mp ?_⟩
    have hnodup : (ofToken a J).Nodup := hm.numbered.nodup.filter _
    apply (List.getElem?_inj (List.getElem?_eq_some_iff.mp hr).1 hnodup).mp
    rw [hr, hr', hsame]
  · intro id r hr
    obtain ⟨hmem, rfl⟩ := (hm.record id r).mp hr
    have hpart : r ∈ ofToken r.creditToken J := mem_part.mpr ⟨hmem, rfl⟩
    obtain ⟨k, hk⟩ := List.mem_iff_getElem?.mp hpart
    have hlt : k < 2 ^ 64 := by
      have hle : (ofToken r.creditToken J).length ≤ J.length := length_part_le
      have hk := (List.getElem?_eq_some_iff.mp hk).1
      omega
    refine ⟨r.creditToken, .ofNat k, r.certificate,
      hm.certified_iff.mpr ⟨hm.deployed r hmem, r, ?_, rfl⟩, rfl⟩
    rwa [UInt64.toNat_ofNat_of_lt' hlt]
  · have hretired : ∀ a, s.retiredBy a = ((ofToken a J).map RetirementRecord.units).sum := by
      intro a
      unfold System.retiredBy
      cases ht : s.token a with
      | some t => exact (hm.archived a t ht).total
      | none =>
        rw [hm.part_undeployed ht]
        rfl
    rw [hm.total, ← (finsum_part RetirementRecord.creditToken RetirementRecord.units J).2]
    exact finsum_congr hretired
  · intro a t ht
    have hpart := hm.archived a t ht
    rw [hpart.total, hpart.count, ← sum_range_getElem?]
    apply Finset.sum_congr rfl
    intro k hk
    have hlt : k < 2 ^ 64 := by
      have hle : (ofToken a J).length ≤ J.length := length_part_le
      have hk := Finset.mem_range.mp hk
      omega
    rw [certified, hpart.cert, UInt64.toNat_ofNat_of_lt' hlt]
    cases (ofToken a J)[k]? <;> rfl

end Mirrors

/--
Before the last number is given out, certificates and records name each other,
the totals agree, and no certificate is ever modified.
-/
theorem retirements_agree (h : (machine registry).Run tokensRecord tr s)
    (hlt : retirements tr < 2 ^ 64) : Agreed s ∧ ∀ st ∈ tr, Kept st.after s := by
  obtain ⟨hlength, hm, hkept⟩ := run_mirrors h hlt
  exact ⟨hm.agreed (hlength ▸ hlt), hkept⟩

section Sample

open Token (home)

/-- The address that the samples deploy the registry at. -/
abbrev ledger : Address := .contract 9

/-- A sample call on the token that the account with this key authorises. -/
def calledBy (key : BytesN 32) (c : Token.Call) : Action ledger :=
  .token home (Token.signedBy key c).1 c

def deploying : Action ledger :=
  .deploy home (.signed 0 0 (.account 0) (by simp)) (.account 0) "Water Credit" "WCR" 7 "VCS"

def authorizing : Action ledger :=
  .registry (.signed 0 0 (.account 0) (by simp)) (.setAuthorizedCaller (.account 0) home true)

def retiring : Action ledger := calledBy 1 (.retire (.account 1) 1 "offset" "")

def started : System :=
  (machine ledger).calls { registry := { admin := .account 0 } } [
    deploying, calledBy 0 (.mintTo (.account 0) (.account 1) 18446744073709551616),
    calledBy 0 (.setRetirementRegistry (.account 0) ledger), authorizing]

theorem started_run : ∃ tr, (machine ledger).Run tokensRecord tr started ∧ retirements tr = 0 := by
  have h0 := Machine.Run.init (m := machine ledger) (G := tokensRecord)
    (s := { registry := { admin := .account 0 } }) ⟨rfl, .account 0, by rfl⟩
  have h1 := h0.call (l := deploying) trivial (by rfl)
  have h2 := h1.call (l := calledBy 0 (.mintTo (.account 0) (.account 1) 18446744073709551616))
    trivial (by rfl)
  have h3 := h2.call (l := calledBy 0 (.setRetirementRegistry (.account 0) ledger)) trivial (by rfl)
  have h4 := h3.call (l := authorizing) trivial (by rfl)
  exact ⟨_, h4, by rfl⟩

/-- The account `1` has retired `k` of its units, one at a time. -/
structure Worn (k : ℕ) (t : Token.State) (r : State) : Prop where
  unpaused : t.paused = false
  configured : t.retirementRegistry = some ledger
  balance : (t.balance (.account 1)).val = 2 ^ 64 - k
  count : t.certCount = .ofNat k
  retired : t.totalRetired.val = k
  authorized : r.authorizedCaller home = true
  total : r.totalRetired.val = k

theorem started_worn : ∃ t, started.token home = some t ∧ Worn 0 t started.registry :=
  ⟨_, rfl, by rfl, by rfl, by decide, by rfl, by rfl, by rfl, by rfl⟩

theorem Worn.step {k : ℕ} {t : Token.State} {r : State} {e : Env home} (h : Worn k t r)
    (hk : k < 2 ^ 64) (he : e.auth (.account 1) = true) :
    ∃ t' r', Token.step (seenBy ledger e) (e, .retire (.account 1) 1 "offset" "") (t, r) =
      .ok (t', r') ∧ Worn (k + 1) t' r' := by
  have hone : (1 : I128).val = 1 := rfl
  have hle : (1 : I128) ≤ t.balance (.account 1) := by
    rw [I128.le_iff, hone, h.balance]
    omega
  have hfits : I128.Fits (k + (1 : I128).val) := by
    rw [hone]
    exact ⟨by omega, by omega⟩
  obtain ⟨recordId, r', hr, hauth⟩ := recordRetirement_ok (e := e.invoke ledger)
    (by simp [Env.invoke])
    h.authorized (by decide) (h.total.symm ▸ hfits)
  obtain ⟨-, -, -, htotal, -⟩ := recordRetirement_cases hr
  obtain ⟨cert, hstep⟩ := Token.retire_ok (R := seenBy ledger e) (by decide) h.unpaused he hle
    h.configured (by simpa [seenBy] using hr)
  refine ⟨_, r', hstep, h.unpaused, h.configured, ?_, ?_, ?_, hauth ▸ h.authorized, ?_⟩
  · simp only [Token.State.saveBalance, update_self]
    rw [I128.val_sub_of_le (by decide) hle, h.balance, hone]
    omega
  · rw [h.count]
    exact UInt64.toNat_inj.mp (by simp [UInt64.toNat_add])
  · rw [I128.val_add (h.retired.symm ▸ hfits), h.retired, hone]
    rfl
  · rw [htotal, h.total, hone]
    rfl

theorem worn_run (k : ℕ) (hk : k ≤ 2 ^ 64) : ∃ tr s t,
    (machine ledger).Run tokensRecord tr s ∧ retirements tr = k ∧ s.token home = some t ∧
      Worn k t s.registry := by
  induction k with
  | zero =>
    obtain ⟨tr, hrun, hcount⟩ := started_run
    obtain ⟨t, ht, hworn⟩ := started_worn
    exact ⟨tr, started, t, hrun, hcount, ht, hworn⟩
  | succ k ih =>
    obtain ⟨tr, s, t, hrun, hcount, ht, hworn⟩ := ih (by omega)
    obtain ⟨t', r', hstep, hworn'⟩ := hworn.step (e := .signed 0 0 (.account 1) (by simp)) hk
      (by simp [Env.signed])
    have hguard : tokensRecord tr s retiring := by
      intro u hu
      rw [ht] at hu
      exact Option.some.inj hu ▸ hworn.configured
    have hs : (machine ledger).step retiring s =
        .ok { token := update s.token home (some t'), registry := r' } := by
      simp only [machine, Registry.step, retiring, calledBy, unwrap, bind_eq_ok, expect_eq_ok,
        pure_eq_ok]
      exact ⟨t, ht, (t', r'), hstep, rfl⟩
    refine ⟨_, _, t', hrun.step hguard hs, ?_, by simp, hworn'⟩
    rw [← hcount]
    exact List.countP_cons_of_pos rfl

/-- After `2 ^ 64` retirements of one token none of its certificates counts any more. -/
theorem certificate_count_wraps :
    ∃ tr s, (machine ledger).Run tokensRecord tr s ∧ ¬ Agreed s := by
  obtain ⟨tr, s, t, hrun, -, ht, hworn⟩ := worn_run (2 ^ 64) le_rfl
  refine ⟨tr, s, hrun, fun h => ?_⟩
  have hsum := h.summed home t ht
  have hzero : t.certCount.toNat = 0 := by
    rw [hworn.count]
    rfl
  rw [hzero, Finset.range_zero, Finset.sum_empty, hworn.retired] at hsum
  norm_num at hsum

/-- Two units of the account `1` are retired. -/
theorem retirements_agree_worn : ∃ tr s t, (machine ledger).Run tokensRecord tr s ∧
    retirements tr = 2 ∧ s.token home = some t ∧ t.totalRetired.val = 2 ∧ Agreed s ∧
      ∀ st ∈ tr, Kept st.after s := by
  obtain ⟨tr, s, t, hrun, hcount, ht, hworn⟩ := worn_run 2 (by norm_num)
  have hlt : retirements tr < 2 ^ 64 := by
    rw [hcount]
    norm_num
  exact ⟨tr, s, t, hrun, hcount, ht, hworn.retired, retirements_agree hrun hlt⟩

end Sample

end WaterCredits.Registry
