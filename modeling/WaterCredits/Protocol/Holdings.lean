import WaterCredits.Protocol.System
import WaterCredits.Token.Frozen

/-! # What the system takes from a holder

An action that a holder neither signs nor executes takes credits from it by a
burn or through an allowance that it granted. So what it holds beyond its
allowances falls by the burned amounts at most, whoever calls what in which
order.
-/

namespace WaterCredits.Protocol

open Foundation Function
open Registry (System seenBy)

variable {registry market oracle token a : Address} {w w' v : System} {S S' S₀ : State}
  {sha256 : List (BitVec 8) → BytesN 32} {l : Action registry market oracle}
  {tr : Trace State (Action registry market oracle)}

def holding (w : System) (token a : Address) : ℤ :=
  (w.token token).elim 0 fun s => (s.balance a).val

/-- What others may draw of a holder's credits. -/
noncomputable def lent (w : System) (token a : Address) : ℤ :=
  (w.token token).elim 0 fun s => s.granted a

/-- The allowances of a holder are sound in every token. -/
def Allotted (w : System) (a : Address) : Prop := ∀ t s, w.token t = some s → Token.Allotted s a

/-- What a call on a token burns of the credits of a holder. -/
def destroyed (a : Address) (c : Token.Call) : ℤ :=
  c.destroys.elim 0 fun p => if p.1 = a then p.2.val else 0

def burned (token a : Address) (l : Action registry market oracle) : ℤ :=
  (l.onToken token).elim 0 (destroyed a)

/-- What a run burns of the credits of a holder. -/
def burnedOf (token a : Address) (tr : Trace State (Action registry market oracle)) : ℤ :=
  (tr.map fun st => burned token a st.label).sum

@[simp] theorem burnedOf_cons (token a : Address)
    (st : Step State (Action registry market oracle)) :
    burnedOf token a (st :: tr) = burned token a st.label + burnedOf token a tr := by
  simp [burnedOf]

theorem holding_eq {s : Token.State} (h : w.token token = some s) :
    holding w token a = (s.balance a).val := by
  simp [holding, h]

theorem holding_congr (h : w'.token token = w.token token) :
    holding w' token a = holding w token a := by
  simp [holding, h]

theorem lent_eq {s : Token.State} (h : w.token token = some s) :
    lent w token a = s.granted a := by
  simp [lent, h]

theorem lent_congr (h : w'.token token = w.token token) : lent w' token a = lent w token a := by
  simp [lent, h]

theorem Allotted.lent_nonneg (h : Allotted w a) (token : Address) : 0 ≤ lent w token a := by
  cases hs : w.token token with
  | none => simp [lent, hs]
  | some s =>
    rw [lent_eq hs]
    exact (h token s hs).granted_nonneg

/-- A holder loses what is burned and what spenders draw, and nothing else. -/
structure Keeps (a : Address) (burned : Address → ℤ) (w w' : System) : Prop where
  allotted : Allotted w' a
  purse : ∀ t, holding w t a - lent w t a - burned t ≤ holding w' t a - lent w' t a
  lent_le : ∀ t, lent w' t a ≤ lent w t a

theorem Keeps.refl (ha : Allotted w a) : Keeps a (fun _ => 0) w w :=
  ⟨ha, fun _ => (sub_zero _).le, fun _ => le_rfl⟩

theorem Keeps.trans (h : Keeps a (fun _ => 0) w v) (h' : Keeps a (fun _ => 0) v w') :
    Keeps a (fun _ => 0) w w' := by
  refine ⟨h'.allotted, fun t => ?_, fun t => (h'.lent_le t).trans (h.lent_le t)⟩
  have hp := h.purse t
  have hp' := h'.purse t
  omega

section Token

variable {t : Address} {e : Env t} {c : Token.Call}

/-- Without its signature a holder loses what a call burns and what a spender draws. -/
theorem token_keeps {W : Type} {R : Token.Registry W} {s s' : Token.State} {r r' : W}
    (ha : Token.Allotted s a) (hauth : e.auth a = false)
    (h : Token.step R (e, c) (s, r) = .ok (s', r')) :
    (s.balance a).val - s.granted a - destroyed a c ≤ (s'.balance a).val - s'.granted a ∧
      s'.granted a ≤ s.granted a := by
  cases hd : c.destroys with
  | none =>
    have hnone : destroyed a c = 0 := by simp [destroyed, hd]
    obtain ⟨hb, hg⟩ := Token.step_unsigned ha hauth (fun n => by simp [hd]) h
    omega
  | some p =>
    obtain ⟨b, n⟩ := p
    obtain ⟨h0, u, hu, hb, -⟩ := Token.step_destroys hd h
    obtain ⟨-, -, -, hallow, -⟩ := Token.step_destroys_frame hd h
    have hg : s'.granted a = s.granted a := by
      unfold Token.State.granted
      rw [Token.grants_congr hallow]
    have hsome : destroyed a c = if b = a then n.val else 0 := by simp [destroyed, hd]
    have hbalance := Token.destroy_balance h0 hu a
    rw [hb, hg, hsome]
    omega

theorem callToken_allotted (ha : Allotted w a) (h : callToken registry e c w = .ok w') :
    Allotted w' a := by
  obtain ⟨s, s', hs, hstep, hw⟩ := callToken_cases h
  intro t' u hu
  rw [hw] at hu
  rcases eq_or_ne t' t with rfl | hne
  · obtain rfl : s' = u := by simpa using hu
    exact (ha t' s hs).step hstep
  · rw [update_of_ne hne] at hu
    exact ha t' u hu

theorem callToken_keeps (ha : Allotted w a) (hauth : e.auth a = false)
    (h : callToken registry e c w = .ok w') :
    Keeps a (fun t' => if t = t' then destroyed a c else 0) w w' := by
  obtain ⟨s, s', hs, hstep, hw⟩ := callToken_cases h
  obtain ⟨hpurse, hlent⟩ := token_keeps (ha t s hs) hauth hstep
  have hs' : w'.token t = some s' := by rw [hw, update_self]
  refine ⟨callToken_allotted ha h, fun t' => ?_, fun t' => ?_⟩
  · rcases eq_or_ne t t' with rfl | hne
    · rw [holding_eq hs, holding_eq hs', lent_eq hs, lent_eq hs', if_pos rfl]
      exact hpurse
    · have htoken : w'.token t' = w.token t' := by rw [hw, update_of_ne hne.symm]
      rw [holding_congr htoken, lent_congr htoken, if_neg hne, sub_zero]
  · rcases eq_or_ne t t' with rfl | hne
    · rw [lent_eq hs, lent_eq hs']
      exact hlent
    · exact (lent_congr (by rw [hw, update_of_ne hne.symm])).le

/-- A call that burns nothing takes nothing but what a spender draws. -/
theorem callToken_spares (hc : c.destroys = none) (ha : Allotted w a) (hauth : e.auth a = false)
    (h : callToken registry e c w = .ok w') : Keeps a (fun _ => 0) w w' := by
  have hk := callToken_keeps ha hauth h
  simpa [destroyed, hc] using hk

theorem deploy_keeps {admin : Address} {name symbol : String} {projectId : BytesN 32}
    {methodology : String} (ha : Allotted w a)
    (h : Registry.step (Registry.Action.deploy t e admin name symbol projectId methodology :
      Registry.Action registry) w = .ok w') : Keeps a (fun _ => 0) w w' := by
  simp only [Registry.step, bind_eq_ok, pure_eq_ok, Token.initialise_eq_ok] at h
  obtain ⟨u, ⟨hnone, hu⟩, rfl⟩ := h
  have hallotted : Token.Allotted u a := hu ▸ ⟨backed_zero.finite, fun _ => le_rfl⟩
  have hgranted : u.granted a = 0 := hu ▸ backed_zero.total
  have hbalance : (u.balance a).val = 0 := hu ▸ rfl
  refine ⟨fun t' s hs => ?_, fun t' => ?_, fun t' => ?_⟩
  · rcases eq_or_ne t' t with rfl | hne
    · obtain rfl : u = s := by simpa using hs
      exact hallotted
    · exact ha t' s (by simpa [update_of_ne hne] using hs)
  · rcases eq_or_ne t' t with rfl | hne
    · simp [holding, lent, hnone, hbalance, hgranted]
    · simp [holding, lent, update_of_ne hne]
  · rcases eq_or_ne t' t with rfl | hne
    · simp [lent, hnone, hgranted]
    · simp [lent, update_of_ne hne]

theorem callToken_holding (h : callToken registry e c w = .ok w') (token a : Address) :
    holding w token a - (if t = token then c.debit a else 0) ≤ holding w' token a := by
  obtain ⟨s, s', hs, hstep, hw⟩ := callToken_cases h
  rcases eq_or_ne t token with rfl | hne
  · rw [holding_eq hs, holding_eq (by rw [hw, update_self]), if_pos rfl]
    exact Token.step_debit hstep a
  · rw [if_neg hne, sub_zero, holding_congr (by rw [hw, update_of_ne hne.symm])]

def delivers : Token.Call → Option (Address × I128)
  | .transfer _ recipient amount | .transferFrom _ _ recipient amount => some (recipient, amount)
  | _ => none

theorem callToken_delivers {recipient : Address} {amount : I128}
    (hc : delivers c = some (recipient, amount)) (h : callToken registry e c w = .ok w')
    (token : Address) : holding w token recipient + (if t = token then amount.val else 0) ≤
      holding w' token recipient := by
  obtain ⟨s, s', hs, hstep, hw⟩ := callToken_cases h
  have arrives {u u' : Token.State} {sender : Address}
      (hm : u.moveBalance sender recipient amount = .ok u') :
      (u.balance recipient).val + amount.val ≤ (u'.balance recipient).val := by
    obtain ⟨-, credited, hcredited, rfl⟩ := Token.moveBalance_eq_ok.mp hm
    simp only [Token.State.saveBalance, update_self, hcredited, le_refl]
  rcases eq_or_ne t token with rfl | ht
  · rw [holding_eq hs, holding_eq (by rw [hw, update_self]), if_pos rfl]
    cases c <;> simp only [delivers, reduceCtorEq, Option.some.injEq, Prod.mk.injEq] at hc <;>
      obtain ⟨rfl, rfl⟩ := hc
    case transfer =>
      simp only [Token.step, Token.within_eq_ok, Token.State.transfer, bind_eq_ok] at hstep
      obtain ⟨⟨_, -, _, -, _, -, hm⟩, -⟩ := hstep
      exact arrives hm
    case transferFrom =>
      simp only [Token.step, Token.within_eq_ok, Token.State.transferFrom, bind_eq_ok,
        pure_eq_ok] at hstep
      obtain ⟨⟨_, -, _, -, _, -, _, -, _, -, u, hm, rfl⟩, -⟩ := hstep
      have harrives := arrives hm
      exact harrives
  · rw [if_neg ht, add_zero, holding_congr (by rw [hw, update_of_ne ht.symm])]

end Token

section Contracts

def Action.executor : Action registry market oracle → Option Address
  | .ledger _ => none
  | .market _ _ => some market
  | .oracle _ _ => some oracle

/-- An action that a holder neither signs nor executes. -/
def Foreign (a : Address) (l : Action registry market oracle) : Prop :=
  l.auth a = false ∧ l.executor ≠ some a

theorem invoke_unsigned {contract t : Address} {e : Env contract} (hne : a ≠ contract)
    (h : e.auth a = false) : (e.invoke t).auth a = false := by
  simp [Env.invoke, hne, h]

/-- A holder loses nothing to the marketplace beyond what it granted. -/
theorem market_spares {e : Env market} (hne : a ≠ market) (hauth : e.auth a = false) :
    Market.Respects (tokens registry) e (fun _ _ => True) fun w w' =>
      Allotted w a → Keeps a (fun _ => 0) w w' where
  refl _ := Keeps.refl
  trans h h' ha := (h ha).trans (h' (h ha).allotted)
  transfer _ h ha := callToken_spares rfl ha (invoke_unsigned hne hauth) h
  transferFrom _ _ h ha := callToken_spares rfl ha (invoke_unsigned hne hauth) h

@[inherit_doc market_spares]
theorem oracle_spares {e : Env oracle} (hne : a ≠ oracle) (hauth : e.auth a = false)
    (P Q : Address → Prop) :
    Oracle.Respects (outside registry e sha256) oracle P Q fun w w' =>
      Allotted w a → Keeps a (fun _ => 0) w w' :=
  respects_of_calls (fun _ => Keeps.refl) (fun h h' ha => (h ha).trans (h' (h ha).allotted))
    (fun _ h ha => callToken_spares rfl ha (invoke_unsigned hne hauth) h)
    (fun _ h ha => callToken_spares rfl ha (invoke_unsigned hne hauth) h)
    (fun _ h ha => callToken_spares rfl ha (invoke_unsigned hne hauth) h)

theorem ledger_keeps {x : Registry.Action registry}
    (hauth : (Action.ledger x : Action registry market oracle).auth a = false)
    (ha : Allotted w a) (h : Registry.step x w = .ok w') :
    Keeps a (fun t => burned t a (.ledger x : Action registry market oracle)) w w' := by
  cases x with
  | token t e c =>
    have hk := callToken_keeps ha hauth h
    convert hk using 2 with t'
    simp only [burned, Action.onToken]
    split <;> rfl
  | registry e c =>
    simp only [Registry.step, bind_eq_ok, pure_eq_ok] at h
    obtain ⟨r, -, rfl⟩ := h
    exact ⟨ha, fun t => (sub_zero _).le, fun t => le_rfl⟩
  | deploy t e admin name symbol projectId methodology => exact deploy_keeps ha h

theorem step_keeps (hl : Foreign a l) (ha : Allotted S.ledger a)
    (h : Protocol.step sha256 l S = .ok S') :
    Keeps a (fun t => burned t a l) S.ledger S'.ledger := by
  cases l with
  | ledger x =>
    simp only [Protocol.step, bind_eq_ok, pure_eq_ok] at h
    obtain ⟨w, hw, rfl⟩ := h
    exact ledger_keeps hl.1 ha hw
  | market e c =>
    simp only [Protocol.step, bind_eq_ok, pure_eq_ok] at h
    obtain ⟨⟨m, w⟩, hw, rfl⟩ := h
    have hne : a ≠ market := fun heq => hl.2 (congrArg some heq.symm)
    exact Market.execute_respects (market_spares hne hl.1) Market.permits_any hw ha
  | oracle e c =>
    simp only [Protocol.step, bind_eq_ok, pure_eq_ok] at h
    obtain ⟨⟨o, w⟩, hw, rfl⟩ := h
    have hne : a ≠ oracle := fun heq => hl.2 (congrArg some heq.symm)
    exact Oracle.execute_respects (oracle_spares hne hl.1 _ _) hw ha

end Contracts

section Allotted

/-- The contracts keep the allowances of every holder sound. -/
theorem market_allotted (e : Env market) :
    Market.Respects (tokens registry) e (fun _ _ => True) fun w w' =>
      Allotted w a → Allotted w' a where
  refl _ := id
  trans h h' := h' ∘ h
  transfer _ h ha := callToken_allotted ha h
  transferFrom _ _ h ha := callToken_allotted ha h

@[inherit_doc market_allotted]
theorem oracle_allotted {e : Env oracle} (P Q : Address → Prop) :
    Oracle.Respects (outside registry e sha256) oracle P Q fun w w' =>
      Allotted w a → Allotted w' a :=
  respects_of_calls (fun _ => id) (fun h h' => h' ∘ h) (fun _ h ha => callToken_allotted ha h)
    (fun _ h ha => callToken_allotted ha h) (fun _ h ha => callToken_allotted ha h)

theorem step_allotted (ha : Allotted S.ledger a) (h : Protocol.step sha256 l S = .ok S') :
    Allotted S'.ledger a := by
  cases l with
  | ledger x =>
    simp only [Protocol.step, bind_eq_ok, pure_eq_ok] at h
    obtain ⟨w, hw, rfl⟩ := h
    cases x with
    | token t e c => exact callToken_allotted ha hw
    | registry e c =>
      simp only [Registry.step, bind_eq_ok, pure_eq_ok] at hw
      obtain ⟨r, -, rfl⟩ := hw
      exact ha
    | deploy t e admin name symbol projectId methodology => exact (deploy_keeps ha hw).allotted
  | market e c =>
    simp only [Protocol.step, bind_eq_ok, pure_eq_ok] at h
    obtain ⟨⟨m, w⟩, hw, rfl⟩ := h
    exact Market.execute_respects (market_allotted e) Market.permits_any hw ha
  | oracle e c =>
    simp only [Protocol.step, bind_eq_ok, pure_eq_ok] at h
    obtain ⟨⟨o, w⟩, hw, rfl⟩ := h
    exact Oracle.execute_respects (oracle_allotted _ _) hw ha

theorem init_allotted (h : (machine registry market oracle sha256).init S) :
    Allotted S.ledger a := by
  obtain ⟨⟨htokens, -⟩, -⟩ := h
  intro t s hs
  rw [htokens] at hs
  cases hs

end Allotted

/--
In every run of the whole system from a reachable state, a holder that neither
signs nor executes an action loses, of every token, at most what was burned of
it and what its spenders drew on the allowances that it had granted before.
-/
theorem holder_secure (h0 : (machine registry market oracle sha256).Reachable S₀)
    (h : ((machine registry market oracle sha256).startedIn S₀).Run (fun _ _ l => Foreign a l) tr S)
    (t : Address) :
    holding S₀.ledger t a - holding S.ledger t a ≤
        lent S₀.ledger t a - lent S.ledger t a + burnedOf t a tr ∧
      0 ≤ lent S.ledger t a ∧ lent S.ledger t a ≤ lent S₀.ledger t a := by
  have ha₀ : Allotted S₀.ledger a := Machine.Reach.invariant (I := fun S => Allotted S.ledger a)
    (fun _ => init_allotted) (fun _ _ _ _ hi _ hs => step_allotted hi hs) h0
  have hinv : Allotted S.ledger a ∧
      holding S₀.ledger t a - lent S₀.ledger t a - burnedOf t a tr ≤
        holding S.ledger t a - lent S.ledger t a ∧
      lent S.ledger t a ≤ lent S₀.ledger t a := by
    refine Machine.Run.invariant (I := fun tr S => Allotted S.ledger a ∧
      holding S₀.ledger t a - lent S₀.ledger t a - burnedOf t a tr ≤
        holding S.ledger t a - lent S.ledger t a ∧
      lent S.ledger t a ≤ lent S₀.ledger t a) ?_ ?_ h
    · rintro S rfl
      exact ⟨ha₀, by simp [burnedOf], le_rfl⟩
    · rintro tr S l S' - ⟨ha, hp, hg⟩ hl hs
      have hk := step_keeps hl ha hs
      have hpurse := hk.purse t
      refine ⟨hk.allotted, ?_, (hk.lent_le t).trans hg⟩
      rw [burnedOf_cons]
      simp only
      omega
  obtain ⟨ha, hp, hg⟩ := hinv
  exact ⟨by omega, ha.lent_nonneg t, hg⟩

section Vacant

/-- Nobody may draw on a holder. -/
structure Vacant (w : System) (a : Address) : Prop where
  allotted : Allotted w a
  lent_eq : ∀ t, lent w t a = 0

theorem Keeps.vacant {b : Address → ℤ} (h : Keeps a b w w') (hv : Vacant w a) : Vacant w' a :=
  ⟨h.allotted, fun t =>
    le_antisymm ((h.lent_le t).trans_eq (hv.lent_eq t)) (h.allotted.lent_nonneg t)⟩

/-- What a holder that nobody may draw on loses is burned. -/
theorem Keeps.holding_le {b : Address → ℤ} (h : Keeps a b w w') (hv : Vacant w a) (t : Address) :
    holding w t a - b t ≤ holding w' t a := by
  have hp := h.purse t
  have hl := hv.lent_eq t
  have hl' := (h.vacant hv).lent_eq t
  omega

theorem callToken_vacant {t : Address} {e : Env t} {c : Token.Call}
    (hc : ∀ spender n x, c ≠ .approve a spender n x)
    (hf : ∀ spender recipient n, c ≠ .transferFrom spender a recipient n)
    (hv : Vacant w a) (h : callToken registry e c w = .ok w') : Vacant w' a := by
  refine ⟨callToken_allotted hv.allotted h, fun t' => ?_⟩
  obtain ⟨s, s', hs, hstep, hw⟩ := callToken_cases h
  rcases eq_or_ne t' t with rfl | hne
  · have hgrants : s'.grants a = s.grants a := by
      rcases Token.step_grants hstep a with heq | ⟨_, _, _, hx, -⟩ | ⟨_, _, _, hx, -⟩
      · exact heq
      · exact absurd hx (hc _ _ _)
      · exact absurd hx (hf _ _ _)
    have hgranted : s'.granted a = s.granted a := by
      unfold Token.State.granted
      rw [hgrants]
    rw [Protocol.lent_eq (by rw [hw, update_self]), hgranted, ← Protocol.lent_eq hs]
    exact hv.lent_eq t'
  · have htoken : w'.token t' = w.token t' := by rw [hw, update_of_ne hne]
    rw [lent_congr htoken]
    exact hv.lent_eq t'

/-- A contract never lends its credits in its own name. -/
theorem market_vacant (e : Env market) :
    Market.Respects (tokens registry) e (fun _ _ => True) fun w w' =>
      Vacant w market → Vacant w' market where
  refl _ := id
  trans h h' := h' ∘ h
  transfer _ h hv := callToken_vacant (by simp) (by simp) hv h
  transferFrom hs _ h hv := callToken_vacant (by simp) (by simp [hs]) hv h

@[inherit_doc market_vacant]
theorem oracle_vacant {e : Env oracle} (P Q : Address → Prop) :
    Oracle.Respects (outside registry e sha256) oracle P Q fun w w' =>
      Vacant w oracle → Vacant w' oracle :=
  respects_of_calls (fun _ => id) (fun h h' => h' ∘ h)
    (fun _ h hv => callToken_vacant (by simp) (by simp) hv h)
    (fun _ h hv => callToken_vacant (by simp) (by simp) hv h)
    (fun _ h hv => callToken_vacant (by simp) (by simp) hv h)

/-- Nobody may ever draw on an address that signs nothing, even a contract of the system. -/
theorem step_vacant (hauth : l.auth a = false) (hv : Vacant S.ledger a)
    (h : Protocol.step sha256 l S = .ok S') : Vacant S'.ledger a := by
  by_cases hx : l.executor = some a
  · cases l with
    | ledger x => cases hx
    | market e c =>
      obtain rfl : market = a := Option.some.inj hx
      simp only [Protocol.step, bind_eq_ok, pure_eq_ok] at h
      obtain ⟨⟨m, w⟩, hw, rfl⟩ := h
      exact Market.execute_respects (market_vacant e) Market.permits_any hw hv
    | oracle e c =>
      obtain rfl : oracle = a := Option.some.inj hx
      simp only [Protocol.step, bind_eq_ok, pure_eq_ok] at h
      obtain ⟨⟨o, w⟩, hw, rfl⟩ := h
      exact Oracle.execute_respects (oracle_vacant _ _) hw hv
  · exact (step_keeps ⟨hauth, hx⟩ hv.allotted h).vacant hv

theorem init_vacant (h : (machine registry market oracle sha256).init S) :
    Vacant S.ledger a := by
  refine ⟨init_allotted h, fun t => ?_⟩
  obtain ⟨⟨htokens, -⟩, -⟩ := h
  simp [lent, htokens]

end Vacant

section Sample

/-- The account `1` holds ten credits and lets the account `2` draw six of them. -/
def allowing : State :=
  sampleMachine.calls founded [issuing,
    onToken 0 (.mintTo (.account 0) (.account 1) 10),
    onToken 1 (.approve (.account 1) (.account 2) 6 0)]

/-- Four credits are drawn and three are burned. -/
def reduced : State :=
  sampleMachine.calls allowing [
    onToken 2 (.transferFrom (.account 2) (.account 1) (.account 2) 4),
    onToken 0 (.burn (.account 0) (.account 1) 3)]

theorem holder_secure_reduced : ∃ tr : Trace State (Action archiveAt marketAt oracleAt),
    holding allowing.ledger (.contract 1) (.account 1) = 10 ∧
      holding reduced.ledger (.contract 1) (.account 1) = 3 ∧
      burnedOf (.contract 1) (.account 1) tr = 3 ∧
      holding allowing.ledger (.contract 1) (.account 1) -
          holding reduced.ledger (.contract 1) (.account 1) ≤
        lent allowing.ledger (.contract 1) (.account 1) -
          lent reduced.ledger (.contract 1) (.account 1) +
          burnedOf (.contract 1) (.account 1) tr := by
  have h0 : sampleMachine.Reachable allowing :=
    Machine.Reachable.calls ⟨_, .init founded_init⟩ _
  have hstart := Machine.Run.init (m := sampleMachine.startedIn allowing)
    (G := fun _ _ l => Foreign (.account 1) l) rfl
  have hdraw := hstart.call
    (l := onToken 2 (.transferFrom (.account 2) (.account 1) (.account 2) 4))
    ⟨by decide, by decide⟩ (by rfl)
  have hburn := hdraw.call (l := onToken 0 (.burn (.account 0) (.account 1) 3))
    ⟨by decide, by decide⟩ (by rfl)
  exact ⟨_, by rfl, by rfl, by rfl, (holder_secure h0 hburn _).1⟩

end Sample

end WaterCredits.Protocol
