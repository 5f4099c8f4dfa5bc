import WaterCredits.Protocol.System
import WaterCredits.Registry.Agreement

/-! # The ledger of the whole system

To the tokens and their registry the marketplace and the oracle are callers like
any other: what they do during a call is a sequence of transfers and mints. A
run of the whole system therefore leaves the tokens and the registry as a run of
theirs does, with the same retirements.
-/

namespace WaterCredits.Protocol

open Foundation Function
open Registry (System tokensRecord retirements)

variable {registry market oracle : Address} {w w' : System} {S S' : State}
  {sha256 : List (BitVec 8) → BytesN 32} {l : Action registry market oracle}
  {tr : Trace State (Action registry market oracle)}

/-- The calls that the contracts make on the tokens. -/
def routine : Token.Call → Bool
  | .transfer .. | .transferFrom .. | .mintTo .. => true
  | _ => false

def Routine (registry : Address) (w w' : System) : Prop :=
  ∃ (t : Address) (e : Env t) (c : Token.Call), routine c = true ∧
    callToken registry e c w = .ok w'

def Routines (registry : Address) : System → System → Prop :=
  Relation.ReflTransGen (Routine registry)

theorem routines_single {t : Address} {e : Env t} {c : Token.Call} (hc : routine c = true)
    (h : callToken registry e c w = .ok w') : Routines registry w w' :=
  .single ⟨t, e, c, hc, h⟩

theorem market_routines (e : Env market) :
    Market.Respects (tokens registry) e (fun _ _ => True) (Routines registry) where
  refl _ := .refl
  trans := .trans
  transfer _ := routines_single rfl
  transferFrom _ _ := routines_single rfl

theorem oracle_routines {e : Env oracle} (P Q : Address → Prop) :
    Oracle.Respects (outside registry e sha256) oracle P Q (Routines registry) :=
  respects_of_calls (fun _ => .refl) .trans (fun _ => routines_single rfl)
    (fun _ => routines_single rfl) (fun _ => routines_single rfl)

/-- The registry expects nothing of a routine call. -/
theorem tokensRecord_routine {t : Address} {e : Env t} {c : Token.Call}
    {tr : Trace System (Registry.Action registry)} (hc : routine c = true) :
    tokensRecord tr w (.token t e c) := by
  cases c <;> trivial

theorem tokensRecord_congr {tr tr' : Trace System (Registry.Action registry)}
    {x : Registry.Action registry} (h : tokensRecord tr w x) : tokensRecord tr' w x := by
  cases x with
  | deploy => trivial
  | token t e c => cases c <;> exact h
  | registry e c => cases c <;> exact h

theorem retires_routine {t : Address} {e : Env t} {c : Token.Call} (hc : routine c = true) :
    (Registry.Action.token t e c : Registry.Action registry).retires = false := by
  cases c <;> first | rfl | cases hc

theorem retirements_cons {tr : Trace System (Registry.Action registry)}
    {x : Registry.Action registry} :
    retirements (⟨w, x, w'⟩ :: tr) = retirements tr + x.retires.toNat := by
  unfold retirements
  rw [List.countP_cons]
  cases x.retires <;> rfl

/-- Routine calls prolong a run of the tokens and the registry, and retire nothing. -/
theorem Routines.run (h : Routines registry w w') {tr : Trace System (Registry.Action registry)}
    (hr : (Registry.machine registry).Run tokensRecord tr w) : ∃ tr',
      (Registry.machine registry).Run tokensRecord tr' w' ∧ retirements tr' = retirements tr := by
  induction h with
  | refl => exact ⟨tr, hr, rfl⟩
  | @tail v v' _ hlast ih =>
    obtain ⟨tr', hr', hcount⟩ := ih
    obtain ⟨t, e, c, hc, hcall⟩ := hlast
    refine ⟨_, hr'.step (tokensRecord_routine hc) hcall, ?_⟩
    rw [retirements_cons, retires_routine hc, hcount]
    rfl

/-- Runs in which retiring tokens have the registry configured, and nobody else records. -/
def registryUsed : Guard State (Action registry market oracle) := fun _ S l =>
  match l with
  | .ledger x => tokensRecord [] S.ledger x
  | _ => True

def Action.retires : Action registry market oracle → Bool
  | .ledger x => x.retires
  | _ => false

def retired (tr : Trace State (Action registry market oracle)) : ℕ :=
  tr.countP fun st => st.label.retires

theorem retired_cons : retired (⟨S, l, S'⟩ :: tr) = retired tr + l.retires.toNat := by
  unfold retired
  rw [List.countP_cons]
  cases l.retires <;> rfl

theorem ledger_run (h : (machine registry market oracle sha256).Run registryUsed tr S) : ∃ tr',
    (Registry.machine registry).Run tokensRecord tr' S.ledger ∧ retirements tr' = retired tr := by
  induction h with
  | init h => exact ⟨[], .init h.1, rfl⟩
  | @step tr S S' l _ hg hs ih =>
    obtain ⟨tr', hr, hcount⟩ := ih
    have quiet (hl : l.retires = false) (hw : Routines registry S.ledger S'.ledger) : ∃ tr',
        (Registry.machine registry).Run tokensRecord tr' S'.ledger ∧
          retirements tr' = retired (⟨S, l, S'⟩ :: tr) := by
      obtain ⟨tr'', hr', hcount'⟩ := hw.run hr
      refine ⟨tr'', hr', ?_⟩
      rw [retired_cons, hl, hcount', hcount]
      rfl
    cases l with
    | ledger x =>
      simp only [machine, Protocol.step, bind_eq_ok, pure_eq_ok] at hs
      obtain ⟨w, hw, rfl⟩ := hs
      refine ⟨_, hr.step (tokensRecord_congr hg) hw, ?_⟩
      rw [retirements_cons, retired_cons, hcount]
      rfl
    | market e c =>
      simp only [machine, Protocol.step, bind_eq_ok, pure_eq_ok] at hs
      obtain ⟨⟨m, w⟩, hw, rfl⟩ := hs
      exact quiet rfl (Market.execute_respects (market_routines e) Market.permits_any hw)
    | oracle e c =>
      simp only [machine, Protocol.step, bind_eq_ok, pure_eq_ok] at hs
      obtain ⟨⟨o, w⟩, hw, rfl⟩ := hs
      exact quiet rfl (Oracle.execute_respects (oracle_routines _ _) hw)

/--
The marketplace and the oracle cannot come between the tokens and their
registry: before the last number is given out, in every run of the whole system
certificates and records name each other and the totals agree.
-/
theorem ledger_agrees (h : (machine registry market oracle sha256).Run registryUsed tr S)
    (hlt : retired tr < 2 ^ 64) : Registry.Agreed S.ledger := by
  obtain ⟨tr', hr, hcount⟩ := ledger_run h
  obtain ⟨hlength, hm, -⟩ := Registry.run_mirrors hr (hcount ▸ hlt)
  exact hm.agreed (by omega)

section Sample

def onRegistry (key : BytesN 32) (c : Registry.Call) : Action archiveAt marketAt oracleAt :=
  .ledger (.registry (.signed 0 0 (.account key) (by simp)) c)

/-- The account `1` offers four of its ten credits and retires three. -/
def offset : State :=
  sampleMachine.calls founded [issuing,
    onToken 0 (.setRetirementRegistry (.account 0) archiveAt),
    onRegistry 0 (.setAuthorizedCaller (.account 0) (.contract 1) true),
    onToken 0 (.mintTo (.account 0) (.account 1) 10),
    onToken 1 (.approve (.account 1) marketAt 4 0),
    onMarket 1 (.createSellOrder (.account 1) (.contract 1) (.contract 1) 4 10000000),
    onToken 1 (.retire (.account 1) 3 "offset" "")]

theorem ledger_agrees_offset : ∃ tr : Trace State (Action archiveAt marketAt oracleAt),
    sampleMachine.Run registryUsed tr offset ∧ retired tr = 1 ∧
      offset.ledger.registry.totalRetired.val = 3 ∧ Registry.Agreed offset.ledger := by
  have h0 := Machine.Run.init (m := sampleMachine) (G := registryUsed) founded_init
  have h1 := h0.call (l := issuing) trivial (by rfl)
  have h2 := h1.call (l := onToken 0 (.setRetirementRegistry (.account 0) archiveAt)) trivial
    (by rfl)
  have h3 := h2.call
    (l := onRegistry 0 (.setAuthorizedCaller (.account 0) (.contract 1) true)) trivial (by rfl)
  have h4 := h3.call (l := onToken 0 (.mintTo (.account 0) (.account 1) 10)) trivial (by rfl)
  have h5 := h4.call (l := onToken 1 (.approve (.account 1) marketAt 4 0)) trivial (by rfl)
  have h6 := h5.call
    (l := onMarket 1 (.createSellOrder (.account 1) (.contract 1) (.contract 1) 4 10000000))
    trivial (by rfl)
  have h7 := h6.call (l := onToken 1 (.retire (.account 1) 3 "offset" ""))
    (fun t ht => by obtain rfl := Option.some.inj ht; rfl) (by rfl)
  exact ⟨_, h7, by rfl, by rfl, ledger_agrees h7 (by decide)⟩

end Sample

end WaterCredits.Protocol
