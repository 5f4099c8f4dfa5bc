import WaterCredits.Oracle.History
import WaterCredits.Protocol.System
import WaterCredits.Token.Batch

/-! # Where minted credits come from

A token counts the credits that it ever minted. Each of them was minted by a
direct call on the token or belongs to a result that the oracle stored for a
project configured with the token.
-/

namespace WaterCredits.Protocol

open Foundation Function
open Registry (System seenBy)

variable {registry market oracle token : Address} {w w' : System} {S S' : State}
  {sha256 : List (BitVec 8) → BytesN 32} {l : Action registry market oracle}
  {tr : Trace State (Action registry market oracle)}

def everMinted (w : System) (token : Address) : ℤ :=
  (w.token token).elim 0 (·.everMinted.val)

def issues : Token.Call → ℤ
  | .mintTo _ _ amount => amount.val
  | .batchMintTo _ recipients amounts => Token.pairsTotal (recipients.zip amounts)
  | _ => 0

def tokenOf (s : Oracle.State) (c : Oracle.Call) : Option Address :=
  c.project.bind fun p => (s.projectConfig p).map (·.tokenContract)

def storedIn (e : Env oracle) (c : Oracle.Call) (S S' : State) : Option Oracle.Entry :=
  Oracle.storedBy ⟨(S.oracle, S.ledger), .call e c, (S'.oracle, S'.ledger)⟩

/-- The credits of a token that a step mints by a direct call. -/
def issuedBy (token : Address) (st : Step State (Action registry market oracle)) : ℤ :=
  (st.label.onToken token).elim 0 issues

def earnedBy (token : Address) (st : Step State (Action registry market oracle)) : ℤ :=
  match st.label with
  | .oracle e c =>
    if tokenOf st.before.oracle c = some token then
      (storedIn e c st.before st.after).elim 0 (·.result.minted)
    else 0
  | _ => 0

section Token

variable {contract : Address} {W : Type} {e : Env contract} {R : Token.Registry W}
  {s s' : Token.State} {r r' : W} {c : Token.Call}

theorem step_issues (h : Token.step R (e, c) (s, r) = .ok (s', r')) :
    s'.everMinted.val = s.everMinted.val + issues c := by
  cases c with
  | mintTo => exact (Token.mintTo_credited (Token.within_eq_ok.mp h).1).minted
  | batchMintTo => exact (Token.batchMintTo_paid (Token.within_eq_ok.mp h).1).minted
  | transfer | batchTransfer | transferFrom =>
    rw [Token.step_transfers rfl h]
    exact (add_zero _).symm
  | retire =>
    rw [Token.step_retiring rfl h]
    exact (add_zero _).symm
  | burn =>
    obtain ⟨-, t, hd, rfl | ⟨bridged, -, rfl⟩⟩ := Token.burn_cases (Token.within_eq_ok.mp h).1
    · rw [Token.destroy_frame hd]
      exact (add_zero _).symm
    · rw [Token.destroy_frame hd]
      exact (add_zero _).symm
  | burnWithReason =>
    simp only [Token.step, Token.within_eq_ok, Token.State.burnWithReason, bind_eq_ok] at h
    obtain ⟨⟨_, -, _, -, hd⟩, -⟩ := h
    rw [Token.destroy_frame hd]
    exact (add_zero _).symm
  | _ =>
    rw [Token.step_administered rfl h]
    exact (add_zero _).symm

end Token

theorem everMinted_eq {s : Token.State} (h : w.token token = some s) :
    everMinted w token = s.everMinted.val := by
  simp [everMinted, h]

theorem everMinted_congr (h : w'.token token = w.token token) :
    everMinted w' token = everMinted w token := by
  simp [everMinted, h]

theorem callToken_issues {t : Address} {e : Env t} {c : Token.Call}
    (h : callToken registry e c w = .ok w') (token : Address) :
    everMinted w' token = everMinted w token + if t = token then issues c else 0 := by
  obtain ⟨s, s', hs, hstep, hw⟩ := callToken_cases h
  rcases eq_or_ne t token with rfl | hne
  · rw [everMinted_eq hs, everMinted_eq (by rw [hw, update_self]), if_pos rfl]
    exact step_issues hstep
  · rw [if_neg hne, add_zero]
    exact everMinted_congr (by rw [hw, update_of_ne hne.symm])

theorem ledger_issues {x : Registry.Action registry} (h : Registry.step x w = .ok w')
    (token : Address) : everMinted w' token =
      everMinted w token +
        ((Action.ledger x : Action registry market oracle).onToken token).elim 0 issues := by
  cases x with
  | token t e c =>
    rw [callToken_issues h token]
    simp only [Action.onToken]
    split <;> rfl
  | registry e c =>
    simp only [Registry.step, bind_eq_ok, pure_eq_ok] at h
    obtain ⟨r, -, rfl⟩ := h
    exact (add_zero _).symm
  | deploy t e admin name symbol projectId methodology =>
    simp only [Registry.step, bind_eq_ok, pure_eq_ok, Token.initialise_eq_ok] at h
    obtain ⟨u, ⟨hnone, rfl⟩, rfl⟩ := h
    rcases eq_or_ne token t with rfl | hne
    · simp [everMinted, hnone, Action.onToken]
    · simp [everMinted, update_of_ne hne, Action.onToken]

theorem mintsThrough_iff {s : Oracle.State} {c : Oracle.Call} :
    Oracle.mintsThrough s c token ↔ tokenOf s c = some token := by
  simp [Oracle.mintsThrough, tokenOf, Option.bind_eq_some_iff, @eq_comm _ token]

/-- The tokens mint what the meter of the oracle counts, for the token of the call. -/
def Metered (through : Option Address) (token : Address) (x y : System × ℤ) : Prop :=
  everMinted y.1 token = everMinted x.1 token + if through = some token then y.2 - x.2 else 0

theorem Metered.still {through : Option Address} {x y : System × ℤ} (hn : y.2 = x.2)
    (h : everMinted y.1 token = everMinted x.1 token) : Metered through token x y := by
  unfold Metered
  rw [hn, sub_self, ite_self, add_zero, h]

theorem outside_respects {e : Env oracle} {s : Oracle.State} {c : Oracle.Call} {Q : Address → Prop}
    (token : Address) :
    Oracle.Respects (outside registry e sha256).metered oracle (Oracle.mintsThrough s c) Q
      (Metered (tokenOf s c) token) where
  refl x := .still rfl rfl
  trans h h' := by
    unfold Metered at h h' ⊢
    split_ifs at h h' ⊢ <;> omega
  totalSupply {t x n y} h := by
    obtain ⟨⟨u, v⟩, hv, heq⟩ := map_eq_ok.mp h
    cases heq
    simp only [outside, bind_eq_ok, pure_eq_ok, Prod.mk.injEq] at hv
    obtain ⟨_, -, -, rfl⟩ := hv
    exact .still rfl rfl
  maxSupply {t x n y} h := by
    obtain ⟨⟨u, v⟩, hv, heq⟩ := map_eq_ok.mp h
    cases heq
    simp only [outside, bind_eq_ok, pure_eq_ok, Prod.mk.injEq] at hv
    obtain ⟨_, -, -, rfl⟩ := hv
    exact .still rfl rfl
  mintTo {t recipient amount x y} ht h := by
    obtain ⟨v, hv, rfl⟩ := map_eq_ok.mp h
    have hissued := callToken_issues hv token
    rw [mintsThrough_iff] at ht
    unfold Metered
    rw [ht, hissued]
    simp [issues]
  deposit {t sender amount x y} _ h := by
    obtain ⟨v, hv, rfl⟩ := map_eq_ok.mp h
    have hissued := callToken_issues hv token
    exact .still rfl (by simpa [issues] using hissued)
  payout {t recipient amount x y} _ h := by
    obtain ⟨v, hv, rfl⟩ := map_eq_ok.mp h
    have hissued := callToken_issues hv token
    exact .still rfl (by simpa [issues] using hissued)

theorem oracle_earns {e : Env oracle} {c : Oracle.Call} {o : Oracle.State}
    (hb : S.oracle.config.feeBps.toNat ≤ 10000)
    (h : Oracle.execute (outside registry e sha256) e S.oracle S.ledger c = .ok (o, w))
    (token : Address) :
    everMinted w token = everMinted S.ledger token + earnedBy token
      (⟨S, .oracle e c, { S with ledger := w, oracle := o }⟩ :
        Step State (Action registry market oracle)) := by
  obtain ⟨m, hm, -⟩ := Oracle.execute_metered (n := 0) hb h
  have hrespects := Oracle.execute_respects (outside_respects token) hm
  have hstored : (storedIn e c S { S with ledger := w, oracle := o }).elim 0 (·.result.minted) =
      m := by
    have hminted : Oracle.mintedBy (outside registry e sha256)
        ⟨(S.oracle, S.ledger), .call e c, (o, w)⟩ = m := by
      simp only [Oracle.mintedBy, hm, zero_add]
    unfold storedIn
    rcases Oracle.execute_stores hb h rfl with ⟨hst, hz, -⟩ | ⟨p, r, subs, -, -, hr, hst⟩
    · rw [hst, ← hminted, hz]
      rfl
    · rw [hst, ← hminted, hr]
      rfl
  unfold Metered at hrespects
  simp only [zero_add, sub_zero] at hrespects
  rw [hrespects, earnedBy]
  simp only [hstored]

theorem market_respects_minted (e : Env market) (token : Address) :
    Market.Respects (tokens registry) e (fun _ _ => True) fun w w' =>
      everMinted w' token = everMinted w token where
  refl _ := rfl
  trans h h' := h'.trans h
  transfer {t recipient amount w w'} _ h := by
    have hissued := callToken_issues h token
    simpa [issues] using hissued
  transferFrom {t sender recipient amount w w'} _ _ h := by
    have hissued := callToken_issues h token
    simpa [issues] using hissued

/-- Where the credits of every token came from. -/
structure Sourced (tr : Trace State (Action registry market oracle)) (S : State) : Prop where
  fee : S.oracle.config.feeBps.toNat ≤ 10000
  minted : ∀ t, everMinted S.ledger t = (tr.map (issuedBy t)).sum + (tr.map (earnedBy t)).sum

theorem sourced_init (h : (machine registry market oracle sha256).init S) :
    Sourced ([] : Trace State (Action registry market oracle)) S := by
  obtain ⟨⟨htokens, -⟩, -, admin, stakingToken, treasury, ho⟩ := h
  obtain ⟨-, ho⟩ := Oracle.initialise_eq_ok.mp ho
  constructor
  · rw [ho]
    exact Nat.zero_le _
  · intro t
    simp [everMinted, htokens]

theorem Sourced.step (h : Sourced tr S)
    (hs : (machine registry market oracle sha256).step l S = .ok S') :
    Sourced (⟨S, l, S'⟩ :: tr) S' := by
  obtain ⟨hfee, hminted⟩ := h
  cases l with
  | ledger x =>
    simp only [machine, Protocol.step, bind_eq_ok, pure_eq_ok] at hs
    obtain ⟨w, hw, rfl⟩ := hs
    refine ⟨hfee, fun t => ?_⟩
    have hissued : everMinted w t = everMinted S.ledger t +
        ((Action.ledger x : Action registry market oracle).onToken t).elim 0 issues :=
      ledger_issues hw t
    rw [List.map_cons, List.map_cons, List.sum_cons, List.sum_cons, hissued, hminted t]
    simp only [issuedBy, earnedBy]
    ring
  | market e c =>
    simp only [machine, Protocol.step, bind_eq_ok, pure_eq_ok] at hs
    obtain ⟨⟨m, w⟩, hx, rfl⟩ := hs
    refine ⟨hfee, fun t => ?_⟩
    have hsame := Market.execute_respects (market_respects_minted e t) Market.permits_any hx
    rw [List.map_cons, List.map_cons, List.sum_cons, List.sum_cons, hsame, hminted t]
    simp [issuedBy, earnedBy, Action.onToken]
  | oracle e c =>
    simp only [machine, Protocol.step, bind_eq_ok, pure_eq_ok] at hs
    obtain ⟨⟨o, w⟩, hx, rfl⟩ := hs
    refine ⟨Oracle.execute_fee hfee hx, fun t => ?_⟩
    have hearned : everMinted w t = everMinted S.ledger t +
        earnedBy t (⟨S, .oracle e c, { S with ledger := w, oracle := o }⟩ :
          Step State (Action registry market oracle)) := oracle_earns hfee hx t
    rw [List.map_cons, List.map_cons, List.sum_cons, List.sum_cons, hearned, hminted t]
    simp only [issuedBy, Action.onToken, Option.elim_none]
    ring

/--
In every run the credits that a token ever minted are the amounts of the direct
mints on it and of the results stored for projects configured with it.
-/
theorem minted_sourced
    (h : (machine registry market oracle sha256).Run Machine.anyCall tr S) (t : Address) :
    everMinted S.ledger t = (tr.map (issuedBy t)).sum + (tr.map (earnedBy t)).sum := by
  have hsourced : Sourced tr S := h.invariant (I := Sourced) (fun _ => sourced_init)
    fun _ _ _ _ _ hi _ hs => hi.step hs
  exact hsourced.minted t

section Sample

/-- A configuration under which one reading suffices and the fee is five percent. -/
def soleOracle : Oracle.OracleConfig :=
  { founded.oracle.config with minOracles := 1, feeBps := 500 }

/-- The project `7` earns the credits of the sample token for the account `2`. -/
def riverside : Oracle.ProjectConfig :=
  { tokenContract := .contract 1, beneficiary := .account 2, baselineN := 3, baselineP := 3
    baselineTemp := 200 }

/-- Clear water at five thousand litres a second. -/
def clearFlow : Oracle.Reading :=
  { ph := 650, turbidity := 1, dissolvedOxygen := 80, flowRate := 5000, temperature := 200
    totalNitrogen := 1, totalPhosphorus := 1 }

/-- Ten credits are minted directly, and then those of a reading. -/
def earned : State :=
  sampleMachine.calls founded [issuing,
    onToken 0 (.mintTo (.account 0) (.account 1) 10),
    onToken 0 (.setMinter (.account 0) oracleAt),
    onOracle 0 (.addOracle (.account 0) (.account 1)),
    onOracle 0 (.updateConfig (.account 0) soleOracle),
    onOracle 0 (.setProjectConfig (.account 0) 7 riverside),
    onOracle 1 (.submitReading (.account 1) 7 1 clearFlow)]

theorem minted_sourced_earned : ∃ tr : Trace State (Action archiveAt marketAt oracleAt),
    everMinted earned.ledger (.contract 1) = 1590 ∧
      (tr.map (issuedBy (.contract 1))).sum = 10 ∧
      everMinted earned.ledger (.contract 1) =
        (tr.map (issuedBy (.contract 1))).sum + (tr.map (earnedBy (.contract 1))).sum := by
  have h0 := Machine.Run.init (m := sampleMachine) (G := Machine.anyCall) founded_init
  have h1 := h0.call (l := issuing) trivial (by rfl)
  have h2 := h1.call (l := onToken 0 (.mintTo (.account 0) (.account 1) 10)) trivial (by rfl)
  have h3 := h2.call (l := onToken 0 (.setMinter (.account 0) oracleAt)) trivial (by rfl)
  have h4 := h3.call (l := onOracle 0 (.addOracle (.account 0) (.account 1))) trivial (by rfl)
  have h5 := h4.call (l := onOracle 0 (.updateConfig (.account 0) soleOracle)) trivial (by rfl)
  have h6 := h5.call (l := onOracle 0 (.setProjectConfig (.account 0) 7 riverside)) trivial
    (by rfl)
  have h7 := h6.call (l := onOracle 1 (.submitReading (.account 1) 7 1 clearFlow)) trivial
    (by rfl)
  exact ⟨_, by rfl, by rfl, minted_sourced h7 _⟩

end Sample

end WaterCredits.Protocol
