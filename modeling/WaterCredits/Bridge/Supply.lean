import WaterCredits.Bridge.Authority
import WaterCredits.Bridge.Chains
import WaterCredits.Evm.Supply
import WaterCredits.Token.Bridged

/-! # Conservation across the chains

The credits that a token counts as bridged are those that circulate on the other
chain and those that the relayers have still to carry over, in either direction.
So a deposit of the other chain can always be paid out of the bridged credits.
-/

namespace WaterCredits.Bridge

open Foundation Function

variable {W : Type} {d : Deployment W} {r : Relay} {s s' : Chains W} {b b' : State}
  {t t' : Token.State × W} {e : Env d.bridge} {tr : Trace (Chains W) d.Action}

theorem onToken_eq_ok {home token : Address} {R : Token.Registry W} {c : Token.Call}
    {e : Env token} : onToken home R c token e t = .ok t' ↔
      token = home ∧ Token.step R (e, c) t = .ok t' := by
  unfold onToken
  split <;> simp_all [throw, throwThe, MonadExceptOf.throw]

theorem deposit_bridged {sender : Address} {amount : I128} {evmRecipient : BytesN 32}
    {ev : DepositEvent} (hb : t.1.bridge = some d.bridge)
    (h : b.deposit d.outside e sender amount evmRecipient t = .ok (ev, b', t')) :
    t'.1.bridge = some d.bridge ∧ t'.1.bridgedToEvm.val = t.1.bridgedToEvm.val + ev.amount.val := by
  obtain ⟨-, -, -, rfl, -, ⟨v, x⟩, htransfer, hburn⟩ := deposit_cases h
  obtain ⟨-, htransfer⟩ := onToken_eq_ok.mp htransfer
  obtain ⟨-, hburn⟩ := onToken_eq_ok.mp hburn
  have hv : v.bridge = t.1.bridge := Token.step_bridge_eq htransfer
  have ht : t'.1.bridge = v.bridge := Token.step_bridge_eq hburn
  rw [hb] at hv
  rw [hv] at ht
  refine ⟨ht, ?_⟩
  obtain ⟨htransfer, -⟩ := Token.within_eq_ok.mp htransfer
  obtain ⟨hburn, -⟩ := Token.within_eq_ok.mp hburn
  rw [Token.burn_bridged hburn, if_pos hv, Token.transfer_bridged htransfer]

theorem withdraw_bridged {m : InboundTransfer} {signers : List (BytesN 32)}
    {sigs : List (BytesN 64)} (hb : t.1.bridge = some d.bridge)
    (h : b.withdraw d.outside e m signers sigs t = .ok (b', t')) :
    t'.1.bridge = some d.bridge ∧ t'.1.bridgedToEvm.val = t.1.bridgedToEvm.val - m.amount.val := by
  obtain ⟨-, -, -, -, -, ⟨recipient, -, hmint⟩, -⟩ := withdraw_cases h
  obtain ⟨-, hmint⟩ := onToken_eq_ok.mp hmint
  have ht : t'.1.bridge = t.1.bridge := Token.step_bridge_eq hmint
  obtain ⟨hmint, -⟩ := Token.within_eq_ok.mp hmint
  rw [hb] at ht
  refine ⟨ht, ?_⟩
  rw [Token.mintTo_bridged hmint, if_pos hb]

def Call.tokenAfter (old : Address) : Call → Address
  | .setToken _ newToken => newToken
  | _ => old

def Call.crossing : Call → Bool
  | .deposit .. | .withdraw .. => true
  | _ => false

theorem execute_rest {contract : Address} {V : Type} {o : Outside V} {e : Env contract}
    {s s' : State} {w w' : V} {c : Call} (hc : c.crossing = false)
    (h : execute o e s w c = .ok (s', w')) :
    w' = w ∧ s'.token = c.tokenAfter s.token ∧ s'.processedMessages = s.processedMessages := by
  cases c with
  | withdraw | deposit => cases hc
  | initialise => simp [execute, Bridge.initialise] at h
  | updateRelayers =>
    simp only [execute, within_eq_ok, State.updateRelayers, bind_eq_ok, pure_eq_ok] at h
    obtain ⟨⟨_, -, _, -, rfl⟩, rfl⟩ := h
    exact ⟨rfl, rfl, rfl⟩
  | setToken | pause | unpause =>
    simp only [execute, within_eq_ok, State.setToken, State.pause, State.unpause, bind_eq_ok,
      pure_eq_ok] at h
    obtain ⟨⟨_, -, rfl⟩, rfl⟩ := h
    exact ⟨rfl, rfl, rfl⟩

/-- The accounts of the two chains and of the deposits between them. -/
structure Conserved (d : Deployment W) (r : Relay) (s : Chains W) : Prop where
  bridge : s.token.1.bridge = some d.bridge
  token : s.bridge.token = d.token
  whole : s.erc20.Whole
  genuineEvm : s.toEvm.Genuine r.toEvm
  genuineStellar : s.toStellar.Genuine r.toStellar
  positive : ∀ ev ∈ s.toEvm.sent, 0 < ev.amount.val
  bounded : ∀ ev ∈ s.toStellar.sent, ev.amount.toNat < 2 ^ 127
  processedEvm : ∀ m ∈ s.toEvm.received,
    s.erc20.processedMessages (Evm.msgHash d.chain d.erc20 m) = true
  processedStellar : ∀ m ∈ s.toStellar.received,
    s.bridge.processedMessages (messageHash d.outside m) = true
  total : s.token.1.bridgedToEvm.val = s.erc20.totalSupply.toNat +
    s.toEvm.due r.toEvm (fun ev => ev.amount.val) +
    s.toStellar.due r.toStellar fun ev => ev.amount.toNat

namespace Conserved

theorem totalSupply_le (h : Conserved d r s) :
    (s.erc20.totalSupply.toNat : ℤ) ≤ s.token.1.bridgedToEvm.val := by
  have ht := h.total
  have h1 : 0 ≤ s.toEvm.due r.toEvm fun ev => ev.amount.val :=
    Channel.due_nonneg fun ev hev => (h.positive ev hev).le
  have h2 : 0 ≤ s.toStellar.due r.toStellar fun ev => ev.amount.toNat :=
    Channel.due_nonneg fun ev _ => Int.natCast_nonneg _
  omega

theorem amount_le (h : Conserved d r s) (hd : s.toStellar.Distinct r.toStellar)
    {ev : Evm.DepositEvent} (hev : ev ∈ s.toStellar.inFlight r.toStellar) :
    (r.toStellar ev).amount.val ≤ s.token.1.bridgedToEvm.val := by
  rw [r.toStellar_amount ev (h.bounded ev (Channel.mem_inFlight.mp hev).1)]
  have ht := h.total
  have h1 : 0 ≤ s.toEvm.due r.toEvm fun ev => ev.amount.val :=
    Channel.due_nonneg fun ev hev => (h.positive ev hev).le
  have h2 := Channel.le_due (f := fun ev : Evm.DepositEvent => (ev.amount.toNat : ℤ)) hd
    (fun ev _ => Int.natCast_nonneg _) hev
  omega

theorem token_step (h : Conserved d r s) {e : Env d.token} {c : Token.Call}
    (hauth : e.auth d.bridge = false) (hc : c.bridgeAfter (some d.bridge) = some d.bridge)
    (hs : Token.step d.registry (e, c) s.token = .ok t) : Conserved d r { s with token := t } := by
  have hb := Token.step_bridge_eq hs
  rw [h.bridge, hc] at hb
  have ht := Token.step_bridged_eq h.bridge hauth hs
  exact { h with bridge := hb, total := ht.trans h.total }

theorem deposit_step (h : Conserved d r s) {sender : Address} {amount : I128}
    {evmRecipient : BytesN 32} (hd : s'.toEvm.Distinct r.toEvm)
    (hs : d.bridgeStep e s (.deposit sender amount evmRecipient) = .ok s') : Conserved d r s' := by
  simp only [Deployment.bridgeStep, bind_eq_ok, pure_eq_ok] at hs
  obtain ⟨⟨ev, b, t⟩, hdep, rfl⟩ := hs
  obtain ⟨hb, ht⟩ := deposit_bridged h.bridge hdep
  obtain ⟨h0, -, -, rfl, rfl, -⟩ := deposit_cases hdep
  have hdue := Channel.due_send (f := fun ev : DepositEvent => ev.amount.val) hd h.genuineEvm
  have htot := h.total
  exact { h with
    bridge := hb
    genuineEvm := h.genuineEvm.send
    positive := List.forall_mem_cons.mpr ⟨h0, h.positive⟩
    total := by
      simp only at hdue ht ⊢
      omega }

theorem withdraw_step (h : Conserved d r s) {m : InboundTransfer} {signers : List (BytesN 32)}
    {sigs : List (BytesN 64)} (hd : s.toStellar.Distinct r.toStellar)
    (hm : m ∈ s.toStellar.sent.map r.toStellar)
    (hs : d.bridgeStep e s (.withdraw m signers sigs) = .ok s') : Conserved d r s' := by
  simp only [Deployment.bridgeStep, bind_eq_ok, pure_eq_ok] at hs
  obtain ⟨⟨b, t⟩, hw, rfl⟩ := hs
  obtain ⟨hb, ht⟩ := withdraw_bridged h.bridge hw
  obtain ⟨-, -, -, hn, -, -, rfl⟩ := withdraw_cases hw
  have hnew : m ∉ s.toStellar.received := by
    intro hmem
    rw [h.processedStellar m hmem] at hn
    cases hn
  obtain ⟨ev, hev, rfl⟩ := List.mem_map.mp hm
  have hdue := Channel.due_receive (f := fun ev : Evm.DepositEvent => (ev.amount.toNat : ℤ)) hd hev
    hnew
  have hamount := r.toStellar_amount ev (h.bounded ev hev)
  have htot := h.total
  exact { h with
    bridge := hb
    genuineStellar := h.genuineStellar.receive hm
    processedStellar := by
      refine List.forall_mem_cons.mpr ⟨update_self .., fun m' hm' => ?_⟩
      simp only [update_apply]
      split <;> simp [h.processedStellar m' hm']
    total := by
      simp only at hdue ht ⊢
      omega }

theorem rest_step (h : Conserved d r s) {c : Call} (hc : c.crossing = false)
    (htoken : c.tokenAfter d.token = d.token)
    (hs : execute d.outside e s.bridge s.token c = .ok (b, t)) :
    Conserved d r { s with bridge := b, token := t } := by
  obtain ⟨rfl, ht, hp⟩ := execute_rest hc hs
  rw [h.token, htoken] at ht
  exact { h with
    token := ht
    processedStellar := fun m hm => by
      have hm := h.processedStellar m hm
      rwa [← hp] at hm }

theorem erc20_deposit_step (h : Conserved d r s) {msgSender : Evm.Account} {amount : Evm.Word}
    {recipientType : UInt8} {recipient : Evm.Word} (hd : s'.toStellar.Distinct r.toStellar)
    (hs : d.erc20Step msgSender s (.deposit amount recipientType recipient) = .ok s') :
    Conserved d r s' := by
  simp only [Deployment.erc20Step, bind_eq_ok, pure_eq_ok] at hs
  obtain ⟨⟨ev, erc20⟩, hdep, rfl⟩ := hs
  have hexec : Evm.execute d.chain d.erc20 msgSender s.erc20
      (.deposit amount recipientType recipient) = .ok erc20 := by
    simp [Evm.execute, hdep]
  obtain ⟨hwhole, hsupply⟩ := Evm.execute_whole h.whole hexec
  obtain ⟨-, hp⟩ := Evm.execute_keeps hexec
  obtain ⟨-, rfl, -, _, _, _, -, -, hle, -⟩ := Evm.deposit_cases hdep
  have hdue := Channel.due_send (f := fun ev : Evm.DepositEvent => (ev.amount.toNat : ℤ)) hd
    h.genuineStellar
  have hcap := h.totalSupply_le
  have hlt := s.token.1.bridgedToEvm.val_lt
  have htot := h.total
  exact { h with
    whole := hwhole
    genuineStellar := h.genuineStellar.send
    bounded := List.forall_mem_cons.mpr ⟨by simp only; omega, h.bounded⟩
    processedEvm := fun m hm => hp _ (h.processedEvm m hm)
    total := by
      simp only [Evm.Call.supplied] at hdue hsupply ⊢
      omega }

theorem erc20_withdraw_step (h : Conserved d r s) {msgSender : Evm.Account} {m : Evm.Message}
    {sigs : List (List (BitVec 8))} (hd : s.toEvm.Distinct r.toEvm)
    (hm : m ∈ s.toEvm.sent.map r.toEvm)
    (hs : d.erc20Step msgSender s (.withdraw m sigs) = .ok s') : Conserved d r s' := by
  simp only [Deployment.erc20Step, bind_eq_ok, pure_eq_ok] at hs
  obtain ⟨erc20, hw, rfl⟩ := hs
  have hexec : Evm.execute d.chain d.erc20 msgSender s.erc20 (.withdraw m sigs) = .ok erc20 := hw
  obtain ⟨hwhole, hsupply⟩ := Evm.execute_whole h.whole hexec
  obtain ⟨-, hp⟩ := Evm.execute_keeps hexec
  obtain ⟨-, -, -, -, hn, -, _, _, -, -, rfl⟩ := Evm.withdraw_cases hw
  have hnew : m ∉ s.toEvm.received := by
    intro hmem
    rw [h.processedEvm m hmem] at hn
    cases hn
  obtain ⟨ev, hev, rfl⟩ := List.mem_map.mp hm
  have hdue := Channel.due_receive (f := fun ev : DepositEvent => ev.amount.val) hd hev hnew
  have hamount := r.toEvm_amount ev (h.positive ev hev)
  have htot := h.total
  exact { h with
    whole := hwhole
    genuineEvm := h.genuineEvm.receive hm
    processedEvm := List.forall_mem_cons.mpr
      ⟨update_self .., fun m' hm' => hp _ (h.processedEvm m' hm')⟩
    total := by
      simp only [Evm.Call.supplied] at hdue hsupply ⊢
      omega }

theorem erc20_rest_step (h : Conserved d r s) {msgSender : Evm.Account} {c : Evm.Call}
    {erc20 : Evm.State} (hc : c.supplied = 0)
    (hs : Evm.execute d.chain d.erc20 msgSender s.erc20 c = .ok erc20) :
    Conserved d r { s with erc20 } := by
  obtain ⟨hwhole, hsupply⟩ := Evm.execute_whole h.whole hs
  obtain ⟨-, hp⟩ := Evm.execute_keeps hs
  have htot := h.total
  exact { h with
    whole := hwhole
    processedEvm := fun m hm => hp _ (h.processedEvm m hm)
    total := by
      simp only at hsupply ⊢
      omega }

theorem init (h : d.machine.init s) : Conserved d r s := by
  obtain ⟨⟨t, ht, -, e, admin, hset⟩, -, htoken, herc, h1, h2⟩ := h
  obtain ⟨hwhole, hsupply⟩ := Evm.init_whole herc
  have hbooks := Token.init_books ht
  simp only [Token.State.setBridge, bind_eq_ok, pure_eq_ok] at hset
  obtain ⟨_, -, hset⟩ := hset
  obtain ⟨⟨token, w⟩, bridge, erc20, toEvm, toStellar⟩ := s
  simp only at hset htoken hsupply h1 h2 hwhole
  subst hset h1 h2
  refine ⟨rfl, htoken, hwhole, by simp [Channel.Genuine], by simp [Channel.Genuine], by simp,
    by simp, by simp, by simp, ?_⟩
  have hbridged : t.1.bridgedToEvm.val = 0 := congrArg Books.bridged hbooks
  simp [hbridged, hsupply, Channel.due_empty]

end Conserved

theorem sent_suffix {l : d.Action} (hs : d.step l s = .ok s') :
    s.toEvm.sent <:+ s'.toEvm.sent ∧ s.toStellar.sent <:+ s'.toStellar.sent := by
  cases l with
  | token e c =>
    simp only [Deployment.step, mapError_eq_ok, bind_eq_ok, pure_eq_ok] at hs
    obtain ⟨t, -, rfl⟩ := hs
    exact ⟨List.suffix_rfl, List.suffix_rfl⟩
  | bridge e c =>
    cases c <;> simp only [Deployment.step, Deployment.bridgeStep, mapError_eq_ok, bind_eq_ok,
      pure_eq_ok] at hs
    case deposit =>
      obtain ⟨⟨ev, b, t⟩, -, rfl⟩ := hs
      exact ⟨List.suffix_cons _ _, List.suffix_rfl⟩
    all_goals
      obtain ⟨⟨b, t⟩, -, rfl⟩ := hs
      exact ⟨List.suffix_rfl, List.suffix_rfl⟩
  | erc20 msgSender c =>
    cases c <;> simp only [Deployment.step, Deployment.erc20Step, mapError_eq_ok, bind_eq_ok,
      pure_eq_ok] at hs
    case deposit =>
      obtain ⟨⟨ev, erc20⟩, -, rfl⟩ := hs
      exact ⟨List.suffix_rfl, List.suffix_cons _ _⟩
    all_goals
      obtain ⟨erc20, -, rfl⟩ := hs
      exact ⟨List.suffix_rfl, List.suffix_rfl⟩

/-- Every deposit so far has a message of its own, on both chains. -/
def Chains.Distinct (r : Relay) (s : Chains W) : Prop :=
  s.toEvm.Distinct r.toEvm ∧ s.toStellar.Distinct r.toStellar

theorem distinct_back {l : d.Action} (hs : d.step l s = .ok s') (hd : s'.Distinct r) :
    s.Distinct r := by
  obtain ⟨h1, h2⟩ := sent_suffix hs
  exact ⟨hd.1.sublist (h1.sublist.map _), hd.2.sublist (h2.sublist.map _)⟩

theorem conserved_step {l : d.Action} (h : Conserved d r s) (hg : d.genuine r tr s l)
    (hs : d.step l s = .ok s') (hd : s'.Distinct r) : Conserved d r s' := by
  have hold := distinct_back hs hd
  cases l with
  | token e c =>
    simp only [Deployment.step, mapError_eq_ok, bind_eq_ok, pure_eq_ok] at hs
    obtain ⟨t, hs, rfl⟩ := hs
    cases c with
    | setBridge admin bridge =>
      exact h.token_step (c := .setBridge admin bridge) hg.1 (congrArg some hg.2) hs
    | _ => exact h.token_step hg rfl hs
  | bridge e c =>
    replace hs : d.bridgeStep e s c = .ok s' := mapError_eq_ok.mp hs
    cases c with
    | deposit => exact h.deposit_step hd.1 hs
    | withdraw => exact h.withdraw_step hold.2 hg hs
    | setToken admin newToken =>
      simp only [Deployment.bridgeStep, bind_eq_ok, pure_eq_ok] at hs
      obtain ⟨⟨b, t⟩, hs, rfl⟩ := hs
      exact h.rest_step (c := .setToken admin newToken) rfl hg hs
    | _ =>
      simp only [Deployment.bridgeStep, bind_eq_ok, pure_eq_ok] at hs
      obtain ⟨⟨b, t⟩, hs, rfl⟩ := hs
      exact h.rest_step rfl rfl hs
  | erc20 msgSender c =>
    replace hs : d.erc20Step msgSender s c = .ok s' := mapError_eq_ok.mp hs
    cases c with
    | deposit => exact h.erc20_deposit_step hd.2 hs
    | withdraw => exact h.erc20_withdraw_step hold.1 hg hs
    | _ =>
      simp only [Deployment.erc20Step, bind_eq_ok, pure_eq_ok] at hs
      obtain ⟨erc20, hs, rfl⟩ := hs
      exact h.erc20_rest_step rfl hs

theorem conserved_run (h : d.machine.Run (d.genuine r) tr s) (hd : s.Distinct r) :
    Conserved d r s := by
  induction h with
  | init h => exact .init h
  | step _ hg hs ih => exact conserved_step (ih (distinct_back hs hd)) hg hs hd

open Token (overdraft)

theorem verifySigners_ne_overdraft {relayers : List (BytesN 32)} {message : List (BitVec 8)}
    {last : Option (BytesN 32)} {l : List (BytesN 32 × BytesN 64)} {n : ℕ} :
    verifySigners d.outside relayers message last l n ≠ .error overdraft := by
  induction l generalizing last n with
  | nil => simp [verifySigners]
  | cons p l ih =>
    intro h
    simp only [verifySigners, Host.linked, overdraft, bind_eq_error, ensure_eq_error,
      ensure_eq_ok, require_eq_error, require_eq_ok, Panic.message.injEq, String.reduceEq,
      reduceCtorEq, and_false, exists_const, false_or] at h
    exact ih h.2.2.2

theorem bytesToAddress_ne_overdraft {n : UInt32} {payload : BytesN 32} :
    bytesToAddress n payload ≠ .error overdraft := by
  unfold bytesToAddress
  split_ifs <;> simp [throw, throwThe, MonadExceptOf.throw]

theorem withdraw_overdraft {m : InboundTransfer} {signers : List (BytesN 32)}
    {sigs : List (BytesN 64)} (h : b.withdraw d.outside e m signers sigs t = .error overdraft) :
    t.1.bridgedToEvm.val < m.amount.val := by
  have hmint : ∃ recipient, onToken d.token d.registry (.mintTo d.bridge recipient m.amount) b.token
      (e.invoke b.token) t = .error overdraft := by
    simp only [State.withdraw, bind_eq_error, ensure_eq_error, Token.message_eq_overdraft,
      verifySigners_ne_overdraft, bytesToAddress_ne_overdraft, pure_ne_error] at h
    simp only [ensure_eq_ok, String.reduceEq, and_false, exists_false, or_false, false_or,
      exists_const] at h
    obtain ⟨-, -, -, -, -, -, _, -, -, recipient, -, h⟩ := h
    exact ⟨recipient, h⟩
  obtain ⟨recipient, hmint⟩ := hmint
  unfold onToken at hmint
  split at hmint
  · simp [Token.step, Token.within] at hmint
    exact (Token.mintTo_overdraft hmint).2
  · simp [throw, throwThe, MonadExceptOf.throw, overdraft] at hmint

/--
The bridged credits are those on the other chain and those in flight in either
direction, the balances of the other chain add up to its supply, and a deposit
in flight never exceeds the bridged credits.
-/
theorem crossing_conserved (h : d.machine.Run (d.genuine r) tr s) (hd : s.Distinct r) :
    s.token.1.bridgedToEvm.val = s.erc20.totalSupply.toNat +
        s.toEvm.due r.toEvm (fun ev => ev.amount.val) +
        s.toStellar.due r.toStellar (fun ev => ev.amount.toNat) ∧
      ∑ᶠ a, ((s.erc20.balanceOf a).toNat : ℤ) = s.erc20.totalSupply.toNat ∧
      ∀ (e : Env d.bridge), ∀ ev ∈ s.toStellar.inFlight r.toStellar,
        ∀ (signers : List (BytesN 32)) (sigs : List (BytesN 64)),
          s.bridge.withdraw d.outside e (r.toStellar ev) signers sigs s.token ≠
            .error (.message "insufficient bridged amount") := by
  have hc := conserved_run h hd
  refine ⟨hc.total, hc.whole.total, fun e ev hev signers sigs hw => ?_⟩
  have hle := hc.amount_le hd.2 hev
  have hlt := withdraw_overdraft hw
  omega

section Sample

open Token (home closedRegistry)

/-- Messages with the fields of the deposits, for chains with the numbers 1 and 2. -/
def fieldRelay : Relay where
  toEvm ev :=
    { sourceChain := 1, destinationChain := 2, nonce := ev.nonce
      sender := (addressToBytes ev.sender).2
      recipient := ev.evmRecipient.setWidth _
      amount := BitVec.ofInt _ ev.amount.val }
  toStellar ev :=
    { sourceChain := 2, destinationChain := 1, nonce := .ofNat ev.nonce.toNat, tokenAddress := 9
      sender := ev.sender.setWidth _
      recipientType := ev.recipientType.toUInt32
      recipient := ev.recipient
      amount := Foundation.I128.wrap ev.amount.toNat }
  toEvm_amount ev h0 := by
    have hlt := ev.amount.val_lt
    have hm : ev.amount.val % ((2 ^ (8 * 32) : ℕ) : ℤ) = ev.amount.val :=
      Int.emod_eq_of_lt h0.le (by norm_num; omega)
    rw [BitVec.toNat_ofInt, hm, Int.toNat_of_nonneg h0.le]
  toStellar_amount ev h := I128.val_wrap ⟨by omega, by exact_mod_cast h⟩

def strait : Deployment Unit where
  token := home
  bridge := harbor
  erc20 := 9
  registry := closedRegistry
  host :=
    { toXdr := fieldBytes, sha256 := digest
      ed25519Verify := fun k message sig => decide (sig = signature k message) }
  chain := openChain

/-- The three contracts before the first call. -/
def moored : Chains Unit where
  token := ({ Token.deployed.1 with bridge := some harbor }, ())
  bridge := anchored.1
  erc20 := mirrored

theorem moored_init : strait.machine.init moored :=
  ⟨⟨Token.deployed, Token.deployed_init, rfl, (Token.signedBy 0 (.acceptAdmin home)).1, .account 0,
    rfl⟩, ⟨.account 0, home, 9, .contract 3, [2, 1], 2, rfl⟩, rfl, mirrored_init, rfl, rfl⟩

/-- One hundred units are issued to the account `1`. -/
def supply : strait.Action :=
  .token (.signed 0 0 (.account 0) (by decide)) (.mintTo (.account 0) (.account 1) 100)

/-- Forty of them go to the account `5` of the other chain. -/
def departure : strait.Action :=
  .bridge (.signed 0 0 (.account 1) (by decide)) (.deposit (.account 1) 40 5)

def manifest : Evm.Message := fieldRelay.toEvm ⟨.account 1, 5, 40, 0⟩

def arrival : strait.Action :=
  .erc20 8 (.withdraw manifest [stamp manifest 1, stamp manifest 2])

/-- Fifteen of them set out for the way back. -/
def homeward : strait.Action := .erc20 5 (.deposit 15 0 1)

/-- Each call of a sequence is accepted and meets the guard. -/
def Sails (s : Chains Unit) : List strait.Action → Prop
  | [] => True
  | l :: ls => strait.genuine fieldRelay [] s l ∧ (strait.machine.step l s).isOk = true ∧
      Sails (strait.machine.call s l) ls

theorem Sails.run {ls : List strait.Action} {s : Chains Unit} {tr : Trace _ _}
    (h : strait.machine.Run (strait.genuine fieldRelay) tr s) (hs : Sails s ls) :
    ∃ tr', strait.machine.Run (strait.genuine fieldRelay) tr' (strait.machine.calls s ls) := by
  induction ls generalizing s tr with
  | nil => exact ⟨tr, h⟩
  | cons l ls ih =>
    obtain ⟨hg, hok, hs⟩ := hs
    exact ih (h.call hg hok) hs

/-- The state when the fifteen units are at sea. -/
def sailed : Chains Unit := strait.machine.calls moored [supply, departure, arrival, homeward]

set_option maxRecDepth 4000 in
theorem crossing_conserved_sailed :
    sailed.token.1.bridgedToEvm.val = 40 ∧ sailed.erc20.totalSupply.toNat = 25 ∧
      sailed.token.1.bridgedToEvm.val = sailed.erc20.totalSupply.toNat +
        sailed.toEvm.due fieldRelay.toEvm (fun ev => ev.amount.val) +
        sailed.toStellar.due fieldRelay.toStellar fun ev => ev.amount.toNat := by
  have hs : Sails moored [supply, departure, arrival, homeward] :=
    ⟨rfl, by decide, trivial, by decide, List.mem_cons_self, by decide +kernel, trivial,
      by decide +kernel, trivial⟩
  obtain ⟨tr, hr⟩ : ∃ tr, strait.machine.Run (strait.genuine fieldRelay) tr sailed :=
    hs.run (.init moored_init)
  have hd : sailed.Distinct fieldRelay := by
    unfold Chains.Distinct Channel.Distinct
    decide +kernel
  exact ⟨by decide +kernel, by decide +kernel, (crossing_conserved hr hd).1⟩

end Sample

end WaterCredits.Bridge
