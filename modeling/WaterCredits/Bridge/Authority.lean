import WaterCredits.Bridge.Calls
import WaterCredits.Evm.Authority

/-! # Withdrawals of the bridge

A withdrawal stands on valid signatures of a threshold of distinct relayers, of
those listed at that moment, and a message is minted once, whatever relayers
come and go. A withdrawal that fails changes nothing. The token on the other
chain keeps the same law.
-/

namespace WaterCredits.Bridge

open Foundation Function

variable {contract : Address} {W : Type} {o : Outside W} {e : Env contract} {s s' : State}
  {w w' : W} {c : Call} {t : InboundTransfer} {signers : List (BytesN 32)}
  {sigs : List (BytesN 64)} {Signs : BytesN 32 → InboundTransfer → Prop}
  {tr : Trace (State × W) (Event contract W)}

/-- Messages have distinct encodings, and a signature that verifies for one was given to it. -/
structure SoundSignatures (o : Outside W) (Signs : BytesN 32 → InboundTransfer → Prop) : Prop where
  injective : Injective o.toXdr
  sound : ∀ t sig k, o.ed25519Verify k (o.toXdr t) sig = .ok () →
    ∃ t', Signs k t' ∧ o.toXdr t' = o.toXdr t

/-- Distinct listed relayers, at least as many as the threshold, signed exactly this message. -/
structure Authorised (o : Outside W) (Signs : BytesN 32 → InboundTransfer → Prop) (s : State)
    (t : InboundTransfer) (signers : List (BytesN 32)) (sigs : List (BytesN 64)) : Prop where
  valid : List.Forall₂ (fun sig k => o.ed25519Verify k (o.toXdr t) sig = .ok ()) sigs signers
  quorum : s.threshold.toNat ≤ signers.length
  distinct : signers.Nodup
  listed : ∀ k ∈ signers, k ∈ s.relayers
  signed : ∀ k ∈ signers, Signs k t

theorem verifySigners_eq_ok {relayers : List (BytesN 32)} {message : List (BitVec 8)}
    {last : Option (BytesN 32)} {n n' : ℕ} (hlen : signers.length = sigs.length)
    (hv : verifySigners o relayers message last (signers.zip sigs) n = .ok n') :
    List.Forall₂ (fun sig k => o.ed25519Verify k message sig = .ok ()) sigs signers ∧
      n' = n + signers.length ∧ (last.toList ++ signers).Pairwise (· < ·) ∧
      ∀ k ∈ signers, k ∈ relayers := by
  induction signers generalizing sigs last n with
  | nil =>
    cases sigs with
    | nil =>
      simp only [List.zip_nil_left, verifySigners, pure_eq_ok] at hv
      cases last <;> simp [hv]
    | cons sig rest => cases hlen
  | cons k signers ih =>
    cases sigs with
    | nil => cases hlen
    | cons sig rest =>
      simp only [List.zip_cons_cons, verifySigners, bind_eq_ok, ensure_eq_ok] at hv
      obtain ⟨_, hlt, _, hr, _, hs, hv⟩ := hv
      obtain ⟨hall, hn, hsort, hlist⟩ := ih (Nat.succ.inj hlen) hv
      refine ⟨.cons hs hall, ?_, ?_, List.forall_mem_cons.mpr ⟨hr, hlist⟩⟩
      · rw [List.length_cons]
        omega
      · cases last with
        | none => exact hsort
        | some l =>
          have hlt : l < k := by simpa using hlt
          refine List.pairwise_cons.mpr ⟨?_, hsort⟩
          obtain ⟨hfirst, -⟩ := List.pairwise_cons.mp hsort
          exact List.forall_mem_cons.mpr ⟨hlt, fun b hb => BitVec.lt_trans hlt (hfirst b hb)⟩

theorem withdraw_cases (h : s.withdraw o e t signers sigs w = .ok (s', w')) :
    s.paused = false ∧ t.destinationChain = 1 ∧ t.tokenAddress = s.evmToken ∧
      s.processedMessages (messageHash o t) = false ∧
      (List.Forall₂ (fun sig k => o.ed25519Verify k (o.toXdr t) sig = .ok ()) sigs signers ∧
        s.threshold.toNat ≤ signers.length ∧ signers.Nodup ∧ ∀ k ∈ signers, k ∈ s.relayers) ∧
      (∃ recipient, bytesToAddress t.recipientType t.recipient = .ok recipient ∧
        o.mintTo s.token (e.invoke s.token) contract recipient t.amount w = .ok w') ∧
      s' = { s with
        processedMessages := update s.processedMessages (messageHash o t) true } := by
  simp only [State.withdraw, bind_eq_ok, ensure_eq_ok, pure_eq_ok, Prod.mk.injEq] at h
  obtain ⟨_, hp, _, hd, _, ht, _, hn, _, hlen, _, -, n, hv, _, hq, recipient, hr, v, hm, rfl,
    rfl⟩ := h
  obtain ⟨hall, rfl, hsort, hlist⟩ := verifySigners_eq_ok hlen hv
  refine ⟨hp, hd, ht, hn, ⟨hall, by simpa using hq, ?_, hlist⟩, ⟨recipient, hr, hm⟩, rfl⟩
  exact hsort.imp fun hlt => BitVec.ne_of_lt hlt

theorem deposit_cases {sender : Address} {amount : I128} {evmRecipient : BytesN 32}
    {ev : DepositEvent} (h : s.deposit o e sender amount evmRecipient w = .ok (ev, s', w')) :
    0 < amount ∧ s.paused = false ∧ e.auth sender = true ∧
      ev = ⟨sender, evmRecipient, amount, s.nonce⟩ ∧ s' = { s with nonce := s.nonce + 1 } ∧
      ∃ v, o.transfer s.token (e.invoke s.token) sender contract amount w = .ok v ∧
        o.burn s.token (e.invoke s.token) contract contract amount v = .ok w' := by
  simp only [State.deposit, bind_eq_ok, ensure_eq_ok, Env.requireAuth_eq_ok, pure_eq_ok,
    Prod.mk.injEq] at h
  obtain ⟨_, h0, _, hp, _, ha, v, hv, u, hu, rfl, rfl, rfl⟩ := h
  exact ⟨h0, hp, ha, rfl, rfl, v, hv, hu⟩

theorem execute_processed (h : execute o e s w c = .ok (s', w')) {x : BytesN 32}
    (hx : s.processedMessages x = true) : s'.processedMessages x = true := by
  cases c with
  | withdraw t signers sigs =>
    obtain ⟨-, -, -, -, -, -, rfl⟩ := withdraw_cases h
    simp only [update_apply]
    split <;> simp [hx]
  | deposit sender amount evmRecipient =>
    simp only [execute, bind_eq_ok, pure_eq_ok, Prod.mk.injEq] at h
    obtain ⟨⟨ev, u, v⟩, hd, rfl, rfl⟩ := h
    obtain ⟨-, -, -, -, rfl, -⟩ := deposit_cases hd
    exact hx
  | initialise => simp [execute, Bridge.initialise] at h
  | updateRelayers =>
    simp only [execute, within_eq_ok, State.updateRelayers, bind_eq_ok, pure_eq_ok] at h
    obtain ⟨⟨_, -, _, -, rfl⟩, -⟩ := h
    exact hx
  | setToken | pause | unpause =>
    simp only [execute, within_eq_ok, State.setToken, State.pause, State.unpause, bind_eq_ok,
      pure_eq_ok] at h
    obtain ⟨⟨_, -, rfl⟩, -⟩ := h
    exact hx

def withdraws (t : InboundTransfer) : Event contract W → Bool
  | .call _ (.withdraw t' _ _) => t' = t
  | _ => false

def Outside.mintless (o : Outside W) : Outside W :=
  { o with mintTo := fun _ _ _ _ _ _ => .error .invokeFailed }

/-- The law of withdrawals along a run that ends in `sw`. -/
structure Secure (o : Outside W) (Signs : BytesN 32 → InboundTransfer → Prop)
    (tr : Trace (State × W) (Event contract W)) (sw : State × W) : Prop where
  authorised : ∀ st ∈ tr, ∀ e t signers sigs, st.label = .call e (.withdraw t signers sigs) →
    Authorised o Signs st.before.1 t signers sigs ∧
      ∃ recipient, bytesToAddress t.recipientType t.recipient = .ok recipient ∧
        o.mintTo st.before.1.token (e.invoke _) contract recipient t.amount st.before.2 =
          .ok st.after.2
  once : ∀ t, tr.countP (fun st => withdraws t st.label) ≤ 1
  mints : ∀ st ∈ tr, (∀ t, withdraws t st.label = false) →
    step o.mintless st.label st.before = .ok st.after
  failed : ∀ e t signers sigs err, sw.1.withdraw o e t signers sigs sw.2 = .error err →
    (machine contract o).call sw (.call e (.withdraw t signers sigs)) = sw

theorem withdraw_once {G : Guard (State × W) (Event contract W)} {sw : State × W}
    (h : (machine contract o).Run G tr sw) (t : InboundTransfer) :
    tr.countP (fun st => withdraws t st.label) ≤ 1 := by
  refine (h.once (P := fun sw => sw.1.processedMessages (messageHash o t) = true) ?_ ?_).1
  · rintro ev ⟨s, w⟩ ⟨s', w'⟩ hq hs
    unfold withdraws at hq
    split at hq
    · obtain rfl : _ = t := of_decide_eq_true hq
      obtain ⟨-, -, -, hn, -, -, rfl⟩ := withdraw_cases hs
      exact ⟨by simp [hn], by simp⟩
    · cases hq
  · rintro tr ⟨s, w⟩ ev ⟨s', w'⟩ - - hs hp
    cases ev with
    | outside u =>
      cases hs
      exact hp
    | call e c => exact execute_processed hs hp

theorem secure_run {sw : State × W} (h : (machine contract o).Run Machine.anyCall tr sw)
    (hs : SoundSignatures o Signs) : Secure o Signs tr sw := by
  refine ⟨?_, withdraw_once h, ?_, ?_⟩
  · rintro st hst e t signers sigs hl
    obtain ⟨tr', -, -, hstep⟩ := h.mem st hst
    rw [hl] at hstep
    obtain ⟨-, -, -, -, ⟨hall, hq, hd, hlist⟩, hmint, -⟩ := withdraw_cases hstep
    refine ⟨⟨hall, hq, hd, hlist, fun k hk => ?_⟩, hmint⟩
    obtain ⟨sig, -, hsig⟩ := Evm.exists_partner hall hk
    obtain ⟨t', hsign, heq⟩ := hs.sound t sig k hsig
    exact hs.injective heq ▸ hsign
  · rintro ⟨⟨s, w⟩, ev, ⟨s', w'⟩⟩ hst hno
    obtain ⟨tr', -, -, hstep⟩ := h.mem _ hst
    cases ev with
    | outside u => exact hstep
    | call e c =>
      cases c with
      | withdraw t signers sigs => exact absurd (hno t) (by simp [withdraws])
      | _ => exact hstep
  · rintro e t signers sigs err hw
    simp [Machine.call, machine, step, execute, hw]

/--
On both chains every withdrawal is authorised by a threshold of the relayers of
the moment, and no message is withdrawn twice.
-/
theorem withdrawals_secure {sw : State × W} (h : (machine contract o).Run Machine.anyCall tr sw)
    (hs : SoundSignatures o Signs) {chain : Evm.Chain} {erc20 : Evm.Account} {D : Set Evm.Message}
    {tr' : Trace Evm.State (Evm.Account × Evm.Call)} {s' : Evm.State}
    {Signs' : Evm.Account → Evm.Message → Prop}
    (h' : (Evm.machine chain erc20).Run (Evm.messagesIn D) tr' s')
    (hs' : Evm.SoundSignatures chain erc20 s'.isRelayer D Signs') :
    Secure o Signs tr sw ∧ Evm.Secure chain erc20 Signs' tr' s' :=
  ⟨secure_run h hs, Evm.secure_run h' hs'⟩

section Sample

/-- An encoding by fixed-width fields. -/
def fieldBytes (t : InboundTransfer) : List (BitVec 8) :=
  bytes 4 t.sourceChain.toBitVec ++ (bytes 4 t.destinationChain.toBitVec ++
    (bytes 8 t.nonce.toBitVec ++ (bytes 32 t.tokenAddress ++ (bytes 32 t.sender ++
      (bytes 4 t.recipientType.toBitVec ++ (bytes 32 t.recipient ++
        bytes 16 (BitVec.ofInt _ t.amount.val)))))))

theorem fieldBytes_injective : Injective fieldBytes := by
  intro a b h
  simp only [fieldBytes, bytes_append_inj] at h
  obtain ⟨h1, h2, h3, h4, h5, h6, h7, h8⟩ := h
  have h8 := congrArg BitVec.toInt (bytes_injective h8)
  rw [BitVec.toInt_ofInt, BitVec.toInt_ofInt] at h8
  have hamount : a.amount = b.amount := by
    have ha : Foundation.I128.wrap a.amount.val = a.amount :=
      I128.ext (I128.val_wrap a.amount.fits)
    have hb : Foundation.I128.wrap b.amount.val = b.amount :=
      I128.ext (I128.val_wrap b.amount.fits)
    rw [← ha, ← hb]
    exact I128.ext h8
  rw [UInt32.toBitVec_inj] at h1 h2 h6
  rw [UInt64.toBitVec_inj] at h3
  cases a
  cases b
  simp_all

/-- The address that the samples deploy the bridge at. -/
abbrev harbor : Address := .contract 6

/-- Seven units come back to the account `1`. -/
def inbound : InboundTransfer :=
  { sourceChain := 2, destinationChain := 1, nonce := 0, tokenAddress := 9, sender := 4
    recipientType := 0, recipient := 1, amount := 7 }

/-- A hash that takes every byte into account. -/
def digest (message : List (BitVec 8)) : BytesN 32 :=
  message.foldl (fun acc b => acc * 257 + b.setWidth _ + 1) 0

def signature (k : BytesN 32) (message : List (BitVec 8)) : BytesN 64 :=
  k.setWidth _ <<< 256 ||| (digest message).setWidth _

/-- The keys `1` and `2` have signed one message, and the token mints. -/
def relayed : Outside Unit where
  transfer _ _ _ _ _ _ := .error .invokeFailed
  burn _ _ _ _ _ _ := .error .invokeFailed
  mintTo _ _ _ _ _ _ := .ok ()
  toXdr := fieldBytes
  sha256 := digest
  ed25519Verify k message sig :=
    Foundation.require ((k = 1 ∨ k = 2) ∧ message = fieldBytes inbound ∧ sig = signature k message)
      .invokeFailed

theorem relayed_sound : SoundSignatures relayed fun k t => (k = 1 ∨ k = 2) ∧ t = inbound where
  injective := fieldBytes_injective
  sound t sig k h := by
    obtain ⟨hk, heq, -⟩ := require_eq_ok.mp h
    exact ⟨inbound, ⟨hk, rfl⟩, heq.symm⟩

/-- A bridge with two relayers, which must both sign. -/
def anchored : State × Unit :=
  ({ admin := .account 0, token := .contract 1, evmToken := 9, governance := .contract 3
     relayers := [2, 1], threshold := 2 }, ())

theorem anchored_init : (machine harbor relayed).init anchored :=
  ⟨.account 0, .contract 1, 9, .contract 3, [2, 1], 2, rfl⟩

def countersigned (t : InboundTransfer) : List (BytesN 64) :=
  [signature 1 (fieldBytes t), signature 2 (fieldBytes t)]

def delivery : Event harbor Unit :=
  .call (.signed 0 0 (.account 8) (by simp)) (.withdraw inbound [1, 2] (countersigned inbound))

/-- A deposit of seven units to the account `5` of the other chain. -/
def outbound : Evm.Message :=
  { sourceChain := 1, destinationChain := 2, nonce := 0, sender := 4, recipient := 5, amount := 7 }

/-- A signature carries the number of its signer and the hash that it signs. -/
def openChain : Evm.Chain where
  keccak256 := digest
  ecrecover hash v r s := if v = 27 ∧ s = hash then r.setWidth _ else 0

def stamp (m : Evm.Message) (k : Evm.Word) : List (BitVec 8) :=
  bytes 32 k ++ bytes 32 (Evm.signedHash openChain 9 m) ++ [27]

/-- The token of the other chain with two relayers. -/
def mirrored : Evm.State :=
  { name := "Water Credit", symbol := "WCR", admin := 3, governance := 4, threshold := 2
    isRelayer := update (update (fun _ => false) 1 true) 2 true, relayers := [1, 2] }

theorem mirrored_init : (Evm.machine openChain 9).init mirrored :=
  ⟨"Water Credit", "WCR", 3, 4, [1, 2], 2, by rfl⟩

def mirrorDelivery : Evm.Account × Evm.Call :=
  (8, .withdraw outbound [stamp outbound 1, stamp outbound 2])

theorem relayer_mirrored {k : Evm.Account} (h : mirrored.isRelayer k = true) : k = 1 ∨ k = 2 := by
  simp only [mirrored, update_apply] at h
  grind

set_option maxRecDepth 2000 in
theorem withdrawals_secure_delivered :
    ∃ tr tr', (machine harbor relayed).Run Machine.anyCall tr
        ((machine harbor relayed).call anchored delivery) ∧
      Secure relayed (fun k t => (k = 1 ∨ k = 2) ∧ t = inbound) tr
        ((machine harbor relayed).call anchored delivery) ∧ tr.length = 1 ∧
      Evm.Secure openChain 9 (fun k m => (k = 1 ∨ k = 2) ∧ m = outbound) tr'
        ((Evm.machine openChain 9).call mirrored mirrorDelivery) ∧ tr'.length = 1 := by
  have hr := (Machine.Run.init (G := Machine.anyCall) anchored_init).call (l := delivery) trivial
    (by decide +kernel)
  have hr' := (Machine.Run.init (G := Evm.messagesIn {outbound}) mirrored_init).call
    (l := mirrorDelivery) rfl (by decide +kernel)
  have hrel := Evm.isRelayer_run hr' List.mem_cons_self
  have hs' : Evm.SoundSignatures openChain 9
      ((Evm.machine openChain 9).call mirrored mirrorDelivery).isRelayer {outbound}
      fun k m => (k = 1 ∨ k = 2) ∧ m = outbound :=
    ⟨Set.injOn_singleton _ _, fun m hm _ _ hk _ =>
      ⟨m, hm, ⟨relayer_mirrored (hrel ▸ hk), hm⟩, rfl⟩⟩
  obtain ⟨h, h'⟩ := withdrawals_secure hr relayed_sound hr' hs'
  exact ⟨_, _, hr, h, rfl, h', rfl⟩

end Sample

end WaterCredits.Bridge
