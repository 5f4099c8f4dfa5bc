import Mathlib.Logic.Relation
import WaterCredits.Bridge.Supply

/-! # Bringing credits back

A withdrawal returns credits that already count against the cap of the token.
The mint that it makes counts them once more, so it is refused unless the cap
has room for its amount on top of all credits, bridged ones included.
-/

namespace WaterCredits.Bridge

open Foundation Function Relation

variable {W : Type} {d : Deployment W} {b b' b₁ b₂ : State} {s : Token.State}
  {t t' t₁ t₂ : Token.State × W} {e : Env d.bridge} {m : InboundTransfer}
  {signers : List (BytesN 32)} {sigs : List (BytesN 64)} {recipient : Address}

/-- A message that passes the checks of the bridge, up to the mint for its recipient. -/
structure Deliverable (d : Deployment W) (b : State) (m : InboundTransfer)
    (signers : List (BytesN 32)) (sigs : List (BytesN 64)) (recipient : Address) : Prop where
  unpaused : b.paused = false
  destination : m.destinationChain = 1
  token : m.tokenAddress = b.evmToken
  fresh : b.processedMessages (messageHash d.outside m) = false
  paired : signers.length = sigs.length
  signed : b.threshold.toNat ≤ signers.length
  verified : ∃ n, verifySigners d.outside b.relayers (d.outside.toXdr m) none (signers.zip sigs) 0 =
    .ok n ∧ b.threshold.toNat ≤ n
  recipient : bytesToAddress m.recipientType m.recipient = .ok recipient

theorem Deliverable.withdraw_iff (h : Deliverable d b m signers sigs recipient)
    (hb : b.token = d.token) : (∃ b', b.withdraw d.outside e m signers sigs t = .ok (b', t')) ↔
      t.1.mintTo (e.invoke d.token) d.bridge recipient m.amount = .ok t'.1 ∧ t.2 = t'.2 := by
  have hstep : (t.1.mintTo (e.invoke d.token) d.bridge recipient m.amount = .ok t'.1 ∧ t.2 = t'.2) ↔
      Token.step d.registry (e.invoke d.token, .mintTo d.bridge recipient m.amount) t = .ok t' :=
    Token.within_eq_ok.symm
  rw [hstep]
  constructor
  · rintro ⟨b', hw⟩
    obtain ⟨-, -, -, -, -, ⟨recipient', hr, hmint⟩, -⟩ := withdraw_cases hw
    obtain rfl : recipient = recipient' := Except.ok.inj (h.recipient.symm.trans hr)
    rw [hb] at hmint
    exact (onToken_eq_ok.mp hmint).2
  · intro hmint
    obtain ⟨n, hv, hn⟩ := h.verified
    simp only [State.withdraw, bind_eq_ok, ensure_eq_ok, pure_eq_ok, Prod.mk.injEq]
    refine ⟨_, (), h.unpaused, (), h.destination, (), h.token, (), h.fresh, (), h.paired, (),
      h.signed, n, hv, (), hn, recipient, h.recipient, t', ?_, rfl, rfl⟩
    exact onToken_eq_ok.mpr ⟨hb, hb ▸ hmint⟩

def Crosses (d : Deployment W) (x y : State × (Token.State × W)) : Prop :=
  ∃ (e : Env d.bridge) (c : Call), c.crossing = true ∧ execute d.outside e x.1 x.2 c = .ok y

theorem deposit_settings {sender : Address} {amount : I128} {evmRecipient : BytesN 32}
    {ev : DepositEvent}
    (h : b.deposit d.outside e sender amount evmRecipient t = .ok (ev, b', t')) :
    b'.token = b.token ∧ t'.1.settings = t.1.settings := by
  obtain ⟨-, -, -, -, rfl, ⟨v, x⟩, htransfer, hburn⟩ := deposit_cases h
  obtain ⟨-, htransfer⟩ := onToken_eq_ok.mp htransfer
  obtain ⟨-, hburn⟩ := onToken_eq_ok.mp hburn
  have hv := Token.step_settings_eq rfl htransfer
  exact ⟨rfl, (Token.step_settings_eq rfl hburn).trans hv⟩

theorem crosses_settings {x y : State × (Token.State × W)} (h : Crosses d x y) :
    y.1.token = x.1.token ∧ y.2.1.settings = x.2.1.settings := by
  obtain ⟨b, t⟩ := x
  obtain ⟨b', t'⟩ := y
  obtain ⟨e, c, hc, h⟩ := h
  cases c with
  | deposit =>
    simp only [execute, bind_eq_ok, pure_eq_ok, Prod.mk.injEq] at h
    obtain ⟨⟨ev, b₁, t₁⟩, h, rfl, rfl⟩ := h
    exact deposit_settings h
  | withdraw =>
    obtain ⟨-, -, -, -, -, ⟨recipient, -, hmint⟩, rfl⟩ := withdraw_cases h
    obtain ⟨-, hmint⟩ := onToken_eq_ok.mp hmint
    exact ⟨rfl, Token.step_settings_eq rfl hmint⟩
  | _ => cases hc

theorem path_settings {x y : State × (Token.State × W)} (h : ReflTransGen (Crosses d) x y) :
    y.1.token = x.1.token ∧ y.2.1.settings = x.2.1.settings := by
  induction h with
  | refl => exact ⟨rfl, rfl⟩
  | tail _ hstep ih =>
    obtain ⟨h1, h2⟩ := crosses_settings hstep
    exact ⟨h1.trans ih.1, h2.trans ih.2⟩

theorem deposit_burns {sender : Address} {amount : I128} {evmRecipient : BytesN 32}
    {ev : DepositEvent}
    (h : b.deposit d.outside e sender amount evmRecipient t = .ok (ev, b', t')) :
    b.token = d.token ∧ d.bridge ≠ d.token ∧ t.1.paused = false ∧
      t'.1.totalSupply = t.1.totalSupply - amount := by
  obtain ⟨-, -, -, -, -, ⟨v, x⟩, htransfer, hburn⟩ := deposit_cases h
  obtain ⟨htoken, htransfer⟩ := onToken_eq_ok.mp htransfer
  obtain ⟨-, hburn⟩ := onToken_eq_ok.mp hburn
  obtain ⟨htransfer, -⟩ := Token.within_eq_ok.mp htransfer
  obtain ⟨hburn, -⟩ := Token.within_eq_ok.mp hburn
  have hsupply : v.totalSupply = t.1.totalSupply ∧ t.1.paused = false := by
    simp only [Token.State.transfer, bind_eq_ok, Token.State.requireNotPaused_eq_ok] at htransfer
    obtain ⟨_, -, _, hp, _, -, hmove⟩ := htransfer
    exact ⟨by rw [Token.moveBalance_frame hmove], hp⟩
  have hauth : (e.invoke b.token).auth d.bridge = true := by
    simp only [Token.State.burn, bind_eq_ok, Env.requireAuth_eq_ok] at hburn
    obtain ⟨_, -, _, hauth, -⟩ := hburn
    exact hauth
  obtain ⟨-, u, hd, hu⟩ := Token.burn_cases hburn
  have hdestroy : u.totalSupply = v.totalSupply - amount := by rw [Token.destroy_frame hd]
  refine ⟨htoken, htoken ▸ (e.invoke b.token).ne_self hauth, hsupply.2, ?_⟩
  rw [← hsupply.1, ← hdestroy]
  rcases hu with hu | ⟨bridged, -, hu⟩
  · rw [hu]
  · rw [hu]

/--
The bridge can bring credits back exactly while the cap has room for their amount
on top of all credits, although they are among them.
-/
theorem returns_iff (hb : s.bridge = some d.bridge)
    (hm : d.bridge = s.readMinter ∨ d.bridge = s.admin) :
    (s.paused = false → ∀ (e : Env d.token) (recipient : Address) (amount : I128),
      e.auth d.bridge = true → 0 < amount.val → amount.val ≤ s.bridgedToEvm.val →
      I128.Fits (s.everMinted.val + amount.val) →
        ((∃ s', s.mintTo e d.bridge recipient amount = .ok s' ∧ s'.held = s.held) ↔
          s.Room recipient amount)) ∧
    ∀ (w : W) (b : State) (e : Env d.bridge) (sender : Address) (amount : I128)
      (evmRecipient : BytesN 32) (ev : DepositEvent) (b₁ : State) (t₁ : Token.State × W),
      b.deposit d.outside e sender amount evmRecipient (s, w) = .ok (ev, b₁, t₁) →
      ∀ (b₂ : State) (t₂ : Token.State × W), ReflTransGen (Crosses d) (b₁, t₁) (b₂, t₂) →
      ∀ (e : Env d.bridge) (m : InboundTransfer) (signers : List (BytesN 32))
        (sigs : List (BytesN 64)) (recipient : Address),
        Deliverable d b₂ m signers sigs recipient → m.amount = amount →
        amount.val ≤ t₂.1.bridgedToEvm.val → I128.Fits (t₂.1.everMinted.val + amount.val) →
          ((∃ b' t', b₂.withdraw d.outside e m signers sigs t₂ = .ok (b', t') ∧
              t'.1.held = t₂.1.held ∧
              (t₂ = t₁ → t'.1.totalSupply = s.totalSupply ∧ t'.1.bridgedToEvm = s.bridgedToEvm)) ↔
            t₂.1.Room recipient amount) := by
  refine ⟨fun hp e recipient amount ha h0 hle hever =>
    Token.mintTo_return_iff hb ha hm hp h0 hle hever, ?_⟩
  rintro w b e sender amount evmRecipient ev b₁ t₁ hdep b₂ t₂ hpath e' m signers sigs recipient hdel
    rfl hle hever
  obtain ⟨htoken, hne, hp, hsupply⟩ := deposit_burns hdep
  obtain ⟨hb₁, hset⟩ := deposit_settings hdep
  obtain ⟨hb₂, hset'⟩ := path_settings hpath
  obtain ⟨h0, -⟩ := deposit_cases hdep
  have hhome : b₂.token = d.token := (hb₂.trans hb₁).trans htoken
  have hall : t₂.1.settings = s.settings := hset'.trans hset
  simp only [Token.State.settings, Prod.mk.injEq] at hall
  obtain ⟨hadmin, hminter, hbridge, hpaused, -⟩ := hall
  have hbr : t₂.1.bridge = some d.bridge := hbridge.trans hb
  have hm₂ : d.bridge = t₂.1.readMinter ∨ d.bridge = t₂.1.admin := by
    unfold Token.State.readMinter at hm ⊢
    rwa [hminter, hadmin]
  have hauth : (e'.invoke d.token).auth d.bridge = true := by simp [Env.invoke, hne]
  have hiff : _ ↔ t₂.1.Room recipient _ :=
    Token.mintTo_return_iff hbr hauth hm₂ (hpaused.trans hp) h0 hle hever
  rw [← hiff]
  constructor
  · rintro ⟨b', t', hw, hheld, -⟩
    obtain ⟨hmint, -⟩ := (hdel.withdraw_iff hhome).mp ⟨b', hw⟩
    exact ⟨t'.1, hmint, hheld⟩
  · rintro ⟨s', hmint, hheld⟩
    have hreturn : ∃ b', b₂.withdraw d.outside e' m signers sigs t₂ = .ok (b', (s', t₂.2)) :=
      (hdel.withdraw_iff hhome).mpr ⟨hmint, rfl⟩
    obtain ⟨b', hw⟩ := hreturn
    refine ⟨b', (s', t₂.2), hw, hheld, ?_⟩
    rintro rfl
    have hadd := (deposit_bridged (t := (s, w)) hb hdep).2
    have hdraw := Token.mintTo_bridged hmint
    rw [if_pos hbr] at hdraw
    obtain ⟨-, -, -, rfl, -⟩ := deposit_cases hdep
    refine ⟨Token.mintTo_restores hsupply hmint, I128.ext ?_⟩
    simp only at hadd ⊢
    omega

section Sample

open Token (home closedRegistry signedBy)

/-- One hundred units issued to the account `1` under a cap, with the bridge as the minter. -/
def stocked (max : I128) : Token.State × Unit :=
  (Token.machine home closedRegistry).calls Token.deployed
    [signedBy 0 (.setMaxSupply (.account 0) max), signedBy 0 (.setBridge (.account 0) harbor),
      signedBy 0 (.setMinter (.account 0) harbor),
      signedBy 0 (.mintTo (.account 0) (.account 1) 100)]

def sender : Env harbor := .signed 0 0 (.account 1) (by decide)

/-- Forty of the units are bridged away. -/
def exported (max : I128) : Result (DepositEvent × State × (Token.State × Unit)) :=
  anchored.1.deposit strait.outside sender (.account 1) 40 5 (stocked max)

def departed (max : I128) : State × (Token.State × Unit) :=
  match exported max with
  | .ok (_, b, t) => (b, t)
  | .error _ => (anchored.1, stocked max)

theorem exported_eq {max : I128} (h : (exported max).isOk = true) :
    ∃ ev, exported max = .ok (ev, departed max) := by
  obtain ⟨⟨ev, b, t⟩, hx⟩ := exists_of_isOk h
  unfold departed
  rw [hx]
  exact ⟨ev, rfl⟩

/-- Forty units come back to the account `1`. -/
def returning : InboundTransfer := { inbound with amount := 40 }

theorem returning_deliverable {b : State} (hp : b.paused = false) (he : b.evmToken = 9)
    (hr : b.relayers = [2, 1]) (ht : b.threshold = 2)
    (hf : b.processedMessages (digest (fieldBytes returning)) = false) :
    Deliverable strait b returning [1, 2] (countersigned returning) (.account 1) := by
  have hv : verifySigners strait.outside [2, 1] (fieldBytes returning) none
      ([1, 2].zip (countersigned returning)) 0 = .ok 2 := by
    decide +kernel
  have hthreshold : b.threshold.toNat = 2 := congrArg UInt32.toNat ht
  refine ⟨hp, rfl, he.symm, hf, by simp [countersigned], hthreshold.le, ?_, rfl⟩
  rw [hr]
  exact ⟨2, hv, hthreshold.le⟩

/-- The account `1` makes a call on the bridge, accepted or not. -/
def crossed (x : State × (Token.State × Unit)) (c : Call) : State × (Token.State × Unit) :=
  (execute strait.outside sender x.1 x.2 c).toOption.getD x

theorem crossed_of_ok {x : State × (Token.State × Unit)} {c : Call} (hc : c.crossing = true)
    (h : (execute strait.outside sender x.1 x.2 c).isOk = true) :
    Crosses strait x (crossed x c) := by
  obtain ⟨y, hy⟩ := exists_of_isOk h
  have hcrossed : crossed x c = y := by
    unfold crossed
    rw [hy]
    rfl
  exact ⟨sender, c, hc, hcrossed ▸ hy⟩

/-- Ten more units are bridged away. -/
def further : State × (Token.State × Unit) :=
  crossed (departed 200) (.deposit (.account 1) 10 5)

def detoured : State × (Token.State × Unit) :=
  crossed further (.withdraw { inbound with amount := 10 } [1, 2]
    (countersigned { inbound with amount := 10 }))

/-- The forty units come back under a cap that has room for them, after ten others have. -/
theorem returns_iff_detoured : ∃ b' t',
    detoured.1.withdraw strait.outside sender returning [1, 2] (countersigned returning)
      detoured.2 = .ok (b', t') ∧ t'.1.held = detoured.2.1.held ∧
    detoured.2.1.maxSupply = 200 ∧ detoured.2.1.held = 100 ∧ further.2.1.bridgedToEvm = 50 := by
  have hok : (exported 200).isOk = true := by decide
  obtain ⟨ev, hdep⟩ := exported_eq hok
  have hout : Crosses strait (departed 200) further := crossed_of_ok rfl (by decide)
  have hback : Crosses strait further detoured := crossed_of_ok rfl (by decide +kernel)
  have hpath : ReflTransGen (Crosses strait) ((departed 200).1, (departed 200).2)
      (detoured.1, detoured.2) := by
    rw [Prod.mk.eta, Prod.mk.eta]
    exact (ReflTransGen.single hout).tail hback
  have hdel : Deliverable strait detoured.1 returning [1, 2] (countersigned returning)
      (.account 1) :=
    returning_deliverable (by decide +kernel) (by decide +kernel) (by decide +kernel)
      (by decide +kernel) (by decide +kernel)
  have hroom : detoured.2.1.Room (.account 1) 40 :=
    ⟨by decide +kernel, by decide +kernel, by decide +kernel⟩
  obtain ⟨b', t', hw, hheld, -⟩ := ((returns_iff (d := strait) (s := (stocked 200).1) (by decide)
    (by decide)).2 () anchored.1 sender (.account 1) 40 5 ev (departed 200).1 (departed 200).2 hdep
    detoured.1 detoured.2 hpath sender returning [1, 2] (countersigned returning) (.account 1)
    hdel rfl (by decide +kernel) (by decide +kernel)).mpr hroom
  exact ⟨b', t', hw, hheld, by decide +kernel, by decide +kernel, by decide +kernel⟩

set_option maxRecDepth 4000 in
/-- Under a full cap the credits cannot come back at all, although they fit it. -/
theorem full_cap_bars_return : (Token.machine home closedRegistry).Reachable (stocked 100) ∧
    (exported 100).isOk = true ∧ (departed 100).2.1.held = 100 ∧
    (departed 100).2.1.maxSupply.val = 100 ∧ (departed 100).2.1.bridgedToEvm.val = 40 ∧
    Deliverable strait (departed 100).1 returning [1, 2] (countersigned returning) (.account 1) ∧
    (departed 100).1.withdraw strait.outside sender returning [1, 2] (countersigned returning)
      (departed 100).2 = .error (.message "max supply exceeded") :=
  ⟨Token.deployed_reach.calls fun _ _ _ _ => trivial, by decide, by decide, by decide, by decide,
    returning_deliverable (by decide) (by decide) (by decide) (by decide) (by decide +kernel),
    (map_eq_error (f := fun _ => ())).mp (by decide +kernel)⟩

end Sample

end WaterCredits.Bridge
