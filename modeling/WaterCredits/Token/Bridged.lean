import WaterCredits.Token.Cap

/-! # The bridged credits of a token

Only the bridge changes the bridged credits: it adds what it burns and takes
what it mints. Every other call leaves them alone.
-/

namespace WaterCredits.Token

open Foundation Function

variable {contract bridge : Address} {W : Type} {e : Env contract} {R : Registry W}
  {s s' : State} {w w' : W}

def Call.bridgeAfter (old : Option Address) : Call → Option Address
  | .setBridge _ bridge => some bridge
  | _ => old

theorem step_bridge_eq {c : Call} (h : step R (e, c) (s, w) = .ok (s', w')) :
    s'.bridge = c.bridgeAfter s.bridge := by
  cases hc : c.accounting with
  | false =>
    rw [step_administered hc h]
    cases c <;> rfl
  | true =>
    have hs : s'.bridge = s.bridge := congrArg (fun x => x.2.2.1) (step_settings_eq hc h)
    rw [hs]
    cases c <;> first | rfl | simp only [Call.accounting, Bool.false_eq_true] at hc

theorem mintTo_bridged {minter recipient : Address} {amount : I128}
    (h : s.mintTo e minter recipient amount = .ok s') :
    s'.bridgedToEvm.val =
      s.bridgedToEvm.val - if s.bridge = some minter then amount.val else 0 := by
  obtain ⟨h0, -, -, -, hb, balance, -, total, -, ever, -, rfl⟩ := mintTo_eq_ok.mp h
  by_cases hbr : s.bridge = some minter
  · simpa [hbr] using I128.val_sub_of_le h0.le (hb hbr)
  · simp [hbr]

theorem burn_bridged {caller holder : Address} {amount : I128}
    (h : s.burn e caller holder amount = .ok s') :
    s'.bridgedToEvm.val =
      s.bridgedToEvm.val + if s.bridge = some caller then amount.val else 0 := by
  simp only [State.burn, bind_eq_ok] at h
  obtain ⟨_, -, _, -, h⟩ := h
  split at h
  · rename_i hbr
    simp only [bind_eq_ok, orOverflow_eq_ok, I128.checkedAdd_eq_some, pure_eq_ok] at h
    obtain ⟨_, -, t, hd, bridged, h1, rfl⟩ := h
    have ht : t.bridgedToEvm = s.bridgedToEvm := by rw [destroy_frame hd]
    rw [if_pos hbr, ← ht, ← h1]
  · rename_i hbr
    simp only [bind_eq_ok] at h
    obtain ⟨_, -, hd⟩ := h
    rw [destroy_frame hd, if_neg hbr, add_zero]

theorem step_bridged_eq {c : Call} (hb : s.bridge = some bridge) (ha : e.auth bridge = false)
    (h : step R (e, c) (s, w) = .ok (s', w')) : s'.bridgedToEvm.val = s.bridgedToEvm.val := by
  have hne {a : Address} (hauth : e.auth a = true) : s.bridge ≠ some a := by
    rintro hs
    obtain rfl : bridge = a := Option.some.inj (hb.symm.trans hs)
    exact absurd hauth (by simp [ha])
  cases hc : c.bridges with
  | false => rw [step_bridged_of_not hc h]
  | true =>
    cases c <;> simp only [Call.bridges, Bool.false_eq_true] at hc <;>
      simp only [step, within_eq_ok] at h
    case mintTo =>
      obtain ⟨-, -, ⟨hauth, -⟩, -⟩ := mintTo_eq_ok.mp h.1
      rw [mintTo_bridged h.1, if_neg (hne hauth), sub_zero]
    case burn caller holder amount =>
      have hauth : e.auth caller = true := by
        simp only [State.burn, bind_eq_ok, Env.requireAuth_eq_ok] at h
        obtain ⟨⟨_, -, _, hauth, -⟩, -⟩ := h
        exact hauth
      rw [burn_bridged h.1, if_neg (hne hauth), add_zero]

theorem transfer_bridged {sender recipient : Address} {amount : I128}
    (h : s.transfer e sender recipient amount = .ok s') : s'.bridgedToEvm = s.bridgedToEvm := by
  simp only [State.transfer, bind_eq_ok] at h
  obtain ⟨_, -, _, -, _, -, h⟩ := h
  rw [moveBalance_frame h]

/-- The cap has room for an amount on top of all credits, bridged ones too, and no sum overflows. -/
def State.Room (s : State) (recipient : Address) (amount : I128) : Prop :=
  (0 < s.maxSupply.val → s.held + amount.val ≤ s.maxSupply.val) ∧
    I128.Fits ((s.balance recipient).val + amount.val) ∧
    I128.Fits (s.totalSupply.val + amount.val)

theorem mintTo_return_iff {recipient : Address} {amount : I128} (hb : s.bridge = some bridge)
    (ha : e.auth bridge = true) (hm : bridge = s.readMinter ∨ bridge = s.admin)
    (hp : s.paused = false) (h0 : 0 < amount.val) (hle : amount.val ≤ s.bridgedToEvm.val)
    (hever : I128.Fits (s.everMinted.val + amount.val)) :
    (∃ s', s.mintTo e bridge recipient amount = .ok s' ∧ s'.held = s.held) ↔
      s.Room recipient amount := by
  constructor
  · rintro ⟨s', hs, -⟩
    obtain ⟨-, -, -, hmint, -, balance, h1, total, h2, ever, -, -⟩ := mintTo_eq_ok.mp hs
    exact ⟨fun hmax => (hmint hmax).2, h1 ▸ balance.fits, h2 ▸ total.fits⟩
  · rintro ⟨hroom, h1, h2⟩
    have hmint : s.Mintable amount := by
      intro hmax
      have hr := hroom hmax
      have hlt := s.maxSupply.val_lt
      have hl := s.totalSupply.le_val
      unfold State.held at hr
      exact ⟨⟨by omega, by omega⟩, hr⟩
    refine ⟨_, mintTo_eq_ok.mpr ⟨h0, hp, ⟨ha, hm⟩, hmint, fun _ => hle, ⟨_, h1.1, h1.2⟩, rfl,
      ⟨_, h2.1, h2.2⟩, rfl, ⟨_, hever.1, hever.2⟩, rfl, rfl⟩, ?_⟩
    simp only [State.held, hb, if_true, I128.val_sub_of_le h0.le hle]
    omega

theorem mintTo_restores {minter recipient : Address} {amount total : I128}
    (ht : s.totalSupply = total - amount) (h : s.mintTo e minter recipient amount = .ok s') :
    s'.totalSupply = total := by
  obtain ⟨-, -, -, -, -, balance, -, next, hn, ever, -, rfl⟩ := mintTo_eq_ok.mp h
  rw [ht] at hn
  exact I128.eq_of_val_sub_add hn

/-- The error of a mint that asks for more than is bridged. -/
def overdraft : Panic := .message "insufficient bridged amount"

@[simp] theorem message_eq_overdraft {text : String} :
    Panic.message text = overdraft ↔ text = "insufficient bridged amount" := by simp [overdraft]

theorem requireMintable_ne_overdraft {amount : I128} :
    s.requireMintable amount ≠ .error overdraft := by
  unfold State.requireMintable
  split <;> simp [overdraft]

theorem drawBridged_overdraft {minter : Address} {amount : I128}
    (h : s.drawBridged minter amount = .error overdraft) :
    s.bridge = some minter ∧ s.bridgedToEvm.val < amount.val := by
  unfold State.drawBridged at h
  split at h
  · rename_i hb
    simp only [bind_eq_error, ensure_eq_error, pure_ne_error, and_false, exists_false,
      or_false, not_le] at h
    exact ⟨hb, h.1⟩
  · exact absurd h pure_ne_error

theorem mintTo_overdraft {minter recipient : Address} {amount : I128}
    (h : s.mintTo e minter recipient amount = .error overdraft) :
    s.bridge = some minter ∧ s.bridgedToEvm.val < amount.val := by
  have hcases : s.requireMintable amount = .error overdraft ∨
      s.drawBridged minter amount = .error overdraft := by
    simp [State.mintTo, State.requireNotPaused, State.requireMinter, overdraft] at h ⊢
    tauto
  rcases hcases with h | h
  · exact absurd h requireMintable_ne_overdraft
  · exact drawBridged_overdraft h

end WaterCredits.Token
