import WaterCredits.Token.Cap

/-! # Batch mints and single mints

A batch mint is compared with the sequence of single mints over the same
recipients. Both credit the same amounts; they differ in how they treat the
bridge and the bridged credits.
-/

namespace WaterCredits.Token

open Foundation Function

variable {contract : Address} {W : Type} {e : Env contract} {R : Registry W}
  {s s' t t' : State} {w w' : W} {minter recipient a : Address} {amount : I128}
  {pairs rest : List (Address × I128)}

/-- Single mints by the same caller, in order. -/
def State.mintEach (e : Env contract) (minter : Address) :
    List (Address × I128) → State → Result State
  | [], s => return s
  | (recipient, amount) :: rest, s => do
    let s ← s.mintTo e minter recipient amount
    mintEach e minter rest s

/-- The sum of the amounts that a batch pays to one recipient. -/
def paidTo (a : Address) : List (Address × I128) → ℤ
  | [] => 0
  | (recipient, amount) :: rest => (if recipient = a then amount.val else 0) + paidTo a rest

/-- Every amount is positive and no counter or balance overflows. -/
structure State.Creditable (s : State) (pairs : List (Address × I128)) : Prop where
  positive : ∀ p ∈ pairs, 0 < p.2.val
  balance : ∀ a, I128.Fits ((s.balance a).val + paidTo a pairs)
  supply : I128.Fits (s.totalSupply.val + pairsTotal pairs)
  minted : I128.Fits (s.everMinted.val + pairsTotal pairs)

/-- The second storage differs from the first by the credits of a batch. -/
structure State.Paid (s : State) (pairs : List (Address × I128)) (t : State) : Prop where
  balance : ∀ a, (t.balance a).val = (s.balance a).val + paidTo a pairs
  supply : t.totalSupply.val = s.totalSupply.val + pairsTotal pairs
  minted : t.everMinted.val = s.everMinted.val + pairsTotal pairs
  frame : t = { s with
    balance := t.balance
    totalSupply := t.totalSupply
    everMinted := t.everMinted
    bridgedToEvm := t.bridgedToEvm }

@[simp] theorem pairsTotal_cons (p : Address × I128) :
    pairsTotal (p :: rest) = p.2.val + pairsTotal rest := by
  simp [pairsTotal]

theorem paidTo_nonneg (h : ∀ p ∈ pairs, 0 < p.2.val) : 0 ≤ paidTo a pairs := by
  induction pairs with
  | nil => rfl
  | cons p rest ih =>
    obtain ⟨hp, hrest⟩ := List.forall_mem_cons.mp h
    have := ih hrest
    simp only [paidTo]
    split <;> omega

/-- The credit of one pair: the fields of the storage that it leaves. -/
structure State.Credited (s : State) (recipient : Address) (amount : I128) (t : State) : Prop where
  balance : ∀ a, (t.balance a).val =
    (s.balance a).val + if recipient = a then amount.val else 0
  supply : t.totalSupply.val = s.totalSupply.val + amount.val
  minted : t.everMinted.val = s.everMinted.val + amount.val
  frame : t = { s with
    balance := t.balance
    totalSupply := t.totalSupply
    everMinted := t.everMinted
    bridgedToEvm := t.bridgedToEvm }

namespace State

theorem creditable_nil : s.Creditable [] where
  positive := by simp
  balance a := by simpa [paidTo] using (s.balance a).fits
  supply := by simpa [pairsTotal] using s.totalSupply.fits
  minted := by simpa [pairsTotal] using s.everMinted.fits

theorem paid_nil : s.Paid [] s where
  balance a := by simp [paidTo]
  supply := by simp [pairsTotal]
  minted := by simp [pairsTotal]
  frame := rfl

theorem Credited.creditable_cons (h : s.Credited recipient amount t) :
    s.Creditable ((recipient, amount) :: rest) ↔ 0 < amount.val ∧ t.Creditable rest := by
  have hb : ∀ a, (t.balance a).val + paidTo a rest =
      (s.balance a).val + paidTo a ((recipient, amount) :: rest) := fun a => by
    rw [h.balance, paidTo, add_assoc]
  have hs : t.totalSupply.val + pairsTotal rest =
      s.totalSupply.val + pairsTotal ((recipient, amount) :: rest) := by
    rw [h.supply, pairsTotal_cons, add_assoc]
  have hm : t.everMinted.val + pairsTotal rest =
      s.everMinted.val + pairsTotal ((recipient, amount) :: rest) := by
    rw [h.minted, pairsTotal_cons, add_assoc]
  constructor
  · rintro ⟨h0, h1, h2, h3⟩
    obtain ⟨h0, hrest⟩ := List.forall_mem_cons.mp h0
    exact ⟨h0, hrest, fun a => hb a ▸ h1 a, hs ▸ h2, hm ▸ h3⟩
  · rintro ⟨h0, hrest, h1, h2, h3⟩
    exact ⟨List.forall_mem_cons.mpr ⟨h0, hrest⟩, fun a => hb a ▸ h1 a, hs ▸ h2, hm ▸ h3⟩

theorem Credited.paid_cons (h : s.Credited recipient amount t) (ht : t.Paid rest s') :
    s.Paid ((recipient, amount) :: rest) s' where
  balance a := by rw [ht.balance, h.balance, paidTo, add_assoc]
  supply := by rw [ht.supply, h.supply, pairsTotal_cons, add_assoc]
  minted := by rw [ht.minted, h.minted, pairsTotal_cons, add_assoc]
  frame := by
    have hf := ht.frame
    rw [h.frame] at hf
    exact hf

theorem Creditable.head (h : s.Creditable ((recipient, amount) :: rest)) :
    0 < amount.val ∧ I128.Fits ((s.balance recipient).val + amount.val) ∧
      I128.Fits (s.totalSupply.val + amount.val) ∧ I128.Fits (s.everMinted.val + amount.val) := by
  obtain ⟨h0, h1, h2, h3⟩ := h
  obtain ⟨h0, hrest⟩ := List.forall_mem_cons.mp h0
  have hp := paidTo_nonneg (a := recipient) hrest
  have ht := pairsTotal_nonneg hrest
  have h1 := (h1 recipient).2
  have h2 := h2.2
  have h3 := h3.2
  have hb := (s.balance recipient).le_val
  have hs := s.totalSupply.le_val
  have hm := s.everMinted.le_val
  simp only [paidTo, if_true, pairsTotal_cons] at h0 h1 h2 h3
  exact ⟨h0, ⟨by omega, by omega⟩, ⟨by omega, by omega⟩, ⟨by omega, by omega⟩⟩

theorem Paid.unique (h : s.Paid pairs t) (h' : s.Paid pairs t')
    (hb : t.bridgedToEvm = t'.bridgedToEvm) : t = t' := by
  have h1 : t.balance = t'.balance := funext fun a =>
    I128.ext ((h.balance a).trans (h'.balance a).symm)
  have h2 : t.totalSupply = t'.totalSupply := I128.ext (h.supply.trans h'.supply.symm)
  have h3 : t.everMinted = t'.everMinted := I128.ext (h.minted.trans h'.minted.symm)
  rw [h.frame, h'.frame, h1, h2, h3, hb]

end State

section BatchMint

variable {max total ever ever' next balance ever₁ : I128}

theorem credited_loop (ht : total = s.totalSupply) (h1 : next.val = total.val + amount.val)
    (h2 : balance.val = (s.balance recipient).val + amount.val)
    (h3 : ever₁.val = ever.val + amount.val) :
    { s with everMinted := ever }.Credited recipient amount
      { s.saveBalance recipient balance with totalSupply := next, everMinted := ever₁ } where
  balance a := by
    by_cases ha : recipient = a
    · subst ha; simp [State.saveBalance, h2]
    · simp [State.saveBalance, ha, Ne.symm ha]
  supply := ht ▸ h1
  minted := h3
  frame := rfl

theorem batchMintLoop_paid (ht : total = s.totalSupply)
    (h : State.batchMintLoop max pairs s total ever = .ok (s', ever')) :
    { s with everMinted := ever }.Paid pairs { s' with everMinted := ever' } := by
  induction pairs generalizing s total ever with
  | nil =>
    simp only [State.batchMintLoop, pure_eq_ok, Prod.mk.injEq] at h
    obtain ⟨rfl, rfl⟩ := h
    exact State.paid_nil
  | cons p rest ih =>
    obtain ⟨recipient, amount⟩ := p
    simp only [State.batchMintLoop, bind_eq_ok, orOverflow_eq_ok, I128.checkedAdd_eq_some] at h
    obtain ⟨_, -, next, h1, _, -, balance, h2, ever₁, h3, h⟩ := h
    exact (credited_loop ht h1 h2 h3).paid_cons (ih rfl h)

theorem batchMintLoop_accepts (ht : total = s.totalSupply) :
    (∃ r, State.batchMintLoop max pairs s total ever = .ok r) ↔
      { s with everMinted := ever }.Creditable pairs ∧
        (0 < max.val → pairs ≠ [] → s.totalSupply.val + pairsTotal pairs ≤ max.val) := by
  induction pairs generalizing s total ever with
  | nil => simp [State.batchMintLoop, State.creditable_nil, pure, Except.pure]
  | cons p rest ih =>
    obtain ⟨recipient, amount⟩ := p
    constructor
    · rintro ⟨r, h⟩
      simp only [State.batchMintLoop, bind_eq_ok, ensure_eq_ok, orOverflow_eq_ok,
        I128.checkedAdd_eq_some] at h
      obtain ⟨_, h0, next, h1, _, hcap, balance, h2, ever₁, h3, h⟩ := h
      obtain ⟨hc, hm⟩ := (ih rfl).mp ⟨r, h⟩
      refine ⟨(credited_loop ht h1 h2 h3).creditable_cons.mpr ⟨h0, hc⟩, fun hpos _ => ?_⟩
      have hcap : next.val ≤ max.val := hcap hpos
      rw [ht] at h1
      rw [pairsTotal_cons]
      cases rest with
      | nil => simp only [pairsTotal, List.map_nil, List.sum_nil]; omega
      | cons q rest =>
        have := hm hpos (List.cons_ne_nil _ _)
        simp only at this ⊢
        omega
    · rintro ⟨hc, hm⟩
      obtain ⟨h0, f1, f2, f3⟩ := hc.head
      let next : I128 := ⟨total.val + amount.val, ht ▸ f2.1, ht ▸ f2.2⟩
      let balance : I128 := ⟨(s.balance recipient).val + amount.val, f1.1, f1.2⟩
      let ever₁ : I128 := ⟨ever.val + amount.val, f3.1, f3.2⟩
      have hcr : { s with everMinted := ever }.Credited recipient amount
          { s.saveBalance recipient balance with totalSupply := next, everMinted := ever₁ } :=
        credited_loop ht rfl rfl rfl
      obtain ⟨-, hrest⟩ := hcr.creditable_cons.mp hc
      have hnn := pairsTotal_nonneg hrest.positive
      have hle : 0 < max.val → next.val + pairsTotal rest ≤ max.val := fun hpos => by
        have := hm hpos (List.cons_ne_nil _ _)
        simp only [pairsTotal_cons] at this
        simp only [next, ht]
        omega
      have hi : ∃ r, State.batchMintLoop max rest
          { s.saveBalance recipient balance with totalSupply := next } next ever₁ = .ok r :=
        (ih rfl).mpr ⟨hrest, fun hpos _ => hle hpos⟩
      obtain ⟨r, h⟩ := hi
      refine ⟨r, ?_⟩
      simp only [State.batchMintLoop, bind_eq_ok, ensure_eq_ok, orOverflow_eq_ok,
        I128.checkedAdd_eq_some]
      refine ⟨(), h0, next, rfl, (), fun hpos => ?_, balance, rfl, ever₁, rfl, h⟩
      have := hle hpos
      show next.val ≤ max.val
      omega

end BatchMint

/-- The checks of a batch that single mints share. -/
structure State.Admissible (e : Env contract) (s : State) (minter : Address)
    (pairs : List (Address × I128)) : Prop extends s.Creditable pairs where
  unpaused : s.paused = false
  authorised : e.auth minter = true ∧ (minter = s.readMinter ∨ minter = s.admin)

section

variable {recipients : List Address} {amounts : List I128}

theorem zip_ne_nil (hlen : recipients.length = amounts.length) (hne : recipients ≠ []) :
    recipients.zip amounts ≠ [] := fun h => by
  rcases List.zip_eq_nil_iff.mp h with h | h
  · exact hne h
  · exact hne (List.length_eq_zero_iff.mp (by simp [hlen, h]))

theorem batchMintTo_accepts (hlen : recipients.length = amounts.length) (hne : recipients ≠ []) :
    (∃ t, s.batchMintTo e minter recipients amounts = .ok t) ↔
      s.Admissible e minter (recipients.zip amounts) ∧
        (0 < s.maxSupply.val →
          s.totalSupply.val + pairsTotal (recipients.zip amounts) ≤ s.maxSupply.val) := by
  have hz := zip_ne_nil hlen hne
  have hl : (∃ r, State.batchMintLoop s.maxSupply (recipients.zip amounts) s s.totalSupply
      s.everMinted = .ok r) ↔ _ := batchMintLoop_accepts rfl
  simp only [State.batchMintTo, bind_eq_ok, ensure_eq_ok, pure_eq_ok, State.requireNotPaused_eq_ok,
    State.requireMinter_eq_ok]
  constructor
  · rintro ⟨t, _, -, _, -, _, hp, _, ha, r, h, -⟩
    obtain ⟨hc, hm⟩ := hl.mp ⟨r, h⟩
    exact ⟨⟨hc, hp, ha⟩, fun hpos => hm hpos hz⟩
  · rintro ⟨⟨hc, hp, ha⟩, hm⟩
    obtain ⟨r, h⟩ := hl.mpr ⟨hc, fun hpos _ => hm hpos⟩
    exact ⟨_, (), hlen, (), hne, (), hp, (), ha, r, h, rfl⟩

theorem batchMintTo_paid (h : s.batchMintTo e minter recipients amounts = .ok t) :
    s.Paid (recipients.zip amounts) t := by
  simp only [State.batchMintTo, bind_eq_ok, pure_eq_ok] at h
  obtain ⟨_, -, _, -, _, -, _, -, ⟨u, ever⟩, hl, rfl⟩ := h
  have hp := batchMintLoop_paid rfl hl
  exact hp

end

theorem mintTo_credited (h : s.mintTo e minter recipient amount = .ok t) :
    s.Credited recipient amount t := by
  obtain ⟨-, -, -, -, -, balance, h1, total, h2, ever, h3, rfl⟩ := mintTo_eq_ok.mp h
  refine ⟨fun a => ?_, h2, h3, rfl⟩
  by_cases ha : recipient = a
  · subst ha; simp [State.saveBalance, h1]
  · simp [State.saveBalance, ha, Ne.symm ha]

theorem mintEach_paid (h : State.mintEach e minter pairs s = .ok t) : s.Paid pairs t := by
  induction pairs generalizing s with
  | nil =>
    simp only [State.mintEach, pure_eq_ok] at h
    subst h
    exact State.paid_nil
  | cons p rest ih =>
    obtain ⟨recipient, amount⟩ := p
    simp only [State.mintEach, bind_eq_ok] at h
    obtain ⟨u, hu, h⟩ := h
    exact (mintTo_credited hu).paid_cons (ih h)

theorem mintEach_creditable (h : State.mintEach e minter pairs s = .ok t) : s.Creditable pairs := by
  induction pairs generalizing s with
  | nil => exact State.creditable_nil
  | cons p rest ih =>
    obtain ⟨recipient, amount⟩ := p
    simp only [State.mintEach, bind_eq_ok] at h
    obtain ⟨u, hu, h⟩ := h
    exact (mintTo_credited hu).creditable_cons.mpr ⟨(mintTo_eq_ok.mp hu).1, ih h⟩

theorem mintTo_bridge (hb : s.bridge = some minter)
    (h : s.mintTo e minter recipient amount = .ok t) :
    amount.val ≤ s.bridgedToEvm.val ∧ t.bridgedToEvm.val = s.bridgedToEvm.val - amount.val ∧
      t.bridge = s.bridge ∧ (0 < s.maxSupply.val → s.held + amount.val ≤ s.maxSupply.val) := by
  obtain ⟨h0, -, -, hm, hd, balance, -, total, -, ever, -, rfl⟩ := mintTo_eq_ok.mp h
  refine ⟨hd hb, ?_, rfl, fun hpos => (hm hpos).2⟩
  simp only [hb, if_true]
  exact I128.val_sub_of_le h0.le (hd hb)

theorem mintEach_bridge (hb : s.bridge = some minter)
    (h : State.mintEach e minter pairs s = .ok t) :
    t.bridgedToEvm.val = s.bridgedToEvm.val - pairsTotal pairs ∧
      (pairs ≠ [] → pairsTotal pairs ≤ s.bridgedToEvm.val) := by
  induction pairs generalizing s with
  | nil =>
    simp only [State.mintEach, pure_eq_ok] at h
    subst h
    simp [pairsTotal]
  | cons p rest ih =>
    obtain ⟨recipient, amount⟩ := p
    simp only [State.mintEach, bind_eq_ok] at h
    obtain ⟨u, hu, h⟩ := h
    obtain ⟨hle, hd, hbr, -⟩ := mintTo_bridge hb hu
    obtain ⟨h1, h2⟩ := ih (hbr.trans hb) h
    simp only [pairsTotal_cons]
    refine ⟨by omega, fun _ => ?_⟩
    cases rest with
    | nil => simpa [pairsTotal] using hle
    | cons q rest =>
      have := h2 (List.cons_ne_nil _ _)
      omega

theorem mintTo_frame (hb : s.bridge ≠ some minter)
    (h : s.mintTo e minter recipient amount = .ok t) :
    t.bridgedToEvm = s.bridgedToEvm ∧ t.settings = s.settings ∧
      (0 < s.maxSupply.val → s.held + amount.val ≤ s.maxSupply.val) := by
  obtain ⟨-, -, -, hm, -, balance, -, total, -, ever, -, rfl⟩ := mintTo_eq_ok.mp h
  exact ⟨if_neg hb, rfl, fun hpos => (hm hpos).2⟩

theorem mintEach_frame (hb : s.bridge ≠ some minter)
    (h : State.mintEach e minter pairs s = .ok t) : t.bridgedToEvm = s.bridgedToEvm := by
  induction pairs generalizing s with
  | nil =>
    simp only [State.mintEach, pure_eq_ok] at h
    rw [h]
  | cons p rest ih =>
    obtain ⟨recipient, amount⟩ := p
    simp only [State.mintEach, bind_eq_ok] at h
    obtain ⟨u, hu, h⟩ := h
    obtain ⟨h1, h2, -⟩ := mintTo_frame hb hu
    have hbr : u.bridge = s.bridge := congrArg (fun x => x.2.2.1) h2
    exact (ih (hbr ▸ hb) h).trans h1

theorem mintEach_cap (hb : s.bridge ≠ some minter) (hne : pairs ≠ [])
    (hM : 0 < s.maxSupply.val) (h : State.mintEach e minter pairs s = .ok t) :
    s.held + pairsTotal pairs ≤ s.maxSupply.val := by
  induction pairs generalizing s with
  | nil => exact absurd rfl hne
  | cons p rest ih =>
    obtain ⟨recipient, amount⟩ := p
    simp only [State.mintEach, bind_eq_ok] at h
    obtain ⟨u, hu, h⟩ := h
    obtain ⟨h1, h2, h3⟩ := mintTo_frame hb hu
    have hbr : u.bridge = s.bridge := congrArg (fun x => x.2.2.1) h2
    have hcap : u.maxSupply = s.maxSupply := congrArg (fun x => x.2.2.2.2) h2
    have hs := (mintTo_credited hu).supply
    have := h3 hM
    rw [pairsTotal_cons]
    cases rest with
    | nil => simpa [pairsTotal] using this
    | cons q rest =>
      have := ih (hbr ▸ hb) (List.cons_ne_nil _ _) (hcap ▸ hM) h
      simp only [State.held, h1, hcap, hs] at this ⊢
      omega

theorem mintTo_cases (h : s.mintTo e minter recipient amount = .ok t) :
    t.settings = s.settings ∧ t.held ≤ s.held + amount.val ∧
      (s.bridge = some minter → t.bridgedToEvm.val = s.bridgedToEvm.val - amount.val) ∧
      (s.bridge ≠ some minter → t.bridgedToEvm = s.bridgedToEvm) := by
  have hset : t.settings = s.settings := by
    obtain ⟨-, -, -, -, -, balance, -, total, -, ever, -, rfl⟩ := mintTo_eq_ok.mp h
    rfl
  have h0 := (mintTo_eq_ok.mp h).1
  have hs := (mintTo_credited h).supply
  by_cases hb : s.bridge = some minter
  · obtain ⟨-, hd, -, -⟩ := mintTo_bridge hb h
    refine ⟨hset, ?_, fun _ => hd, fun hn => absurd hb hn⟩
    simp only [State.held, hs, hd]
    omega
  · obtain ⟨hd, -, -⟩ := mintTo_frame hb h
    refine ⟨hset, ?_, fun hn => absurd hn hb, fun _ => hd⟩
    simp only [State.held, hs, hd]
    omega

theorem mintEach_accepts (hb : s.bridge = some minter → pairsTotal pairs ≤ s.bridgedToEvm.val)
    (hB : 0 ≤ s.bridgedToEvm.val) (ha : s.Admissible e minter pairs)
    (hM : 0 < s.maxSupply.val → s.held + pairsTotal pairs ≤ s.maxSupply.val) :
    ∃ t, State.mintEach e minter pairs s = .ok t := by
  induction pairs generalizing s with
  | nil => exact ⟨s, rfl⟩
  | cons p rest ih =>
    obtain ⟨recipient, amount⟩ := p
    obtain ⟨h0, f1, f2, f3⟩ := ha.head
    have hrest := pairsTotal_nonneg (List.forall_mem_cons.mp ha.positive).2
    simp only [State.held, pairsTotal_cons] at hM hb
    have hm : s.Mintable amount := by
      intro hpos
      have := hM hpos
      have := s.maxSupply.val_lt
      have := s.totalSupply.le_val
      exact ⟨⟨by omega, by omega⟩, by omega⟩
    have hd : s.bridge = some minter → amount.val ≤ s.bridgedToEvm.val := by
      intro hbr
      have := hb hbr
      omega
    have hu : ∃ u, s.mintTo e minter recipient amount = .ok u :=
      ⟨_, mintTo_eq_ok.mpr ⟨h0, ha.unpaused, ha.authorised, hm, hd,
        ⟨_, f1.1, f1.2⟩, rfl, ⟨_, f2.1, f2.2⟩, rfl, ⟨_, f3.1, f3.2⟩, rfl, rfl⟩⟩
    obtain ⟨u, hu⟩ := hu
    obtain ⟨hset, hheld, hbr, hnb⟩ := mintTo_cases hu
    have hc := mintTo_credited hu
    simp only [State.settings, Prod.mk.injEq] at hset
    obtain ⟨hadmin, hminter, hbridge, hpaused, hcap⟩ := hset
    have hau : u.Admissible e minter rest := by
      refine ⟨(hc.creditable_cons.mp ha.toCreditable).2, hpaused.trans ha.unpaused, ?_⟩
      simpa only [State.readMinter, hminter, hadmin] using ha.authorised
    have hcu : 0 < u.maxSupply.val → u.held + pairsTotal rest ≤ u.maxSupply.val := by
      intro hpos
      have := hM (hcap ▸ hpos)
      rw [hcap]
      simp only [State.held] at hheld ⊢
      omega
    have hbu : u.bridge = some minter → pairsTotal rest ≤ u.bridgedToEvm.val := by
      intro h
      rw [hbridge] at h
      have := hb h
      have := hbr h
      omega
    have hBu : 0 ≤ u.bridgedToEvm.val := by
      by_cases h : s.bridge = some minter
      · have := hb h
        have := hbr h
        omega
      · rwa [hnb h]
    obtain ⟨t, ht⟩ := ih hbu hBu hau hcu
    refine ⟨t, ?_⟩
    simp only [State.mintEach, bind_eq_ok]
    exact ⟨u, hu, ht⟩

theorem mintEach_held_le (h : State.mintEach e minter pairs s = .ok t) :
    t.settings = s.settings ∧ t.held ≤ s.held + pairsTotal pairs := by
  induction pairs generalizing s with
  | nil =>
    simp only [State.mintEach, pure_eq_ok] at h
    subst h
    simp [pairsTotal]
  | cons p rest ih =>
    obtain ⟨recipient, amount⟩ := p
    simp only [State.mintEach, bind_eq_ok] at h
    obtain ⟨u, hu, h⟩ := h
    obtain ⟨hset, hheld, -, -⟩ := mintTo_cases hu
    obtain ⟨h1, h2⟩ := ih h
    refine ⟨h1.trans hset, ?_⟩
    simp only [pairsTotal_cons]
    omega

theorem mintEach_append {pairs' : List (Address × I128)} :
    State.mintEach e minter (pairs ++ pairs') s = .ok t ↔
      ∃ u, State.mintEach e minter pairs s = .ok u ∧ State.mintEach e minter pairs' u = .ok t := by
  induction pairs generalizing s with
  | nil => simp [State.mintEach]
  | cons p rest ih =>
    simp only [List.cons_append, State.mintEach, bind_eq_ok, ih]
    constructor
    · rintro ⟨u, hu, v, hv, ht⟩
      exact ⟨v, ⟨u, hu, hv⟩, ht⟩
    · rintro ⟨v, ⟨u, hu, hv⟩, ht⟩
      exact ⟨u, hu, v, hv, ht⟩

theorem mintEach_admissible (hne : pairs ≠ []) (h : State.mintEach e minter pairs s = .ok t) :
    s.Admissible e minter pairs := by
  have hc := mintEach_creditable h
  cases pairs with
  | nil => exact absurd rfl hne
  | cons p rest =>
    obtain ⟨recipient, amount⟩ := p
    simp only [State.mintEach, bind_eq_ok] at h
    obtain ⟨u, hu, -⟩ := h
    obtain ⟨-, hp, ha, -⟩ := mintTo_eq_ok.mp hu
    exact ⟨hc, hp, ha⟩

theorem mintEach_supply_le (hB : 0 ≤ s.bridgedToEvm.val) (hne : pairs ≠ [])
    (hM : 0 < s.maxSupply.val) (h : State.mintEach e minter pairs s = .ok t) :
    s.totalSupply.val + pairsTotal pairs ≤ s.maxSupply.val := by
  by_cases hb : s.bridge = some minter
  · have hle := (mintEach_bridge hb h).2 hne
    have hp := (mintEach_creditable h).positive
    cases pairs with
    | nil => exact absurd rfl hne
    | cons p rest =>
      obtain ⟨recipient, amount⟩ := p
      simp only [State.mintEach, bind_eq_ok] at h
      obtain ⟨u, hu, -⟩ := h
      have hcap := (mintTo_bridge hb hu).2.2.2 hM
      have h0 : 0 < amount.val := (List.forall_mem_cons.mp hp).1
      simp only [State.held] at hcap
      omega
  · have hcap := mintEach_cap hb hne hM h
    simp only [State.held] at hcap
    omega

/-- The batch mint and the single mints accept alike and leave the same storage. -/
def State.BatchAgrees (e : Env contract) (s : State) (minter : Address) (recipients : List Address)
    (amounts : List I128) : Prop :=
  ∀ t, s.batchMintTo e minter recipients amounts = .ok t ↔
    State.mintEach e minter (recipients.zip amounts) s = .ok t

section Agreement

variable {recipients : List Address} {amounts : List I128}

/-- A batch that both accept needs another caller than the bridge. -/
theorem State.BatchAgrees.bridge_ne (hlen : recipients.length = amounts.length)
    (hne : recipients ≠ [])
    (hag : s.BatchAgrees e minter recipients amounts)
    (ht : s.batchMintTo e minter recipients amounts = .ok t) : s.bridge ≠ some minter := by
  intro hb
  have he := (hag t).mp ht
  have hd := (mintEach_bridge hb he).1
  have hB : t.bridgedToEvm = s.bridgedToEvm := by rw [batchMintTo_frame ht]
  have hpos := (mintEach_creditable he).positive
  have hz := zip_ne_nil hlen hne
  rw [hB] at hd
  cases hp : recipients.zip amounts with
  | nil => exact hz hp
  | cons p rest =>
    rw [hp, pairsTotal_cons] at hd
    rw [hp] at hpos
    obtain ⟨h0, hrest⟩ := List.forall_mem_cons.mp hpos
    have := pairsTotal_nonneg hrest
    omega

/-- When both accept, both leave the same storage. -/
theorem mintEach_eq_batch (hb : s.bridge ≠ some minter)
    (ht : s.batchMintTo e minter recipients amounts = .ok t)
    (ht' : State.mintEach e minter (recipients.zip amounts) s = .ok t') : t = t' := by
  have hB : t.bridgedToEvm = s.bridgedToEvm := by rw [batchMintTo_frame ht]
  exact (batchMintTo_paid ht).unique (mintEach_paid ht') (hB.trans (mintEach_frame hb ht').symm)

theorem batchAgrees_iff (hB : 0 ≤ s.bridgedToEvm.val)
    (hlen : recipients.length = amounts.length) (hne : recipients ≠ []) :
    s.BatchAgrees e minter recipients amounts ↔
      ¬ s.Admissible e minter (recipients.zip amounts) ∨
        (0 < s.maxSupply.val ∧
          s.maxSupply.val < s.totalSupply.val + pairsTotal (recipients.zip amounts)) ∨
        (s.bridge ≠ some minter ∧
          (0 < s.maxSupply.val →
            s.held + pairsTotal (recipients.zip amounts) ≤ s.maxSupply.val)) := by
  have hz := zip_ne_nil hlen hne
  have hacc : (∃ t, s.batchMintTo e minter recipients amounts = .ok t) ↔ _ :=
    batchMintTo_accepts hlen hne
  constructor
  · intro hag
    by_contra hno
    push Not at hno
    obtain ⟨hadm, hcap, hroom⟩ := hno
    obtain ⟨t, ht⟩ := hacc.mpr ⟨hadm, hcap⟩
    have hb := hag.bridge_ne hlen hne ht
    obtain ⟨hM, hlt⟩ := hroom hb
    exact absurd (mintEach_cap hb hz hM ((hag t).mp ht)) (not_le.mpr hlt)
  · have both_fail (hf : ¬ ∃ t, s.batchMintTo e minter recipients amounts = .ok t)
        (hg : ¬ ∃ t, State.mintEach e minter (recipients.zip amounts) s = .ok t) :
        s.BatchAgrees e minter recipients amounts := fun t =>
      ⟨fun h => absurd ⟨t, h⟩ hf, fun h => absurd ⟨t, h⟩ hg⟩
    rintro (hadm | ⟨hM, hlt⟩ | ⟨hb, hroom⟩)
    · exact both_fail (fun h => hadm (hacc.mp h).1) fun ⟨t, h⟩ => hadm (mintEach_admissible hz h)
    · exact both_fail (fun h => absurd ((hacc.mp h).2 hM) (not_le.mpr hlt)) fun ⟨t, h⟩ =>
        absurd (mintEach_supply_le hB hz hM h) (not_le.mpr hlt)
    · refine fun t => ⟨fun h => ?_, fun h => ?_⟩
      · obtain ⟨t', h'⟩ := mintEach_accepts (fun h => absurd h hb) hB (hacc.mp ⟨t, h⟩).1 hroom
        rwa [mintEach_eq_batch hb h h']
      · have hadm := mintEach_admissible hz h
        obtain ⟨t', h'⟩ := hacc.mpr ⟨hadm, fun hM => mintEach_supply_le hB hz hM h⟩
        rwa [← mintEach_eq_batch hb h' h]

/--
A batch mint agrees with single mints exactly when both are rejected, or the
caller is not the bridge and the cap leaves room for the bridged credits. A
rejected batch leaves the storage as it was.
-/
theorem batchMintTo_agrees_iff {sw : State × W} (h : (machine contract R).Reachable sw)
    (e : Env contract) (minter : Address) (hlen : recipients.length = amounts.length)
    (hne : recipients ≠ []) :
    (sw.1.BatchAgrees e minter recipients amounts ↔
      ¬ sw.1.Admissible e minter (recipients.zip amounts) ∨
        (0 < sw.1.maxSupply.val ∧
          sw.1.maxSupply.val < sw.1.totalSupply.val + (amounts.map I128.val).sum) ∨
        (sw.1.bridge ≠ some minter ∧
          (0 < sw.1.maxSupply.val →
            sw.1.totalSupply.val + sw.1.bridgedToEvm.val + (amounts.map I128.val).sum ≤
              sw.1.maxSupply.val))) ∧
      ((∀ t, sw.1.batchMintTo e minter recipients amounts ≠ .ok t) →
        (machine contract R).call sw (e, .batchMintTo minter recipients amounts) = sw) := by
  refine ⟨?_, fun hno => ?_⟩
  · rw [← pairsTotal_zip hlen]
    exact batchAgrees_iff (nonneg_reach h).1 hlen hne
  · rcases Machine.call_cases (m := machine contract R) sw
      (e, .batchMintTo minter recipients amounts) with hc | hc
    · exact hc
    · exact absurd (within_eq_ok.mp hc).1 (hno _)

end Agreement

section Sample

/-- The environment of a sample call by the admin. -/
abbrev adminEnv : Env home := (signedBy 0 (.acceptAdmin home)).1

theorem batchMintTo_agrees_funded :
    funded.1.BatchAgrees adminEnv (.account 0) [.account 2, .account 2] [3, 4] :=
  (batchMintTo_agrees_iff funded_reach.free adminEnv (.account 0) (by decide) (by decide)).1.mpr
    (Or.inr (Or.inr ⟨by decide, by decide⟩))

/-- With ten credits bridged away under a cap of ten, only the batch mints ten more. -/
theorem batch_ignores_bridged :
    (machine home closedRegistry).Reachable bridgedOut ∧
      ¬ bridgedOut.1.BatchAgrees adminEnv (.account 0) [.account 1] [10] := by
  refine ⟨⟨_, bridgedOut_run.choose_spec.free⟩, fun hag => ?_⟩
  have hb : (bridgedOut.1.batchMintTo adminEnv (.account 0) [.account 1] [10]).isOk = true := by
    decide
  have hs : (State.mintEach adminEnv (.account 0) [(.account 1, 10)] bridgedOut.1).isOk =
      false := by
    decide
  obtain ⟨t, h⟩ := exists_of_isOk hb
  have ht := (hag t).mp h
  simp only [List.zip_cons_cons, List.zip_nil_right] at ht
  rw [ht] at hs
  cases hs

end Sample

end WaterCredits.Token
