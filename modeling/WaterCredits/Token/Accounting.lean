import WaterCredits.Foundation.Books
import WaterCredits.Token.Calls

/-! # Token calls as book entries

The balances and counters of a token form books. On balanced books every
accepted call, except a transfer of a holder to itself, is a sequence of
elementary entries, so its plain subtractions and additions are exact.
-/

namespace WaterCredits.Token

open Foundation Function
open Foundation.Books (Entry Entries)

variable {contract : Address} {W : Type} {e : Env contract} {R : Registry W}
  {s s' : State} {w w' : W}

/-- The integers behind the balances and counters. -/
def State.books (s : State) : Books Address where
  balance a := (s.balance a).val
  supply := s.totalSupply.val
  retired := s.totalRetired.val
  burned := s.totalBurned.val
  minted := s.everMinted.val
  bridged := s.bridgedToEvm.val

def State.archive (s : State) : (UInt64 → Option RetirementCertificate) × UInt64 × I128 :=
  (s.cert, s.certCount, s.totalRetired)

theorem val_update (f : Address → I128) (a : Address) (v : I128) :
    (fun b => (update f a v b).val) = update (fun b => (f b).val) a v.val := by
  ext b
  by_cases h : b = a
  · subst h; simp
  · simp [h]

/-- The credits that the mint check of `requireMintable` admits. -/
def State.Mintable (s : State) (amount : I128) : Prop :=
  0 < s.maxSupply.val →
    I128.Fits (s.totalSupply.val + s.bridgedToEvm.val) ∧
      s.totalSupply.val + s.bridgedToEvm.val + amount.val ≤ s.maxSupply.val

theorem requireMintable_eq_ok {amount : I128} {u : Unit} (h0 : 0 < amount.val) :
    s.requireMintable amount = .ok u ↔ s.Mintable amount := by
  unfold State.requireMintable State.Mintable
  split
  · rename_i hm
    have hm : 0 < s.maxSupply.val := hm
    simp only [bind_eq_ok, orOverflow_eq_ok, I128.checkedAdd_eq_some, ensure_eq_ok, I128.le_iff, hm,
      forall_const]
    constructor
    · rintro ⟨held, hh, next, hn, hle⟩
      have hf := held.fits
      rw [hh] at hf
      exact ⟨hf, by omega⟩
    · rintro ⟨hf, hle⟩
      have hmax := s.maxSupply.val_lt
      have hl := hf.1
      let next : I128 := ⟨s.totalSupply.val + s.bridgedToEvm.val + amount.val, by omega, by omega⟩
      exact ⟨⟨_, hf.1, hf.2⟩, rfl, next, rfl, hle⟩
  · rename_i hm
    have hm : ¬ 0 < s.maxSupply.val := hm
    simp [hm]

theorem drawBridged_eq_ok {minter : Address} {amount : I128} :
    s.drawBridged minter amount = .ok s' ↔
      (s.bridge = some minter → amount.val ≤ s.bridgedToEvm.val) ∧
        s' = { s with
          bridgedToEvm :=
            if s.bridge = some minter then s.bridgedToEvm - amount else s.bridgedToEvm } := by
  unfold State.drawBridged
  split
  · rename_i hb
    simp [hb, I128.le_iff, @eq_comm _ s']
  · rename_i hb
    simp [hb, @eq_comm _ s']

theorem mintTo_eq_ok {minter recipient : Address} {amount : I128} :
    s.mintTo e minter recipient amount = .ok s' ↔
      0 < amount.val ∧ s.paused = false ∧
        (e.auth minter = true ∧ (minter = s.readMinter ∨ minter = s.admin)) ∧ s.Mintable amount ∧
        (s.bridge = some minter → amount.val ≤ s.bridgedToEvm.val) ∧
        ∃ balance : I128, balance.val = (s.balance recipient).val + amount.val ∧
        ∃ total : I128, total.val = s.totalSupply.val + amount.val ∧
        ∃ ever : I128, ever.val = s.everMinted.val + amount.val ∧
          s' = { s.saveBalance recipient balance with
            bridgedToEvm :=
              if s.bridge = some minter then s.bridgedToEvm - amount else s.bridgedToEvm
            totalSupply := total
            everMinted := ever } := by
  simp only [State.mintTo, bind_eq_ok, ensure_eq_ok, exists_and_left, exists_const,
    State.requireNotPaused_eq_ok, State.requireMinter_eq_ok, I128.lt_iff, I128.val_zero,
    orOverflow_eq_ok, I128.checkedAdd_eq_some, pure_eq_ok, drawBridged_eq_ok]
  refine and_congr_right fun h0 => and_congr_right fun _ => and_congr_right fun _ => ?_
  constructor
  · rintro ⟨u, hm, t, ⟨hb, rfl⟩, balance, h1, total, h2, ever, h3, rfl⟩
    exact ⟨(requireMintable_eq_ok h0).mp hm, hb, balance, h1, total, h2, ever, h3, rfl⟩
  · rintro ⟨hm, hb, balance, h1, total, h2, ever, h3, rfl⟩
    exact ⟨(), (requireMintable_eq_ok h0).mpr hm, _, ⟨hb, rfl⟩, balance, h1, total, h2, ever, h3,
      rfl⟩

theorem mintTo_entry {minter recipient : Address} {amount : I128}
    (h : s.mintTo e minter recipient amount = .ok s') : Entry s.books s'.books := by
  obtain ⟨h0, -, -, -, hb, balance, h1, total, h2, ever, h3, rfl⟩ := mintTo_eq_ok.mp h
  by_cases hbr : s.bridge = some minter
  · have hd := I128.val_sub_of_le h0.le (hb hbr)
    convert Entry.mintBridged s.books recipient h0 (hb hbr) using 1
    simp [State.books, State.saveBalance, Books.mint, Books.post, val_update, hbr, hd, h1, h2, h3]
  · convert Entry.mint s.books recipient h0 using 1
    simp [State.books, State.saveBalance, Books.mint, Books.post, val_update, hbr, h1, h2, h3]

theorem batchMintLoop_entries {max total ever ever' : I128} {pairs : List (Address × I128)}
    (ht : total = s.totalSupply)
    (h : State.batchMintLoop max pairs s total ever = .ok (s', ever')) :
    Entries { s.books with minted := ever.val } { s'.books with minted := ever'.val } := by
  induction pairs generalizing s total ever with
  | nil =>
    simp only [State.batchMintLoop, pure_eq_ok, Prod.mk.injEq] at h
    obtain ⟨rfl, rfl⟩ := h
    exact .refl
  | cons p rest ih =>
    obtain ⟨recipient, amount⟩ := p
    simp only [State.batchMintLoop, bind_eq_ok, ensure_eq_ok, exists_and_left, exists_const,
      orOverflow_eq_ok, I128.checkedAdd_eq_some] at h
    obtain ⟨h0, next, h1, -, balance, h2, ever₁, h3, h⟩ := h
    refine Relation.ReflTransGen.head ?_ (ih rfl h)
    convert Entry.mint { s.books with minted := ever.val } recipient h0 using 1
    simp [State.books, State.saveBalance, Books.mint, Books.post, val_update, h1, h2, h3, ht]

theorem batchMintTo_entries {minter : Address} {recipients : List Address} {amounts : List I128}
    (h : s.batchMintTo e minter recipients amounts = .ok s') : Entries s.books s'.books := by
  simp only [State.batchMintTo, bind_eq_ok, ensure_eq_ok, exists_and_left, exists_const,
    State.requireNotPaused_eq_ok, State.requireMinter_eq_ok, pure_eq_ok] at h
  obtain ⟨-, -, -, -, ⟨t, ever⟩, hl, rfl⟩ := h
  have he := batchMintLoop_entries rfl hl
  exact he

theorem destroy_eq_ok {holder : Address} {amount : I128} :
    s.destroy holder amount = .ok s' ↔
      amount.val ≤ (s.balance holder).val ∧
        ∃ burned : I128, burned.val = s.totalBurned.val + amount.val ∧
          s' = { s.saveBalance holder (s.balance holder - amount) with
            totalSupply := s.totalSupply - amount
            totalBurned := burned } := by
  simp [State.destroy, I128.le_iff, @eq_comm _ s']

/-- A holder's balance is part of the supply, so taking an amount from both is exact. -/
theorem val_debit {holder : Address} {amount : I128} (hb : s.books.Funded) (h0 : 0 < amount.val)
    (h : amount.val ≤ (s.balance holder).val) :
    (s.balance holder - amount).val = (s.balance holder).val - amount.val ∧
      (s.totalSupply - amount).val = s.totalSupply.val - amount.val :=
  ⟨I128.val_sub_of_le h0.le h, I128.val_sub_of_le h0.le (h.trans (hb.le holder))⟩

theorem destroy_books {holder : Address} {amount : I128} (hb : s.books.Funded)
    (h0 : 0 < amount.val) (h : s.destroy holder amount = .ok s') :
    amount.val ≤ s.books.balance holder ∧ s'.books = s.books.burn holder amount.val := by
  obtain ⟨hle, burned, h1, rfl⟩ := destroy_eq_ok.mp h
  obtain ⟨h2, h3⟩ := val_debit hb h0 hle
  refine ⟨hle, ?_⟩
  simp [State.books, State.saveBalance, Books.burn, Books.post, val_update, h1, h2, h3,
    Int.sub_eq_add_neg]

theorem burn_entry {caller holder : Address} {amount : I128} (hb : s.books.Funded)
    (h : s.burn e caller holder amount = .ok s') : Entry s.books s'.books := by
  simp only [State.burn, bind_eq_ok, ensure_eq_ok, exists_and_left, exists_const,
    Env.requireAuth_eq_ok] at h
  obtain ⟨h0, -, h⟩ := h
  split at h
  · simp only [bind_eq_ok, ensure_eq_ok, exists_and_left, exists_const, orOverflow_eq_ok,
      I128.checkedAdd_eq_some, pure_eq_ok] at h
    obtain ⟨-, t, hd, bridged, h1, rfl⟩ := h
    obtain ⟨hle, hbooks⟩ := destroy_books hb h0 hd
    convert Entry.burnBridged s.books holder h0 hle using 1
    rw [← hbooks]
    simp only [State.books, h1]
    congr 1
    have : t.books.bridged = s.books.bridged := by rw [hbooks]; rfl
    simpa [State.books] using this
  · simp only [bind_eq_ok, ensure_eq_ok, exists_and_left, exists_const] at h
    obtain ⟨hle, hbooks⟩ := destroy_books hb h0 h.2
    rw [hbooks]
    exact Entry.burn s.books holder h0 hle

theorem burnWithReason_entry {admin holder : Address} {amount : I128} {reason : String}
    (hb : s.books.Funded) (h : s.burnWithReason e admin holder amount reason = .ok s') :
    Entry s.books s'.books := by
  simp only [State.burnWithReason, bind_eq_ok, ensure_eq_ok, exists_and_left, exists_const,
    State.requireAdmin_eq_ok] at h
  obtain ⟨h0, -, h⟩ := h
  obtain ⟨hle, hbooks⟩ := destroy_books hb h0 h
  rw [hbooks]
  exact Entry.burn s.books holder h0 hle

theorem moveBalance_eq_ok {sender recipient : Address} {amount : I128} :
    s.moveBalance sender recipient amount = .ok s' ↔
      amount.val ≤ (s.balance sender).val ∧
        ∃ credited : I128, credited.val = (s.balance recipient).val + amount.val ∧
          s' =
            (s.saveBalance sender (s.balance sender - amount)).saveBalance recipient credited := by
  simp [State.moveBalance, I128.le_iff, @eq_comm _ s']

theorem moveBalance_entry {sender recipient : Address} {amount : I128} (h0 : 0 < amount.val)
    (hne : sender ≠ recipient) (h : s.moveBalance sender recipient amount = .ok s') :
    Entry s.books s'.books := by
  obtain ⟨hle, credited, h1, rfl⟩ := moveBalance_eq_ok.mp h
  convert Entry.move s.books sender recipient h0 hle using 1
  simp [State.books, State.saveBalance, Books.move, Books.post, val_update,
    I128.val_sub_of_le h0.le hle, h1, hne.symm, Int.sub_eq_add_neg]

/-- Retired credits were in circulation, so the counter of the retired stays below the minted. -/
theorem fits_retired {holder : Address} {amount : I128} (hb : s.books.Balanced)
    (h0 : 0 < amount.val) (h : amount.val ≤ (s.balance holder).val) :
    I128.Fits (s.totalRetired.val + amount.val) := by
  have hs := hb.le holder
  have hc := hb.conserved
  have hu := hb.burned_nonneg
  have hr := hb.retired_nonneg
  have hm := s.everMinted.val_lt
  simp only [State.books] at hs hc hu hr
  exact ⟨by omega, by omega⟩

theorem retire_entry {holder : Address} {amount : I128} {purpose metadataUri : String}
    {cert : RetirementCertificate} (hb : s.books.Balanced)
    (h : s.retire R e holder amount purpose metadataUri w = .ok (cert, s', w')) :
    Entry s.books s'.books := by
  simp only [State.retire, bind_eq_ok, ensure_eq_ok, exists_and_left, exists_const,
    State.requireNotPaused_eq_ok, Env.requireAuth_eq_ok, require_eq_ok, pure_eq_ok,
    Prod.mk.injEq] at h
  obtain ⟨h0, -, -, hle, -, a, -, -, rfl, -⟩ := h
  obtain ⟨h1, h2⟩ := val_debit hb.toBacked h0 hle
  have h3 : (s.totalRetired + amount).val = s.totalRetired.val + amount.val :=
    I128.val_add (fits_retired hb h0 hle)
  convert Entry.retire s.books holder h0 hle using 1
  simp [State.books, State.saveBalance, Books.retire, Books.post, val_update, h1, h2, h3,
    Int.sub_eq_add_neg]

section BatchTransfer

variable {pairs : List (Address × I128)} {sender : Address}

def pairsTotal (pairs : List (Address × I128)) : ℤ := (pairs.map fun p => p.2.val).sum

theorem batchTotal_eq_ok {amounts : List I128} {total total' : I128}
    (h : State.batchTotal amounts total = .ok total') :
    (∀ n ∈ amounts, 0 < n.val) ∧ total'.val = total.val + (amounts.map I128.val).sum := by
  induction amounts generalizing total with
  | nil =>
    simp only [State.batchTotal, pure_eq_ok] at h
    simp [h]
  | cons n rest ih =>
    simp only [State.batchTotal, bind_eq_ok, ensure_eq_ok, exists_and_left, exists_const,
      orOverflow_eq_ok, I128.checkedAdd_eq_some] at h
    obtain ⟨h0, next, h1, h⟩ := h
    obtain ⟨hpos, hsum⟩ := ih h
    refine ⟨List.forall_mem_cons.mpr ⟨h0, hpos⟩, ?_⟩
    simp only [List.map_cons, List.sum_cons]
    omega

theorem pairsTotal_nonneg (h : ∀ p ∈ pairs, 0 < p.2.val) : 0 ≤ pairsTotal pairs :=
  List.sum_nonneg fun n hn => by
    obtain ⟨p, hp, rfl⟩ := List.mem_map.mp hn
    exact (h p hp).le

theorem pairsTotal_zip {recipients : List Address} {amounts : List I128}
    (h : recipients.length = amounts.length) :
    pairsTotal (recipients.zip amounts) = (amounts.map I128.val).sum := by
  have hz := List.map_snd_zip (h.ge : amounts.length ≤ recipients.length)
  conv_rhs => rw [← hz]
  simp [pairsTotal, List.map_map, Function.comp_def]

/-- Books in which a holder still has the part of a batch that is not paid out. -/
def lend (b : Books Address) (a : Address) (n : ℤ) : Books Address :=
  { b with balance := update b.balance a (b.balance a + n) }

theorem creditLoop_entries (hpos : ∀ p ∈ pairs, 0 < p.2.val) (h0 : 0 ≤ (s.balance sender).val)
    (h : State.creditLoop pairs s = .ok s') :
    Entries (lend s.books sender (pairsTotal pairs)) s'.books := by
  induction pairs generalizing s with
  | nil =>
    simp only [State.creditLoop, pure_eq_ok] at h
    subst h
    simp only [lend, pairsTotal, List.map_nil, List.sum_nil, add_zero, update_eq_self]
    exact .refl
  | cons p rest ih =>
    obtain ⟨recipient, amount⟩ := p
    obtain ⟨hp, hrest⟩ := List.forall_mem_cons.mp hpos
    have hp : 0 < amount.val := hp
    have ht := pairsTotal_nonneg hrest
    simp only [State.creditLoop, bind_eq_ok, orOverflow_eq_ok, I128.checkedAdd_eq_some] at h
    obtain ⟨balance, h1, h⟩ := h
    have hs : 0 ≤ ((s.saveBalance recipient balance).balance sender).val := by
      by_cases hc : sender = recipient
      · subst hc
        simp only [State.saveBalance, update_self]
        omega
      · simpa [State.saveBalance, update_of_ne hc] using h0
    refine Relation.ReflTransGen.head ?_ (ih hrest hs h)
    have hle : amount.val ≤ (lend s.books sender (pairsTotal ((recipient, amount) :: rest))).balance
        sender := by
      simp only [lend, pairsTotal, List.map_cons, List.sum_cons, State.books, update_self] at ht ⊢
      omega
    convert Entry.move _ sender recipient hp hle using 1
    simp only [lend, State.books, State.saveBalance, Books.move, Books.post, val_update, pairsTotal,
      List.map_cons, List.sum_cons, Books.mk.injEq, and_true]
    refine ⟨funext fun x => ?_, by omega⟩
    by_cases hx : x = sender <;> by_cases hy : x = recipient <;>
      by_cases hz : sender = recipient <;> simp_all [update_apply] <;> omega

theorem batchTransfer_entries {recipients : List Address} {amounts : List I128}
    (h : s.batchTransfer e sender recipients amounts = .ok s') :
    Entries s.books s'.books := by
  simp only [State.batchTransfer, bind_eq_ok, ensure_eq_ok, exists_and_left, exists_const,
    State.requireNotPaused_eq_ok, Env.requireAuth_eq_ok] at h
  obtain ⟨hlen, -, -, -, total, htot, hle, h⟩ := h
  obtain ⟨hpos, hsum⟩ := batchTotal_eq_ok htot
  have hpairs : ∀ p ∈ recipients.zip amounts, 0 < p.2.val := fun p hp =>
    hpos _ (List.of_mem_zip hp).2
  have hs : pairsTotal (recipients.zip amounts) = total.val := by
    rw [pairsTotal_zip hlen, hsum, I128.val_zero, zero_add]
  have h0 := pairsTotal_nonneg hpairs
  have hd : (s.balance sender - total).val = (s.balance sender).val - total.val :=
    I128.val_sub_of_le (hs ▸ h0) hle
  have hl : 0 ≤ ((s.saveBalance sender (s.balance sender - total)).balance sender).val := by
    rw [I128.le_iff] at hle
    simp only [State.saveBalance, update_self, hd]
    omega
  convert creditLoop_entries hpairs hl h using 1
  simp [lend, State.books, State.saveBalance, val_update, hd, hs]

end BatchTransfer

namespace Call

def toSelf : Call → Prop
  | .transfer sender recipient _ => sender = recipient
  | .transferFrom _ sender recipient _ => sender = recipient
  | _ => False

/-- The calls that change balances or counters. -/
def accounting : Call → Bool
  | .mintTo .. | .batchMintTo .. | .burn .. | .burnWithReason .. | .transfer .. | .batchTransfer ..
  | .transferFrom .. | .retire .. => true
  | _ => false

def retiring : Call → Bool
  | .retire .. => true
  | _ => false

def capAfter (old : I128) : Call → I128
  | .setMaxSupply _ max => max
  | _ => old

end Call

/-- The storage that an accepted administrative call leaves behind. -/
def State.administered (e : Env contract) (s : State) : Call → State
  | .setAdmin _ newAdmin => { s with
      pendingAdmin := some newAdmin
      pendingAdminActiveAfter := some (e.timestamp + 0) }
  | .proposeAdmin _ newAdmin delaySecs => { s with
      pendingAdmin := some newAdmin
      pendingAdminActiveAfter := some (e.timestamp + delaySecs) }
  | .acceptAdmin newAdmin =>
      { s with admin := newAdmin, pendingAdmin := none, pendingAdminActiveAfter := none }
  | .cancelAdminProposal _ => { s with pendingAdmin := none, pendingAdminActiveAfter := none }
  | .setMinter _ minter => { s with minter := some minter }
  | .setRetirementRegistry _ registry => { s with retirementRegistry := some registry }
  | .setRequireRegistry _ required => { s with requireRegistry := required }
  | .pause _ => { s with paused := true }
  | .unpause _ => { s with paused := false }
  | .setMaxSupply _ max => { s with maxSupply := max }
  | .setPauseGuardian _ guardian => { s with pauseGuardian := some guardian }
  | .setBridge _ bridge => { s with bridge := some bridge }
  | .approve owner spender amount expirationLedger => { s with
      allowance := update s.allowance (owner, spender) amount
      allowanceExpiration := update s.allowanceExpiration (owner, spender) expirationLedger }
  | _ => s

theorem step_administered {c : Call} (hc : c.accounting = false)
    (h : step R (e, c) (s, w) = .ok (s', w')) : s' = s.administered e c := by
  cases c <;> simp only [Call.accounting, Bool.true_eq_false] at hc <;>
    simp only [step, within_eq_ok, initialise, State.setAdmin, State.proposeAdmin,
      State.acceptAdmin, State.cancelAdminProposal, State.setMinter, State.setRetirementRegistry,
      State.setRequireRegistry, State.pause, State.unpause, State.setMaxSupply,
      State.setPauseGuardian, State.setBridge, State.approve, bind_eq_ok, ensure_eq_ok,
      State.requireAdmin_eq_ok, State.requirePauser_eq_ok, Env.requireAuth_eq_ok, expect_eq_ok,
      exists_and_left, exists_const, pure_eq_ok, Option.isNone_some, Bool.false_eq_true,
      false_and] at h
  case acceptAdmin => obtain ⟨⟨-, _, -, -, _, -, -, rfl⟩, -⟩ := h; rfl
  case setMaxSupply => obtain ⟨⟨-, -, rfl⟩, -⟩ := h; rfl
  case approve => obtain ⟨⟨-, -, -, rfl⟩, -⟩ := h; rfl
  all_goals
    obtain ⟨⟨-, rfl⟩, -⟩ := h
    rfl

/-- Administrative calls leave the books alone, and only one of them changes the cap. -/
theorem step_administer {c : Call} (hc : c.accounting = false)
    (h : step R (e, c) (s, w) = .ok (s', w')) :
    s'.books = s.books ∧ s'.maxSupply = c.capAfter s.maxSupply ∧ s'.archive = s.archive := by
  rw [step_administered hc h]
  cases c <;> exact ⟨rfl, rfl, rfl⟩

theorem transfer_entry {sender recipient : Address} {amount : I128} (hne : sender ≠ recipient)
    (h : s.transfer e sender recipient amount = .ok s') : Entry s.books s'.books := by
  simp only [State.transfer, bind_eq_ok, ensure_eq_ok, exists_and_left, exists_const,
    State.requireNotPaused_eq_ok, Env.requireAuth_eq_ok] at h
  obtain ⟨h0, -, -, h⟩ := h
  exact moveBalance_entry h0 hne h

theorem transferFrom_entry {spender sender recipient : Address} {amount : I128}
    (hne : sender ≠ recipient) (h : s.transferFrom e spender sender recipient amount = .ok s') :
    Entry s.books s'.books := by
  simp only [State.transferFrom, bind_eq_ok, ensure_eq_ok, exists_and_left, exists_const,
    State.requireNotPaused_eq_ok, Env.requireAuth_eq_ok, pure_eq_ok] at h
  obtain ⟨h0, -, -, -, -, t, h, rfl⟩ := h
  have he := moveBalance_entry h0 hne h
  exact he

theorem step_entries {c : Call} (hb : s.books.Balanced) (hc : ¬ c.toSelf)
    (h : step R (e, c) (s, w) = .ok (s', w')) : Entries s.books s'.books := by
  by_cases ha : c.accounting = false
  · rw [(step_administer ha h).1]
  have single {b b' : Books Address} (he : Entry b b') : Entries b b' := .single he
  cases c <;> simp only [Call.accounting, not_true_eq_false, Bool.true_eq_false] at ha <;>
    simp only [step, within_eq_ok] at h
  case mintTo => exact single (mintTo_entry h.1)
  case batchMintTo => exact batchMintTo_entries h.1
  case burn => exact single (burn_entry hb.toBacked h.1)
  case burnWithReason => exact single (burnWithReason_entry hb.toBacked h.1)
  case transfer => exact single (transfer_entry hc h.1)
  case batchTransfer => exact batchTransfer_entries h.1
  case transferFrom => exact single (transferFrom_entry hc h.1)
  case retire =>
    simp only [bind_eq_ok, pure_eq_ok, Prod.mk.injEq] at h
    obtain ⟨⟨cert, t, v⟩, h, rfl, rfl⟩ := h
    exact single (retire_entry hb h)

theorem init_books {sw : State × W} (h : (machine contract R).init sw) :
    sw.1.books = ⟨fun _ => 0, 0, 0, 0, 0, 0⟩ := by
  obtain ⟨e, admin, name, symbol, projectId, methodology, h⟩ := h
  rw [(initialise_eq_ok.mp h).2]
  rfl

/-- No accepted call is a transfer of a holder to itself. -/
def noSelfTransfer : Guard (State × W) (Env contract × Call) := fun _ _ l => ¬ l.2.toSelf

theorem balanced_reach {sw : State × W} (h : (machine contract R).Reach noSelfTransfer sw) :
    sw.1.books.Balanced := by
  refine Machine.Reach.invariant (I := fun sw => sw.1.books.Balanced) ?_ ?_ h
  · intro sw h
    exact init_books h ▸ Books.balanced_empty
  · rintro tr ⟨s, w⟩ ⟨e, c⟩ ⟨s', w'⟩ hb hc h
    exact hb.entries (step_entries hb hc h)

end WaterCredits.Token
