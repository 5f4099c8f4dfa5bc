import WaterCredits.Foundation.Ranks
import WaterCredits.Bridge.Authority

/-! # Relayers that can meet the threshold

A withdrawal needs signers in increasing order, as many as the threshold, so the
listed relayers can make one when they have that many distinct keys. The bridge
counts the entries of the list instead, and the other chain rejects duplicates.
-/

namespace WaterCredits.Evm

open Foundation Function

variable {h : Chain} {contract : Account} {s s' : State} {m : Message} {hash : Word}
  {relayers : List Account} {sigs : List (List (BitVec 8))} {signers : List Account}

theorem addRelayers_cases (hs : addRelayers relayers s = .ok s') :
    (∀ k, s'.isRelayer k = true ↔ s.isRelayer k = true ∨ k ∈ relayers) ∧ relayers.Nodup ∧
      (∀ k ∈ relayers, k ≠ 0 ∧ s.isRelayer k = false) ∧ s'.threshold = s.threshold := by
  induction relayers generalizing s with
  | nil =>
    obtain rfl := pure_eq_ok.mp hs
    simp
  | cons relayer rest ih =>
    simp only [addRelayers, bind_eq_ok, ensure_eq_ok] at hs
    obtain ⟨_, h0, _, hnew, hs⟩ := hs
    obtain ⟨hiff, hnodup, hfresh, hthreshold⟩ := ih hs
    simp only [update_apply] at hiff hfresh
    refine ⟨fun k => ?_, List.nodup_cons.mpr ⟨?_, hnodup⟩, ?_, hthreshold⟩
    · rw [hiff, List.mem_cons]
      by_cases hk : k = relayer
      · simp [hk]
      · simp [hk]
    · intro hmem
      have hfalse := (hfresh relayer hmem).2
      rw [if_pos rfl] at hfalse
      cases hfalse
    · refine List.forall_mem_cons.mpr ⟨⟨h0, hnew⟩, fun k hk => ⟨(hfresh k hk).1, ?_⟩⟩
      have hfalse := (hfresh k hk).2
      split at hfalse
      · cases hfalse
      · exact hfalse

theorem exists_signatures {α β : Type} {R : α → β → Prop} {l : List β}
    (h : ∀ b ∈ l, ∃ a, R a b) : ∃ l' : List α, List.Forall₂ R l' l := by
  induction l with
  | nil => exact ⟨[], .nil⟩
  | cons b l ih =>
    obtain ⟨⟨a, ha⟩, hl⟩ := List.forall_mem_cons.mp h
    obtain ⟨l', hl'⟩ := ih hl
    exact ⟨a :: l', .cons ha hl'⟩

theorem verifySignatures_ok {last : Account} {n : ℕ}
    (hall : List.Forall₂ (fun sig k => recoverSigner h hash sig = .ok k) sigs signers)
    (hsorted : (last :: signers).Pairwise (· < ·)) (hlisted : ∀ k ∈ signers, s.isRelayer k = true) :
    verifySignatures h s hash last sigs n = .ok (n + signers.length) := by
  induction hall generalizing last n with
  | nil => rfl
  | @cons sig k sigs signers hsig _ ih =>
    obtain ⟨hlt, hsorted⟩ := List.pairwise_cons.mp hsorted
    obtain ⟨hk, hlisted⟩ := List.forall_mem_cons.mp hlisted
    simp only [verifySignatures, bind_eq_ok, ensure_eq_ok]
    refine ⟨k, hsig, (), hk, (), hlt k List.mem_cons_self, ?_⟩
    rw [ih hsorted hlisted, List.length_cons, Nat.add_assoc, Nat.add_comm 1]

/-- Signers that the checks of a withdrawal accept. -/
structure Accepts (s : State) (signers : List Account) : Prop where
  quorum : s.threshold.toNat ≤ signers.length
  sorted : ((0 : Account) :: signers).Pairwise (· < ·)
  listed : ∀ k ∈ signers, s.isRelayer k = true

theorem exists_signers {name symbol : String} {admin governance : Account} {threshold : Word}
    (hs : deploy name symbol admin governance relayers threshold = .ok s) :
    ∃ signers, Accepts s signers := by
  simp only [deploy, bind_eq_ok, ensure_eq_ok] at hs
  obtain ⟨_, ⟨-, hle⟩, hs⟩ := hs
  obtain ⟨hiff, hnodup, hfresh, hthreshold⟩ := addRelayers_cases hs
  have hdistinct : threshold.toNat ≤ relayers.dedup.length := by rwa [hnodup.dedup]
  obtain ⟨signers, hquorum, hsorted, hsub⟩ :=
    (exists_increasing_iff fun _ _ => BitVec.eq_of_toNat_eq).mpr hdistinct
  refine ⟨signers, by rwa [hthreshold], List.pairwise_cons.mpr ⟨fun k hk => ?_, hsorted⟩,
    fun k hk => (hiff k).mpr (.inr (hsub hk))⟩
  have hne := (hfresh k (hsub hk)).1
  rw [BitVec.lt_def]
  exact Nat.pos_of_ne_zero fun hzero => hne (BitVec.eq_of_toNat_eq hzero)

/-- A message that can be withdrawn once enough relayers sign it, which each of them can do. -/
structure Ready (h : Chain) (contract : Account) (s : State) (m : Message) : Prop where
  unpaused : s.paused = false
  destination : m.destinationChain = 2
  positive : 0 < m.amount
  recipient : m.recipient ≠ 0
  fresh : s.processedMessages (msgHash h contract m) = false
  signable : ∀ k, s.isRelayer k = true →
    ∃ sig, recoverSigner h (signedHash h contract m) sig = .ok k
  balance : (s.balanceOf m.recipient).toNat + m.amount.toNat < 2 ^ 256
  supply : s.totalSupply.toNat + m.amount.toNat < 2 ^ 256

theorem withdraw_ok (hm : Ready h contract s m) (hs : Accepts s signers) :
    ∃ sigs s', s.withdraw h contract m sigs = .ok s' := by
  obtain ⟨sigs, hall⟩ := exists_signatures fun k hk => hm.signable k (hs.listed k hk)
  have hquorum : s.threshold.toNat ≤ sigs.length := by
    rw [hall.length_eq]
    exact hs.quorum
  have hword : ∀ n, n < 2 ^ 256 → ∃ c : Word, c.toNat = n := fun n hn =>
    ⟨.ofNat _ n, by rw [BitVec.toNat_ofNat, Nat.mod_eq_of_lt hn]⟩
  obtain ⟨credited, hcredited⟩ := hword _ hm.balance
  obtain ⟨total, htotal⟩ := hword _ hm.supply
  simp only [State.withdraw, bind_eq_ok, ensure_eq_ok, State.whenNotPaused_eq_ok,
    checkedAdd_eq_ok, pure_eq_ok]
  refine ⟨sigs, _, (), hm.unpaused, (), hm.destination, (), hm.positive, (), hm.recipient, (),
    hm.fresh, (), hquorum, _, verifySignatures_ok hall hs.sorted hs.listed, (), ?_, credited,
    hcredited, total, htotal, rfl⟩
  rw [Nat.zero_add]
  exact hs.quorum

end WaterCredits.Evm

namespace WaterCredits.Bridge

open Foundation Function

variable {contract : Address} {W : Type} {o : Outside W} {e : Env contract} {s s₀ s' : State}
  {w w' : W} {t : InboundTransfer} {relayers signers : List (BytesN 32)} {threshold : UInt32}
  {sigs : List (BytesN 64)}

theorem verifySigners_ok {message : List (BitVec 8)} {last : Option (BytesN 32)} {n : ℕ}
    (hall : List.Forall₂ (fun sig k => o.ed25519Verify k message sig = .ok ()) sigs signers)
    (hsorted : (last.toList ++ signers).Pairwise (· < ·)) (hlisted : ∀ k ∈ signers, k ∈ relayers) :
    verifySigners o relayers message last (signers.zip sigs) n = .ok (n + signers.length) := by
  induction hall generalizing last n with
  | nil => rfl
  | @cons sig k sigs signers hsig _ ih =>
    obtain ⟨hk, hlisted⟩ := List.forall_mem_cons.mp hlisted
    have hlast : last.all (· < k) = true := by
      cases last with
      | none => rfl
      | some l => simpa using (List.pairwise_cons.mp hsorted).1 k List.mem_cons_self
    have hrest : ((some k).toList ++ signers).Pairwise (· < ·) :=
      hsorted.sublist (List.sublist_append_right ..)
    simp only [List.zip_cons_cons, verifySigners, bind_eq_ok, ensure_eq_ok]
    refine ⟨(), hlast, (), hk, (), hsig, ?_⟩
    rw [ih hrest hlisted, List.length_cons, Nat.add_assoc, Nat.add_comm 1]

/-- Signers that the checks of a withdrawal accept. -/
structure Accepts (s : State) (signers : List (BytesN 32)) : Prop where
  quorum : s.threshold.toNat ≤ signers.length
  sorted : signers.Pairwise (· < ·)
  listed : ∀ k ∈ signers, k ∈ s.relayers

/-- Such signers exist exactly when the distinct relayers reach the threshold. -/
theorem exists_signers_iff :
    (∃ signers, Accepts s signers) ↔ s.threshold.toNat ≤ s.relayers.dedup.length := by
  rw [← exists_increasing_iff fun _ _ => BitVec.eq_of_toNat_eq]
  constructor
  · rintro ⟨signers, h⟩
    exact ⟨signers, h.quorum, h.sorted, fun k hk => h.listed k hk⟩
  · rintro ⟨signers, hquorum, hsorted, hsub⟩
    exact ⟨signers, hquorum, hsorted, fun k hk => hsub hk⟩

/-- A transfer that can be withdrawn once enough relayers sign it, which each of them can do. -/
structure Ready (o : Outside W) (e : Env contract) (s : State) (t : InboundTransfer) (w : W) :
    Prop where
  unpaused : s.paused = false
  destination : t.destinationChain = 1
  token : t.tokenAddress = s.evmToken
  fresh : s.processedMessages (messageHash o t) = false
  signable : ∀ k ∈ s.relayers, ∃ sig, o.ed25519Verify k (o.toXdr t) sig = .ok ()
  mints : ∃ recipient w', bytesToAddress t.recipientType t.recipient = .ok recipient ∧
    o.mintTo s.token (e.invoke s.token) contract recipient t.amount w = .ok w'

theorem accepts_of_withdraw (h : s.withdraw o e t signers sigs w = .ok (s', w')) :
    Accepts s signers := by
  simp only [State.withdraw, bind_eq_ok, ensure_eq_ok] at h
  obtain ⟨_, -, _, -, _, -, _, -, _, hlength, _, hquorum, n, hv, -⟩ := h
  obtain ⟨-, -, hsorted, hlisted⟩ := verifySigners_eq_ok hlength hv
  exact ⟨hquorum, hsorted, hlisted⟩

theorem withdraw_ok (ht : Ready o e s t w) (hs : Accepts s signers) :
    ∃ sigs s' w', s.withdraw o e t signers sigs w = .ok (s', w') := by
  obtain ⟨sigs, hall⟩ := Evm.exists_signatures fun k hk => ht.signable k (hs.listed k hk)
  obtain ⟨recipient, w', hrecipient, hmint⟩ := ht.mints
  simp only [State.withdraw, bind_eq_ok, ensure_eq_ok, pure_eq_ok]
  refine ⟨sigs, _, w', (), ht.unpaused, (), ht.destination, (), ht.token, (), ht.fresh, (),
    hall.length_eq.symm, (), hs.quorum, _, verifySigners_ok hall hs.sorted hs.listed, (), ?_,
    recipient, hrecipient, w', hmint, rfl⟩
  rw [Nat.zero_add]
  exact hs.quorum

def Configures (relayers : List (BytesN 32)) (threshold : UInt32) (s : State) : Prop :=
  (∃ admin token evmToken governance,
    Bridge.initialise none admin token evmToken governance relayers threshold = .ok s) ∨
    ∃ contract, ∃ e : Env contract, ∃ s₀ admin,
      State.updateRelayers e s₀ admin relayers threshold = .ok s

theorem Configures.settings (h : Configures relayers threshold s) :
    s.relayers = relayers ∧ s.threshold = threshold := by
  rcases h with ⟨admin, token, evmToken, governance, h⟩ | ⟨contract, e, s₀, admin, h⟩
  · simp only [Bridge.initialise, bind_eq_ok, pure_eq_ok] at h
    obtain ⟨_, -, _, -, rfl⟩ := h
    exact ⟨rfl, rfl⟩
  · simp only [State.updateRelayers, bind_eq_ok, pure_eq_ok] at h
    obtain ⟨_, -, _, -, rfl⟩ := h
    exact ⟨rfl, rfl⟩

/-- Some signers pass the checks of a withdrawal, and ready transfers can be withdrawn. -/
structure CanWithdraw (s : State) : Prop where
  signers : ∃ signers, Accepts s signers
  ready : ∀ (contract : Address) (W : Type) (o : Outside W) (e : Env contract) t w,
    Ready o e s t w → ∃ signers sigs s' w', s.withdraw o e t signers sigs w = .ok (s', w')

theorem canWithdraw_iff : CanWithdraw s ↔ s.threshold.toNat ≤ s.relayers.dedup.length := by
  rw [← exists_signers_iff]
  constructor
  · exact fun h => h.signers
  · rintro ⟨signers, hs⟩
    exact ⟨⟨signers, hs⟩, fun contract W o e t w ht => ⟨signers, withdraw_ok ht hs⟩⟩

/--
Under an accepted configuration withdrawals are possible exactly when the
distinct relayers reach the threshold, and otherwise none goes through. On the
other chain they are possible under every accepted configuration.
-/
theorem relayers_satisfiable_iff (h : Configures relayers threshold s₀) :
    (∀ s : State, s.relayers = s₀.relayers → s.threshold = s₀.threshold →
      (CanWithdraw s ↔ threshold.toNat ≤ relayers.dedup.length) ∧
        (¬ threshold.toNat ≤ relayers.dedup.length →
          ∀ (contract : Address) (W : Type) (o : Outside W) (e : Env contract) t signers sigs w x,
            s.withdraw o e t signers sigs w ≠ .ok x)) ∧
      ∀ name symbol admin governance accounts quorum s', Evm.deploy name symbol admin governance
        accounts quorum = .ok s' → ∀ s : Evm.State, s.isRelayer = s'.isRelayer →
          s.threshold = s'.threshold → (∃ signers, Evm.Accepts s signers) ∧
            ∀ chain contract m, Evm.Ready chain contract s m →
              ∃ sigs s'', s.withdraw chain contract m sigs = .ok s'' := by
  obtain ⟨hrelayers, hthreshold⟩ := h.settings
  constructor
  · intro s hr ht
    have hiff : CanWithdraw s ↔ threshold.toNat ≤ relayers.dedup.length := by
      rw [canWithdraw_iff, hr, ht, hrelayers, hthreshold]
    refine ⟨hiff, fun hno contract W o e t signers sigs w x hx => hno (hiff.mp ?_)⟩
    have hsigners : ∃ signers, Accepts s signers := ⟨signers, accepts_of_withdraw hx⟩
    exact canWithdraw_iff.mpr (exists_signers_iff.mp hsigners)
  · intro name symbol admin governance accounts quorum s' hdeploy s hr ht
    obtain ⟨signers, hs'⟩ := Evm.exists_signers hdeploy
    have hs : Evm.Accepts s signers := ⟨ht ▸ hs'.quorum, hs'.sorted, hr ▸ hs'.listed⟩
    exact ⟨⟨signers, hs⟩, fun chain contract m hm => Evm.withdraw_ok hm hs⟩

section Sample

/-- A relayer that is listed twice counts twice, but signs once. -/
theorem duplicate_relayer_accepted : ∃ s,
    Bridge.initialise none (.account 0) (.contract 1) 9 (.contract 3) [1, 1] 2 = .ok s ∧
      ¬ ∃ signers, Accepts s signers := by
  refine ⟨_, rfl, fun h => ?_⟩
  exact absurd (exists_signers_iff.mp h) (by decide)

/-- Two relayers reach the threshold of two. -/
theorem relayers_satisfiable_iff_distinct : ∃ s,
    Bridge.initialise none (.account 0) (.contract 1) 9 (.contract 3) [2, 1] 2 = .ok s ∧
      CanWithdraw s := by
  obtain ⟨s, hs⟩ : ∃ s, Bridge.initialise none (.account 0) (.contract 1) 9 (.contract 3)
      [2, 1] 2 = .ok s := ⟨_, rfl⟩
  have hconfigures : Configures [2, 1] 2 s := .inl ⟨_, _, _, _, hs⟩
  exact ⟨s, hs, ((relayers_satisfiable_iff hconfigures).1 s rfl rfl).1.mpr (by decide)⟩

end Sample

end WaterCredits.Bridge
