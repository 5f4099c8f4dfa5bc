import WaterCredits.Bridge.Authority

/-! # Addresses in messages

The payload of an address is cut out of the serialisation of the host, and an
address is built back by serialising it by hand. Both directions lose nothing, so
a withdrawal mints to the address that its message was made for.
-/

namespace WaterCredits.Bridge

open Foundation Function

/-- The serialisation of addresses by the host, and its partial inverse. -/
structure Xdr where
  toXdr : Address → List (BitVec 8)
  fromXdr : List (BitVec 8) → Option Address

/-- The documented format, a value tag and a kind in front of the 32 bytes. -/
structure Xdr.Documented (x : Xdr) : Prop where
  account : ∀ key, x.toXdr (.account key) =
    bytes 4 (18 : BitVec (8 * 4)) ++ (bytes 4 (0 : BitVec (8 * 4)) ++
      (bytes 4 (0 : BitVec (8 * 4)) ++ bytes 32 key))
  contract : ∀ id, x.toXdr (.contract id) =
    bytes 4 (18 : BitVec (8 * 4)) ++ (bytes 4 (1 : BitVec (8 * 4)) ++ bytes 32 id)
  inverse : ∀ a, x.fromXdr (x.toXdr a) = some a

def copyBytes (xdr : List (BitVec 8)) (pos : ℕ) : ℕ → Result (List (BitVec 8))
  | 0 => return []
  | n + 1 => do
    let byte ← unwrap xdr[pos]?
    let rest ← copyBytes xdr (pos + 1) n
    return byte :: rest

namespace Xdr

def addressToBytes (x : Xdr) (address : Address) : Result (UInt32 × BytesN 32) := do
  let xdr := x.toXdr address
  if xdr.length = 40 then
    let payload ← copyBytes xdr 8 32
    return (1, ofBytes 32 payload)
  else if xdr.length = 44 then
    let payload ← copyBytes xdr 12 32
    return (0, ofBytes 32 payload)
  else throw (.message "invalid address length")

def bytesToAddress (x : Xdr) (addressType : UInt32) (payload : BytesN 32) : Result Address :=
  if addressType = 1 then
    unwrap (x.fromXdr ([0, 0, 0, 18, 0, 0, 0, 1] ++ bytes 32 payload))
  else if addressType = 0 then
    unwrap (x.fromXdr ([0, 0, 0, 18, 0, 0, 0, 0, 0, 0, 0, 0] ++ bytes 32 payload))
  else throw (.message "invalid address type")

variable {x : Xdr} {a b : Address} {addressType : UInt32} {payload : BytesN 32}

theorem copyBytes_append (pre l : List (BitVec 8)) :
    copyBytes (pre ++ l) pre.length l.length = .ok l := by
  induction l generalizing pre with
  | nil => rfl
  | cons byte l ih =>
    have hrest := ih (pre ++ [byte])
    rw [List.length_append, List.length_singleton, List.append_assoc,
      List.singleton_append] at hrest
    rw [List.length_cons, copyBytes, hrest, List.getElem?_append_right le_rfl, Nat.sub_self]
    rfl

theorem copyBytes_payload (pre : List (BitVec 8)) (payload : BytesN 32) :
    copyBytes (pre ++ bytes 32 payload) pre.length 32 = .ok (bytes 32 payload) := by
  have hcopy := copyBytes_append pre (bytes 32 payload)
  rwa [length_bytes] at hcopy

variable (h : x.Documented)

include h

namespace Documented

/-- The prefixes that the bridge writes are the tags of the host. -/
theorem toXdr_account (key : BytesN 32) :
    x.toXdr (.account key) = [0, 0, 0, 18, 0, 0, 0, 0, 0, 0, 0, 0] ++ bytes 32 key :=
  h.account key

@[inherit_doc toXdr_account]
theorem toXdr_contract (id : BytesN 32) :
    x.toXdr (.contract id) = [0, 0, 0, 18, 0, 0, 0, 1] ++ bytes 32 id :=
  h.contract id

theorem addressToBytes_eq (a : Address) :
    x.addressToBytes a = .ok (Bridge.addressToBytes a) := by
  cases a with
  | account key =>
    have hlength : (x.toXdr (.account key)).length = 44 := by
      rw [h.toXdr_account, List.length_append, length_bytes]
      rfl
    have hcopy : copyBytes (x.toXdr (.account key)) 12 32 = .ok (bytes 32 key) := by
      rw [h.toXdr_account]
      exact copyBytes_payload _ key
    simp only [addressToBytes, hlength, hcopy, ok_bind, ofBytes_bytes]
    rfl
  | contract id =>
    have hlength : (x.toXdr (.contract id)).length = 40 := by
      rw [h.toXdr_contract, List.length_append, length_bytes]
      rfl
    have hcopy : copyBytes (x.toXdr (.contract id)) 8 32 = .ok (bytes 32 id) := by
      rw [h.toXdr_contract]
      exact copyBytes_payload _ id
    simp only [addressToBytes, hlength, hcopy, ok_bind, ofBytes_bytes]
    rfl

theorem bytesToAddress_eq (addressType : UInt32) (payload : BytesN 32) :
    x.bytesToAddress addressType payload = Bridge.bytesToAddress addressType payload := by
  unfold bytesToAddress Bridge.bytesToAddress
  split
  · rw [← h.toXdr_contract, h.inverse]
    rfl
  · split
    · rw [← h.toXdr_account, h.inverse]
      rfl
    · rfl

end Documented

omit h

structure Lossless (x : Xdr) : Prop where
  decode_encode : ∀ a, ∃ addressType payload, x.addressToBytes a = .ok (addressType, payload) ∧
    x.bytesToAddress addressType payload = .ok a
  encode_decode : ∀ addressType payload, addressType = 0 ∨ addressType = 1 →
    ∃ a, x.bytesToAddress addressType payload = .ok a ∧
      x.addressToBytes a = .ok (addressType, payload)
  injective : ∀ a b, x.addressToBytes a = x.addressToBytes b → a = b

theorem addressToBytes_bytesToAddress (h : Bridge.bytesToAddress addressType payload = .ok a) :
    Bridge.addressToBytes a = (addressType, payload) := by
  unfold Bridge.bytesToAddress at h
  split at h
  · rename_i ht
    obtain rfl := pure_eq_ok.mp h
    rw [ht, Bridge.addressToBytes]
  · split at h
    · rename_i ht
      obtain rfl := pure_eq_ok.mp h
      rw [ht, Bridge.addressToBytes]
    · cases h

theorem Documented.lossless (h : x.Documented) : Lossless x := by
  constructor
  · intro a
    refine ⟨_, _, h.addressToBytes_eq a, ?_⟩
    rw [h.bytesToAddress_eq]
    exact bytesToAddress_addressToBytes a
  · intro addressType payload ht
    have hdecodes : ∃ a, Bridge.bytesToAddress addressType payload = .ok a := by
      rcases ht with rfl | rfl
      · exact ⟨_, rfl⟩
      · exact ⟨_, rfl⟩
    obtain ⟨a, ha⟩ := hdecodes
    refine ⟨a, (h.bytesToAddress_eq _ _).trans ha, ?_⟩
    rw [h.addressToBytes_eq, addressToBytes_bytesToAddress ha]
  · intro a b heq
    rw [h.addressToBytes_eq, h.addressToBytes_eq] at heq
    have hcode := Except.ok.inj heq
    have ha := bytesToAddress_addressToBytes a
    rw [hcode, bytesToAddress_addressToBytes] at ha
    exact (Except.ok.inj ha).symm

end Xdr

/--
The encoding of addresses loses nothing in either direction, and a withdrawal
mints to the only address whose encoding its message carries.
-/
theorem addresses_lossless {x : Xdr} (h : x.Documented) :
    x.Lossless ∧ ∀ {contract : Address} {W : Type} {o : Outside W} {e : Env contract}
      {s s' : State} {t : InboundTransfer} {signers : List (BytesN 32)} {sigs : List (BytesN 64)}
      {w w' : W}, s.withdraw o e t signers sigs w = .ok (s', w') →
        ∃ recipient, x.bytesToAddress t.recipientType t.recipient = .ok recipient ∧
          (∀ a, x.addressToBytes a = .ok (t.recipientType, t.recipient) ↔ a = recipient) ∧
          o.mintTo s.token (e.invoke s.token) contract recipient t.amount w = .ok w' := by
  refine ⟨h.lossless, ?_⟩
  intro contract W o e s s' t signers sigs w w' hw
  obtain ⟨-, -, -, -, -, ⟨recipient, hrecipient, hmint⟩, -⟩ := withdraw_cases hw
  have hencodes : x.addressToBytes recipient = .ok (t.recipientType, t.recipient) := by
    rw [h.addressToBytes_eq, Xdr.addressToBytes_bytesToAddress hrecipient]
  refine ⟨recipient, (h.bytesToAddress_eq _ _).trans hrecipient, fun a => ?_, hmint⟩
  constructor
  · exact fun ha => h.lossless.injective a recipient (ha.trans hencodes.symm)
  · rintro rfl
    exact hencodes

section Sample

/-- A host that reads back what it writes. -/
def plainXdr : Xdr where
  toXdr
    | .account key => [0, 0, 0, 18, 0, 0, 0, 0, 0, 0, 0, 0] ++ bytes 32 key
    | .contract id => [0, 0, 0, 18, 0, 0, 0, 1] ++ bytes 32 id
  fromXdr xdr :=
    if xdr.length = 44 then some (.account (ofBytes 32 (xdr.drop 12)))
    else if xdr.length = 40 then some (.contract (ofBytes 32 (xdr.drop 8)))
    else none

theorem plainXdr_documented : plainXdr.Documented where
  account _ := rfl
  contract _ := rfl
  inverse a := by
    cases a <;> simp [plainXdr]

abbrev courierEnv : Env harbor := .signed 0 0 (.account 8) account_ne_contract

/-- The units of the sample transfer are minted to the only address with its encoding. -/
theorem addresses_lossless_delivered : plainXdr.Lossless ∧ ∃ s' recipient,
    anchored.1.withdraw relayed courierEnv inbound [1, 2] (countersigned inbound) () =
      .ok (s', ()) ∧
      ∀ a, plainXdr.addressToBytes a = .ok (0, 1) ↔ a = recipient := by
  obtain ⟨hlossless, hmints⟩ := addresses_lossless plainXdr_documented
  have hok : (anchored.1.withdraw relayed courierEnv inbound [1, 2] (countersigned inbound)
      ()).isOk = true := by
    decide +kernel
  obtain ⟨⟨s', u⟩, hw⟩ := exists_of_isOk hok
  obtain ⟨recipient, -, hunique, -⟩ := hmints hw
  exact ⟨hlossless, s', recipient, hw, hunique⟩

end Sample

end WaterCredits.Bridge
