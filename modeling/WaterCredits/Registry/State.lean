import WaterCredits.Host

/-! # The storage of the retirement registry

One field per storage key, with the default that its reader falls back to. The
two secondary indexes list the records of a retiree and of a project by position.
-/

namespace WaterCredits.Registry

structure RetirementRecord where
  id : UInt64
  retiree : Address
  projectId : BytesN 32
  creditToken : Address
  amount : I128
  purpose : String
  metadataUri : String
  timestamp : UInt64
  deriving DecidableEq

structure State where
  admin : Address
  recordCount : UInt64 := 0
  totalRetired : I128 := 0
  record : UInt64 → Option RetirementRecord := fun _ => none
  authorizedCaller : Address → Bool := fun _ => false
  retireeIndex : Address × UInt64 → Option UInt64 := fun _ => none
  retireeCount : Address → UInt64 := fun _ => 0
  projectIndex : BytesN 32 × UInt64 → Option UInt64 := fun _ => none
  projectCount : BytesN 32 → UInt64 := fun _ => 0

end WaterCredits.Registry
