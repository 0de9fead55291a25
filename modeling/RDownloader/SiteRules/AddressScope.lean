import RDownloader.Auth.Throttle

/-!
# How far from the internet an address is (`rd-core/src/address.rs`)

An IPv4 address that an IPv6 address carries is judged as well, and the stricter judgement counts.
-/

namespace RDownloader

/-- From the most to the least reachable. -/
inductive AddressScope
  | publicScope
  | privateScope
  | localScope
  deriving DecidableEq, Repr

/-- The stricter of two judgements. -/
def AddressScope.max : AddressScope → AddressScope → AddressScope
  | localScope, _ | _, localScope => localScope
  | privateScope, _ | _, privateScope => privateScope
  | publicScope, publicScope => publicScope

namespace IpAddr

def octet (address : BitVec 32) (index : Nat) : Nat := address.toNat / 2 ^ (8 * (3 - index)) % 2 ^ 8

def segment (address : BitVec 128) (index : Nat) : Nat :=
  address.toNat / 2 ^ (16 * (7 - index)) % 2 ^ 16

def scopeV4 (address : BitVec 32) : AddressScope :=
  let a := octet address 0
  let b := octet address 1
  let c := octet address 2
  -- Loopback, link-local, multicast and broadcast; the unspecified address is in 0.0.0.0/8.
  if a = 127 ∨ (a = 169 ∧ b = 254) ∨ (224 ≤ a ∧ a ≤ 239) ∨ address = BitVec.allOnes 32 ∨
      a = 0 ∨ (a = 192 ∧ b = 0 ∧ c = 0) ∨ (a = 198 ∧ (b = 18 ∨ b = 19)) ∨ 240 ≤ a then
    .localScope
  else if a = 10 ∨ (a = 172 ∧ 16 ≤ b ∧ b ≤ 31) ∨ (a = 192 ∧ b = 168) ∨
      (a = 100 ∧ 64 ≤ b ∧ b < 128) then
    .privateScope
  else .publicScope

def scopeV6 (address : BitVec 128) : AddressScope :=
  let s := segment address
  -- `::`, `::1` and multicast, link local, discard-only, NAT64 with a network-specific prefix,
  -- Teredo, benchmarking, the two ORCHID blocks and the two documentation blocks.
  if address.toNat ≤ 1 ∨ s 0 / 2 ^ 8 = 0xff ∨ s 0 &&& 0xffc0 = 0xfe80 ∨
      (s 0 = 0x0100 ∧ s 1 = 0 ∧ s 2 = 0 ∧ s 3 = 0) ∨
      (s 0 = 0x0064 ∧ s 1 = 0xff9b ∧ s 2 = 0x0001) ∨ (s 0 = 0x2001 ∧ s 1 = 0) ∨
      (s 0 = 0x2001 ∧ s 1 = 0x0002 ∧ s 2 = 0) ∨
      (s 0 = 0x2001 ∧ (s 1 &&& 0xfff0 = 0x0010 ∨ s 1 &&& 0xfff0 = 0x0020)) ∨
      (s 0 = 0x2001 ∧ s 1 = 0x0db8) ∨ s 0 &&& 0xfff0 = 0x3ff0 then
    .localScope
  else if s 0 &&& 0xfe00 = 0xfc00 ∨ s 0 &&& 0xffc0 = 0xfec0 then .privateScope
  else .publicScope

/-- The IPv4 address an IPv6 address carries where the address itself says so: IPv4-mapped, 6to4,
NAT64 with the well-known prefix, ISATAP and IPv4-compatible. -/
def embeddedV4 (address : BitVec 128) : Option (BitVec 32) :=
  let s := segment address
  let last : BitVec 32 := address.setWidth 32
  if address.toNat / 2 ^ 32 = 0xffff then some last
  else if s 0 = 0x2002 then some ((address >>> 80).setWidth 32)
  else if s 0 = 0x0064 ∧ s 1 = 0xff9b ∧ [2, 3, 4, 5].all (s · = 0) then some last
  else if (s 4 = 0 ∨ s 4 = 0x0200) ∧ s 5 = 0x5efe then some last
  else if [0, 1, 2, 3, 4, 5].all (s · = 0) ∧ ¬(s 6 = 0 ∧ s 7 ≤ 1) then some last
  else none

/-- Which scope an address belongs to. -/
def addressScope : IpAddr → AddressScope
  | v4 address => scopeV4 address
  | v6 address =>
    match embeddedV4 address with
    | none => scopeV6 address
    | some inner => (scopeV6 address).max (scopeV4 inner)

/-- Whether an address is one a rule may be pointed at. -/
def isPublic (address : IpAddr) : Bool := address.addressScope = .publicScope

-- `::ffff:10.1.2.3`, 6to4 around 10.0.0.1, and 6to4 around 93.184.216.34.
example : (v6 0xffff0a010203).isPublic = false := by decide
example : (v6 0x20020a00000100000000000000000000).isPublic = false := by decide
example : (v6 0x20025db8d82200000000000000000000).isPublic = true := by decide

end IpAddr

end RDownloader
