import Mathlib.Tactic.Common

/-!
# Internet addresses

`std::net` addresses and the filter `is_disallowed` of `fetch.rs`.
-/

namespace Scriptorium

structure Ipv4Addr where
  a : UInt8
  b : UInt8
  c : UInt8
  d : UInt8
deriving DecidableEq, Repr

structure Ipv6Addr where
  s0 : UInt16
  s1 : UInt16
  s2 : UInt16
  s3 : UInt16
  s4 : UInt16
  s5 : UInt16
  s6 : UInt16
  s7 : UInt16
deriving DecidableEq, Repr

inductive IpAddr where
  | v4 (ip : Ipv4Addr)
  | v6 (ip : Ipv6Addr)
deriving DecidableEq, Repr

namespace Ipv4Addr

variable (ip : Ipv4Addr)

def isLoopback : Bool := ip.a == 127

def isPrivate : Bool :=
  ip.a == 10 || (ip.a == 172 && 16 ≤ ip.b && ip.b ≤ 31) || (ip.a == 192 && ip.b == 168)

def isLinkLocal : Bool := ip.a == 169 && ip.b == 254

def isBroadcast : Bool := ip == ⟨255, 255, 255, 255⟩

def isDocumentation : Bool :=
  (ip.a == 192 && ip.b == 0 && ip.c == 2) || (ip.a == 198 && ip.b == 51 && ip.c == 100) ||
    (ip.a == 203 && ip.b == 0 && ip.c == 113)

def isUnspecified : Bool := ip == ⟨0, 0, 0, 0⟩

end Ipv4Addr

namespace Ipv6Addr

variable (ip : Ipv6Addr)

def isLoopback : Bool := ip == ⟨0, 0, 0, 0, 0, 0, 0, 1⟩

def isUnspecified : Bool := ip == ⟨0, 0, 0, 0, 0, 0, 0, 0⟩

def isMulticast : Bool := ip.s0 &&& 0xff00 == 0xff00

end Ipv6Addr

/-! ### Display -/

def Ipv4Addr.display (ip : Ipv4Addr) : String :=
  ".".intercalate ([ip.a, ip.b, ip.c, ip.d].map fun octet => toString octet.toNat)

/-- The first longest run of zeros from `index` on, as its start and length. -/
def longestZeroRun : Nat → List Nat → Nat × Nat
  | _, [] => (0, 0)
  | index, s :: rest =>
    let run := ((s :: rest).takeWhile (· == 0)).length
    let later := longestZeroRun (index + 1) rest
    if later.2 > run then later else (index, run)

def segmentsText (segments : List Nat) : String :=
  ":".intercalate (segments.map fun s => String.ofList (Nat.toDigits 16 s))

def Ipv6Addr.segments (ip : Ipv6Addr) : List Nat :=
  [ip.s0, ip.s1, ip.s2, ip.s3, ip.s4, ip.s5, ip.s6, ip.s7].map UInt16.toNat

/-- A mapped IPv4 address is printed as one; otherwise the longest run of at least
    two zero segments is left out. -/
def Ipv6Addr.display (ip : Ipv6Addr) : String :=
  match ip.segments with
  | [0, 0, 0, 0, 0, 0xffff, ab, cd] =>
    "::ffff:" ++ ".".intercalate
      ([ab / 256, ab % 256, cd / 256, cd % 256].map fun octet => toString octet)
  | segments =>
    let (start, length) := longestZeroRun 0 segments
    if length > 1 then
      segmentsText (segments.take start) ++ "::" ++ segmentsText (segments.drop (start + length))
    else segmentsText segments

def IpAddr.display : IpAddr → String
  | .v4 ip => ip.display
  | .v6 ip => ip.display

/-! ### The filter -/

/-- `is_disallowed`. -/
def isDisallowed : IpAddr → Bool
  | .v4 ip =>
    ip.isLoopback || ip.isPrivate || ip.isLinkLocal || ip.isBroadcast || ip.isDocumentation ||
      ip.isUnspecified
      -- the carrier-grade NAT range 100.64.0.0/10
      || (ip.a == 100 && ip.b &&& 0xc0 == 64)
      -- "this network" 0.0.0.0/8
      || ip.a == 0
  | .v6 ip =>
    ip.isLoopback || ip.isUnspecified || ip.isMulticast
      -- unique local fc00::/7
      || ip.s0 &&& 0xfe00 == 0xfc00
      -- link-local fe80::/10
      || ip.s0 &&& 0xffc0 == 0xfe80

end Scriptorium
