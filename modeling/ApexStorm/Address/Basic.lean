import ApexStorm.ByteArray.Codec

/-!
# Socket addresses

Ports and IPv4 addresses are stored in network byte order, so that what a field holds
as a number depends on the byte order of the host. An IPv6 address is an array of 16
bytes.
-/

namespace ApexStorm
open Lib.Radix

namespace Address

def byteswap {w : ℕ} (value : BitVec w) : BitVec w :=
  .ofNat w (ByteArray.byteswap (w / 8) value.toNat)

def byteswapOnLittleEndian {w : ℕ} (host : Endian) (t : BitVec w) : BitVec w :=
  match host with
  | .little => byteswap t
  | .big => t

/-- `CreateMask<T>(bits)` for an unsigned type of `w` bits. The shift is counted in `size_t` and
done in `int`; it is undefined when the count is not below 32, and so is the subtraction when it
overflows. -/
def createMask (w : ℕ) (bits : UInt32) : Option (BitVec w) :=
  let count := (w + 2 ^ 64 - bits.toNat) % 2 ^ 64
  if count < 32 then
    let mask := (2 ^ count : ℤ).bmod (2 ^ 32) - 1
    if -2 ^ 31 ≤ mask then some (.ofInt w mask) else none
  else none

def AF_INET : BitVec 16 := 2
def AF_INET6 : BitVec 16 := 10

def origin (host : Endian) (w i : ℕ) : ℕ :=
  match host with
  | .little => 8 * (w / 8 - 1 - i / 8) + i % 8
  | .big => i

section Swap
variable {w i : ℕ} (host : Endian) (x y : BitVec w)

theorem origin_lt (hw : w % 8 = 0) (hi : i < w) : origin host w i < w := by
  cases host with
  | little =>
    rw [origin]
    omega
  | big => exact hi

theorem origin_origin (hw : w % 8 = 0) (hi : i < w) : origin host w (origin host w i) = i := by
  cases host with
  | little =>
    rw [origin, origin]
    omega
  | big => rfl

theorem getLsbD_swap (hw : w % 8 = 0) (hi : i < w) :
    (byteswapOnLittleEndian host x).getLsbD i = x.getLsbD (origin host w i) := by
  cases host with
  | little =>
    rw [byteswapOnLittleEndian, byteswap, BitVec.getLsbD_ofNat, ByteArray.byteswap,
      testBit_ofLeBytes_reverse _ (by omega), BitVec.testBit_toNat]
    simp [hi, origin]
  | big => rfl

theorem swap_swap (hw : w % 8 = 0) :
    byteswapOnLittleEndian host (byteswapOnLittleEndian host x) = x := by
  apply BitVec.eq_of_getLsbD_eq
  intro i hi
  rw [getLsbD_swap _ _ hw hi, getLsbD_swap _ _ hw (origin_lt host hw hi), origin_origin host hw hi]

theorem swap_or (hw : w % 8 = 0) : byteswapOnLittleEndian host (x ||| y) =
    byteswapOnLittleEndian host x ||| byteswapOnLittleEndian host y := by
  apply BitVec.eq_of_getLsbD_eq
  intro i hi
  simp only [BitVec.getLsbD_or, getLsbD_swap _ _ hw hi]

theorem swap_and (hw : w % 8 = 0) : byteswapOnLittleEndian host (x &&& y) =
    byteswapOnLittleEndian host x &&& byteswapOnLittleEndian host y := by
  apply BitVec.eq_of_getLsbD_eq
  intro i hi
  simp only [BitVec.getLsbD_and, getLsbD_swap _ _ hw hi]

theorem swap_not (hw : w % 8 = 0) :
    byteswapOnLittleEndian host (~~~x) = ~~~byteswapOnLittleEndian host x := by
  apply BitVec.eq_of_getLsbD_eq
  intro i hi
  simp only [BitVec.getLsbD_not, getLsbD_swap _ _ hw hi, hi, origin_lt host hw hi, decide_true,
    Bool.true_and]

theorem swap_ofMemory {bytes : List UInt8} (hw : w = 8 * bytes.length) :
    byteswapOnLittleEndian host (.ofNat w (ByteArray.ofMemory host bytes)) =
      .ofNat w (ofLeBytes bytes.reverse) := by
  cases host with
  | little =>
    have hpow : 2 ^ w = 256 ^ bytes.length := by
      rw [hw, pow_mul]
      rfl
    have hlt : ofLeBytes bytes < 2 ^ w := hpow ▸ ofLeBytes_lt bytes
    have hdiv : w / 8 = bytes.length := by omega
    rw [byteswapOnLittleEndian, ByteArray.ofMemory, byteswap, BitVec.toNat_ofNat,
      Nat.mod_eq_of_lt hlt, ByteArray.byteswap, hdiv, leBytes_ofLeBytes]
  | big => rfl

theorem swap_zero (hw : w % 8 = 0) : byteswapOnLittleEndian host (0 : BitVec w) = 0 := by
  apply BitVec.eq_of_getLsbD_eq
  intro i hi
  rw [getLsbD_swap _ _ hw hi]
  simp

end Swap

structure SockaddrIn where
  sinFamily : BitVec 16
  sinPort : BitVec 16
  sAddr : BitVec 32
  sinZero : Vector UInt8 8
  deriving DecidableEq, Repr

structure SockaddrIn6 where
  sin6Family : BitVec 16
  sin6Port : BitVec 16
  sin6Flowinfo : BitVec 32
  s6Addr : Vector UInt8 16
  sin6ScopeId : BitVec 32
  deriving DecidableEq, Repr

def IPv4Address.new (host : Endian) (address : BitVec 32) (port : BitVec 16) : SockaddrIn where
  sinFamily := AF_INET
  sinPort := byteswapOnLittleEndian host port
  sAddr := byteswapOnLittleEndian host address
  sinZero := .replicate 8 0

def IPv6Address.new (host : Endian) (address : Vector UInt8 16) (port : BitVec 16) :
    SockaddrIn6 where
  sin6Family := AF_INET6
  sin6Port := byteswapOnLittleEndian host port
  sin6Flowinfo := 0
  s6Addr := address
  sin6ScopeId := 0

end Address
end ApexStorm
