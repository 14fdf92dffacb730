import ApexStorm.Address.Text
import ApexStorm.Lib.Lexicographic

/-!
# Addresses as keys

Two addresses are compared by the bytes of their structures, as many as both have, and
then by their lengths. Whatever their kinds are, this is the lexicographic order of the
bytes, and two addresses are equal if they have the same ones.
-/

namespace ApexStorm
open Lib.Lexicographic
open ApexStorm.ByteArray (toMemory toMemory_length)

namespace Address

structure SockaddrUn where
  sunFamily : BitVec 16
  sunPath : Vector UInt8 108
  deriving DecidableEq, Repr

def SockaddrUn.size : ℕ := 110

structure UnixAddress where
  addr : SockaddrUn
  length : ℕ
  within : length ≤ SockaddrUn.size
  deriving DecidableEq, Repr

structure Sockaddr where
  saFamily : BitVec 16
  saData : Vector UInt8 14
  deriving DecidableEq, Repr

end Address

inductive Address
  | ipv4 (m : Address.SockaddrIn)
  | ipv6 (m : Address.SockaddrIn6)
  | unix (m : Address.UnixAddress)
  | unknown (m : Address.Sockaddr)
  deriving DecidableEq, Repr

namespace Address

def UnixAddress.getAddr (host : Endian) (m : UnixAddress) : List UInt8 :=
  (toMemory host 2 m.addr.sunFamily.toNat ++ m.addr.sunPath.toList).take m.length

def Sockaddr.getAddr (host : Endian) (m : Sockaddr) : List UInt8 :=
  toMemory host 2 m.saFamily.toNat ++ m.saData.toList

def AF_UNIX : BitVec 16 := 1
def MAX_PATH_LEN : ℕ := 107

def UnixAddress.new : UnixAddress := ⟨⟨AF_UNIX, .replicate 108 0⟩, 2 + MAX_PATH_LEN, by decide⟩

/-- The bytes that are copied: the path and the zero behind it, which a path that begins with a
zero does without. -/
def UnixAddress.pathBytes (path : List UInt8) : List UInt8 :=
  if path.head? = some 0 then path else path ++ [0]

def UnixAddress.ofPath (path : List UInt8) : Except String UnixAddress :=
  if h : (pathBytes path).length > 108 then .error "path too long"
  else .ok
    { addr := ⟨AF_UNIX, .ofFn fun i => (pathBytes path)[i.val]?.getD 0⟩
      length := (pathBytes path).length + 2
      within := by
        rw [SockaddrUn.size]
        omega }

def UnixAddress.setAddrLen (m : UnixAddress) (len : ℕ) (h : len ≤ SockaddrUn.size) : UnixAddress :=
  { m with length := len, within := h }

def Sockaddr.new (family : BitVec 16) : Sockaddr := ⟨family, .replicate 14 0⟩

def getAddrLen : Address → ℕ
  | ipv4 _ => 16
  | ipv6 _ => 28
  | unix m => m.length
  | unknown _ => 16

def getAddr (host : Endian) : Address → List UInt8
  | ipv4 m => m.getAddr host
  | ipv6 m => m.getAddr host
  | unix m => m.getAddr host
  | unknown m => m.getAddr host

def memcmp (x y : List UInt8) (n : ℕ) : Ordering :=
  compareFirst n (x.map UInt8.toNat) (y.map UInt8.toNat)

def operatorLt (x y : List UInt8) : Bool :=
  let minlen := min x.length y.length
  match memcmp x y minlen with
  | .lt => true
  | .gt => false
  | .eq => x.length < y.length

theorem length_getAddr (host : Endian) (x : Address) : (x.getAddr host).length = x.getAddrLen := by
  cases x with
  | ipv4 m => simp [getAddr, SockaddrIn.getAddr, getAddrLen, toMemory_length]
  | ipv6 m => simp [getAddr, SockaddrIn6.getAddr, getAddrLen, toMemory_length]
  | unix m =>
    have hwithin : m.length ≤ 110 := m.within
    simpa [getAddr, UnixAddress.getAddr, getAddrLen, toMemory_length] using hwithin
  | unknown m => simp [getAddr, Sockaddr.getAddr, getAddrLen, toMemory_length]

section Order
variable {x y z : List UInt8}

theorem operatorEq_iff : operatorEq x y = true ↔ x = y := by
  constructor
  · intro h
    obtain ⟨hlen, hbytes⟩ := Bool.and_eq_true_iff.mp h
    rw [beq_iff_eq] at hlen hbytes
    rw [hbytes, hlen, List.take_length]
  · rintro rfl
    exact operatorEq_self x

theorem operatorLt_iff : operatorLt x y = true ↔ x.map UInt8.toNat < y.map UInt8.toNat := by
  rw [← less_iff_lt, less, List.length_map, List.length_map, operatorLt, memcmp]
  cases compareFirst (min x.length y.length) (x.map UInt8.toNat) (y.map UInt8.toNat) <;> rfl

theorem operatorLt_self (x : List UInt8) : operatorLt x x = false :=
  Bool.eq_false_iff.mpr fun h => lt_irrefl _ (operatorLt_iff.mp h)

theorem operatorLt_asymm (h : operatorLt x y = true) : operatorLt y x = false :=
  Bool.eq_false_iff.mpr fun h' => lt_asymm (operatorLt_iff.mp h) (operatorLt_iff.mp h')

theorem operatorEq_of_lt (h : operatorLt x y = true) : operatorEq x y = false := by
  rw [Bool.eq_false_iff, ne_eq, operatorEq_iff]
  rintro rfl
  rw [operatorLt_self] at h
  cases h

theorem operatorEq_comm (x y : List UInt8) : operatorEq x y = operatorEq y x := by
  rw [Bool.eq_iff_iff, operatorEq_iff, operatorEq_iff, eq_comm]

theorem count_compare (x y : List UInt8) :
    [operatorLt x y, operatorLt y x, operatorEq x y].count true = 1 := by
  rcases lt_trichotomy (x.map UInt8.toNat) (y.map UInt8.toNat) with h | h | h
  · have hlt := operatorLt_iff.mpr h
    rw [hlt, operatorLt_asymm hlt, operatorEq_of_lt hlt]
    rfl
  · have hinj : Function.Injective (List.map UInt8.toNat) :=
      List.map_injective_iff.mpr fun a b => UInt8.toNat_inj.mp
    obtain rfl := hinj h
    rw [operatorLt_self, operatorEq_self]
    rfl
  · have hlt := operatorLt_iff.mpr h
    rw [hlt, operatorLt_asymm hlt, operatorEq_comm, operatorEq_of_lt hlt]
    rfl

end Order

/-- Addresses of any kinds are ordered totally. -/
theorem address_total_order (host : Endian) (x y z : Address) :
    operatorLt (x.getAddr host) (x.getAddr host) = false ∧
    (operatorLt (x.getAddr host) (y.getAddr host) = true →
      operatorLt (y.getAddr host) (z.getAddr host) = true →
        operatorLt (x.getAddr host) (z.getAddr host) = true) ∧
    [operatorLt (x.getAddr host) (y.getAddr host), operatorLt (y.getAddr host) (x.getAddr host),
      operatorEq (x.getAddr host) (y.getAddr host)].count true = 1 ∧
    (operatorEq (x.getAddr host) (y.getAddr host) = true ↔
      x.getAddrLen = y.getAddrLen ∧ x.getAddr host = y.getAddr host) := by
  refine ⟨operatorLt_self _, fun hxy hyz => ?_, count_compare _ _, ?_⟩
  · exact operatorLt_iff.mpr ((operatorLt_iff.mp hxy).trans (operatorLt_iff.mp hyz))
  · rw [operatorEq_iff, ← length_getAddr host, ← length_getAddr host]
    exact ⟨fun h => ⟨congrArg List.length h, h⟩, And.right⟩

theorem address_total_order_kinds :
    let x := getAddr .little (unix .new)
    let y := getAddr .little (ipv4 (IPv4Address.new .little 0 80))
    let z := getAddr .little (ipv6 (IPv6Address.new .little (.replicate 16 0) 80))
    operatorLt x y = true ∧ operatorLt y z = true ∧ operatorLt x z = true := by
  intro x y z
  have hxy : operatorLt x y = true := by decide +kernel
  have hyz : operatorLt y z = true := by decide +kernel
  exact ⟨hxy, hyz, (address_total_order .little (unix .new) _ _).2.1 hxy hyz⟩

namespace UnixAddress
variable {path path' : List UInt8} {m m' : UnixAddress}

theorem getAddr_ofPath (host : Endian) (h : ofPath path = .ok m) :
    m.getAddr host = toMemory host 2 AF_UNIX.toNat ++ pathBytes path := by
  rw [ofPath] at h
  split_ifs at h with hlong
  cases h
  have hcopied : (Vector.ofFn fun i : Fin 108 => (pathBytes path)[i.val]?.getD 0).toList.take
      (pathBytes path).length = pathBytes path := by
    apply List.ext_getElem
    · simp
      omega
    · intro i hi hi'
      simp [hi']
  have hfamily := toMemory_length host 2 AF_UNIX.toNat
  change (toMemory host 2 AF_UNIX.toNat ++ _).take ((pathBytes path).length + 2) = _
  rw [List.take_append, hfamily, Nat.add_sub_cancel, hcopied, List.take_of_length_le (by omega)]

theorem pathBytes_eq_iff :
    pathBytes path = pathBytes path' ↔
      path = path' ∨ path = [] ∧ path' = [0] ∨ path = [0] ∧ path' = [] := by
  cases path with
  | nil =>
    cases path' with
    | nil => simp
    | cons d ds =>
      by_cases hd : d = 0
      · rw [eq_comm, eq_comm (a := [])]
        simp [pathBytes, hd]
      · simp [pathBytes, hd, Ne.symm hd]
  | cons c cs =>
    cases path' with
    | nil => by_cases hc : c = 0 <;> simp [pathBytes, hc]
    | cons d ds =>
      by_cases hc : c = 0
      · by_cases hd : d = 0
        · simp [pathBytes, hc, hd]
        · simp [pathBytes, hc, hd, Ne.symm hd]
      · by_cases hd : d = 0
        · simp [pathBytes, hc, hd]
        · simp [pathBytes, hc, hd]

theorem ofPath_equal_iff (host : Endian) (hm : ofPath path = .ok m) (hm' : ofPath path' = .ok m') :
    operatorEq (Address.getAddr host (unix m)) (Address.getAddr host (unix m')) = true ↔
      path = path' ∨ path = [] ∧ path' = [0] ∨ path = [0] ∧ path' = [] := by
  rw [operatorEq_iff, ← pathBytes_eq_iff, Address.getAddr, Address.getAddr, getAddr_ofPath host hm,
    getAddr_ofPath host hm', List.append_cancel_left_eq]

end UnixAddress
end Address
end ApexStorm
