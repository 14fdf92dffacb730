import ApexStorm.Address.Basic

/-!
# Subnet arithmetic

`CreateMask` gives the host bits of a prefix length, set. A call has no result when an
operation of it is undefined or an access leaves the array; a null pointer is `none`
inside the result.
-/

namespace ApexStorm.Address

namespace IPv4Address

def combine (op : BitVec 32 → BitVec 32 → BitVec 32) (host : Endian) (m : SockaddrIn)
    (prefixLen : UInt32) : Option (Option SockaddrIn) :=
  if prefixLen > 32 then some none
  else do
    let mask ← createMask 32 prefixLen
    return some { m with sAddr := op m.sAddr (byteswapOnLittleEndian host mask) }

def broadcastAddress (host : Endian) (m : SockaddrIn) (prefixLen : UInt32) :
    Option (Option SockaddrIn) :=
  combine (· ||| ·) host m prefixLen

def networkAddress (host : Endian) (m : SockaddrIn) (prefixLen : UInt32) :
    Option (Option SockaddrIn) :=
  combine (· &&& ·) host m prefixLen

def subnetMask (host : Endian) (prefixLen : UInt32) : Option (Option SockaddrIn) := do
  let mask ← createMask 32 prefixLen
  return some ⟨AF_INET, 0, ~~~byteswapOnLittleEndian host mask, .replicate 8 0⟩

end IPv4Address

namespace IPv6Address

def store (v : Vector UInt8 16) (i : ℕ) (x : UInt8) : Option (Vector UInt8 16) :=
  if h : i < 16 then some (v.set i x) else none

def fill (v : Vector UInt8 16) (x : UInt8) (is : List ℕ) : Option (Vector UInt8 16) :=
  is.foldlM (fun v i => store v i x) v

def combine (op : UInt8 → UInt8 → UInt8) (x : UInt8) (m : SockaddrIn6) (prefixLen : UInt32) :
    Option (Option SockaddrIn6) := do
  let i := prefixLen.toNat / 8
  let mask ← createMask 8 (prefixLen % 8)
  let byte ← m.s6Addr[i]?
  let v ← store m.s6Addr i (op byte (.ofBitVec mask))
  let v ← fill v x (List.range' (i + 1) (16 - (i + 1)))
  return some { m with s6Addr := v }

def broadcastAddress (m : SockaddrIn6) (prefixLen : UInt32) : Option (Option SockaddrIn6) :=
  combine (· ||| ·) 0xff m prefixLen

def networkAddress (m : SockaddrIn6) (prefixLen : UInt32) : Option (Option SockaddrIn6) :=
  combine (· &&& ·) 0x00 m prefixLen

def subnetMask (prefixLen : UInt32) : Option (Option SockaddrIn6) := do
  let i := prefixLen.toNat / 8
  let mask ← createMask 8 (prefixLen % 8)
  let v ← store (.replicate 16 0) i (~~~(.ofBitVec mask))
  let v ← fill v 0xff (List.range i)
  return some ⟨AF_INET6, 0, 0, v, 0⟩

end IPv6Address

def hostBits (w prefixLen : ℕ) : BitVec w := .ofNat w (2 ^ (w - prefixLen) - 1)

theorem getLsbD_hostBits {w p i : ℕ} (hi : i < w) :
    (hostBits w p).getLsbD i = decide (i < w - p) := by
  rw [hostBits, BitVec.getLsbD_ofNat, Nat.testBit_two_pow_sub_one]
  simp [hi]

theorem bmod_two_pow_sub_one {k : ℕ} (h : k < 31) :
    (2 ^ k : ℤ).bmod (2 ^ 32) - 1 = ((2 ^ k - 1 : ℕ) : ℤ) := by
  have hlt : 2 ^ k < 2 ^ 31 := Nat.pow_lt_pow_right (by decide) h
  have hpos : 0 < 2 ^ k := Nat.two_pow_pos k
  have hcast : (2 ^ k : ℤ) = ((2 ^ k : ℕ) : ℤ) := by push_cast; rfl
  rw [hcast, Int.bmod_eq_of_le (by omega) (by omega)]
  omega

theorem createMask_eq {w : ℕ} (hw : w ≤ 32) (bits : UInt32) :
    createMask w bits =
      if bits.toNat ≤ w ∧ w < bits.toNat + 31 then some (hostBits w bits.toNat) else none := by
  have hbits := bits.toNat_lt
  by_cases hdefined : bits.toNat ≤ w ∧ w < bits.toNat + 31
  · have hcount : (w + 2 ^ 64 - bits.toNat) % 2 ^ 64 = w - bits.toNat := by omega
    simp only [createMask, hcount, bmod_two_pow_sub_one (show w - bits.toNat < 31 by omega)]
    rw [if_pos hdefined, if_pos (by omega), if_pos (by omega), hostBits, BitVec.ofInt_natCast]
  · -- a shift by 31 gives the least `int`, and no other count below 32 is left
    have hcount : (w + 2 ^ 64 - bits.toNat) % 2 ^ 64 = 31 ∨
        32 ≤ (w + 2 ^ 64 - bits.toNat) % 2 ^ 64 := by omega
    rw [if_neg hdefined, createMask]
    rcases hcount with hcount | hcount
    · simp only [hcount]
      rfl
    · exact if_neg (by omega)

def answer {α : Type} (size : ℕ) (prefixLen : UInt32) (x : α) : Option (Option α) :=
  some (if prefixLen.toNat ≤ size then some x else none)

namespace IPv4Address
variable (host : Endian) (m : SockaddrIn) (prefixLen : UInt32)

def netMask (prefixLen : ℕ) : BitVec 32 := BitVec.allOnes 32 <<< (32 - prefixLen)

def address : BitVec 32 := byteswapOnLittleEndian host m.sAddr

def withAddress (a : BitVec 32) : SockaddrIn := { m with sAddr := byteswapOnLittleEndian host a }

theorem not_netMask (p : ℕ) : ~~~netMask p = hostBits 32 p := by
  apply BitVec.eq_of_getLsbD_eq
  intro i hi
  have hsub : i - (32 - p) < 32 := by omega
  rw [BitVec.getLsbD_not, netMask, BitVec.getLsbD_shiftLeft, getLsbD_hostBits hi,
    BitVec.getLsbD_allOnes]
  simp only [hi, hsub, decide_true, Bool.true_and, Bool.and_true, Bool.not_not]

theorem createMask_eq_not_netMask :
    createMask 32 prefixLen =
      if 2 ≤ prefixLen.toNat ∧ prefixLen.toNat ≤ 32 then some (~~~netMask prefixLen.toNat)
      else none := by
  rw [createMask_eq le_rfl, not_netMask]
  congr 1
  apply propext
  omega

theorem withAddress_injective {a b : BitVec 32} (h : withAddress host m a = withAddress host m b) :
    a = b := by
  have hswap := congrArg (fun x => byteswapOnLittleEndian host x.sAddr) h
  simpa [withAddress, swap_swap] using hswap

theorem sAddr_eq : m.sAddr = byteswapOnLittleEndian host (address host m) :=
  (swap_swap host m.sAddr rfl).symm

theorem gt_iff : prefixLen > 32 ↔ 32 < prefixLen.toNat := UInt32.lt_iff_toNat_lt

theorem combine_eq {op : BitVec 32 → BitVec 32 → BitVec 32}
    (hop : ∀ x y, byteswapOnLittleEndian host (op x y) =
      op (byteswapOnLittleEndian host x) (byteswapOnLittleEndian host y)) :
    combine op host m prefixLen =
      if 2 ≤ prefixLen.toNat then
        answer 32 prefixLen (withAddress host m (op (address host m) (~~~netMask prefixLen.toNat)))
      else none := by
  rw [combine, answer, createMask_eq_not_netMask, sAddr_eq host]
  simp only [gt_iff, withAddress, hop]
  by_cases hlow : 2 ≤ prefixLen.toNat <;> by_cases hhigh : prefixLen.toNat ≤ 32
  · simp [hlow, hhigh, not_lt.mpr hhigh]
  · simp [hlow, hhigh, not_le.mp hhigh]
  · simp [hlow, hhigh, not_lt.mpr hhigh]
  · omega

theorem broadcastAddress_eq : broadcastAddress host m prefixLen =
    if 2 ≤ prefixLen.toNat then
      answer 32 prefixLen (withAddress host m (address host m ||| ~~~netMask prefixLen.toNat))
    else none :=
  combine_eq host m prefixLen fun x y => swap_or host x y rfl

/-- `networkAddress` keeps the bits that it should clear and clears those it should keep. -/
theorem networkAddress_eq : networkAddress host m prefixLen =
    if 2 ≤ prefixLen.toNat then
      answer 32 prefixLen (withAddress host m (address host m &&& ~~~netMask prefixLen.toNat))
    else none :=
  combine_eq host m prefixLen fun x y => swap_and host x y rfl

theorem subnetMask_eq : subnetMask host prefixLen =
    if 2 ≤ prefixLen.toNat ∧ prefixLen.toNat ≤ 32 then
      some (some (new host (netMask prefixLen.toNat) 0))
    else none := by
  rw [subnetMask, createMask_eq_not_netMask, new, swap_zero host rfl]
  split_ifs
  · simp [swap_not host (netMask prefixLen.toNat) rfl]
  · rfl

theorem and_eq_and_not_iff (a b : BitVec 32) : a &&& ~~~b = a &&& b ↔ a = 0 := by
  constructor
  · intro h
    apply BitVec.eq_of_getLsbD_eq
    intro i hi
    have hbit := congrArg (·.getLsbD i) h
    simp only [BitVec.getLsbD_and, BitVec.getLsbD_not, hi, decide_true, Bool.true_and] at hbit
    cases ha : a.getLsbD i with
    | false => simp
    | true =>
      rw [ha] at hbit
      cases hb : b.getLsbD i <;> simp [hb] at hbit
  · rintro rfl
    simp

/-- Prefixes of length 0 and 1 have no defined mask, and `networkAddress` is right only for the
address zero. -/
theorem subnet_iff (host : Endian) (m : SockaddrIn) (prefixLen : UInt32) :
    (broadcastAddress host m prefixLen =
      answer 32 prefixLen (withAddress host m (address host m ||| ~~~netMask prefixLen.toNat)) ↔
        2 ≤ prefixLen.toNat) ∧
    (networkAddress host m prefixLen =
      answer 32 prefixLen (withAddress host m (address host m &&& netMask prefixLen.toNat)) ↔
        32 < prefixLen.toNat ∨ 2 ≤ prefixLen.toNat ∧ address host m = 0) ∧
    (subnetMask host prefixLen = answer 32 prefixLen (new host (netMask prefixLen.toNat) 0) ↔
        2 ≤ prefixLen.toNat ∧ prefixLen.toNat ≤ 32) := by
  rw [broadcastAddress_eq, networkAddress_eq, subnetMask_eq]
  refine ⟨?_, ?_, ?_⟩
  · split_ifs with h <;> simp [h, answer]
  · split_ifs with h
    · by_cases hhigh : prefixLen.toNat ≤ 32
      · simp only [answer, if_pos hhigh, Option.some_inj]
        constructor
        · intro heq
          exact .inr ⟨h, (and_eq_and_not_iff _ _).mp (withAddress_injective host m heq)⟩
        · rintro (hlt | ⟨-, hzero⟩)
          · omega
          · rw [(and_eq_and_not_iff _ _).mpr hzero]
      · simp [answer, hhigh]
        omega
    · simp [answer]
      omega
  · split_ifs with h <;> simp [h, answer]

/-- The network of 192.168.1.5 with a prefix of 24 bits is 0.0.0.5, and a prefix of no bits or of
33 bits has no defined mask. -/
theorem subnet_wrong :
    (networkAddress .little (new .little 0xC0A80105 0) 24).map (·.map (address .little)) =
      some (some 0x00000005) ∧
    broadcastAddress .little (new .little 0xC0A80105 0) 0 = none ∧
    subnetMask .little 33 = none := by
  decide +kernel

end IPv4Address

namespace IPv6Address
variable {v w : Vector UInt8 16} {m : SockaddrIn6} {prefixLen : UInt32}

theorem store_eq {i : ℕ} (h : i < 16) (v : Vector UInt8 16) (x : UInt8) :
    ∃ w, store v i x = some w ∧ ∀ j : ℕ, w[j]? = if j = i then some x else v[j]? := by
  refine ⟨v.set i x, dif_pos h, fun j => ?_⟩
  rw [Vector.getElem?_set]
  simp only [eq_comm]

theorem fill_range' (x : UInt8) {a k : ℕ} (h : a + k ≤ 16) (v : Vector UInt8 16) :
    ∃ w, fill v x (List.range' a k) = some w ∧
      ∀ j : ℕ, w[j]? = if a ≤ j ∧ j < a + k then some x else v[j]? := by
  induction k generalizing a v with
  | zero => exact ⟨v, rfl, fun j => by rw [if_neg (by omega)]⟩
  | succ k ih =>
    obtain ⟨u, hstore, hu⟩ := store_eq (i := a) (by omega) v x
    obtain ⟨w, hfill, hw⟩ := ih (a := a + 1) (by omega) u
    refine ⟨w, ?_, fun j => ?_⟩
    · rw [List.range'_succ, fill, List.foldlM_cons, hstore]
      exact hfill
    · rw [hw, hu]
      split_ifs <;> first | rfl | omega

def bit (v : Vector UInt8 16) (i : ℕ) : Bool := ((v[i / 8]?).getD 0).toBitVec.getMsbD (i % 8)

def partialMask (prefixLen : UInt32) : UInt8 := .ofBitVec (hostBits 8 (prefixLen.toNat % 8))

theorem createMask_mod : createMask 8 (prefixLen % 8) = some (partialMask prefixLen).toBitVec := by
  have hmod : (prefixLen % 8).toNat = prefixLen.toNat % 8 := UInt32.toNat_mod _ _
  rw [createMask_eq (by decide), hmod, if_pos (by omega)]
  rfl

theorem getMsbD_partialMask {r : ℕ} (hr : r < 8) :
    (partialMask prefixLen).toBitVec.getMsbD r = decide (prefixLen.toNat % 8 ≤ r) := by
  have hmask : (partialMask prefixLen).toBitVec = hostBits 8 (prefixLen.toNat % 8) := rfl
  rw [hmask, BitVec.getMsbD_eq_getLsbD, getLsbD_hostBits (by omega)]
  simp only [hr, decide_true, Bool.true_and, decide_eq_decide]
  omega

theorem combine_eq (op : UInt8 → UInt8 → UInt8) (x : UInt8) (m : SockaddrIn6)
    (hp : prefixLen.toNat < 128) :
    ∃ w, combine op x m prefixLen = some (some { m with s6Addr := w }) ∧
      ∀ j : ℕ, w[j]? =
        if j = prefixLen.toNat / 8 then
          some (op ((m.s6Addr[prefixLen.toNat / 8]?).getD 0) (partialMask prefixLen))
        else if prefixLen.toNat / 8 < j ∧ j < 16 then some x else m.s6Addr[j]? := by
  have hi : prefixLen.toNat / 8 < 16 := by omega
  obtain ⟨u, hstore, hu⟩ := store_eq hi m.s6Addr
    (op m.s6Addr[prefixLen.toNat / 8] (partialMask prefixLen))
  obtain ⟨w, hfill, hw⟩ := fill_range' x (a := prefixLen.toNat / 8 + 1)
    (k := 16 - (prefixLen.toNat / 8 + 1)) (by omega) u
  have hbyte : m.s6Addr[prefixLen.toNat / 8]? = some m.s6Addr[prefixLen.toNat / 8] :=
    Vector.getElem?_eq_getElem hi
  refine ⟨w, ?_, fun j => ?_⟩
  · simp only [combine, createMask_mod, hbyte, UInt8.ofBitVec_toBitVec, hstore, hfill,
      Option.bind_eq_bind, Option.bind_some, Option.pure_def]
  · rw [hw, hu, hbyte]
    simp only [Option.getD_some]
    split_ifs <;> first | rfl | omega

/-- The partial byte does not exist from length 128 on, and the length is not checked. -/
theorem combine_eq_none (op : UInt8 → UInt8 → UInt8) (x : UInt8) (m : SockaddrIn6)
    (hp : 128 ≤ prefixLen.toNat) : combine op x m prefixLen = none := by
  have hbyte : m.s6Addr[prefixLen.toNat / 8]? = none :=
    Vector.getElem?_eq_none (by omega)
  simp [combine, createMask_mod, hbyte]

theorem subnetMask_eq (hp : prefixLen.toNat < 128) :
    ∃ w, subnetMask prefixLen = some (some ⟨AF_INET6, 0, 0, w, 0⟩) ∧
      ∀ j < 16, w[j]? =
        some (if j = prefixLen.toNat / 8 then ~~~partialMask prefixLen
          else if j < prefixLen.toNat / 8 then 0xff else 0) := by
  have hi : prefixLen.toNat / 8 < 16 := by omega
  obtain ⟨u, hstore, hu⟩ := store_eq hi (.replicate 16 0) (~~~partialMask prefixLen)
  obtain ⟨w, hfill, hw⟩ := fill_range' 0xff (a := 0) (k := prefixLen.toNat / 8) (by omega) u
  rw [← List.range_eq_range'] at hfill
  refine ⟨w, ?_, fun j hj => ?_⟩
  · simp [subnetMask, createMask_mod, hstore, hfill]
  · have hzero : (Vector.replicate 16 (0 : UInt8))[j]? = some 0 := by simp [hj]
    rw [hw, hu, hzero]
    split_ifs <;> first | rfl | omega

theorem subnetMask_eq_none (hp : 128 ≤ prefixLen.toNat) : subnetMask prefixLen = none := by
  have hstore : store (.replicate 16 0) (prefixLen.toNat / 8) (~~~partialMask prefixLen) = none :=
    dif_neg (by omega)
  simp [subnetMask, createMask_mod, hstore]

def Bits (base : SockaddrIn6) (prefixLen : UInt32) (b : ℕ → Bool)
    (run : Option (Option SockaddrIn6)) : Prop :=
  if prefixLen.toNat ≤ 128 then
    ∃ v, run = some (some { base with s6Addr := v }) ∧ ∀ i < 128, bit v i = b i
  else run = some none

theorem not_bits_none (base : SockaddrIn6) (b : ℕ → Bool) : ¬Bits base prefixLen b none := by
  rw [Bits]
  split_ifs <;> simp

theorem bits_some_iff {base : SockaddrIn6} {b : ℕ → Bool} (hp : prefixLen.toNat < 128) :
    Bits base prefixLen b (some (some { base with s6Addr := w })) ↔ ∀ i < 128, bit w i = b i := by
  rw [Bits, if_pos hp.le]
  constructor
  · rintro ⟨v, heq, hv⟩
    obtain rfl : w = v := by simpa using heq
    exact hv
  · exact fun h => ⟨w, rfl, h⟩

theorem broadcastAddress_bits (m : SockaddrIn6) (hp : prefixLen.toNat < 128) :
    Bits m prefixLen (fun i => decide (prefixLen.toNat ≤ i) || bit m.s6Addr i)
      (broadcastAddress m prefixLen) := by
  obtain ⟨w, hrun, hw⟩ := combine_eq (· ||| ·) 0xff m hp
  rw [broadcastAddress, hrun, bits_some_iff hp]
  intro i hi
  have hr : i % 8 < 8 := Nat.mod_lt _ (by decide)
  rw [bit, bit, hw]
  split_ifs with heq hrest
  · have hle : prefixLen.toNat ≤ i ↔ prefixLen.toNat % 8 ≤ i % 8 := by omega
    rw [Option.getD_some, UInt8.toBitVec_or, BitVec.getMsbD_or, getMsbD_partialMask hr, heq,
      Bool.or_comm]
    simp only [hle]
  · have hle : prefixLen.toNat ≤ i := by omega
    have hones : (0xff : UInt8).toBitVec = BitVec.allOnes 8 := rfl
    simp only [Option.getD_some, hones, BitVec.getMsbD_allOnes, hr, hle, decide_true, Bool.true_or]
  · have hle : ¬prefixLen.toNat ≤ i := by omega
    simp [hle]

/-- The partial byte is kept where it should be cleared and cleared where it should be kept. -/
theorem networkAddress_bits_iff (m : SockaddrIn6) (hp : prefixLen.toNat < 128) :
    Bits m prefixLen (fun i => decide (i < prefixLen.toNat) && bit m.s6Addr i)
      (networkAddress m prefixLen) ↔ (m.s6Addr[prefixLen.toNat / 8]?).getD 0 = 0 := by
  obtain ⟨w, hrun, hw⟩ := combine_eq (· &&& ·) 0x00 m hp
  rw [networkAddress, hrun, bits_some_iff hp]
  constructor
  · intro hbits
    apply UInt8.toBitVec_inj.mp
    apply BitVec.eq_of_getMsbD_eq
    intro r hr
    have hbit := hbits (8 * (prefixLen.toNat / 8) + r) (by omega)
    have hdiv : (8 * (prefixLen.toNat / 8) + r) / 8 = prefixLen.toNat / 8 := by omega
    have hmod : (8 * (prefixLen.toNat / 8) + r) % 8 = r := by omega
    rw [bit, bit, hdiv, hmod, hw, if_pos rfl, Option.getD_some, UInt8.toBitVec_and,
      BitVec.getMsbD_and, getMsbD_partialMask hr] at hbit
    have hlt : 8 * (prefixLen.toNat / 8) + r < prefixLen.toNat ↔ ¬prefixLen.toNat % 8 ≤ r := by
      omega
    simp only [hlt] at hbit
    by_cases hkept : prefixLen.toNat % 8 ≤ r
    · simpa [hkept] using hbit
    · simpa [hkept] using hbit.symm
  · intro hzero i hi
    rw [bit, bit, hw]
    split_ifs with heq hrest
    · rw [hzero, heq, hzero]
      simp
    · have hle : ¬i < prefixLen.toNat := by omega
      simp [hle]
    · have hle : i < prefixLen.toNat := by omega
      simp [hle]

theorem subnetMask_bits (hp : prefixLen.toNat < 128) :
    Bits ⟨AF_INET6, 0, 0, .replicate 16 0, 0⟩ prefixLen (fun i => decide (i < prefixLen.toNat))
      (subnetMask prefixLen) := by
  obtain ⟨w, hrun, hw⟩ := subnetMask_eq hp
  rw [hrun, bits_some_iff hp]
  intro i hi
  have hr : i % 8 < 8 := Nat.mod_lt _ (by decide)
  rw [bit, hw _ (by omega), Option.getD_some]
  split_ifs with heq hlt
  · have hle : i < prefixLen.toNat ↔ ¬prefixLen.toNat % 8 ≤ i % 8 := by omega
    rw [UInt8.toBitVec_not, BitVec.getMsbD_not, getMsbD_partialMask hr]
    simp only [hr, hle, decide_true, Bool.true_and, decide_not]
  · have hones : (0xff : UInt8).toBitVec = BitVec.allOnes 8 := rfl
    have hle : i < prefixLen.toNat := by omega
    simp only [hones, BitVec.getMsbD_allOnes, hr, hle]
  · have hle : ¬i < prefixLen.toNat := by omega
    simp [hle]

/-- A prefix of all 128 bits reaches behind the address, and `networkAddress` is right only where
the partial byte is zero. -/
theorem subnet6_iff (m : SockaddrIn6) (prefixLen : UInt32) :
    (Bits m prefixLen (fun i => decide (prefixLen.toNat ≤ i) || bit m.s6Addr i)
      (broadcastAddress m prefixLen) ↔ prefixLen.toNat < 128) ∧
    (Bits m prefixLen (fun i => decide (i < prefixLen.toNat) && bit m.s6Addr i)
      (networkAddress m prefixLen) ↔
        prefixLen.toNat < 128 ∧ (m.s6Addr[prefixLen.toNat / 8]?).getD 0 = 0) ∧
    (Bits ⟨AF_INET6, 0, 0, .replicate 16 0, 0⟩ prefixLen
      (fun i => decide (i < prefixLen.toNat)) (subnetMask prefixLen) ↔ prefixLen.toNat < 128) := by
  by_cases hp : prefixLen.toNat < 128
  · simp only [hp, true_and, iff_true]
    exact ⟨broadcastAddress_bits m hp, networkAddress_bits_iff m hp, subnetMask_bits hp⟩
  · have hge := not_lt.mp hp
    rw [broadcastAddress, networkAddress, combine_eq_none _ _ m hge, combine_eq_none _ _ m hge,
      subnetMask_eq_none hge]
    simp only [not_bits_none, hp, false_and, and_self]

/-- The network of 2001:db8::1 with a prefix of 20 bits is 2001:d00::, not 2001::, and no function
answers for a prefix of 128 bits. -/
theorem subnet6_wrong :
    (networkAddress (new .little
        #v[0x20, 0x01, 0x0d, 0xb8, 0, 0, 0, 0, 0, 0, 0, 0, 0, 0, 0, 1] 0) 20).map
        (·.map (·.s6Addr)) =
      some (some #v[0x20, 0x01, 0x0d, 0, 0, 0, 0, 0, 0, 0, 0, 0, 0, 0, 0, 0]) ∧
    broadcastAddress (new .little (.replicate 16 0) 0) 128 = none ∧ subnetMask 128 = none := by
  decide +kernel

end IPv6Address
end ApexStorm.Address
