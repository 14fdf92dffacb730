import ApexStorm.Lib.Inet
import ApexStorm.Address.Basic

/-!
# Addresses as text

`insert` prints an address and its port, `Create` reads an address with `inet_pton`,
which writes the bytes of the address in network order. `operator==` compares the
memory of two addresses.
-/

namespace ApexStorm.Address
open Lib.Radix Lib.Numeral Lib.Inet
open ApexStorm.ByteArray (toMemory ofMemory)

/-- The memory behind `getAddr()`, of `getAddrLen()` bytes. -/
def SockaddrIn.getAddr (host : Endian) (m : SockaddrIn) : List UInt8 :=
  toMemory host 2 m.sinFamily.toNat ++ toMemory host 2 m.sinPort.toNat ++
    toMemory host 4 m.sAddr.toNat ++ m.sinZero.toList

def SockaddrIn6.getAddr (host : Endian) (m : SockaddrIn6) : List UInt8 :=
  toMemory host 2 m.sin6Family.toNat ++ toMemory host 2 m.sin6Port.toNat ++
    toMemory host 4 m.sin6Flowinfo.toNat ++ m.s6Addr.toList ++ toMemory host 4 m.sin6ScopeId.toNat

def operatorEq (x y : List UInt8) : Bool :=
  x.length == y.length && x == y.take x.length

theorem operatorEq_self (x : List UInt8) : operatorEq x x = true := by simp [operatorEq]

namespace IPv4Address

/-- `inetPton` gives the bytes that `inet_pton` writes when it returns 1. -/
def create (inetPton : List UInt8 → Option (Vector UInt8 4)) (host : Endian)
    (address : List UInt8) (port : BitVec 16) : Option SockaddrIn :=
  let rt := { new host 0 0 with sinPort := byteswapOnLittleEndian host port }
  (inetPton address).map fun bytes => { rt with sAddr := .ofNat 32 (ofMemory host bytes.toList) }

def octet (x : BitVec 32) : List UInt8 := numeral 10 (x &&& 0xff).toNat

def insert (host : Endian) (m : SockaddrIn) : List UInt8 :=
  let addr := byteswapOnLittleEndian host m.sAddr
  [octet (addr >>> 24), [46], octet (addr >>> 16), [46], octet (addr >>> 8), [46], octet addr, [58],
    numeral 10 (byteswapOnLittleEndian host m.sinPort).toNat].flatten

def getPort (m : SockaddrIn) : BitVec 32 := m.sinPort.setWidth 32

def setPort (host : Endian) (m : SockaddrIn) (v : BitVec 16) : SockaddrIn :=
  { m with sinPort := byteswapOnLittleEndian host v }

end IPv4Address

namespace IPv6Address

def create (inetPton : List UInt8 → Option (Vector UInt8 16)) (host : Endian)
    (address : List UInt8) (port : BitVec 16) : Option SockaddrIn6 :=
  let rt := new host (.replicate 16 0) port
  (inetPton address).map fun bytes => { rt with s6Addr := bytes }

/-- `addr[i]` of the address as an array of `uint16_t`. -/
def group (host : Endian) (v : Vector UInt8 16) (i : ℕ) : BitVec 16 :=
  .ofNat 16 (ofMemory host ((v.toList.drop (2 * i)).take 2))

/-- One round of the loop of `insert` over the stream and `used_zero`. -/
def insertGroup (host : Endian) (addr : ℕ → BitVec 16) (s : List UInt8 × Bool) (i : ℕ) :
    List UInt8 × Bool :=
  if addr i = 0 ∧ s.2 = false then s
  else
    let s := if i ≠ 0 ∧ addr (i - 1) = 0 ∧ s.2 = false then (s.1 ++ [58], true) else s
    let os := if i ≠ 0 then s.1 ++ [58] else s.1
    (os ++ numeral 16 (byteswapOnLittleEndian host (addr i)).toNat, s.2)

def insert (host : Endian) (m : SockaddrIn6) : List UInt8 :=
  let addr := group host m.s6Addr
  let s := (List.range 8).foldl (insertGroup host addr) ([91], false)
  let os := if s.2 = false ∧ addr 7 = 0 then s.1 ++ [58, 58] else s.1
  os ++ [93, 58] ++ numeral 10 (byteswapOnLittleEndian host m.sin6Port).toNat

def getPort (host : Endian) (m : SockaddrIn6) : BitVec 32 :=
  (byteswapOnLittleEndian host m.sin6Port).setWidth 32

def setPort (host : Endian) (m : SockaddrIn6) (v : BitVec 16) : SockaddrIn6 :=
  { m with sin6Port := byteswapOnLittleEndian host v }

def pairs : List UInt8 → List ℕ
  | x :: y :: rest => (256 * x.toNat + y.toNat) :: pairs rest
  | _ => []

def words (v : Vector UInt8 16) : List ℕ := pairs v.toList

section Words
variable {host : Endian}

theorem pairs_getElem? {bytes rest : List UInt8} {x y : UInt8} {i : ℕ}
    (h : bytes.drop (2 * i) = x :: y :: rest) :
    (pairs bytes)[i]? = some (256 * x.toNat + y.toNat) := by
  induction i generalizing bytes with
  | zero =>
    rw [Nat.mul_zero, List.drop_zero] at h
    rw [h, pairs]
    rfl
  | succ i ih =>
    match bytes, h with
    | a :: b :: bytes, h =>
      rw [pairs, List.getElem?_cons_succ]
      exact ih (by simpa [Nat.mul_succ] using h)

theorem length_pairs {n : ℕ} {bytes : List UInt8} (h : bytes.length = 2 * n) :
    (pairs bytes).length = n := by
  induction n generalizing bytes with
  | zero =>
    obtain rfl := List.length_eq_zero_iff.mp h
    rfl
  | succ n ih =>
    match bytes, h with
    | a :: b :: bytes, h =>
      rw [pairs, List.length_cons, ih (by simpa [Nat.mul_succ] using h)]

theorem length_words (v : Vector UInt8 16) : (words v).length = 8 :=
  length_pairs (by simp)

theorem words_getElem? (host : Endian) (v : Vector UInt8 16) {i : ℕ} (hi : i < 8) :
    (words v)[i]? = some (byteswapOnLittleEndian host (group host v i)).toNat := by
  obtain ⟨x, y, rest, hdrop⟩ : ∃ x y rest, v.toList.drop (2 * i) = x :: y :: rest := by
    have hlen : (v.toList.drop (2 * i)).length = 16 - 2 * i := by simp
    match hdrop : v.toList.drop (2 * i), hlen with
    | [], hlen => simp at hlen; omega
    | [_], hlen => simp at hlen; omega
    | x :: y :: rest, _ => exact ⟨x, y, rest, rfl⟩
  have hx := x.toNat_lt
  have hy := y.toNat_lt
  have htake : (x :: y :: rest).take 2 = [x, y] := rfl
  have hvalue : ofLeBytes [x, y].reverse = 256 * x.toNat + y.toNat := by
    simp only [List.reverse_cons, List.reverse_nil, List.nil_append, List.singleton_append,
      ofLeBytes]
    omega
  rw [words, pairs_getElem? hdrop, group, hdrop, htake,
    swap_ofMemory host (show 16 = 8 * [x, y].length from rfl), hvalue, BitVec.toNat_ofNat,
    Nat.mod_eq_of_lt (by omega)]

theorem words_lt {v : Vector UInt8 16} {n : ℕ} (h : n ∈ words v) : n < 2 ^ 16 := by
  obtain ⟨i, hi, rfl⟩ := List.mem_iff_getElem.mp h
  have hword := words_getElem? .big v (by rwa [length_words] at hi)
  rw [List.getElem?_eq_getElem hi] at hword
  rw [Option.some.inj hword]
  exact BitVec.isLt _

theorem group_eq_zero_iff (host : Endian) (v : Vector UInt8 16) (i : ℕ) :
    group host v i = 0 ↔ (byteswapOnLittleEndian host (group host v i)).toNat = 0 := by
  constructor
  · intro h
    rw [h, swap_zero host rfl]
    rfl
  · intro h
    have hswap : byteswapOnLittleEndian host (group host v i) = 0 := BitVec.eq_of_toNat_eq h
    rw [← swap_swap host (group host v i) rfl, hswap, swap_zero host rfl]

end Words

def hex (ws : List ℕ) : List (List UInt8) := ws.map (numeral 16)

/-- What the loop has printed for the groups `ws`: all of them but a run of zeros at the end, or
with two colons for the first run of zeros. -/
inductive Printed (ws : List ℕ) : List UInt8 × Bool → Prop
  | plain (l : List ℕ) (z : ℕ) (hl : 0 ∉ l) (hws : ws = l ++ List.replicate z 0) :
      Printed ws (91 :: join (hex l), false)
  | compressed (l r : List ℕ) (z : ℕ) (hz : 0 < z) (hr : r ≠ [])
      (hws : ws = l ++ List.replicate z 0 ++ r) :
      Printed ws (91 :: (join (hex l) ++ [58, 58] ++ join (hex r)), true)

theorem join_hex_append {l : List ℕ} (hl : l ≠ []) (x : ℕ) :
    join (hex (l ++ [x])) = join (hex l) ++ 58 :: numeral 16 x := by
  rw [hex, List.map_append, join_append (by simpa using hl) (by simp)]
  simp [join, hex]

section Loop
variable {host : Endian} {addr : ℕ → BitVec 16} {f : ℕ → ℕ} {s : List UInt8 × Bool} {k : ℕ}
  {ws : List ℕ}

theorem insertGroup_of_used (s : List UInt8) (hk : k ≠ 0) :
    insertGroup host addr (s, true) k =
      (s ++ 58 :: numeral 16 (byteswapOnLittleEndian host (addr k)).toNat, true) := by
  simp [insertGroup, hk]

theorem insertGroup_of_unused (s : List UInt8) (hx : addr k ≠ 0) :
    insertGroup host addr (s, false) k =
      if k = 0 then (s ++ numeral 16 (byteswapOnLittleEndian host (addr k)).toNat, false)
      else if addr (k - 1) = 0 then
        (s ++ [58, 58] ++ numeral 16 (byteswapOnLittleEndian host (addr k)).toNat, true)
      else (s ++ 58 :: numeral 16 (byteswapOnLittleEndian host (addr k)).toNat, false) := by
  rw [insertGroup, if_neg (fun h => hx h.1)]
  by_cases hk : k = 0
  · simp [hk]
  · rw [if_neg hk]
    by_cases hprev : addr (k - 1) = 0
    · rw [if_pos ⟨hk, hprev, rfl⟩, if_pos hprev]
      simp [hk]
    · rw [if_neg (fun h => hprev h.2.1), if_neg hprev]
      simp [hk]

theorem getLast?_map_range (hk : k ≠ 0) : ((List.range k).map f).getLast? = some (f (k - 1)) := by
  obtain ⟨j, rfl⟩ := Nat.exists_eq_succ_of_ne_zero hk
  simp [List.range_succ]

theorem Printed.step (hf : ∀ i, (byteswapOnLittleEndian host (addr i)).toNat = f i)
    (hzero : ∀ i, addr i = 0 ↔ f i = 0) (h : Printed ((List.range k).map f) s) :
    Printed ((List.range (k + 1)).map f) (insertGroup host addr s k) := by
  have hlast : k ≠ 0 → ((List.range k).map f).getLast? = some (f (k - 1)) := getLast?_map_range
  have hlen : ((List.range k).map f).length = k := by simp
  rw [List.range_succ, List.map_append, List.map_singleton]
  generalize (List.range k).map f = ws at h hlast hlen
  cases h with
  | plain l z hl hws =>
    by_cases hx : f k = 0
    · have hskip : insertGroup host addr (91 :: join (hex l), false) k =
          (91 :: join (hex l), false) := by
        simp [insertGroup, (hzero k).mpr hx]
      rw [hskip, hx, hws, List.append_assoc, ← List.replicate_succ']
      exact .plain l (z + 1) hl rfl
    · rw [insertGroup_of_unused _ (fun h => hx ((hzero k).mp h)), hf]
      simp only [hzero]
      cases z with
      | zero =>
        have hnil : k = 0 ↔ l = [] := by
          rw [← List.length_eq_zero_iff, ← hlen, hws]
          simp
        have hprinted : Printed (ws ++ [f k]) (91 :: join (hex (l ++ [f k])), false) :=
          .plain (l ++ [f k]) 0 (by simp [hl, Ne.symm hx]) (by simp [hws])
        by_cases hk : k = 0
        · obtain rfl := hnil.mp hk
          rw [if_pos hk]
          simpa [hex, join] using hprinted
        · have hprev : f (k - 1) ≠ 0 := by
            intro hprev
            have hmem := List.mem_of_getLast? (hlast hk)
            rw [hws, hprev] at hmem
            exact hl (by simpa using hmem)
          rw [join_hex_append (fun h => hk (hnil.mpr h))] at hprinted
          rw [if_neg hk, if_neg hprev]
          exact hprinted
      | succ z =>
        have hk : k ≠ 0 := by
          rintro rfl
          simp [hws] at hlen
        have hprev : f (k - 1) = 0 := by
          have hsome := hlast hk
          rw [hws, List.replicate_succ', ← List.append_assoc, List.getLast?_concat] at hsome
          exact (Option.some.inj hsome).symm
        rw [if_neg hk, if_pos hprev]
        have hprinted := Printed.compressed l [f k] (z + 1) (by omega) (by simp)
          (congrArg (· ++ [f k]) hws)
        simpa [hex, join] using hprinted
  | compressed l r z hz hr hws =>
    have hk : k ≠ 0 := by
      rintro rfl
      simp [hws, hr] at hlen
    rw [insertGroup_of_used _ hk, hf]
    have hout : (91 :: (join (hex l) ++ [58, 58] ++ join (hex r))) ++ 58 :: numeral 16 (f k) =
        91 :: (join (hex l) ++ [58, 58] ++ join (hex (r ++ [f k]))) := by
      rw [join_hex_append hr]
      simp
    rw [hout]
    exact .compressed l (r ++ [f k]) z hz (by simp) (by rw [hws, List.append_assoc])

theorem printed_range (hf : ∀ i, (byteswapOnLittleEndian host (addr i)).toNat = f i)
    (hzero : ∀ i, addr i = 0 ↔ f i = 0) (k : ℕ) :
    Printed ((List.range k).map f)
      ((List.range k).foldl (insertGroup host addr) ([91], false)) := by
  induction k with
  | zero => exact .plain [] 0 (by simp) rfl
  | succ k ih =>
    have hstep := ih.step hf hzero
    rwa [List.range_succ, List.foldl_append, List.foldl_cons, List.foldl_nil, ← List.range_succ]

end Loop

theorem forall₂_hex {ws : List ℕ} (h : ∀ n ∈ ws, n < 2 ^ 16) :
    List.Forall₂ IsGroup (hex ws) ws := by
  induction ws with
  | nil => exact .nil
  | cons n ws ih =>
    exact .cons (isGroup_numeral (h n (by simp))) (ih fun m hm => h m (by simp [hm]))

theorem words_eq (host : Endian) (v : Vector UInt8 16) :
    (List.range 8).map (fun i => (byteswapOnLittleEndian host (group host v i)).toNat) =
      words v := by
  apply List.ext_getElem?
  intro i
  by_cases hi : i < 8
  · rw [words_getElem? host v hi]
    simp [hi]
  · have hlen := length_words v
    rw [List.getElem?_eq_none (by simpa using hi), List.getElem?_eq_none (by omega)]

theorem Printed.denotes {ws : List ℕ} {s : List UInt8 × Bool} (h : Printed ws s)
    (hlen : ws.length = 8) (hlt : ∀ n ∈ ws, n < 2 ^ 16) :
    ∃ t, (if s.2 = false ∧ ws.getLast? = some 0 then s.1 ++ [58, 58] else s.1) = 91 :: t ∧
      Denotes t ws := by
  cases h with
  | plain l z hl hws =>
    have hgroups : List.Forall₂ IsGroup (hex l) l :=
      forall₂_hex fun n hn => hlt n (by simp [hws, hn])
    cases z with
    | zero =>
      have hl' : ws = l := by simpa using hws
      have hlast : ws.getLast? ≠ some 0 := fun h => hl (hl' ▸ List.mem_of_getLast? h)
      rw [if_neg (fun h => hlast h.2)]
      exact ⟨_, rfl, .full (hex l) (hl' ▸ hgroups) hlen rfl⟩
    | succ z =>
      have hlast : ws.getLast? = some 0 := by
        rw [hws, List.replicate_succ', ← List.append_assoc, List.getLast?_concat]
      have hsum : l.length + (z + 1) = 8 := by simpa [hws] using hlen
      rw [if_pos ⟨rfl, hlast⟩]
      refine ⟨join (hex l) ++ [58, 58], rfl, ?_⟩
      refine .compressed (hex l) [] l [] hgroups .nil (by simp; omega) ?_ (by simp [join])
      rw [hws, List.append_nil, List.length_nil, show 8 - (l.length + 0) = z + 1 by omega]
  | compressed l r z hz hr hws =>
    have hsum : l.length + z + r.length = 8 := by simpa [hws, Nat.add_assoc] using hlen
    rw [if_neg (fun h => by cases h.1)]
    refine ⟨_, rfl, .compressed (hex l) (hex r) l r ?_ ?_ (by omega) ?_ rfl⟩
    · exact forall₂_hex fun n hn => hlt n (by simp [hws, hn])
    · exact forall₂_hex fun n hn => hlt n (by simp [hws, hn])
    · rw [hws, show 8 - (l.length + r.length) = z by omega]

theorem insert_eq (host : Endian) (m : SockaddrIn6) :
    ∃ t, insert host m = 91 :: (t ++ 93 :: 58 ::
        numeral 10 (byteswapOnLittleEndian host m.sin6Port).toNat) ∧
      Denotes t (words m.s6Addr) := by
  have hprinted := printed_range (fun i => rfl) (group_eq_zero_iff host m.s6Addr) 8
  rw [words_eq] at hprinted
  obtain ⟨t, ht, hdenotes⟩ := hprinted.denotes (length_words _) fun n hn => words_lt hn
  have hlast : (words m.s6Addr).getLast? = some 0 ↔ group host m.s6Addr 7 = 0 := by
    rw [group_eq_zero_iff, List.getLast?_eq_getElem?, length_words,
      words_getElem? host _ (by decide), Option.some_inj]
  simp only [hlast] at ht
  refine ⟨t, ?_, hdenotes⟩
  rw [insert, ht]
  simp

def bytesOf (ws : List ℕ) : List UInt8 :=
  ws.flatMap fun w => [UInt8.ofNat (w / 256), UInt8.ofNat w]

theorem bytesOf_pairs {n : ℕ} {bytes : List UInt8} (h : bytes.length = 2 * n) :
    bytesOf (pairs bytes) = bytes := by
  induction n generalizing bytes with
  | zero =>
    obtain rfl := List.length_eq_zero_iff.mp h
    rfl
  | succ n ih =>
    match bytes, h with
    | a :: b :: bytes, h =>
      have hb := b.toNat_lt
      have hhigh : UInt8.ofNat ((256 * a.toNat + b.toNat) / 256) = a := by
        rw [show (256 * a.toNat + b.toNat) / 256 = a.toNat by omega, UInt8.ofNat_toNat]
      have hlow : UInt8.ofNat (256 * a.toNat + b.toNat) = b := by
        apply UInt8.toNat_inj.mp
        rw [UInt8.toNat_ofNat']
        omega
      have hrest := ih (show bytes.length = 2 * n by simpa [Nat.mul_succ] using h)
      rw [pairs, bytesOf, List.flatMap_cons, hhigh, hlow, ← bytesOf, hrest]
      rfl

theorem bytesOf_words (v : Vector UInt8 16) : bytesOf (words v) = v.toList :=
  bytesOf_pairs (n := 8) (by simp)

theorem words_injective {v v' : Vector UInt8 16} (h : words v = words v') : v = v' := by
  apply Vector.toList_inj.mp
  rw [← bytesOf_words, h, bytesOf_words]

/-- `inet_pton` reads every text as the address it stands for. -/
def Reads (inetPton : List UInt8 → Option (Vector UInt8 16)) : Prop :=
  ∀ t v, Denotes t (words v) → inetPton t = some v

def readAddress (t : List UInt8) : Option (Vector UInt8 16) :=
  (read t).bind fun ws =>
    if h : (bytesOf ws).length = 16 then some ⟨(bytesOf ws).toArray, by simpa using h⟩ else none

theorem reads_readAddress : Reads readAddress := by
  intro t v h
  have hlen : (bytesOf (words v)).length = 16 := by simp [bytesOf_words]
  rw [readAddress, read_of_denotes h, Option.bind_some, dif_pos hlen, Option.some_inj]
  apply Vector.toList_inj.mp
  simp [Vector.toList, bytesOf_words]

theorem bracket_not_mem_numeral (n : ℕ) : 93 ∉ numeral 10 n := by
  intro hmem
  obtain ⟨d, hd, heq⟩ := exists_digit_of_mem (by decide) hmem
  exact (digit_ne (by omega)).2 heq.symm

theorem numeral_injective {n n' : ℕ} (h : numeral 10 n = numeral 10 n') : n = n' := by
  have hvalue := congrArg (value 10) h
  rwa [value_numeral (by decide) (by decide), value_numeral (by decide) (by decide),
    Option.some_inj] at hvalue

theorem create_eq {inetPton : List UInt8 → Option (Vector UInt8 16)} {t : List UInt8}
    {v : Vector UInt8 16} (hread : inetPton t = some v) (host : Endian) (port : BitVec 16) :
    create inetPton host t port = some (new host v port) := by
  rw [create, hread]
  rfl

theorem text_injective {v v' : Vector UInt8 16} {port port' : BitVec 16}
    {t t' : List UInt8} (h : Denotes t (words v)) (h' : Denotes t' (words v'))
    (heq : t' ++ 93 :: 58 :: numeral 10 port'.toNat = t ++ 93 :: 58 :: numeral 10 port.toNat) :
    v' = v ∧ port' = port := by
  have hfree : 93 ∉ t' := h'.not_mem rfl (by decide)
  obtain ⟨rfl, -, hport⟩ := (List.append_cons_inj_of_notMem hfree
    (by simp [bracket_not_mem_numeral])).mp heq
  exact ⟨words_injective (h'.unique h),
    BitVec.eq_of_toNat_eq (numeral_injective (List.cons.inj hport).2)⟩

/-- The printed text is a valid text of the address, which `Create` reads back; no other address
is printed in the same way. -/
theorem insert_faithful (host : Endian) (v : Vector UInt8 16) (port : BitVec 16) :
    ∃ t, insert host (new host v port) = 91 :: (t ++ 93 :: 58 :: numeral 10 port.toNat) ∧
      Denotes t (words v) ∧ (∀ v', Denotes t (words v') → v' = v) ∧
      (∀ inetPton, Reads inetPton → ∃ m, create inetPton host t port = some m ∧
        operatorEq (m.getAddr host) ((new host v port).getAddr host) = true) ∧
      ∀ v' port', insert host (new host v' port') = insert host (new host v port) →
        v' = v ∧ port' = port := by
  have hprint : ∀ v port, ∃ t,
      insert host (new host v port) = 91 :: (t ++ 93 :: 58 :: numeral 10 port.toNat) ∧
        Denotes t (words v) := by
    intro v port
    obtain ⟨t, ht, hdenotes⟩ := insert_eq host (new host v port)
    rw [new, swap_swap host port rfl] at ht
    exact ⟨t, ht, hdenotes⟩
  obtain ⟨t, ht, hdenotes⟩ := hprint v port
  refine ⟨t, ht, hdenotes, fun v' h' => words_injective (h'.unique hdenotes), ?_, ?_⟩
  · intro inetPton hreads
    exact ⟨_, create_eq (hreads t v hdenotes) host port, operatorEq_self _⟩
  · intro v' port' heq
    obtain ⟨t', ht', hdenotes'⟩ := hprint v' port'
    rw [ht, ht', List.cons_inj_right] at heq
    exact text_injective hdenotes hdenotes' heq

def loopback : Vector UInt8 16 := #v[0, 0, 0, 0, 0, 0, 0, 0, 0, 0, 0, 0, 0, 0, 0, 1]

theorem insert_faithful_loopback :
    insert .little (new .little loopback 80) = [91, 58, 58, 49, 93, 58, 56, 48] ∧
      ∃ m, create readAddress .little [58, 58, 49] 80 = some m ∧
        operatorEq (m.getAddr .little) ((new .little loopback 80).getAddr .little) = true := by
  have htext : insert .little (new .little loopback 80) = [91, 58, 58, 49, 93, 58, 56, 48] := by
    decide +kernel
  obtain ⟨t, ht, -, -, hcreate, -⟩ := insert_faithful .little loopback 80
  have hport : numeral 10 (80 : BitVec 16).toNat = [56, 48] := by decide +kernel
  have hsplit : [58, 58, 49] ++ [93, 58, 56, 48] = t ++ [93, 58, 56, 48] := by
    rwa [htext, hport, List.cons_inj_right] at ht
  obtain rfl := List.append_cancel_right hsplit
  exact ⟨htext, hcreate readAddress reads_readAddress⟩

end IPv6Address

namespace IPv4Address

def octets (a : BitVec 32) : Vector UInt8 4 :=
  #v[.ofNat (a.toNat / 2 ^ 24), .ofNat (a.toNat / 2 ^ 16), .ofNat (a.toNat / 2 ^ 8), .ofNat a.toNat]

def dotted (v : Vector UInt8 4) : List UInt8 :=
  [46].intercalate (v.toList.map fun x => numeral 10 x.toNat)

/-- `inet_pton` reads four decimal numbers as the bytes of the address. -/
def Reads (inetPton : List UInt8 → Option (Vector UInt8 4)) : Prop :=
  ∀ v, inetPton (dotted v) = some v

theorem octet_eq (a : BitVec 32) (k : ℕ) :
    octet (a >>> k) = numeral 10 (UInt8.ofNat (a.toNat / 2 ^ k)).toNat := by
  have hand : ((a >>> k) &&& 0xff).toNat = a.toNat / 2 ^ k % 2 ^ 8 := by
    rw [BitVec.toNat_and, BitVec.toNat_ushiftRight, Nat.shiftRight_eq_div_pow]
    exact Nat.and_two_pow_sub_one_eq_mod _ 8
  rw [octet, hand, UInt8.toNat_ofNat']

theorem insert_eq (host : Endian) (a : BitVec 32) (port : BitVec 16) :
    insert host (new host a port) = dotted (octets a) ++ 58 :: numeral 10 port.toNat := by
  have hlow := octet_eq a 0
  rw [BitVec.ushiftRight_zero, pow_zero, Nat.div_one] at hlow
  simp only [insert, new, swap_swap _ _ (show 32 % 8 = 0 from rfl),
    swap_swap _ _ (show 16 % 8 = 0 from rfl), octet_eq, hlow]
  simp [dotted, octets]

theorem octets_toList (a : BitVec 32) : (octets a).toList = (leBytes 4 a.toNat).reverse := by
  simp [octets, leBytes, Nat.div_div_eq_div_mul]

theorem create_eq {inetPton : List UInt8 → Option (Vector UInt8 4)} (hreads : Reads inetPton)
    (host : Endian) (a : BitVec 32) (port : BitVec 16) :
    create inetPton host (dotted (octets a)) port = some (new host a port) := by
  have ha : a.toNat < 256 ^ 4 := a.isLt
  have hnumber : byteswapOnLittleEndian host (.ofNat 32 (ofMemory host (octets a).toList)) = a := by
    rw [swap_ofMemory host (by simp), octets_toList, List.reverse_reverse, ofLeBytes_leBytes ha,
      BitVec.ofNat_toNat, BitVec.setWidth_eq]
  have haddr : .ofNat 32 (ofMemory host (octets a).toList) = byteswapOnLittleEndian host a := by
    rw [← hnumber, swap_swap host _ rfl]
    simp only [hnumber]
  rw [create, hreads, Option.map_some, haddr]
  rfl

def readOctet (g : List UInt8) : Option UInt8 :=
  (value 10 g).bind fun n => if n < 256 then some (.ofNat n) else none

def readAddress (t : List UInt8) : Option (Vector UInt8 4) :=
  ((t.splitOn 46).mapM readOctet).bind fun bytes =>
    if h : bytes.length = 4 then some ⟨bytes.toArray, by simpa using h⟩ else none

theorem mapM_readOctet (bytes : List UInt8) :
    (bytes.map fun x => numeral 10 x.toNat).mapM readOctet = some bytes := by
  induction bytes with
  | nil => rfl
  | cons x bytes ih =>
    have hx : readOctet (numeral 10 x.toNat) = some x := by
      rw [readOctet, value_numeral (by decide) (by decide), Option.bind_some, if_pos x.toNat_lt,
        UInt8.ofNat_toNat]
    rw [List.map_cons, List.mapM_cons, hx, ih]
    rfl

theorem reads_readAddress : Reads readAddress := by
  intro v
  have hpieces : (dotted v).splitOn 46 = v.toList.map fun x => numeral 10 x.toNat := by
    apply List.splitOn_intercalate
    · intro g hg hmem
      obtain ⟨x, -, rfl⟩ := List.mem_map.mp hg
      obtain ⟨d, hd, heq⟩ := exists_digit_of_mem (by decide) hmem
      interval_cases d <;> cases heq
    · intro hnil
      have hlen := congrArg List.length hnil
      simp at hlen
  rw [readAddress, hpieces, mapM_readOctet, Option.bind_some, dif_pos (by simp), Option.some_inj]
  apply Vector.toList_inj.mp
  simp [Vector.toList]

end IPv4Address

def IPv6Address.ShowsPort (host : Endian) (m : SockaddrIn6) (port : BitVec 16) : Prop :=
  getPort host m = port.setWidth 32 ∧
    ∃ t, insert host m = t ++ 93 :: 58 :: numeral 10 port.toNat

theorem IPv6Address.showsPort {host : Endian} {m : SockaddrIn6} {port : BitVec 16}
    (hm : m.sin6Port = byteswapOnLittleEndian host port) : ShowsPort host m port := by
  have hswap : byteswapOnLittleEndian host m.sin6Port = port := by rw [hm, swap_swap host _ rfl]
  obtain ⟨t, ht, -⟩ := insert_eq host m
  rw [hswap] at ht
  exact ⟨by rw [getPort, hswap], 91 :: t, ht⟩

namespace IPv4Address

/-- The ways into an IPv4 address and out of it agree, and so do those of the port of an IPv6
address. -/
structure Agrees (host : Endian) (a : BitVec 32) (port port' : BitVec 16) : Prop where
  text : insert host (new host a port) = dotted (octets a) ++ 58 :: numeral 10 port.toNat
  created : ∀ inetPton, Reads inetPton →
    ∃ m, create inetPton host (dotted (octets a)) port' = some m ∧
      operatorEq ((setPort host m port).getAddr host) ((new host a port).getAddr host) = true ∧
      getPort (setPort host m port) = port.setWidth 32
  returned : getPort (new host a port) = port.setWidth 32
  new6 : ∀ v, IPv6Address.ShowsPort host (IPv6Address.new host v port) port
  create6 : ∀ inetPton t m, IPv6Address.create inetPton host t port = some m →
    IPv6Address.ShowsPort host m port
  setPort6 : ∀ m, IPv6Address.ShowsPort host (IPv6Address.setPort host m port) port

theorem byteswap_eq_iff (port : BitVec 16) :
    byteswap port = port ↔ port.toNat / 256 = port.toNat % 256 := by
  have hport := port.isLt
  have hvalue : (byteswap port).toNat = port.toNat / 256 + 256 * (port.toNat % 256) := by
    simp only [byteswap, ByteArray.byteswap, leBytes, List.reverse_cons, List.reverse_nil,
      List.nil_append, List.singleton_append, ofLeBytes, BitVec.toNat_ofNat, UInt8.toNat_ofNat']
    have hhigh : port.toNat / 256 < 2 ^ 8 := by omega
    rw [Nat.mod_eq_of_lt hhigh, Nat.mod_eq_of_lt (by omega)]
    rfl
  rw [← BitVec.toNat_inj, hvalue]
  omega

theorem getPort_iff {host : Endian} {m : SockaddrIn} {port : BitVec 16}
    (hm : m.sinPort = byteswapOnLittleEndian host port) :
    getPort m = port.setWidth 32 ↔ host = .big ∨ port.toNat / 256 = port.toNat % 256 := by
  have hwidth : getPort m = port.setWidth 32 ↔ byteswapOnLittleEndian host port = port := by
    rw [getPort, hm]
    constructor
    · intro h
      have htrunc := congrArg (BitVec.setWidth 16) h
      simpa using htrunc
    · intro h
      rw [h]
  rw [hwidth]
  cases host with
  | little => simpa [byteswapOnLittleEndian] using byteswap_eq_iff port
  | big => simp [byteswapOnLittleEndian]

/-- Everything agrees except the result of `getPort` for IPv4 on a little-endian host, which has
its two bytes exchanged. -/
theorem agrees_iff (host : Endian) (a : BitVec 32) (port port' : BitVec 16) :
    Agrees host a port port' ↔ host = .big ∨ port.toNat / 256 = port.toNat % 256 := by
  constructor
  · intro h
    exact (getPort_iff rfl).mp h.returned
  · intro h
    refine ⟨insert_eq host a port, fun inetPton hreads => ?_, (getPort_iff rfl).mpr h,
      fun v => IPv6Address.showsPort rfl, fun inetPton t m hm => ?_,
      fun m => IPv6Address.showsPort rfl⟩
    · exact ⟨_, create_eq hreads host a port', operatorEq_self _, (getPort_iff rfl).mpr h⟩
    · obtain ⟨bytes, -, rfl⟩ := Option.map_eq_some_iff.mp hm
      exact IPv6Address.showsPort rfl

-- The two bytes of the port 20560 are equal.
theorem agrees_iff_localhost :
    ∃ m, create readAddress .little (dotted #v[127, 0, 0, 1]) 80 = some m ∧
      operatorEq ((setPort .little m 20560).getAddr .little)
        ((new .little 0x7F000001 20560).getAddr .little) = true ∧
      getPort (setPort .little m 20560) = 20560 := by
  have h : Agrees .little 0x7F000001 20560 80 :=
    (agrees_iff .little 0x7F000001 20560 80).mpr (.inr (by decide))
  exact h.created readAddress reads_readAddress

theorem getPort_swapped : getPort (new .little 0x7F000001 80) = 20480 := by decide +kernel

end IPv4Address
end ApexStorm.Address
