import ApexStorm.ByteArray.Codec
import ApexStorm.ByteArray.Refinement

/-!
# What is written is read back

`Writes b e m xs` says that `m` puts the bytes `xs` at the position of every array
with byte order `e`, `Reads b e m v xs` that `m` returns `v` when the array holds
`xs` at its position. Both compose along `bind`, so a list of typed values round
trips once the reader of each kind undoes its writer.
-/

namespace ApexStorm.ByteArray
open Lib Lib.Chunks Lib.Radix

variable {b : ℕ} {e : Endian} {α β : Type}

def Writes (b : ℕ) (e : Endian) (m : Method Unit) (xs : List UInt8) : Prop :=
  ∀ ba, Inv b ba → ba.endian = e →
    ∃ ba', m.run ba = .ok () ba' ∧ Inv b ba' ∧ ba'.endian = e ∧
      ba'.position = ba.position + xs.length ∧ ba'.content = overlay ba.content ba.position xs

def Reads (b : ℕ) (e : Endian) (m : Method α) (v : α) (xs : List UInt8) : Prop :=
  ∀ ba rest, Inv b ba → ba.endian = e → ba.content.drop ba.position = xs ++ rest →
    ∃ ba', m.run ba = .ok v ba' ∧ Inv b ba' ∧ ba'.endian = e ∧
      ba'.position = ba.position + xs.length ∧ ba'.content = ba.content

namespace Writes

theorem nil : Writes b e (pure ()) [] := by
  intro ba hinv he
  exact ⟨ba, EStateM.run_pure .., hinv, he, rfl, (overlay_nil _ _).symm⟩

theorem bytes (xs : List UInt8) : Writes b e (write xs) xs := by
  intro ba hinv he
  obtain ⟨ba', hrun, hinv', he', hpos, hcont⟩ := hinv.run_write xs
  exact ⟨ba', hrun, hinv', he'.trans he, hpos, hcont⟩

theorem bind {m m' : Method Unit} {xs ys : List UInt8} (h : Writes b e m xs)
    (h' : Writes b e m' ys) : Writes b e (do m; m') (xs ++ ys) := by
  intro ba hinv he
  obtain ⟨mid, hrun, hmid, hmide, hmpos, hmcont⟩ := h ba hinv he
  obtain ⟨ba', hrun', hinv', he', hpos, hcont⟩ := h' mid hmid hmide
  refine ⟨ba', ?_, hinv', he', ?_, ?_⟩
  · simp only [EStateM.run_bind, hrun, hrun']
  · rw [hpos, hmpos, List.length_append, Nat.add_assoc]
  · have hle : ba.position ≤ ba.content.length := by
      rw [hinv.content_length]
      exact hinv.position_le
    rw [hcont, hmcont, hmpos, overlay_overlay xs ys hle]

theorem get {f : ByteArray → Method Unit} {xs : List UInt8}
    (h : ∀ ba, ba.endian = e → Writes b e (f ba) xs) : Writes b e (do let ba ← get; f ba) xs := by
  intro ba hinv he
  simpa only [EStateM.run_bind, EStateM.run_get] using h ba he ba hinv he

end Writes

namespace Reads

theorem nil (v : α) : Reads b e (pure v) v [] := by
  intro ba rest hinv he hleft
  exact ⟨ba, EStateM.run_pure .., hinv, he, rfl, rfl⟩

theorem bytes {xs : List UInt8} (hxs : xs ≠ []) : Reads b e (read xs.length) xs xs := by
  intro ba rest hinv he hleft
  have hlen := congrArg List.length hleft
  rw [List.length_drop, hinv.content_length, List.length_append] at hlen
  obtain ⟨ba', hrun, hinv', he', hpos, -, hcont⟩ :=
    hinv.run_read (List.length_pos_of_ne_nil hxs) (by omega)
  rw [slice, hleft, List.take_left] at hrun
  exact ⟨ba', hrun, hinv', he'.trans he, hpos, hcont⟩

theorem bind {m : Method α} {f : α → Method β} {v : α} {w : β} {xs ys : List UInt8}
    (h : Reads b e m v xs) (h' : Reads b e (f v) w ys) : Reads b e (m >>= f) w (xs ++ ys) := by
  intro ba rest hinv he hleft
  rw [List.append_assoc] at hleft
  obtain ⟨mid, hrun, hmid, hmide, hmpos, hmcont⟩ := h ba _ hinv he hleft
  have hnext : mid.content.drop mid.position = ys ++ rest := by
    rw [hmcont, hmpos, ← List.drop_drop, hleft, List.drop_left]
  obtain ⟨ba', hrun', hinv', he', hpos, hcont⟩ := h' mid rest hmid hmide hnext
  refine ⟨ba', ?_, hinv', he', ?_, hcont.trans hmcont⟩
  · simp only [EStateM.run_bind, hrun, hrun']
  · rw [hpos, hmpos, List.length_append, Nat.add_assoc]

theorem map {m : Method α} {v : α} {xs : List UInt8} (f : α → β) (h : Reads b e m v xs) :
    Reads b e (do return f (← m)) (f v) xs := by
  have hbind := h.bind (nil (f v)) (f := fun x => pure (f x))
  rwa [List.append_nil] at hbind

theorem get {f : ByteArray → Method α} {v : α} {xs : List UInt8}
    (h : ∀ ba, ba.endian = e → Reads b e (f ba) v xs) : Reads b e (do let ba ← get; f ba) v xs := by
  intro ba rest hinv he hleft
  simpa only [EStateM.run_bind, EStateM.run_get] using h ba he ba rest hinv he hleft

end Reads

section fixed
variable {host : Endian} {n v : ℕ}

theorem leBytes_byteswap (n v : ℕ) : leBytes n (byteswap n v) = (leBytes n v).reverse := by
  have h := leBytes_ofLeBytes (leBytes n v).reverse
  rwa [List.length_reverse, leBytes_length] at h

theorem byteswap_byteswap (hv : v < 256 ^ n) : byteswap n (byteswap n v) = v := by
  rw [byteswap, leBytes_byteswap, List.reverse_reverse, ofLeBytes_leBytes hv]

theorem toMemory_byteswap (h : e ≠ host) : toMemory host n (byteswap n v) = toMemory e n v := by
  cases e <;> cases host <;> simp_all [toMemory, leBytes_byteswap]

theorem ofMemory_toMemory (hv : v < 256 ^ n) : ofMemory e (toMemory e n v) = v := by
  cases e <;> simp [ofMemory, toMemory, ofLeBytes_leBytes hv]

theorem byteswap_ofMemory (h : e ≠ host) (hv : v < 256 ^ n) :
    byteswap n (ofMemory host (toMemory e n v)) = v := by
  cases e <;> cases host <;> first | exact absurd rfl h | exact byteswap_byteswap hv

theorem Writes.fixed (host : Endian) (n v : ℕ) :
    Writes b e (writeFixed host n v) (toMemory e n v) := by
  refine Writes.get fun ba he => ?_
  by_cases h : ba.endian = host
  · rw [if_neg (not_not.mpr h), ← he, h]
    exact Writes.bytes _
  · rw [if_pos h, ← toMemory_byteswap (he ▸ h)]
    exact Writes.bytes _

theorem Reads.fixed (hn : 0 < n) (hv : v < 256 ^ n) :
    Reads b e (readFixed host n) v (toMemory e n v) := by
  have hne : toMemory e n v ≠ [] := by
    apply List.ne_nil_of_length_pos
    rwa [toMemory_length]
  have hread := Reads.bytes (b := b) (e := e) hne
  rw [toMemory_length] at hread
  rw [← List.append_nil (toMemory e n v)]
  refine hread.bind (Reads.get fun ba he => ?_)
  by_cases h : ba.endian = host
  · rw [if_pos h, ← h, he, ofMemory_toMemory hv]
    exact Reads.nil v
  · rw [if_neg h, byteswap_ofMemory (he ▸ h) hv]
    exact Reads.nil v

end fixed

section varint
variable {slots bits v : ℕ}

theorem toNat_group (v : ℕ) : (UInt8.ofNat (v &&& 0x7F ||| 0x80)).toNat = v % 128 + 128 := by
  have hand : v &&& 0x7F = v % 128 := Nat.and_two_pow_sub_one_eq_mod v 7
  have hor := Nat.two_pow_add_eq_or_of_lt (i := 7) (Nat.mod_lt v (by decide)) 1
  have hbyte : v % 128 ||| 0x80 = v % 128 + 128 := by
    rw [Nat.or_comm]
    simpa [Nat.add_comm] using hor.symm
  rw [hand, hbyte, UInt8.toNat_ofNat']
  omega

theorem encodeVarint_spec (hs : 0 < slots) (hv : v < 128 ^ slots) :
    ∃ xs, encodeVarint slots v = some xs ∧ IsGroupCode xs ∧ groupValue xs = v ∧
      128 ^ (xs.length - 1) ≤ max v 1 := by
  induction slots generalizing v with
  | zero => exact absurd hs (lt_irrefl 0)
  | succ slots ih =>
    by_cases hbig : v ≥ 0x80
    · have hdiv : v / 128 < 128 ^ slots := Nat.div_lt_of_lt_mul (by rwa [← pow_succ'])
      have hpos : 0 < slots := by
        rcases Nat.eq_zero_or_pos slots with rfl | h
        · simp at hv; omega
        · exact h
      obtain ⟨xs, henc, hcode, hval, hlen⟩ := ih hpos hdiv
      have hx := toNat_group v
      refine ⟨UInt8.ofNat (v &&& 0x7F ||| 0x80) :: xs, ?_, hcode.cons (by omega), ?_, ?_⟩
      · have hshift : v >>> 7 = v / 128 := Nat.shiftRight_eq_div_pow v 7
        simp only [encodeVarint, if_pos hbig, hshift, henc]
        rfl
      · rw [groupValue, hval, hx]
        omega
      · have hlen' : (UInt8.ofNat (v &&& 0x7F ||| 0x80) :: xs).length - 1 = xs.length - 1 + 1 := by
          have := List.length_pos_of_ne_nil hcode.ne_nil
          simp only [List.length_cons]
          omega
        rw [hlen', pow_succ]
        omega
    · have hx : (UInt8.ofNat v).toNat = v := by
        rw [UInt8.toNat_ofNat']
        omega
      refine ⟨[UInt8.ofNat v], by simp only [encodeVarint, if_neg hbig], ?_, ?_, by simp⟩
      · show (UInt8.ofNat v).toNat < 128
        omega
      · rw [groupValue, groupValue, hx]
        omega

theorem Reads.uint8 (x : UInt8) : Reads b e readFuint8 x [x] := by
  have h := (Reads.bytes (b := b) (e := e) (List.cons_ne_nil x [])).map (fun xs => xs.headD 0)
  exact h

theorem or_shiftLeft {r i x : ℕ} (hr : r < 2 ^ i) (hx : r + 2 ^ i * x < 2 ^ bits) :
    r ||| (x <<< i) % 2 ^ bits = r + 2 ^ i * x := by
  have hor := Nat.two_pow_add_eq_or_of_lt hr x
  rw [Nat.shiftLeft_eq, Nat.mul_comm x, Nat.mod_eq_of_lt (by omega), Nat.or_comm, ← hor,
    Nat.add_comm]

theorem Reads.groups {fuel i r : ℕ} {xs : List UInt8} (hcode : IsGroupCode xs) (hr : r < 2 ^ i)
    (hlen : i + 7 * (xs.length - 1) < bits) (hfuel : xs.length ≤ fuel)
    (hbits : r + 2 ^ i * groupValue xs < 2 ^ bits) :
    Reads b e (varintLoop bits fuel i r) (r + 2 ^ i * groupValue xs) xs := by
  induction xs generalizing fuel i r with
  | nil => exact hcode.elim
  | cons x xs ih =>
    obtain ⟨fuel, rfl⟩ : ∃ f, fuel = f + 1 := Nat.exists_eq_succ_of_ne_zero (by
      simp only [List.length_cons] at hfuel
      omega)
    have hi : i < bits := by omega
    rw [varintLoop, if_pos hi]
    have hx := x.toNat_lt
    cases xs with
    | nil =>
      have hlast : x.toNat < 128 := hcode
      have hval : groupValue [x] = x.toNat := by
        simp only [groupValue]
        omega
      rw [hval] at hbits ⊢
      change Reads b e _ _ ([x] ++ [])
      refine (Reads.uint8 x).bind ?_
      rw [if_pos (UInt8.lt_iff_toNat_lt.mpr hlast), or_shiftLeft hr hbits]
      exact Reads.nil _
    | cons y ys =>
      obtain ⟨hcont, hrest⟩ := hcode
      have hval : groupValue (x :: y :: ys) = x.toNat % 128 + 128 * groupValue (y :: ys) := rfl
      have hand : x.toNat &&& 0x7f = x.toNat % 128 := Nat.and_two_pow_sub_one_eq_mod x.toNat 7
      have hpow : 2 ^ (i + 7) = 2 ^ i * 128 := by rw [pow_add]; norm_num
      have hsum : r + 2 ^ i * groupValue (x :: y :: ys) =
          r + 2 ^ i * (x.toNat % 128) + 2 ^ (i + 7) * groupValue (y :: ys) := by
        rw [hval, hpow]
        ring
      have hlow : r + 2 ^ i * (x.toNat % 128) < 2 ^ (i + 7) := by
        have := Nat.mod_lt x.toNat (show 128 > 0 by decide)
        rw [hpow]
        nlinarith
      rw [hsum] at hbits ⊢
      have hnot : ¬ x < 0x80 := fun h => by
        have := UInt8.lt_iff_toNat_lt.mp h
        simp at this
        omega
      refine (Reads.uint8 x).bind ?_
      rw [if_neg hnot, hand, or_shiftLeft hr (by omega)]
      exact ih hrest hlow (by simp only [List.length_cons] at hlen ⊢; omega)
        (by simp only [List.length_cons] at hfuel ⊢; omega) hbits

theorem Writes.varint {xs : List UInt8} (h : encodeVarint slots v = some xs) :
    Writes b e (writeVarint slots v) xs := by
  rw [writeVarint, h]
  exact Writes.bytes xs

theorem Reads.varint {xs : List UInt8} (hcode : IsGroupCode xs) (hval : groupValue xs = v)
    (hlen : 128 ^ (xs.length - 1) ≤ max v 1) (hv : v < 2 ^ bits) (hbits : 0 < bits) :
    Reads b e (varintLoop bits bits 0 0) v xs := by
  have hshort : 7 * (xs.length - 1) < bits := by
    have hmax : max v 1 < 2 ^ bits := max_lt hv (Nat.one_lt_two_pow (by omega))
    have hpow : 2 ^ (7 * (xs.length - 1)) < 2 ^ bits := by
      rw [pow_mul]
      exact hlen.trans_lt hmax
    exact (Nat.pow_lt_pow_iff_right (by decide)).mp hpow
  have h : Reads b e (varintLoop bits bits 0 0) (0 + 2 ^ 0 * groupValue xs) xs :=
    Reads.groups hcode (by simp) (by omega) (by omega) (by simpa [hval] using hv)
  simpa [hval] using h

theorem exists_varint (hs : 0 < slots) (hslots : 2 ^ bits ≤ 128 ^ slots) (hv : v < 2 ^ bits)
    (hbits : 0 < bits) :
    ∃ xs, Writes b e (writeVarint slots v) xs ∧ Reads b e (varintLoop bits bits 0 0) v xs := by
  obtain ⟨xs, henc, hcode, hval, hlen⟩ := encodeVarint_spec hs (hv.trans_le hslots)
  exact ⟨xs, Writes.varint henc, Reads.varint hcode hval hlen hv hbits⟩

end varint

section zigzag
variable {k : ℕ}

theorem toNat_and_one (u : BitVec (k + 1)) : (u &&& 1).toNat = u.toNat % 2 := by
  have hone : (1 : BitVec (k + 1)).toNat = 1 := Nat.mod_eq_of_lt (Nat.one_lt_two_pow (by omega))
  rw [BitVec.toNat_and, hone, Nat.and_one_is_mod]

theorem decodeZigzag_even {u : BitVec (k + 1)} (h : u.toNat % 2 = 0) :
    decodeZigzag u = u >>> 1 := by
  have hand : u &&& 1 = 0#(k + 1) := BitVec.eq_of_toNat_eq ((toNat_and_one u).trans h)
  rw [decodeZigzag, hand, BitVec.neg_zero, BitVec.xor_zero]

theorem decodeZigzag_odd {u : BitVec (k + 1)} (h : u.toNat % 2 = 1) :
    decodeZigzag u = ~~~(u >>> 1) := by
  have hand : u &&& 1 = 1#(k + 1) := by
    apply BitVec.eq_of_toNat_eq
    rw [toNat_and_one, h, BitVec.toNat_ofNat, Nat.mod_eq_of_lt (Nat.one_lt_two_pow (by omega))]
  rw [decodeZigzag, hand, BitVec.neg_one_eq_allOnes, BitVec.xor_allOnes]

theorem slt_zero_iff (v : BitVec (k + 1)) : v.slt 0 = true ↔ 2 ^ k ≤ v.toNat := by
  change v.slt 0#(k + 1) = true ↔ _
  rw [BitVec.slt_zero_eq_msb, BitVec.msb_eq_decide, decide_eq_true_iff]
  rfl

theorem toNat_encodeZigzag_neg {v : BitVec (k + 1)} (h : 2 ^ k ≤ v.toNat) :
    (encodeZigzag v).toNat = 2 * (2 ^ (k + 1) - v.toNat) - 1 := by
  have hlt := v.isLt
  have hpow : 2 ^ (k + 1) = 2 * 2 ^ k := pow_succ' 2 k
  have hpos : 0 < 2 ^ k := Nat.two_pow_pos k
  have hsum : -v * 2 - 1 = ~~~v + -v := by
    rw [BitVec.not_eq_neg_add]
    grind
  have hneg : (-v).toNat = 2 ^ (k + 1) - v.toNat := by
    rw [BitVec.toNat_neg, Nat.mod_eq_of_lt (by omega)]
  rw [encodeZigzag, if_pos ((slt_zero_iff v).mpr h), hsum, BitVec.toNat_add, BitVec.toNat_not, hneg,
    Nat.mod_eq_of_lt (by omega)]
  omega

theorem toNat_encodeZigzag_nonneg {v : BitVec (k + 1)} (h : v.toNat < 2 ^ k) :
    (encodeZigzag v).toNat = 2 * v.toNat := by
  have hpow : 2 ^ (k + 1) = 2 * 2 ^ k := pow_succ' 2 k
  have hnot : ¬ v.slt 0 = true := by
    rw [slt_zero_iff]
    omega
  have htwo : v * 2 = v + v := BitVec.mul_two
  rw [encodeZigzag, if_neg hnot, htwo, BitVec.toNat_add, Nat.mod_eq_of_lt (by omega)]
  omega

theorem decodeZigzag_encodeZigzag {w : ℕ} (v : BitVec w) : decodeZigzag (encodeZigzag v) = v := by
  have hlt := v.isLt
  cases w with
  | zero => exact Subsingleton.elim _ _
  | succ k =>
  apply BitVec.eq_of_toNat_eq
  rcases Nat.lt_or_ge v.toNat (2 ^ k) with h | h
  · have hu := toNat_encodeZigzag_nonneg h
    rw [decodeZigzag_even (by omega), BitVec.toNat_ushiftRight, Nat.shiftRight_eq_div_pow, hu]
    omega
  · have hu := toNat_encodeZigzag_neg h
    rw [decodeZigzag_odd (by omega), BitVec.toNat_not, BitVec.toNat_ushiftRight,
      Nat.shiftRight_eq_div_pow, hu]
    omega

end zigzag

theorem Reads.string {m : Method α} {v : α} {xs : List UInt8} (size : α → ℕ) {s : List UInt8}
    (h : Reads b e m v xs) (hs : size v = s.length) :
    Reads b e (do readChars (size (← m))) s (xs ++ s) := by
  refine h.bind ?_
  rw [hs, readChars]
  by_cases h0 : s.length = 0
  · rw [if_pos h0, List.length_eq_zero_iff.mp h0]
    exact Reads.nil []
  · rw [if_neg h0]
    exact Reads.bytes (List.ne_nil_of_length_pos (Nat.pos_of_ne_zero h0))

def RoundTrips (b : ℕ) (e : Endian) (w : Method Unit) (r : Method α) (v : α) : Prop :=
  ∃ xs, Writes b e w xs ∧ Reads b e r v xs

namespace RoundTrips
variable {host : Endian} {n v : ℕ} {w : Method Unit} {r : Method α} {x : α}

theorem map (f : α → β) {y : β} (h : RoundTrips b e w r x) (hy : f x = y) :
    RoundTrips b e w (do return f (← r)) y := by
  obtain ⟨xs, hw, hr⟩ := h
  exact ⟨xs, hw, hy ▸ hr.map f⟩

theorem fixed (host : Endian) (hn : 0 < n) (hv : v < 256 ^ n) :
    RoundTrips b e (writeFixed host n v) (readFixed host n) v :=
  ⟨_, Writes.fixed host n v, Reads.fixed hn hv⟩

theorem uint8 (x : UInt8) : RoundTrips b e (writeFuint8 x) readFuint8 x :=
  ⟨[x], Writes.bytes [x], Reads.uint8 x⟩

theorem uint16 (x : UInt16) : RoundTrips b e (writeFuint16 host x) (readFuint16 host) x :=
  (fixed host (by decide) x.toNat_lt).map UInt16.ofNat (by simp)

theorem uint32 (x : UInt32) : RoundTrips b e (writeFuint32 host x) (readFuint32 host) x :=
  (fixed host (by decide) x.toNat_lt).map UInt32.ofNat (by simp)

theorem uint64 (x : UInt64) : RoundTrips b e (writeFuint64 host x) (readFuint64 host) x :=
  (fixed host (by decide) x.toNat_lt).map UInt64.ofNat (by simp)

theorem varint32 (x : UInt32) : RoundTrips b e (writeUint32 x) readUint32 x :=
  RoundTrips.map UInt32.ofNat
    (exists_varint (by decide) (by decide) x.toNat_lt (by decide)) (by simp)

theorem varint64 (x : UInt64) : RoundTrips b e (writeUint64 x) readUint64 x :=
  RoundTrips.map UInt64.ofNat
    (exists_varint (by decide) (by decide) x.toNat_lt (by decide)) (by simp)

theorem zigzag32 (x : Int32) : RoundTrips b e (writeInt32 x) readInt32 x := by
  have hx : Int32.ofBitVec (decodeZigzag (UInt32.ofBitVec (encodeZigzag x.toBitVec)).toBitVec) =
      x := by
    rw [decodeZigzag_encodeZigzag, Int32.ofBitVec_toBitVec]
  have h := RoundTrips.map (b := b) (e := e)
    (fun u : UInt32 => Int32.ofBitVec (decodeZigzag u.toBitVec))
    (varint32 (UInt32.ofBitVec (encodeZigzag x.toBitVec))) hx
  rw [writeInt32, readInt32]
  exact h

theorem zigzag64 (x : Int64) : RoundTrips b e (writeInt64 x) readInt64 x := by
  have hx : Int64.ofBitVec (decodeZigzag (UInt64.ofBitVec (encodeZigzag x.toBitVec)).toBitVec) =
      x := by
    rw [decodeZigzag_encodeZigzag, Int64.ofBitVec_toBitVec]
  have h := RoundTrips.map (b := b) (e := e)
    (fun u : UInt64 => Int64.ofBitVec (decodeZigzag u.toBitVec))
    (varint64 (UInt64.ofBitVec (encodeZigzag x.toBitVec))) hx
  rw [writeInt64, readInt64]
  exact h

theorem string (size : α → ℕ) {s : List UInt8} (h : RoundTrips b e w r x)
    (hs : size x = s.length) :
    RoundTrips b e (do w; write s) (do readChars (size (← r))) s := by
  obtain ⟨xs, hw, hr⟩ := h
  exact ⟨xs ++ s, hw.bind (Writes.bytes s), hr.string size hs⟩

theorem item (host : Endian) (i : Item) (hi : i.Fits) :
    RoundTrips b e (i.1.write host i.2) (i.1.read host) i.2 := by
  obtain ⟨k, x⟩ := i
  cases k with
  | fint8 => exact (uint8 x.toUInt8).map UInt8.toInt8 (by simp)
  | fuint8 => exact uint8 x
  | fint16 =>
    exact (fixed host (by decide) x.toUInt16.toNat_lt).map (fun v => (UInt16.ofNat v).toInt16)
      (by simp)
  | fuint16 => exact uint16 x
  | fint32 =>
    exact (fixed host (by decide) x.toUInt32.toNat_lt).map (fun v => (UInt32.ofNat v).toInt32)
      (by simp)
  | fuint32 => exact uint32 x
  | fint64 =>
    exact (fixed host (by decide) x.toUInt64.toNat_lt).map (fun v => (UInt64.ofNat v).toInt64)
      (by simp)
  | fuint64 => exact uint64 x
  | int32 => exact zigzag32 x
  | uint32 => exact varint32 x
  | int64 => exact zigzag64 x
  | uint64 => exact varint64 x
  | float => exact uint32 x
  | double => exact uint64 x
  | stringF16 => exact (uint16 _).string UInt16.toNat (UInt16.toNat_ofNat_of_lt' hi)
  | stringF32 => exact (uint32 _).string UInt32.toNat (UInt32.toNat_ofNat_of_lt' hi)
  | stringF64 => exact (uint64 _).string UInt64.toNat (UInt64.toNat_ofNat_of_lt' hi)
  | stringVint => exact (uint64 _).string UInt64.toNat (UInt64.toNat_ofNat_of_lt' hi)

theorem all (host : Endian) (items : List Item) (hfits : ∀ i ∈ items, i.Fits) :
    RoundTrips b e (writeAll host items) (readAll host (items.map Sigma.fst)) items := by
  induction items with
  | nil => exact ⟨[], Writes.nil, Reads.nil []⟩
  | cons i items ih =>
    obtain ⟨xs, hw, hr⟩ := item (b := b) (e := e) host i (hfits i (by simp))
    obtain ⟨ys, hw', hr'⟩ := ih fun j hj => hfits j (by simp [hj])
    exact ⟨xs ++ ys, hw.bind hw', hr.bind (hr'.map (i :: ·))⟩

end RoundTrips

theorem Inv.of_run {s : ByteArray} {es : List Event} {fresh : ℕ → UInt8} (hb : 1 ≤ b)
    (h : Run Step (new b fresh) es s) : Inv b s := by
  obtain ⟨f, -, hR⟩ := run_simulates hb h
  exact hR.inv

/-- Values written at the end of any reachable array are read back from there, and nothing is
left behind them. -/
theorem typed_round_trip (host : Endian) (b : ℕ) (hb : 1 ≤ b) (fresh : ℕ → UInt8)
    (es : List Event) (s : ByteArray) (hrun : Run Step (new b fresh) es s)
    (hend : s.position = s.size) (items : List Item) (hfits : ∀ i ∈ items, i.Fits) :
    ∃ s₁ s₂ s₃, (writeAll host items).run s = .ok () s₁ ∧
      (setPosition s.position).run s₁ = .ok () s₂ ∧ s₂.endian = s.endian ∧
      (readAll host (items.map Sigma.fst)).run s₂ = .ok items s₃ ∧ s₃.getReadSize = 0 := by
  have hinv := Inv.of_run hb hrun
  obtain ⟨xs, hw, hr⟩ := RoundTrips.all (b := b) (e := s.endian) host items hfits
  obtain ⟨s₁, hrun₁, hinv₁, he₁, hpos₁, hcont₁⟩ := hw s hinv rfl
  have hle : s.content.length ≤ s.position := by
    rw [hinv.content_length]
    exact hend.ge
  have happ : s₁.content = s.content ++ xs := by
    rw [hcont₁, overlay, List.take_of_length_le hle, List.drop_eq_nil_of_le (by omega),
      List.append_nil]
  have hsize₁ : s₁.size = s.size + xs.length := by
    rw [← hinv₁.content_length, happ, List.length_append, hinv.content_length]
  have hcap := hinv₁.size_le
  obtain ⟨s₂, hrun₂, hinv₂, he₂, hpos₂, hsize₂, hflat₂, -⟩ :=
    hinv₁.run_setPosition (v := s.position) (by omega)
  have hcont₂ : s₂.content = s.content ++ xs := by
    rw [← happ, content, content, hflat₂, hsize₂, max_eq_left (by omega)]
  have hleft : s₂.content.drop s₂.position = xs ++ [] := by
    rw [hcont₂, hpos₂, hend, ← hinv.content_length, List.drop_left, List.append_nil]
  obtain ⟨s₃, hrun₃, hinv₃, -, hpos₃, hcont₃⟩ := hr s₂ [] hinv₂ (he₂.trans he₁) hleft
  refine ⟨s₁, s₂, s₃, hrun₁, hrun₂, he₂.trans he₁, hrun₃, ?_⟩
  have hsize₃ : s₃.size = s₂.size := by
    rw [← hinv₃.content_length, hcont₃, hinv₂.content_length]
  rw [getReadSize]
  omega

theorem typed_round_trip_mixed :
    ∃ s, Run Step (new 2 fun _ => 0) [⟨.setIsLittleEndian true, 2, .done⟩] s ∧
      s.position = s.size ∧ ∃ s₁ s₂ s₃,
      (writeAll .little [⟨.int32, -300⟩, ⟨.fuint16, 7⟩, ⟨.stringF16, [1, 2, 3]⟩]).run s =
        .ok () s₁ ∧
      (setPosition s.position).run s₁ = .ok () s₂ ∧ s₂.endian = s.endian ∧
      (readAll .little [.int32, .fuint16, .stringF16]).run s₂ =
        .ok [⟨.int32, -300⟩, ⟨.fuint16, 7⟩, ⟨.stringF16, [1, 2, 3]⟩] s₃ ∧ s₃.getReadSize = 0 := by
  have hrun : Run Step (new 2 fun _ => 0) [⟨.setIsLittleEndian true, 2, .done⟩]
      { new 2 fun _ => 0 with endian := .little } := .cons ⟨trivial, rfl, rfl⟩ (.nil _)
  refine ⟨_, hrun, rfl, typed_round_trip .little 2 (by decide) _ _ _ hrun rfl
    [⟨.int32, -300⟩, ⟨.fuint16, 7⟩, ⟨.stringF16, [1, 2, 3]⟩] ?_⟩
  intro i hi
  fin_cases hi
  · trivial
  · trivial
  · exact (by decide : 3 < 2 ^ 16)

end ApexStorm.ByteArray
