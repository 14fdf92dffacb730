import ApexStorm.ByteArray.RoundTrip
import ApexStorm.ByteArray.Views
import ApexStorm.Lib.Decoder

/-!
# Typed reads on any content

What a typed read does depends on the bytes behind the position alone: `Decodes` says
that it computes a decoder of them, returns its value or throws, and leaves the
position behind the bytes that the decoder consumed.
-/

namespace ApexStorm.ByteArray
open Lib Lib.Chunks Lib.Radix

variable {b : ℕ} {e : Endian} {α β : Type}

def rest (ba : ByteArray) : List UInt8 := ba.content.drop ba.position

def Decodes (b : ℕ) (e : Endian) (m : Method α) (f : Decoder UInt8 α) : Prop :=
  ∀ ba, Inv b ba → ba.endian = e →
    ∃ ba', Inv b ba' ∧ ba'.endian = e ∧ ba'.content = ba.content ∧
      ba'.position = ba.position + (f ba.rest).used ∧
      m.run ba = match (f ba.rest).value with
        | some v => .ok v ba'
        | none => .error (.outOfRange "not enough len") ba'

theorem Inv.rest_length {ba : ByteArray} (h : Inv b ba) :
    ba.rest.length = ba.size - ba.position := by
  rw [rest, List.length_drop, h.content_length]

namespace Decodes

theorem pure (v : α) : Decodes b e (Pure.pure v) (Decoder.pure v) := by
  intro ba h he
  exact ⟨ba, h, he, rfl, rfl, rfl⟩

theorem read {n : ℕ} (hn : 0 < n) : Decodes b e (read n) (Decoder.take n) := by
  intro ba h he
  have hlen := h.rest_length
  rw [Decoder.take]
  split_ifs with hfits
  · obtain ⟨ba', hrun, h', he', hpos, -, hcont⟩ := h.run_read hn (by omega)
    exact ⟨ba', h', he'.trans he, hcont, hpos, hrun⟩
  · exact ⟨ba, h, he, rfl, rfl, Inv.run_read_short (by omega)⟩

theorem bind {m : Method α} {k : α → Method β} {f : Decoder UInt8 α} {g : α → Decoder UInt8 β}
    (hm : Decodes b e m f) (hk : ∀ v, Decodes b e (k v) (g v)) :
    Decodes b e (m >>= k) (f.bind g) := by
  intro ba h he
  obtain ⟨mid, hmid, hmide, hmcont, hmpos, hrun⟩ := hm ba h he
  rw [Decoder.bind]
  cases hv : (f ba.rest).value with
  | none =>
    rw [hv] at hrun
    refine ⟨mid, hmid, hmide, hmcont, hmpos, ?_⟩
    rw [EStateM.run_bind, hrun]
  | some v =>
    rw [hv] at hrun
    have hrest : mid.rest = ba.rest.drop (f ba.rest).used := by
      rw [rest, hmcont, hmpos, ← List.drop_drop, rest]
    obtain ⟨ba', h', he', hcont, hpos, hrun'⟩ := hk v mid hmid hmide
    rw [hrest] at hpos hrun'
    refine ⟨ba', h', he', hcont.trans hmcont, by rw [hpos, hmpos, Nat.add_assoc], ?_⟩
    rw [EStateM.run_bind, hrun]
    exact hrun'

theorem map {m : Method α} {f : Decoder UInt8 α} (g : α → β) (hm : Decodes b e m f) :
    Decodes b e (do return g (← m)) (f.map g) := by
  intro ba h he
  obtain ⟨ba', h', he', hcont, hpos, hrun⟩ := hm ba h he
  refine ⟨ba', h', he', hcont, hpos, ?_⟩
  rw [EStateM.run_bind, hrun, Decoder.map]
  cases (f ba.rest).value <;> rfl

end Decodes

section fixed
variable {host : Endian} {n : ℕ}

theorem byteswap_ofMemory_bytes {xs : List UInt8} (hlen : xs.length = n) (h : e ≠ host) :
    byteswap n (ofMemory host xs) = ofMemory e xs := by
  subst hlen
  cases e with
  | little =>
    cases host with
    | little => exact absurd rfl h
    | big =>
      have hback := leBytes_ofLeBytes xs.reverse
      rw [List.length_reverse] at hback
      simp only [byteswap, ofMemory, hback, List.reverse_reverse]
  | big =>
    cases host with
    | little => simp only [byteswap, ofMemory, leBytes_ofLeBytes]
    | big => exact absurd rfl h

def fieldDecoder (e : Endian) (n : ℕ) : Decoder UInt8 ℕ := (Decoder.take n).map (ofMemory e)

theorem Decodes.field (host : Endian) (hn : 0 < n) :
    Decodes b e (readFixed host n) (fieldDecoder e n) := by
  intro ba h he
  obtain ⟨ba', h', he', hcont, hpos, hrun⟩ := Decodes.read (b := b) (e := e) hn ba h he
  refine ⟨ba', h', he', hcont, hpos, ?_⟩
  rw [readFixed, EStateM.run_bind, hrun, fieldDecoder, Decoder.map, Decoder.take]
  split_ifs with hfits
  · have hlen : (ba.rest.take n).length = n := by
      rw [List.length_take]
      omega
    by_cases hhost : e = host
    · simp only [EStateM.run_bind, EStateM.run_get, he', hhost, if_true, EStateM.run_pure,
        Option.map_some]
    · simp only [EStateM.run_bind, EStateM.run_get, he', if_neg hhost, EStateM.run_pure,
        Option.map_some, byteswap_ofMemory_bytes hlen hhost]
  · rfl

end fixed

section varint
variable {bits slots i r : ℕ}

/-- The loop with `slots` passes to go, at shift `i` with `r` gathered so far. It stops at the
first byte without a continuation bit, or when the passes are used up. -/
def varintDecoder (bits slots i r : ℕ) : Decoder UInt8 ℕ := fun l =>
  if slots ≤ continued l then ⟨some ((r + 2 ^ i * groupValue (l.take slots)) % 2 ^ bits), slots⟩
  else if continued l < l.length then
    ⟨some ((r + 2 ^ i * groupValue (l.take (continued l + 1))) % 2 ^ bits), continued l + 1⟩
  else ⟨none, l.length⟩

theorem or_shiftLeft_mod (hr : r < 2 ^ i) (hi : i ≤ bits) (x : ℕ) :
    r ||| (x <<< i) % 2 ^ bits = (r + 2 ^ i * x) % 2 ^ bits := by
  obtain ⟨c, rfl⟩ := Nat.exists_eq_add_of_le hi
  have hor := Nat.two_pow_add_eq_or_of_lt hr (x % 2 ^ c)
  have hlt : r + 2 ^ i * (x % 2 ^ c) < 2 ^ (i + c) := by
    have hmod : x % 2 ^ c + 1 ≤ 2 ^ c := Nat.mod_lt _ (Nat.two_pow_pos c)
    have hmul := Nat.mul_le_mul_left (2 ^ i) hmod
    rw [pow_add]
    rw [Nat.mul_succ] at hmul
    omega
  have hsplit : r + 2 ^ i * x = r + 2 ^ i * (x % 2 ^ c) + 2 ^ (i + c) * (x / 2 ^ c) := by
    conv_lhs => rw [← Nat.mod_add_div x (2 ^ c)]
    rw [pow_add]
    ring
  rw [Nat.shiftLeft_eq, Nat.mul_comm x, pow_add, Nat.mul_mod_mul_left, ← pow_add, Nat.or_comm,
    ← hor, hsplit, Nat.add_mul_mod_self_left, Nat.mod_eq_of_lt hlt, Nat.add_comm]

def byteDecoder : Decoder UInt8 UInt8 := (Decoder.take 1).map fun xs => xs.headD 0

theorem Decodes.byte : Decodes b e readFuint8 byteDecoder :=
  (Decodes.read Nat.one_pos).map _

theorem byteDecoder_cons (x : UInt8) (xs : List UInt8) : byteDecoder (x :: xs) = ⟨some x, 1⟩ := by
  simp [byteDecoder, Decoder.map, Decoder.take]

theorem varintDecoder_succ (hr : r < 2 ^ i) (hi : i ≤ bits) :
    varintDecoder bits (slots + 1) i r = byteDecoder.bind fun x =>
      if x < 0x80 then Decoder.pure (r ||| (x.toNat <<< i) % 2 ^ bits)
      else varintDecoder bits slots (i + 7) (r ||| ((x.toNat &&& 0x7f) <<< i) % 2 ^ bits) := by
  funext l
  cases l with
  | nil => rfl
  | cons x xs =>
    simp only [Decoder.bind, byteDecoder_cons, List.drop_one, List.tail_cons]
    rw [or_shiftLeft_mod hr hi, or_shiftLeft_mod hr hi]
    by_cases hx : x < 0x80
    · have hlt : x.toNat < 128 := UInt8.lt_iff_toNat_lt.mp hx
      have hcont : continued (x :: xs) = 0 := by rw [continued, if_neg (by omega)]
      rw [if_pos hx, varintDecoder, hcont, if_neg (by omega), if_pos (by simp)]
      simp [Decoder.pure, groupValue, Nat.mod_eq_of_lt hlt]
    · have hge : 128 ≤ x.toNat := not_lt.mp fun h => hx (UInt8.lt_iff_toNat_lt.mpr h)
      have hcont : continued (x :: xs) = continued xs + 1 := by rw [continued, if_pos hge]
      have hand : x.toNat &&& 0x7f = x.toNat % 128 := Nat.and_two_pow_sub_one_eq_mod x.toNat 7
      have hval : ∀ ys, ((r + 2 ^ i * (x.toNat % 128)) % 2 ^ bits + 2 ^ (i + 7) * groupValue ys) %
          2 ^ bits = (r + 2 ^ i * groupValue (x :: ys)) % 2 ^ bits := by
        intro ys
        rw [Nat.mod_add_mod, groupValue, pow_add]
        congr 1
        ring
      rw [if_neg hx, hand, varintDecoder, varintDecoder, hcont]
      by_cases hslots : slots ≤ continued xs
      · rw [if_pos (by omega), if_pos hslots, hval, List.take_succ_cons, Nat.add_comm slots]
      · rw [if_neg (by omega), if_neg hslots]
        by_cases hend : continued xs < xs.length
        · rw [if_pos (by simpa using hend), if_pos hend, hval, List.take_succ_cons, Nat.add_comm 1]
        · rw [if_neg (by simpa using hend), if_neg hend, List.length_cons, Nat.add_comm 1]

theorem Decodes.varint {fuel : ℕ} (hr : r < 2 ^ i) (hr' : r < 2 ^ bits)
    (hend : bits ≤ i + 7 * slots) (hlast : i + 7 * slots < bits + 7) (hfuel : slots ≤ fuel) :
    Decodes b e (varintLoop bits fuel i r) (varintDecoder bits slots i r) := by
  induction slots generalizing fuel i r with
  | zero =>
    have hpure : varintDecoder bits 0 i r = Decoder.pure r := by
      funext l
      simp [varintDecoder, Decoder.pure, groupValue, Nat.mod_eq_of_lt hr']
    have hexit : varintLoop bits fuel i r = Pure.pure r := by
      rw [varintLoop.eq_def]
      exact if_neg (by omega)
    rw [hexit, hpure]
    exact Decodes.pure r
  | succ slots ih =>
    obtain ⟨fuel, rfl⟩ := Nat.exists_eq_succ_of_ne_zero (show fuel ≠ 0 by omega)
    rw [varintLoop, if_pos (by omega), varintDecoder_succ hr (by omega)]
    refine Decodes.byte.bind fun x => ?_
    by_cases hx : x < 0x80
    · rw [if_pos hx, if_pos hx]
      exact Decodes.pure _
    · rw [if_neg hx, if_neg hx]
      have hand : x.toNat &&& 0x7f = x.toNat % 128 := Nat.and_two_pow_sub_one_eq_mod x.toNat 7
      have hmod := Nat.mod_lt x.toNat (show 128 > 0 by decide)
      rw [hand, or_shiftLeft_mod hr (by omega)]
      refine ih ?_ (Nat.mod_lt _ (Nat.two_pow_pos _)) (by omega) (by omega) (by omega)
      calc (r + 2 ^ i * (x.toNat % 128)) % 2 ^ bits ≤ r + 2 ^ i * (x.toNat % 128) := Nat.mod_le _ _
        _ < 2 ^ (i + 7) := by
          rw [pow_add]
          nlinarith

end varint

def charsDecoder (len : ℕ) : Decoder UInt8 (List UInt8) :=
  if len = 0 then Decoder.pure [] else Decoder.take len

theorem Decodes.chars (len : ℕ) : Decodes b e (readChars len) (charsDecoder len) := by
  rw [readChars, charsDecoder]
  split_ifs with hlen
  · exact Decodes.pure []
  · exact Decodes.read (Nat.pos_of_ne_zero hlen)

theorem charsDecoder_eq_none_iff (len : ℕ) (l : List UInt8) :
    (charsDecoder len l).value = none ↔ l.length < len := by
  rw [charsDecoder]
  split_ifs with hlen
  · simp [Decoder.pure, hlen]
  · rw [Decoder.take]
    split_ifs with hfits
    · simpa using hfits
    · simpa using hfits

def Kind.decoder (e : Endian) : (k : Kind) → Decoder UInt8 k.Value
  | .fint8 => byteDecoder.map UInt8.toInt8
  | .fuint8 => byteDecoder
  | .fint16 => (fieldDecoder e 2).map fun v => (UInt16.ofNat v).toInt16
  | .fuint16 => (fieldDecoder e 2).map UInt16.ofNat
  | .fint32 => (fieldDecoder e 4).map fun v => (UInt32.ofNat v).toInt32
  | .fuint32 | .float => (fieldDecoder e 4).map UInt32.ofNat
  | .fint64 => (fieldDecoder e 8).map fun v => (UInt64.ofNat v).toInt64
  | .fuint64 | .double => (fieldDecoder e 8).map UInt64.ofNat
  | .int32 => ((varintDecoder 32 5 0 0).map UInt32.ofNat).map fun u =>
      .ofBitVec (decodeZigzag u.toBitVec)
  | .uint32 => (varintDecoder 32 5 0 0).map UInt32.ofNat
  | .int64 => ((varintDecoder 64 10 0 0).map UInt64.ofNat).map fun u =>
      .ofBitVec (decodeZigzag u.toBitVec)
  | .uint64 => (varintDecoder 64 10 0 0).map UInt64.ofNat
  | .stringF16 => ((fieldDecoder e 2).map UInt16.ofNat).bind fun len => charsDecoder len.toNat
  | .stringF32 => ((fieldDecoder e 4).map UInt32.ofNat).bind fun len => charsDecoder len.toNat
  | .stringF64 | .stringVint =>
    ((fieldDecoder e 8).map UInt64.ofNat).bind fun len => charsDecoder len.toNat

theorem Decodes.uint32 : Decodes b e readUint32 ((varintDecoder 32 5 0 0).map UInt32.ofNat) :=
  (Decodes.varint (by simp) (Nat.two_pow_pos 32) (by decide) (by decide) (by decide)).map _

theorem Decodes.uint64 : Decodes b e readUint64 ((varintDecoder 64 10 0 0).map UInt64.ofNat) :=
  (Decodes.varint (by simp) (Nat.two_pow_pos 64) (by decide) (by decide) (by decide)).map _

theorem Decodes.kind (host : Endian) (k : Kind) : Decodes b e (k.read host) (k.decoder e) := by
  cases k with
  | fint8 => exact Decodes.byte.map _
  | fuint8 => exact Decodes.byte
  | fint16 => exact (Decodes.field host (by decide)).map _
  | fuint16 => exact (Decodes.field host (by decide)).map _
  | fint32 => exact (Decodes.field host (by decide)).map _
  | fuint32 => exact (Decodes.field host (by decide)).map _
  | fint64 => exact (Decodes.field host (by decide)).map _
  | fuint64 => exact (Decodes.field host (by decide)).map _
  | int32 => exact Decodes.uint32.map _
  | uint32 => exact Decodes.uint32
  | int64 => exact Decodes.uint64.map _
  | uint64 => exact Decodes.uint64
  | float => exact (Decodes.field host (by decide)).map _
  | double => exact (Decodes.field host (by decide)).map _
  | stringF16 => exact ((Decodes.field host (by decide)).map _).bind fun len => .chars len.toNat
  | stringF32 => exact ((Decodes.field host (by decide)).map _).bind fun len => .chars len.toNat
  | stringF64 => exact ((Decodes.field host (by decide)).map _).bind fun len => .chars len.toNat
  | stringVint => exact ((Decodes.field host (by decide)).map _).bind fun len => .chars len.toNat

theorem ofMemory_lt (e : Endian) (xs : List UInt8) : ofMemory e xs < 256 ^ xs.length := by
  cases e with
  | little => exact ofLeBytes_lt xs
  | big => exact xs.length_reverse ▸ ofLeBytes_lt xs.reverse

/-- The content ends inside an item of which some bytes have been consumed by then. -/
def Kind.Torn (e : Endian) (l : List UInt8) : Kind → Prop
  | .int32 | .uint32 => l ≠ [] ∧ l.length < 5 ∧ continued l = l.length
  | .int64 | .uint64 => l ≠ [] ∧ l.length < 10 ∧ continued l = l.length
  | .stringF16 => 2 ≤ l.length ∧ l.length - 2 < ofMemory e (l.take 2)
  | .stringF32 => 4 ≤ l.length ∧ l.length - 4 < ofMemory e (l.take 4)
  | .stringF64 | .stringVint => 8 ≤ l.length ∧ l.length - 8 < ofMemory e (l.take 8)
  | _ => False

theorem tears_varintDecoder (bits slots i r : ℕ) (l : List UInt8) :
    (varintDecoder bits slots i r).Tears l ↔
      l ≠ [] ∧ l.length < slots ∧ continued l = l.length := by
  have hle := continued_le l
  rw [Decoder.Tears, varintDecoder, ← List.length_pos_iff]
  split_ifs with hslots hend
  · exact iff_of_false (by simp) (by omega)
  · exact iff_of_false (by simp) (by omega)
  · simp only [true_and]
    omega

theorem tears_fieldDecoder {γ : Type} (e : Endian) (n : ℕ) (g : ℕ → γ) (l : List UInt8) :
    ¬ ((fieldDecoder e n).map g).Tears l := by
  rw [Decoder.tears_map, fieldDecoder, Decoder.tears_map]
  exact Decoder.not_tears_take n l

theorem tears_byteDecoder (l : List UInt8) : ¬ byteDecoder.Tears l := by
  rw [byteDecoder, Decoder.tears_map]
  exact Decoder.not_tears_take 1 l

theorem tears_string {γ : Type} (e : Endian) {n : ℕ} (hn : 0 < n) (wrap : ℕ → γ) (size : γ → ℕ)
    (hsize : ∀ v < 256 ^ n, size (wrap v) = v) (l : List UInt8) :
    (((fieldDecoder e n).map wrap).bind fun len => charsDecoder (size len)).Tears l ↔
      n ≤ l.length ∧ l.length - n < ofMemory e (l.take n) := by
  have hmap : (fieldDecoder e n).map wrap =
      (Decoder.take n).map fun xs => wrap (ofMemory e xs) := by
    funext l
    simp only [fieldDecoder, Decoder.map, Option.map_map, Function.comp_def]
  rw [hmap, Decoder.tears_bind_take _ hn (fun v l => charsDecoder_eq_none_iff (size v) l)]
  refine and_congr_right fun hlen => ?_
  have hlt := ofMemory_lt e (l.take n)
  rw [List.length_take, Nat.min_eq_left hlen] at hlt
  rw [hsize _ hlt]

theorem Kind.tears_iff (e : Endian) (k : Kind) (l : List UInt8) :
    (k.decoder e).Tears l ↔ k.Torn e l := by
  cases k with
  | fint8 => exact iff_of_false ((Decoder.tears_map _ _ _).not.mpr (tears_byteDecoder l)) not_false
  | fuint8 => exact iff_of_false (tears_byteDecoder l) not_false
  | fint16 => exact iff_of_false (tears_fieldDecoder e 2 _ l) not_false
  | fuint16 => exact iff_of_false (tears_fieldDecoder e 2 _ l) not_false
  | fint32 => exact iff_of_false (tears_fieldDecoder e 4 _ l) not_false
  | fuint32 => exact iff_of_false (tears_fieldDecoder e 4 _ l) not_false
  | fint64 => exact iff_of_false (tears_fieldDecoder e 8 _ l) not_false
  | fuint64 => exact iff_of_false (tears_fieldDecoder e 8 _ l) not_false
  | int32 =>
    rw [Kind.decoder, Decoder.tears_map, Decoder.tears_map]
    exact tears_varintDecoder 32 5 0 0 l
  | uint32 =>
    rw [Kind.decoder, Decoder.tears_map]
    exact tears_varintDecoder 32 5 0 0 l
  | int64 =>
    rw [Kind.decoder, Decoder.tears_map, Decoder.tears_map]
    exact tears_varintDecoder 64 10 0 0 l
  | uint64 =>
    rw [Kind.decoder, Decoder.tears_map]
    exact tears_varintDecoder 64 10 0 0 l
  | float => exact iff_of_false (tears_fieldDecoder e 4 _ l) not_false
  | double => exact iff_of_false (tears_fieldDecoder e 8 _ l) not_false
  | stringF16 =>
    exact tears_string e (by decide) UInt16.ofNat UInt16.toNat
      (fun v hv => UInt16.toNat_ofNat_of_lt hv) l
  | stringF32 =>
    exact tears_string e (by decide) UInt32.ofNat UInt32.toNat
      (fun v hv => UInt32.toNat_ofNat_of_lt hv) l
  | stringF64 =>
    exact tears_string e (by decide) UInt64.ofNat UInt64.toNat
      (fun v hv => UInt64.toNat_ofNat_of_lt hv) l
  | stringVint =>
    exact tears_string e (by decide) UInt64.ofNat UInt64.toNat
      (fun v hv => UInt64.toNat_ofNat_of_lt hv) l

def KeepsCursor (host : Endian) (s : ByteArray) (k : Kind) : Prop :=
  ∀ what t, (k.read host).run s = .error (.outOfRange what) t →
    t.position = s.position ∧ t.size = s.size ∧ t.content = s.content

theorem keeps_cursor_iff (b : ℕ) (hb : 1 ≤ b) (fresh : ℕ → UInt8) (as : List Access)
    (s : ByteArray) (hrun : Run Accessed (new b fresh) as s) (host : Endian) (k : Kind) :
    KeepsCursor host s k ↔ ¬ k.Torn s.endian s.rest := by
  have h := Inv.of_accesses hb hrun
  obtain ⟨t, ht, -, hcont, hpos, hread⟩ := Decodes.kind host k s h rfl
  rw [← Kind.tears_iff, Decoder.Tears]
  cases hv : (k.decoder s.endian s.rest).value with
  | some v =>
    rw [hv] at hread
    refine iff_of_true ?_ (by simp)
    intro what u hthrow
    rw [hread] at hthrow
    cases hthrow
  | none =>
    rw [hv] at hread
    simp only [true_and, not_lt, Nat.le_zero]
    constructor
    · intro hkeep
      have := (hkeep _ t hread).1
      omega
    · intro hused what u hthrow
      rw [hread] at hthrow
      cases hthrow
      refine ⟨by omega, ?_, hcont⟩
      rw [← ht.content_length, hcont, h.content_length]

theorem keeps_cursor_iff_short_field : KeepsCursor .little (fourBytes 0 (some 0)) .fuint64 :=
  (keeps_cursor_iff 2 (by decide) _ _ _ (run_fourBytes 0 (some 0) rfl) .little .fuint64).mpr id

def twoBytes (x y : UInt8) : ByteArray :=
  ⟨2, 0, 2, 2, .big, [⟨[x, y], 2, rfl⟩], some 0, fun _ => 0⟩

theorem run_twoBytes (x y : UInt8) :
    Run Accessed (new 2 fun _ => 0) [.call ⟨.write [x, y], 2, .done⟩,
      .call ⟨.setPosition 0, 2, .done⟩] (twoBytes x y) :=
  .cons (t := { twoBytes x y with position := 2, cur := none }) ⟨trivial, rfl, rfl⟩
    (.cons ⟨trivial, rfl, rfl⟩ (.nil _))

/-- A length field without its payload and a varint without its last byte: the read throws behind
the bytes it has consumed. -/
theorem failed_read_moves_cursor :
    (∃ as, Run Accessed (new 2 fun _ => 0) as (twoBytes 0 7)) ∧
      (readStringF16 .little).run (twoBytes 0 7) = .error (.outOfRange "not enough len")
        { twoBytes 0 7 with position := 2, cur := none } ∧
      ¬ KeepsCursor .little (twoBytes 0 7) .stringF16 ∧
    (∃ as, Run Accessed (new 2 fun _ => 0) as (twoBytes 200 200)) ∧
      readUint32.run (twoBytes 200 200) = .error (.outOfRange "not enough len")
        { twoBytes 200 200 with position := 2, cur := none } ∧
      ¬ KeepsCursor .little (twoBytes 200 200) .uint32 := by
  have hstring : (readStringF16 .little).run (twoBytes 0 7) = .error (.outOfRange "not enough len")
      { twoBytes 0 7 with position := 2, cur := none } := rfl
  have hvarint : readUint32.run (twoBytes 200 200) = .error (.outOfRange "not enough len")
      { twoBytes 200 200 with position := 2, cur := none } := rfl
  refine ⟨⟨_, run_twoBytes 0 7⟩, hstring, ?_, ⟨_, run_twoBytes 200 200⟩, hvarint, ?_⟩
  · intro hkeep
    cases (hkeep _ _ hstring).1
  · intro hkeep
    cases (hkeep _ _ hvarint).1

end ApexStorm.ByteArray
