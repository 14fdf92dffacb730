import ApexStorm.ByteArray.Decode

/-!
# What the formats can carry

The varint readers stop after five (ten) bytes whether or not the last of them ends
the number, and drop the bits beyond 32 (64). The string writers convert the size of
the string to the width of its length field without a check, and `writeStringVint`
uses the fixed field of `writeStringF64`.
-/

namespace ApexStorm.ByteArray
open Lib Lib.Chunks Lib.Radix

variable {b : ℕ} {α : Type}

def consumed (s t : ByteArray) : List UInt8 := slice s.content s.position (t.position - s.position)

/-- The read throws, or the last byte it consumed ends the number and the value returned is the
number that the consumed bytes stand for. -/
def Lossless (toNat : α → ℕ) (m : Method α) (s : ByteArray) : Prop :=
  (∃ what t, m.run s = .error (.outOfRange what) t) ∨
    ∃ v t, m.run s = .ok v t ∧ (∃ x, (consumed s t).getLast? = some x ∧ x.toNat < 128) ∧
      toNat v = groupValue (consumed s t)

/-- A number in `slots` bytes at most that fits `bits` bits, unless the content ends inside. -/
def VarintFits (bits slots : ℕ) (l : List UInt8) : Prop :=
  continued l < slots ∧
    (continued l < l.length → groupValue (l.take (continued l + 1)) < 2 ^ bits)

theorem lossless_iff_fits {s : ByteArray} (h : Inv b s) {m : Method α} {toNat : α → ℕ}
    {wrap : ℕ → α} {bits slots : ℕ} (hslots : 0 < slots)
    (hm : Decodes b s.endian m ((varintDecoder bits slots 0 0).map wrap))
    (hwrap : ∀ v < 2 ^ bits, toNat (wrap v) = v) :
    Lossless toNat m s ↔ VarintFits bits slots s.rest := by
  obtain ⟨t, -, -, -, hpos, hrun⟩ := hm s h rfl
  have hmod : ∀ v, toNat (wrap (v % 2 ^ bits)) = v % 2 ^ bits :=
    fun v => hwrap _ (Nat.mod_lt _ (Nat.two_pow_pos bits))
  have hused : consumed s t = s.rest.take (varintDecoder bits slots 0 0 s.rest).used := by
    rw [consumed, hpos, Nat.add_sub_cancel_left]
    rfl
  rw [Decoder.map] at hrun
  rw [VarintFits]
  by_cases hover : slots ≤ continued s.rest
  · -- every byte consumed carries the continuation bit
    refine iff_of_false ?_ (by omega)
    rw [varintDecoder, if_pos hover] at hrun hused
    dsimp only at hused
    rintro (⟨what, u, hthrow⟩ | ⟨v, u, hok, ⟨x, hlast, hx⟩, -⟩)
    · rw [hrun] at hthrow
      cases hthrow
    · rw [hrun] at hok
      cases hok
      have hle := continued_le s.rest
      rw [hused, List.getLast?_take, if_neg hslots.ne', List.getElem?_eq_getElem (by omega),
        Option.some_or] at hlast
      have hge := le_of_lt_continued (i := slots - 1) (by omega)
        ((List.getElem?_eq_getElem (by omega)).trans hlast)
      omega
  · by_cases hend : continued s.rest < s.rest.length
    · obtain ⟨x, hx, hlt⟩ := exists_lt_at_continued hend
      rw [varintDecoder, if_neg hover, if_pos hend] at hrun hused
      have hlast : (consumed s t).getLast? = some x := by
        rw [hused, List.getLast?_take, if_neg (Nat.succ_ne_zero _), Nat.add_sub_cancel, hx,
          Option.some_or]
      simp only [Nat.zero_add, pow_zero, Nat.one_mul, Option.map_some] at hrun
      constructor
      · rintro (⟨what, u, hthrow⟩ | ⟨v, u, hok, -, hval⟩)
        · rw [hrun] at hthrow
          cases hthrow
        · rw [hrun] at hok
          cases hok
          rw [hmod, hused] at hval
          refine ⟨not_le.mp hover, fun _ => ?_⟩
          rw [← hval]
          exact Nat.mod_lt _ (Nat.two_pow_pos bits)
      · rintro ⟨-, hfits⟩
        refine .inr ⟨_, t, hrun, ⟨x, hlast, hlt⟩, ?_⟩
        rw [hmod, hused, Nat.mod_eq_of_lt (hfits hend)]
    · rw [varintDecoder, if_neg hover, if_neg hend] at hrun
      exact iff_of_true (.inl ⟨_, t, hrun⟩) ⟨not_le.mp hover, fun hlt => absurd hlt hend⟩

theorem varint_lossless_iff (b : ℕ) (hb : 1 ≤ b) (fresh : ℕ → UInt8) (as : List Access)
    (s : ByteArray) (hrun : Run Accessed (new b fresh) as s) :
    (Lossless UInt32.toNat readUint32 s ↔ VarintFits 32 5 s.rest) ∧
      (Lossless UInt64.toNat readUint64 s ↔ VarintFits 64 10 s.rest) := by
  have h := Inv.of_accesses hb hrun
  exact ⟨lossless_iff_fits h (by decide) Decodes.uint32 fun v hv => UInt32.toNat_ofNat_of_lt hv,
    lossless_iff_fits h (by decide) Decodes.uint64 fun v hv => UInt64.toNat_ofNat_of_lt hv⟩

theorem varint_lossless_iff_two_bytes : Lossless UInt32.toNat readUint32 (twoBytes 172 2) := by
  refine (varint_lossless_iff 2 (by decide) _ _ _ (run_twoBytes 172 2)).1.mpr ⟨by decide, ?_⟩
  intro _
  decide

def sixBytes (xs : List UInt8) (h : xs.length = 6) : ByteArray :=
  ⟨6, 0, 6, 6, .big, [⟨xs, 6, h⟩], some 0, fun _ => 0⟩

theorem run_sixBytes (xs : List UInt8) (h : xs.length = 6)
    (hwrite : exec (.write xs) (new 6 fun _ => 0) =
      some (.done, { sixBytes xs h with position := 6, cur := none })) :
    Run Accessed (new 6 fun _ => 0) [.call ⟨.write xs, 6, .done⟩,
      .call ⟨.setPosition 0, 6, .done⟩] (sixBytes xs h) :=
  .cons (t := { sixBytes xs h with position := 6, cur := none }) ⟨trivial, rfl, hwrite⟩
    (.cons ⟨trivial, rfl, rfl⟩ (.nil _))

/-- Six bytes of which five carry the continuation bit: the sixth is left behind. And five bytes
for `2^32`, of which nothing is left. -/
theorem varint_loses_bits :
    (∃ as, Run Accessed (new 6 fun _ => 0) as (sixBytes [128, 128, 128, 128, 128, 1] rfl)) ∧
      (∃ t, readUint32.run (sixBytes [128, 128, 128, 128, 128, 1] rfl) = .ok 0 t ∧
        t.position = 5) ∧
      ¬ Lossless UInt32.toNat readUint32 (sixBytes [128, 128, 128, 128, 128, 1] rfl) ∧
    (∃ as, Run Accessed (new 6 fun _ => 0) as (sixBytes [128, 128, 128, 128, 16, 0] rfl)) ∧
      (∃ t, readUint32.run (sixBytes [128, 128, 128, 128, 16, 0] rfl) = .ok 0 t ∧
        t.position = 5) ∧
      ¬ Lossless UInt32.toNat readUint32 (sixBytes [128, 128, 128, 128, 16, 0] rfl) := by
  refine ⟨⟨_, run_sixBytes _ rfl rfl⟩, ⟨_, rfl, rfl⟩, ?_, ⟨_, run_sixBytes _ rfl rfl⟩,
    ⟨_, rfl, rfl⟩, ?_⟩
  · rintro (⟨what, t, hthrow⟩ | ⟨v, t, hok, ⟨x, hlast, hx⟩, -⟩)
    · cases hthrow
    · cases hok
      cases hlast
      revert hx
      decide
  · rintro (⟨what, t, hthrow⟩ | ⟨v, t, hok, -, hval⟩)
    · cases hthrow
    · cases hok
      revert hval
      decide

inductive StringFormat
  | f16 | f32 | f64 | vint
  deriving DecidableEq, Repr

namespace StringFormat

def write (host : Endian) : StringFormat → List UInt8 → Method Unit
  | .f16 => writeStringF16 host
  | .f32 => writeStringF32 host
  | .f64 => writeStringF64 host
  | .vint => writeStringVint host

def read (host : Endian) : StringFormat → Method (List UInt8)
  | .f16 => readStringF16 host
  | .f32 => readStringF32 host
  | .f64 => readStringF64 host
  | .vint => readStringVint host

def width : StringFormat → ℕ
  | .f16 => 2
  | .f32 => 4
  | .f64 | .vint => 8

/-- The length field of the header file's comments: a signed integer of 16, 32 or 64 bits, or a
varint. None stands for a length that the field cannot hold. -/
def lengthField (e : Endian) : StringFormat → ℕ → Option (List UInt8)
  | .f16, len => if len < 2 ^ 15 then some (toMemory e 2 len) else none
  | .f32, len => if len < 2 ^ 31 then some (toMemory e 4 len) else none
  | .f64, len => if len < 2 ^ 63 then some (toMemory e 8 len) else none
  | .vint, len => encodeVarint 10 len

def Representable : StringFormat → ℕ → Prop
  | .f16, len => len < 2 ^ 15
  | .f32, len => len < 2 ^ 31
  | .f64, len => len < 2 ^ 63
  | .vint, _ => False

variable {e : Endian} {host : Endian} {str : List UInt8} {len : ℕ}

theorem writes (host : Endian) (f : StringFormat) (str : List UInt8) :
    Writes b e (f.write host str) (toMemory e f.width (str.length % 256 ^ f.width) ++ str) := by
  cases f with
  | f16 => exact (Writes.fixed host 2 _).bind (Writes.bytes str)
  | f32 => exact (Writes.fixed host 4 _).bind (Writes.bytes str)
  | f64 => exact (Writes.fixed host 8 _).bind (Writes.bytes str)
  | vint => exact (Writes.fixed host 8 _).bind (Writes.bytes str)

theorem reads (host : Endian) (f : StringFormat) (hlen : str.length < 256 ^ f.width) :
    Reads b e (f.read host) str (toMemory e f.width str.length ++ str) := by
  cases f with
  | f16 =>
    exact ((Reads.fixed (by decide) hlen).map UInt16.ofNat).string UInt16.toNat
      (UInt16.toNat_ofNat_of_lt hlen)
  | f32 =>
    exact ((Reads.fixed (by decide) hlen).map UInt32.ofNat).string UInt32.toNat
      (UInt32.toNat_ofNat_of_lt hlen)
  | f64 =>
    exact ((Reads.fixed (by decide) hlen).map UInt64.ofNat).string UInt64.toNat
      (UInt64.toNat_ofNat_of_lt hlen)
  | vint =>
    exact ((Reads.fixed (by decide) hlen).map UInt64.ofNat).string UInt64.toNat
      (UInt64.toNat_ofNat_of_lt hlen)

theorem lt_of_encodeVarint {slots v : ℕ} {xs : List UInt8} (h : encodeVarint slots v = some xs) :
    0 < slots ∧ v < 128 ^ slots := by
  induction slots generalizing v xs with
  | zero => cases h
  | succ slots ih =>
    refine ⟨Nat.succ_pos _, ?_⟩
    rw [encodeVarint] at h
    split_ifs at h with hbig
    · obtain ⟨ys, hys, -⟩ := Option.bind_eq_some_iff.mp h
      have hlt := (ih hys).2
      rw [Nat.shiftRight_eq_div_pow] at hlt
      rw [pow_succ]
      omega
    · have hpow := Nat.one_le_pow slots 128 (by decide)
      rw [pow_succ]
      omega

/-- The top byte of the fixed field is zero where the varint is as long; a varint neither begins
nor ends with a zero byte. -/
theorem encodeVarint_ne_toMemory (e : Endian) (len : ℕ) :
    encodeVarint 10 len ≠ some (toMemory e 8 (len % 256 ^ 8)) := by
  intro h
  obtain ⟨xs, henc, hcode, hval, hmin⟩ := encodeVarint_spec (lt_of_encodeVarint h).1
    (lt_of_encodeVarint h).2
  obtain rfl := Option.some.inj (h.symm.trans henc)
  rw [toMemory_length] at hmin
  have hlt := groupValue_lt (toMemory e 8 (len % 256 ^ 8))
  rw [toMemory_length, hval] at hlt
  have hsmall : len / 256 ^ 7 = 0 := Nat.div_eq_of_lt (lt_of_lt_of_eq hlt (by norm_num))
  rw [Nat.mod_eq_of_lt (hlt.trans (by norm_num))] at hcode hval
  have htop : leBytes 8 len = leBytes 7 len ++ [0] := by
    rw [leBytes_succ_eq_append, hsmall]
    rfl
  cases e with
  | little =>
    rw [toMemory, htop, groupValue_append_zero] at hval
    have hshort := groupValue_lt (leBytes 7 len)
    rw [leBytes_length, hval] at hshort
    omega
  | big =>
    rw [toMemory, htop, List.reverse_append] at hcode
    obtain ⟨y, ys, hys⟩ := List.exists_cons_of_length_pos
      (show 0 < (leBytes 7 len).reverse.length by simp)
    rw [hys] at hcode
    exact absurd hcode.1 (by decide)

theorem fixed_field_iff (e : Endian) (n : ℕ) {bound : ℕ} (hbound : bound ≤ 256 ^ n) (len : ℕ) :
    (if len < bound then some (toMemory e n len) else none) =
      some (toMemory e n (len % 256 ^ n)) ↔ len < bound := by
  split_ifs with hlen
  · exact iff_of_true (by rw [Nat.mod_eq_of_lt (hlen.trans_le hbound)]) hlen
  · exact iff_of_false nofun hlen

theorem lengthField_iff (e : Endian) (f : StringFormat) (len : ℕ) :
    f.lengthField e len = some (toMemory e f.width (len % 256 ^ f.width)) ↔
      f.Representable len := by
  cases f with
  | f16 => exact fixed_field_iff e 2 (by norm_num) len
  | f32 => exact fixed_field_iff e 4 (by norm_num) len
  | f64 => exact fixed_field_iff e 8 (by norm_num) len
  | vint => exact iff_of_false (encodeVarint_ne_toMemory e len) id

def ReadsBack (host : Endian) (f : StringFormat) (s : ByteArray) (str : List UInt8) : Prop :=
  ∃ t u w, (f.write host str).run s = .ok () t ∧ (setPosition s.position).run t = .ok () u ∧
    (f.read host).run u = .ok str w ∧ w.position = t.position

def Stores (host : Endian) (f : StringFormat) (s : ByteArray) (str : List UInt8) : Prop :=
  ∃ field t, f.lengthField s.endian str.length = some field ∧
    (f.write host str).run s = .ok () t ∧ t.position = s.position + (field ++ str).length ∧
    t.content = overlay s.content s.position (field ++ str)

/-- The write reports an error and changes nothing, or it stores the string in the documented
format and the matching read returns it. -/
def Carries (host : Endian) (f : StringFormat) (s : ByteArray) (str : List UInt8) : Prop :=
  (∃ e, (f.write host str).run s = .error e s) ∨ f.Stores host s str ∧ f.ReadsBack host s str

section carries
variable {s : ByteArray}

theorem stores_iff (h : Inv b s) (host : Endian) (f : StringFormat) (str : List UInt8) :
    f.Stores host s str ↔ f.Representable str.length := by
  obtain ⟨t, hwrite, -, -, hpos, hcont⟩ := f.writes (b := b) host str s h rfl
  rw [← lengthField_iff s.endian]
  constructor
  · rintro ⟨field, u, hfield, hwrite', hpos', hcont'⟩
    rw [hwrite] at hwrite'
    cases hwrite'
    rw [hcont] at hcont'
    have hsame := overlay_inj (by omega) hcont'
    rw [hfield, List.append_cancel_right hsame]
  · intro hfield
    exact ⟨_, t, hfield, hwrite, hpos, hcont⟩

theorem readsBack_iff (h : Inv b s) (host : Endian) (f : StringFormat) (str : List UInt8) :
    f.ReadsBack host s str ↔ str.length < 256 ^ f.width := by
  obtain ⟨m, hm⟩ : ∃ m, m = str.length % 256 ^ f.width := ⟨_, rfl⟩
  have hmlt : m < 256 ^ f.width := hm ▸ Nat.mod_lt _ (Nat.pow_pos (by decide))
  have hmle : m ≤ str.length := hm ▸ Nat.mod_le _ _
  obtain ⟨t, hwrite, ht, hte, htpos, htcont⟩ := f.writes (b := b) host str s h rfl
  rw [← hm] at htpos htcont
  have hsz := ht.position_le
  have hcap := ht.size_le
  obtain ⟨u, hset, hu, hue, hupos, husize, huflat, -⟩ :=
    ht.run_setPosition (v := s.position) (by omega)
  have hucont : u.content = t.content := by
    rw [content, huflat, husize, max_eq_left (by omega), ← content]
  -- the reader takes `m` bytes of the string, whatever its size
  have hrest : u.content.drop u.position = (toMemory s.endian f.width m ++ str.take m) ++
      (str.drop m ++ s.content.drop
        (s.position + (toMemory s.endian f.width m ++ str).length)) := by
    rw [hucont, hupos, htcont, drop_overlay _ (by rw [h.content_length]; exact h.position_le)]
    simp only [List.append_assoc]
    rw [← List.append_assoc (str.take m), List.take_append_drop]
  have htake : (str.take m).length = m := by rw [List.length_take]; omega
  have hread : Reads b s.endian (f.read host) (str.take m) _ := f.reads host (by rwa [htake])
  rw [htake] at hread
  obtain ⟨w, hrun, -, -, hwpos, -⟩ := hread u _ hu (hue.trans hte) hrest
  rw [List.length_append, toMemory_length, htake] at hwpos
  rw [List.length_append, toMemory_length] at htpos
  constructor
  · rintro ⟨t', u', w', hwrite', hset', hread', -⟩
    rw [hwrite] at hwrite'
    cases hwrite'
    rw [hset] at hset'
    cases hset'
    rw [hrun] at hread'
    have hlen := congrArg List.length (EStateM.Result.ok.inj hread').1
    omega
  · intro hfits
    have hwhole : m = str.length := hm.trans (Nat.mod_eq_of_lt hfits)
    rw [List.take_of_length_le hwhole.ge] at hrun
    exact ⟨t, u, w, hwrite, hset, hrun, by omega⟩

end carries

theorem Representable.fits {f : StringFormat} {len : ℕ} (h : f.Representable len) :
    len < 256 ^ f.width := by
  cases f with
  | f16 => exact h.trans (by norm_num [width])
  | f32 => exact h.trans (by norm_num [width])
  | f64 => exact h.trans (by norm_num [width])
  | vint => exact h.elim

end StringFormat

/-- A string is carried in the documented format if its length is a value of the documented type,
and never by the varint format; the reader alone undoes the writer up to the unsigned range of the
field. -/
theorem string_carried_iff (b : ℕ) (hb : 1 ≤ b) (fresh : ℕ → UInt8) (as : List Access)
    (s : ByteArray) (hrun : Run Accessed (new b fresh) as s) (host : Endian) (f : StringFormat)
    (str : List UInt8) :
    (f.Carries host s str ↔ f.Representable str.length) ∧
      (f.ReadsBack host s str ↔ str.length < 256 ^ f.width) := by
  have h := Inv.of_accesses hb hrun
  refine ⟨?_, f.readsBack_iff h host str⟩
  obtain ⟨t, hwrite, -⟩ := f.writes (b := b) host str s h rfl
  constructor
  · rintro (⟨e, herror⟩ | ⟨hstores, -⟩)
    · rw [hwrite] at herror
      cases herror
    · exact (f.stores_iff h host str).mp hstores
  · intro hlen
    exact .inr ⟨(f.stores_iff h host str).mpr hlen, (f.readsBack_iff h host str).mpr hlen.fits⟩

theorem string_carried_iff_three : StringFormat.Carries .little .f16 (fourBytes 4 none) [5, 6, 7] :=
  (string_carried_iff 2 (by decide) _ _ _ (run_fourBytes 4 none rfl) .little .f16 [5, 6, 7]).1.mpr
    (by decide : 3 < 2 ^ 15)

/-- The length 1 goes out as eight bytes where the varint is one; and of `2^16` bytes in the format
with a 16-bit length none is read back. -/
theorem string_length_misstored :
    (∃ t, (writeStringVint .little [5]).run (new 16 fun _ => 0) = .ok () t ∧
      t.content = [0, 0, 0, 0, 0, 0, 0, 1, 5]) ∧
    StringFormat.lengthField .big .vint 1 = some [1] ∧
    ¬ StringFormat.Carries .little .vint (new 16 fun _ => 0) [5] ∧
    ¬ StringFormat.ReadsBack .little .f16 (new 16 fun _ => 0) (List.replicate (2 ^ 16) 0) ∧
    ¬ StringFormat.Carries .little .f16 (new 16 fun _ => 0) (List.replicate (2 ^ 16) 0) := by
  have h : Inv 16 (new 16 fun _ => 0) := Inv.of_new (by decide)
  have hlong : ¬ StringFormat.ReadsBack .little .f16 (new 16 fun _ => 0)
      (List.replicate (2 ^ 16) 0) := by
    rw [StringFormat.readsBack_iff h, List.length_replicate]
    decide
  have hreturns : ∀ (f : StringFormat) (str : List UInt8),
      ¬ ∃ e, (f.write .little str).run (new 16 fun _ => 0) = .error e (new 16 fun _ => 0) := by
    rintro f str ⟨e, herror⟩
    obtain ⟨t, hwrite, -⟩ := f.writes (b := 16) .little str _ h rfl
    rw [hwrite] at herror
    cases herror
  refine ⟨⟨_, rfl, rfl⟩, rfl, ?_, hlong, ?_⟩
  · rintro (herror | ⟨hstores, -⟩)
    · exact hreturns _ _ herror
    · exact (StringFormat.stores_iff h .little .vint [5]).mp hstores
  · rintro (herror | ⟨-, hback⟩)
    · exact hreturns _ _ herror
    · exact hlong hback

end ApexStorm.ByteArray
