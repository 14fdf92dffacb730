import ApexStorm.ByteArray.RoundTrip

/-!
# The variable-length codes

An unsigned integer is cut into groups of seven bits. No code goes on behind another one,
so a reader knows where a code ends. A signed integer is folded onto the unsigned ones
first, those of small magnitude onto small codes.
-/

namespace ApexStorm.ByteArray
open Lib.Radix

section varint
variable {b slots bits n : ℕ} {e : Endian} {α : Type} {xs : List UInt8}

structure Coded (b : ℕ) (e : Endian) (slots : ℕ) (write : Method Unit) (read : Method α) (v : α)
    (n : ℕ) (xs : List UInt8) : Prop where
  encoded : encodeVarint slots n = some xs
  one_le : 1 ≤ xs.length
  le_slots : xs.length ≤ slots
  length_eq : xs.length = groups n
  continued : IsGroupCode xs
  writes : Writes b e write xs
  reads : Reads b e read v xs
  apart : ∀ m ys, encodeVarint slots m = some ys → xs <+: ys → xs = ys

theorem isGroupCode_of_encodeVarint (h : encodeVarint slots n = some xs) :
    IsGroupCode xs ∧ xs.length ≤ slots := by
  induction slots generalizing n xs with
  | zero => cases h
  | succ slots ih =>
    rw [encodeVarint] at h
    split_ifs at h with hbig
    · obtain ⟨ys, hys, hxs⟩ := Option.bind_eq_some_iff.mp h
      cases hxs
      obtain ⟨hcode, hlen⟩ := ih hys
      have hbyte := toNat_group n
      exact ⟨hcode.cons (by omega), Nat.succ_le_succ hlen⟩
    · cases h
      refine ⟨?_, Nat.succ_le_succ (Nat.zero_le slots)⟩
      change (UInt8.ofNat n).toNat < 128
      rw [UInt8.toNat_ofNat']
      omega

theorem exists_coded (hslots : 2 ^ bits ≤ 128 ^ slots) (hbits : 0 < bits) (hn : n < 2 ^ bits)
    (f : ℕ → α) :
    ∃ xs, Coded b e slots (writeVarint slots n) (do return f (← varintLoop bits bits 0 0)) (f n) n
      xs := by
  have hs : 0 < slots := by
    rcases Nat.eq_zero_or_pos slots with rfl | hs
    · exact absurd hslots (not_le.mpr (Nat.one_lt_two_pow hbits.ne'))
    · exact hs
  obtain ⟨xs, henc, hcode, hval, hlen⟩ := encodeVarint_spec hs (hn.trans_le hslots)
  have hpos : 0 < xs.length := List.length_pos_of_ne_nil hcode.ne_nil
  have hhigh : n < 128 ^ xs.length := hval ▸ groupValue_lt xs
  exact ⟨xs, henc, hpos, (isGroupCode_of_encodeVarint henc).2, eq_groups hpos hlen hhigh, hcode,
    Writes.varint henc, (Reads.varint hcode hval hlen hn hbits).map f,
    fun m ys hys => hcode.eq_of_prefix (isGroupCode_of_encodeVarint hys).1⟩

/-- Every unsigned integer has a code that fits into `tmp`, and the reader stops at its end. -/
theorem varint_codec (b : ℕ) (e : Endian) :
    (∀ v : UInt32, ∃ xs, Coded b e 5 (writeUint32 v) readUint32 v v.toNat xs) ∧
      ∀ v : UInt64, ∃ xs, Coded b e 10 (writeUint64 v) readUint64 v v.toNat xs := by
  refine ⟨fun v => ?_, fun v => ?_⟩
  · have hslots : 2 ^ 32 ≤ 128 ^ 5 := by decide
    have h := exists_coded (b := b) (e := e) hslots (by decide) v.toNat_lt UInt32.ofNat
    rwa [UInt32.ofNat_toNat] at h
  · have hslots : 2 ^ 64 ≤ 128 ^ 10 := by decide
    have h := exists_coded (b := b) (e := e) hslots (by decide) v.toNat_lt UInt64.ofNat
    rwa [UInt64.ofNat_toNat] at h

example : encodeVarint 5 300 = some [0xAC, 0x02] := by decide

end varint

section zigzag
variable {w : ℕ}

theorem encodeZigzag_decodeZigzag (u : BitVec w) : encodeZigzag (decodeZigzag u) = u := by
  have hlt := u.isLt
  cases w with
  | zero => exact Subsingleton.elim _ _
  | succ k =>
    have hhalf : (u >>> 1).toNat = u.toNat / 2 := by
      rw [BitVec.toNat_ushiftRight, Nat.shiftRight_eq_div_pow]
    have hpow : 2 ^ (k + 1) = 2 * 2 ^ k := pow_succ' 2 k
    apply BitVec.eq_of_toNat_eq
    rcases Nat.mod_two_eq_zero_or_one u.toNat with heven | hodd
    · rw [decodeZigzag_even heven, toNat_encodeZigzag_nonneg (by omega), hhalf]
      omega
    · have hnot : (~~~(u >>> 1)).toNat = 2 ^ (k + 1) - 1 - u.toNat / 2 := by
        rw [BitVec.toNat_not, hhalf]
      rw [decodeZigzag_odd hodd, toNat_encodeZigzag_neg (by omega), hnot]
      omega

/-- The codes alternate between the two values of a magnitude, the negative one first. -/
theorem toNat_encodeZigzag (v : BitVec w) :
    (encodeZigzag v).toNat =
      if v.toInt < 0 then 2 * v.toInt.natAbs - 1 else 2 * v.toInt.natAbs := by
  have hlt := v.isLt
  have hint := BitVec.toInt_eq_toNat_cond v
  cases w with
  | zero =>
    obtain rfl : v = 0 := Subsingleton.elim _ _
    rfl
  | succ k =>
    have hpow : 2 ^ (k + 1) = 2 * 2 ^ k := pow_succ' 2 k
    rcases Nat.lt_or_ge v.toNat (2 ^ k) with h | h
    · rw [if_pos (by omega)] at hint
      rw [toNat_encodeZigzag_nonneg h, hint, if_neg (by omega)]
      omega
    · have hneg : v.toInt = -((2 ^ (k + 1) - v.toNat : ℕ) : ℤ) := by
        rw [hint, if_neg (by omega), Nat.cast_sub hlt.le]
        ring
      rw [toNat_encodeZigzag_neg h, hneg, if_pos (by omega), Int.natAbs_neg, Int.natAbs_natCast]

/-- For integers of any width, in two's complement. -/
theorem zigzag_bijective (v u : BitVec w) :
    decodeZigzag (encodeZigzag v) = v ∧ encodeZigzag (decodeZigzag u) = u ∧
      ∀ v' : BitVec w, |v.toInt| ≤ |v'.toInt| →
        (encodeZigzag v).toNat ≤ (encodeZigzag v').toNat + 1 := by
  refine ⟨decodeZigzag_encodeZigzag v, encodeZigzag_decodeZigzag u, fun v' h => ?_⟩
  have hle : v.toInt.natAbs ≤ v'.toInt.natAbs := by
    rwa [Int.abs_eq_natAbs, Int.abs_eq_natAbs, Nat.cast_le] at h
  rw [toNat_encodeZigzag, toNat_encodeZigzag]
  split_ifs <;> omega

theorem zigzag_bijective_three :
    |(3 : BitVec 32).toInt| ≤ |(-3 : BitVec 32).toInt| ∧
      (encodeZigzag (3 : BitVec 32)).toNat ≤ (encodeZigzag (-3 : BitVec 32)).toNat + 1 :=
  ⟨by decide, (zigzag_bijective 3 0).2.2 (-3) (by decide)⟩

end zigzag
end ApexStorm.ByteArray
