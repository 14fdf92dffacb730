import ApexStorm.ByteArray.FileOutput
import ApexStorm.ByteArray.Formats

/-!
# Which calls dereference a null node

`m_cur` is null whenever the position is at the capacity. Every public method is run
from a reachable state with any arguments; `NodeFits` says exactly when none of the
node pointers that it follows is null.
-/

namespace ApexStorm.ByteArray
open Lib Lib.Chunks

def hexDigit (n : ℕ) : UInt8 := UInt8.ofNat (if n < 10 then 48 + n else 87 + n)

def toHexString : Method (List UInt8) := do
  let str ← toString
  return (str.mapIdx fun i x => (if i > 0 ∧ i % 32 = 0 then [10] else []) ++
    [hexDigit (x.toNat / 16), hexDigit (x.toNat % 16), 32]).flatten

inductive Call
  | write (buf : List UInt8)
  | read (n : ℕ)
  | readAt (n q : ℕ)
  | setPosition (v : ℕ)
  | clear
  | setIsLittleEndian (value : Bool)
  | toString
  | toHexString
  | getReadBuffers (len : ℕ)
  | getReadBuffersAt (len q : ℕ)
  | getWriteBuffers (len : ℕ)
  | writeItem (i : Item)
  | writeStringWithoutLength (str : List UInt8)
  | readItem (k : Kind)
  | writeToFile (opened : Bool)
  | readFromFile (fuel : ℕ) (ifs : Option IStream)

section run
variable {α : Type}

def mutating (m : Method α) : Method Unit := do
  let _ ← m
  return ()

def const (m : Method α) : Method Unit := fun s =>
  match m.run s with
  | .ok _ _ => .ok () s
  | .error e _ => .error e s

end run

def Call.run (host : Endian) : Call → Method Unit
  | .write buf => ByteArray.write buf
  | .read n => mutating (ByteArray.read n)
  | .readAt n q => const (ByteArray.readAt n q)
  | .setPosition v => ByteArray.setPosition v
  | .clear => ByteArray.clear
  | .setIsLittleEndian value => ByteArray.setIsLittleEndian value
  | .toString => const ByteArray.toString
  | .toHexString => const ByteArray.toHexString
  | .getReadBuffers len => const (ByteArray.getReadBuffers len)
  | .getReadBuffersAt len q => const (ByteArray.getReadBuffersAt len q)
  | .getWriteBuffers len => mutating (ByteArray.getWriteBuffers len)
  | .writeItem i => i.1.write host i.2
  | .writeStringWithoutLength str => ByteArray.writeStringWithoutLength str
  | .readItem k => mutating (k.read host)
  | .writeToFile opened => fun s =>
    match (ByteArray.writeToFile opened s).run .opened with
    | .ok _ _ => .ok () s
    | .error e _ => .error e s
  | .readFromFile fuel ifs => mutating (ByteArray.readFromFile fuel ifs)

def Reached (host : Endian) (s : ByteArray) (a : Call ⊕ Access) (t : ByteArray) : Prop :=
  match a with
  | .inl c => (c.run host).run s = .ok () t ∨
      ∃ what, (c.run host).run s = .error (.outOfRange what) t
  | .inr a => Accessed s a t

/-- Whether the export loop comes to its end with `nodes` nodes left, counting the positions and
lengths it computes. A piece from before its node ends the count as well. -/
def exportEnds (b : ℕ) : ℕ → ℤ → ℤ → Bool
  | nodes, pos, r =>
    if r ≤ 0 then true
    else
      match nodes with
      | 0 => false
      | nodes + 1 =>
        (decide (0 < exportLen b pos r) && decide (exportDiff b pos < 0)) ||
          exportEnds b nodes (pos + exportLen b pos r) (r - exportLen b pos r)

/-- The node pointers that the call follows are not null. For nodes above `2^31` bytes the offset
of `writeToFile` does not fit its `int`. Then the first three passes decide, since what is left
of the array repeats from there on. -/
def Call.NodeFits (s : ByteArray) : Call → Prop
  | .read n => n ≠ 0 ∨ s.position < s.capacity
  | .readAt n q => sizeDiff s.size q < n ∨
      s.position < s.capacity ∧ (n = 0 ∨ s.peekOffset q + n ≤ s.capacity)
  | .getReadBuffersAt len q =>
      min s.getReadSize len = 0 ∨ q + min s.getReadSize len ≤ s.capacity
  | .writeToFile opened => opened = true →
      if s.baseSize ≤ 2 ^ 31 then
        s.getReadSize = 0 ∨ s.position % s.baseSize = 0 ∨ s.baseSize ≤ s.getReadSize
      else
        let nodes := s.nodes.length - s.position / s.baseSize
        let left₁ := exportDiff s.baseSize s.position
        let left₂ := exportDiff s.baseSize (s.size - left₁)
        let left₃ := exportDiff s.baseSize (s.size - left₂)
        s.getReadSize = 0 ∨ s.baseSize < s.getReadSize ∨ left₁ ≤ 0 ∨ 2 ≤ nodes ∧ left₂ ≤ 0 ∨
          3 ≤ nodes ∧ left₃ ≤ 0
  | _ => True

def Settles {α : Type} (b : ℕ) (m : Method α) (s : ByteArray) : Prop :=
  ∃ t, Inv b t ∧ ((∃ v, m.run s = .ok v t) ∨ ∃ what, m.run s = .error (.outOfRange what) t)

section settles
variable {α : Type} {b : ℕ} {m : Method α} {s t : ByteArray}

theorem run_mutating (m : Method α) (s : ByteArray) :
    (mutating m).run s = match m.run s with
      | .ok _ t => .ok () t
      | .error e t => .error e t := by
  rw [mutating, EStateM.run_bind]
  cases m.run s <;> rfl

theorem Settles.mutating (h : Settles b m s) : Settles b (mutating m) s := by
  obtain ⟨t, ht, ⟨v, hrun⟩ | ⟨what, hrun⟩⟩ := h
  · exact ⟨t, ht, .inl ⟨(), by rw [run_mutating, hrun]⟩⟩
  · exact ⟨t, ht, .inr ⟨what, by rw [run_mutating, hrun]⟩⟩

theorem Settles.not_null (h : Settles b m s) : m.run s ≠ .error .nullDeref t := by
  obtain ⟨u, -, ⟨v, hrun⟩ | ⟨what, hrun⟩⟩ := h
  · rw [hrun]
    nofun
  · rw [hrun]
    nofun

theorem Settles.inv {m : Method Unit} (h : Settles b m s)
    (hend : m.run s = .ok () t ∨ ∃ what, m.run s = .error (.outOfRange what) t) : Inv b t := by
  obtain ⟨u, hu, ⟨v, hrun⟩ | ⟨what, hrun⟩⟩ := h
  · rw [hrun] at hend
    rcases hend with hend | ⟨what, hend⟩
    · cases hend
      exact hu
    · cases hend
  · rw [hrun] at hend
    rcases hend with hend | ⟨what, hend⟩
    · cases hend
    · cases hend
      exact hu

theorem Settles.of_writes {e : Endian} {m : Method Unit} {xs : List UInt8} (h : Inv b s)
    (he : s.endian = e) (hm : Writes b e m xs) : Settles b m s := by
  obtain ⟨t, hrun, ht, -⟩ := hm s h he
  exact ⟨t, ht, .inl ⟨(), hrun⟩⟩

theorem Settles.of_decodes {f : Decoder UInt8 α} (h : Inv b s) (hm : Decodes b s.endian m f) :
    Settles b m s := by
  obtain ⟨t, ht, -, -, -, hrun⟩ := hm s h rfl
  cases hv : (f s.rest).value with
  | none =>
    rw [hv] at hrun
    exact ⟨t, ht, .inr ⟨_, hrun⟩⟩
  | some v =>
    rw [hv] at hrun
    exact ⟨t, ht, .inl ⟨v, hrun⟩⟩

end settles

theorem Kind.writes {b : ℕ} {e : Endian} (host : Endian) (i : Item) :
    ∃ xs, Writes b e (i.1.write host i.2) xs := by
  obtain ⟨k, x⟩ := i
  cases k with
  | stringF16 => exact ⟨_, StringFormat.writes host .f16 x⟩
  | stringF32 => exact ⟨_, StringFormat.writes host .f32 x⟩
  | stringF64 => exact ⟨_, StringFormat.writes host .f64 x⟩
  | stringVint => exact ⟨_, StringFormat.writes host .vint x⟩
  | _ =>
    obtain ⟨xs, hw, -⟩ := RoundTrips.item (b := b) (e := e) host ⟨_, x⟩ trivial
    exact ⟨xs, hw⟩

namespace Layout
variable {b i : ℕ} {ba : ByteArray}

theorem run_ioVecs_short (h : Layout b ba) {fuel npos len : ℕ} (hi : i < ba.nodes.length)
    (hnpos : npos < b) (hshort : ba.capacity < b * i + npos + len) (hfuel : len ≤ fuel) :
    (ioVecs fuel (some i) npos (b - npos) len).run ba = .error .nullDeref ba := by
  induction fuel generalizing i npos len with
  | zero =>
    have hcap : b * (i + 1) ≤ b * ba.nodes.length := Nat.mul_le_mul_left b hi
    rw [h.capacity_eq] at hshort
    rw [Nat.mul_succ] at hcap
    omega
  | succ fuel ih =>
    have hcap : b * (i + 1) ≤ b * ba.nodes.length := Nat.mul_le_mul_left b hi
    have hcapacity := h.capacity_eq
    have hnext : b * i + npos + (b - npos) = b * (i + 1) := by rw [Nat.mul_succ]; omega
    have hlen : len ≠ 0 := by omega
    have hfit : ¬ len ≤ b - npos := by omega
    simp only [ioVecs, if_neg hlen, ge_iff_le, if_neg hfit, EStateM.run_bind, run_next]
    by_cases hlast : i + 1 < ba.nodes.length
    · have hrun := @ih (i + 1) 0 (len - (b - npos)) hlast h.base_pos (by omega) (by omega)
      rw [Nat.sub_zero] at hrun
      simp only [if_pos hlast, run_deref ba hlast, h.node_size hlast, hrun]
    · rw [if_neg hlast]
      rfl

theorem run_walk_beyond (ba : ByteArray) {count : ℕ} (hi : i < ba.nodes.length)
    (hcount : ba.nodes.length < i + count) :
    (walk count (some i)).run ba = .error .nullDeref ba := by
  induction count generalizing i with
  | zero => omega
  | succ count ih =>
    rw [walk, EStateM.run_bind, run_next]
    by_cases hlast : i + 1 < ba.nodes.length
    · simp only [if_pos hlast]
      exact ih hlast (by omega)
    · obtain ⟨count, rfl⟩ := Nat.exists_eq_succ_of_ne_zero (show count ≠ 0 by omega)
      simp only [if_neg hlast]
      rfl

end Layout

namespace Inv
variable {b : ℕ} {s : ByteArray}

theorem run_read_zero (h : Inv b s) :
    (read 0).run s = if s.position < s.capacity then .ok [] s else .error .nullDeref s := by
  have hnot : ¬ 0 > s.getReadSize := Nat.not_lt_zero _
  simp only [read, EStateM.run_bind, EStateM.run_get, if_neg hnot, readLoop_zero]
  split_ifs with hpos
  · obtain ⟨hcur, hi, -⟩ := h.cur_eq_some hpos
    simp only [hcur, Layout.run_deref s hi, EStateM.run_pure]
  · have hcur := h.cur_eq_none_iff.mpr (le_antisymm h.position_le_capacity (not_lt.mp hpos))
    rw [hcur]
    rfl

theorem run_readAt_zero (h : Inv b s) (q : ℕ) :
    (readAt 0 q).run s = if s.position < s.capacity then .ok [] s else .error .nullDeref s := by
  rw [run_readAt_eq, if_neg (Nat.not_lt_zero _), EStateM.run_bind]
  split_ifs with hpos
  · obtain ⟨hcur, hi, -⟩ := h.cur_eq_some hpos
    simp only [hcur, Layout.run_deref s hi, Layout.peekLoop_zero, EStateM.run_pure]
  · have hcur := h.cur_eq_none_iff.mpr (le_antisymm h.position_le_capacity (not_lt.mp hpos))
    rw [hcur]
    rfl

theorem run_getReadBuffersAt_null (h : Inv b s) {len q : ℕ} (hlen : min s.getReadSize len ≠ 0)
    (hq : s.capacity < q + min s.getReadSize len) :
    (getReadBuffersAt len q).run s = .error .nullDeref s := by
  have hread : s.getReadSize = s.size - s.position := rfl
  have hsz := h.size_le
  have hcap := h.capacity_eq
  have hdm : b * (q / b) + q % b = q := Nat.div_add_mod q b
  have hmod : q % b < b := Nat.mod_lt _ h.base_pos
  obtain ⟨hcur, hi, -⟩ := h.cur_eq_some (show s.position < s.capacity by omega)
  simp only [getReadBuffersAt, EStateM.run_bind, EStateM.run_get, if_neg hlen, h.base]
  by_cases hbeyond : s.nodes.length < q / b
  · rw [Layout.run_walk_beyond s h.nodes_pos (by omega)]
  · rw [Layout.run_walk s (by omega) h.nodes_pos, Nat.zero_add]
    simp only [hcur, Layout.run_deref s hi, h.node_size hi]
    by_cases hin : q / b < s.nodes.length
    · rw [if_pos hin, h.run_ioVecs_short hin hmod (by omega) le_rfl]
    · obtain ⟨r, hr⟩ := Nat.exists_eq_succ_of_ne_zero hlen
      rw [if_neg hin, hr, ioVecs.eq_def, if_neg (Nat.succ_ne_zero r)]
      rfl

theorem settles_read (h : Inv b s) {n : ℕ} (hn : n ≠ 0) : Settles b (read n) s := by
  by_cases hle : n ≤ s.size - s.position
  · obtain ⟨t, hrun, ht, -⟩ := h.run_read (Nat.pos_of_ne_zero hn) hle
    exact ⟨t, ht, .inl ⟨_, hrun⟩⟩
  · exact ⟨s, h, .inr ⟨_, run_read_short (not_le.mp hle)⟩⟩

theorem settles_setPosition (h : Inv b s) (v : ℕ) : Settles b (setPosition v) s := by
  by_cases hle : v ≤ s.capacity
  · obtain ⟨t, hrun, ht, -⟩ := h.run_setPosition hle
    exact ⟨t, ht, .inl ⟨_, hrun⟩⟩
  · exact ⟨s, h, .inr ⟨_, run_setPosition_beyond (not_le.mp hle)⟩⟩

theorem importLoop_outcome (h : Inv b s) (fuel : ℕ) (ifs : IStream) :
    (∃ ifs' t, Inv b t ∧ (importLoop fuel ifs).run s = .ok ifs' t) ∨
      ∃ t, (importLoop fuel ifs).run s = .error .stuck t := by
  induction fuel generalizing s ifs with
  | zero =>
    rw [importLoop]
    split_ifs
    · exact .inl ⟨ifs, s, h, rfl⟩
    · exact .inr ⟨s, rfl⟩
  | succ fuel ih =>
    cases heof : ifs.eof with
    | true =>
      rw [importLoop, if_pos heof]
      exact .inl ⟨ifs, s, h, rfl⟩
    | false =>
      obtain ⟨mid, hwrite, hmid, -⟩ := h.run_write ifs.read.1
      rw [run_importLoop_pass heof, EStateM.run_bind, hwrite]
      exact ih hmid ifs.read.2

end Inv

section export_ends
variable {b i fuel : ℕ} {ba : ByteArray} {pos r : ℤ} {ofs : OStream}

theorem Layout.exportLoop_null_iff (h : Layout b ba) {nodes : ℕ} {cur : Option ℕ} (fuel : ℕ)
    (pos r : ℤ) (ofs : OStream) (hcur : cur = if i < ba.nodes.length then some i else none)
    (hnodes : i + nodes = ba.nodes.length) (hfuel : nodes < fuel) :
    (∃ t, (exportLoop ba fuel cur pos r).run ofs = .error .nullDeref t) ↔
      exportEnds b nodes pos r = false := by
  induction nodes generalizing i cur pos r ofs fuel with
  | zero =>
    obtain ⟨fuel, rfl⟩ := Nat.exists_eq_succ_of_ne_zero hfuel.ne'
    rw [if_neg (by omega)] at hcur
    subst hcur
    rw [exportEnds]
    split_ifs with hr
    · rw [run_exportLoop_done hr]
      exact iff_of_false nofun nofun
    · rw [run_exportLoop_null (not_le.mp hr)]
      exact iff_of_true ⟨_, rfl⟩ rfl
  | succ nodes ih =>
    obtain ⟨fuel, rfl⟩ := Nat.exists_eq_succ_of_ne_zero (Nat.ne_of_gt (Nat.zero_lt_of_lt hfuel))
    have hi : i < ba.nodes.length := by omega
    rw [if_pos hi] at hcur
    subst hcur
    have hstep := fun ofs => ih (i := i + 1) fuel (pos + exportLen b pos r)
      (r - exportLen b pos r) ofs (show ba.nextNode i = _ from rfl) (by omega) (by omega)
    rw [exportEnds]
    by_cases hr : r ≤ 0
    · rw [run_exportLoop_done hr, if_pos hr]
      exact iff_of_false nofun nofun
    · rw [h.run_exportLoop_pass hi (not_le.mp hr), if_neg hr]
      by_cases hlen : exportLen b pos r ≤ 0
      · rw [if_pos hlen, hstep, decide_eq_false (not_lt.mpr hlen)]
        rfl
      · rw [if_neg hlen, decide_eq_true (not_le.mp hlen), Bool.true_and]
        by_cases hneg : exportDiff b pos < 0
        · rw [if_neg (fun hfit => absurd hfit.1 (not_le.mpr hneg)), decide_eq_true hneg]
          exact iff_of_false nofun nofun
        · have hfit : exportDiff b pos + exportLen b pos r ≤ b := by
            rw [exportLen]
            split_ifs <;> omega
          rw [if_pos ⟨not_lt.mp hneg, hfit⟩, hstep, decide_eq_false hneg, Bool.false_or]

theorem exportEnds_swaps (hb : b ≤ 2 ^ 31) {d r : ℕ} (hd : 0 < d) (hdb : d < b) (hr : 0 < r)
    (hrb : r < b) (nodes i : ℕ) :
    exportEnds b nodes ((b * i + d : ℕ) : ℤ) (r : ℤ) = false := by
  induction nodes generalizing d r with
  | zero => rw [exportEnds, if_neg (by omega)]
  | succ nodes ih =>
    have hdiff : exportDiff b ((b * i + d : ℕ) : ℤ) = d := by
      rw [exportDiff_node i hdb, (toInt_natCast_eq_iff d).mpr (by omega)]
    have hlen : exportLen b ((b * i + d : ℕ) : ℤ) (r : ℤ) = (r : ℤ) - d := by
      rw [exportLen, hdiff, if_neg (by omega)]
    have hpos : ((b * i + d : ℕ) : ℤ) + ((r : ℤ) - d) = ((b * i + r : ℕ) : ℤ) := by
      push_cast
      ring
    rw [exportEnds, if_neg (by omega), hdiff, hlen, hpos, sub_sub_cancel,
      decide_eq_false (show ¬ (d : ℤ) < 0 by omega), Bool.and_false, Bool.false_or]
    exact ih hr hrb hd hdb

end export_ends

section export_large
variable {b n : ℕ} {size r x : ℤ}

theorem exportEnds_nonpos (n : ℕ) (pos : ℤ) (hr : r ≤ 0) : exportEnds b n pos r = true := by
  cases n <;> rw [exportEnds, if_pos hr]

theorem exportEnds_last (n : ℕ) (size : ℤ) (hr : 0 < r) (hle : r ≤ b) :
    exportEnds b (n + 1) (size - r) r =
      exportEnds b n (size - exportDiff b (size - r)) (exportDiff b (size - r)) := by
  have hlen : exportLen b (size - r) r = r - exportDiff b (size - r) := by
    rw [exportLen, if_neg (not_lt.mpr hle)]
  rw [exportEnds, if_neg (not_le.mpr hr), hlen, sub_sub_cancel]
  have hpos : size - r + (r - exportDiff b (size - r)) = size - exportDiff b (size - r) := by ring
  rw [hpos]
  by_cases hneg : exportDiff b (size - r) < 0
  · rw [exportEnds_nonpos _ _ hneg.le, Bool.or_true]
  · rw [decide_eq_false hneg, Bool.and_false, Bool.false_or]

theorem exportDiff_lt (b : ℕ) (pos : ℤ) : exportDiff b pos < 2 ^ 31 := by
  rw [exportDiff, toInt]
  omega

theorem exportEnds_full (n : ℕ) (size : ℤ) (hr : b < r) (hb : 2 ^ 31 < b) :
    exportEnds b (n + 1) (size - r) r = (decide (exportDiff b (size - r) < 0) ||
      exportEnds b n (size - (r - b + exportDiff b (size - r)))
        (r - b + exportDiff b (size - r))) := by
  have hdiff := exportDiff_lt b (size - r)
  have hlen : exportLen b (size - r) r = b - exportDiff b (size - r) := by
    rw [exportLen, if_pos hr]
  have hpos : size - r + (b - exportDiff b (size - r)) =
      size - (r - b + exportDiff b (size - r)) := by ring
  have hrest : r - (b - exportDiff b (size - r)) = r - b + exportDiff b (size - r) := by ring
  rw [exportEnds, if_neg (by omega), hlen, hpos, hrest, decide_eq_true (by omega), Bool.true_and]

theorem exportEnds_aligned (hb : 2 ^ 31 < b) (halign : exportDiff b (size - r) = 0)
    (hle : r ≤ n * b) : exportEnds b n (size - r) r = true := by
  induction n generalizing r with
  | zero => exact exportEnds_nonpos _ _ (by simpa using hle)
  | succ n ih =>
    by_cases hr : r ≤ 0
    · exact exportEnds_nonpos _ _ hr
    · rcases le_or_gt r b with hlast | hfull
      · rw [exportEnds_last n size (not_le.mp hr) hlast, halign]
        exact exportEnds_nonpos _ _ le_rfl
      · rw [exportEnds_full n size hfull hb, halign, add_zero]
        refine Bool.or_eq_true_iff.mpr (.inr (ih ?_ ?_))
        · rw [exportDiff, sub_sub_eq_add_sub, add_sub_right_comm, Int.add_emod_right]
          exact halign
        · push_cast at hle
          linarith

theorem exportEnds_cycle {y : ℤ} (hx : 0 < x) (hy : 0 < y) (hxb : x ≤ b) (hyb : y ≤ b)
    (hxy : exportDiff b (size - x) = y) (hyx : exportDiff b (size - y) = x) (n : ℕ) :
    exportEnds b n (size - x) x = false := by
  induction n generalizing x y with
  | zero => rw [exportEnds, if_neg (not_le.mpr hx)]
  | succ n ih =>
    rw [exportEnds_last n size hx hxb, hxy]
    exact ih hy hx hyb hxb hyx hxy

theorem sub_emod_of_lt (size : ℤ) (hx : 0 ≤ x) (hlt : x < b) :
    (size - x) % b = if x ≤ size % b then size % b - x else size % b - x + b := by
  have hc := Int.emod_nonneg size (show (b : ℤ) ≠ 0 by omega)
  have hcb := Int.emod_lt_of_pos size (show (0 : ℤ) < b by omega)
  rw [Int.sub_emod, Int.emod_eq_of_lt hx hlt]
  split_ifs with hle
  · exact Int.emod_eq_of_lt (by omega) (by omega)
  · rw [← Int.add_emod_right]
    exact Int.emod_eq_of_lt (by omega) (by omega)

/-- What is left repeats after three passes at the latest. -/
theorem exportDiff_repeats (hb : 2 ^ 31 < b) {y z : ℤ} (hx : 0 < x) (hlt : x < 2 ^ 31)
    (hxy : exportDiff b (size - x) = y) (hy : 0 < y) (hyz : exportDiff b (size - y) = z)
    (hz : 0 < z) : exportDiff b (size - z) = y := by
  have hy' : y < 2 ^ 31 := hxy ▸ exportDiff_lt b (size - x)
  have hz' : z < 2 ^ 31 := hyz ▸ exportDiff_lt b (size - y)
  have hc := Int.emod_nonneg size (show (b : ℤ) ≠ 0 by omega)
  rw [exportDiff, sub_emod_of_lt size (by omega) (by omega)] at hxy hyz ⊢
  rw [toInt] at hxy hyz ⊢
  split_ifs at hxy hyz ⊢ <;> omega

theorem exportEnds_iff_left (hb : 2 ^ 31 < b) {y z : ℤ} (hlt : x < 2 ^ 31)
    (hxy : exportDiff b (size - x) = y) (hyz : exportDiff b (size - y) = z) (n : ℕ) :
    exportEnds b n (size - x) x = true ↔ x ≤ 0 ∨ 1 ≤ n ∧ y ≤ 0 ∨ 2 ≤ n ∧ z ≤ 0 := by
  have hylt : y < 2 ^ 31 := hxy ▸ exportDiff_lt b (size - x)
  have hzlt : z < 2 ^ 31 := hyz ▸ exportDiff_lt b (size - y)
  rcases le_or_gt x 0 with hx | hx
  · exact iff_of_true (exportEnds_nonpos _ _ hx) (.inl hx)
  match n with
  | 0 =>
    rw [exportEnds, if_neg (not_le.mpr hx)]
    exact iff_of_false nofun (by omega)
  | n + 1 =>
    rw [exportEnds_last n size hx (by omega), hxy]
    rcases le_or_gt y 0 with hy | hy
    · exact iff_of_true (exportEnds_nonpos _ _ hy) (.inr (.inl ⟨Nat.le_add_left 1 n, hy⟩))
    match n with
    | 0 =>
      rw [exportEnds, if_neg (not_le.mpr hy)]
      exact iff_of_false nofun (by omega)
    | n + 1 =>
      rw [exportEnds_last n size hy (by omega), hyz]
      rcases le_or_gt z 0 with hz | hz
      · exact iff_of_true (exportEnds_nonpos _ _ hz) (.inr (.inr ⟨by omega, hz⟩))
      have hzy := exportDiff_repeats hb hx hlt hxy hy hyz hz
      rw [exportEnds_cycle hz hy (by omega) (by omega) hzy hyz]
      exact iff_of_false nofun (by omega)

theorem exportEnds_of_full (hb : 2 ^ 31 < b) (hr : b < r)
    (hroom : (size - r) % b + r ≤ (n + 1) * b) : exportEnds b (n + 1) (size - r) r = true := by
  rw [exportEnds_full n size hr hb]
  rcases lt_or_ge (exportDiff b (size - r)) 0 with hneg | hdiff
  · rw [decide_eq_true hneg, Bool.true_or]
  have hoff := Int.emod_nonneg (size - r) (show (b : ℤ) ≠ 0 by omega)
  have hlt := Int.emod_lt_of_pos (size - r) (show (0 : ℤ) < b by omega)
  obtain ⟨d, hd⟩ : ∃ d, d = exportDiff b (size - r) := ⟨_, rfl⟩
  rw [← hd] at hdiff ⊢
  rw [exportDiff, toInt] at hd
  have hle : d ≤ (size - r) % b := by omega
  refine Bool.or_eq_true_iff.mpr (.inr (exportEnds_aligned hb ?_ ?_))
  · have hshift : size - (r - b + d) = size - r - d + b := by ring
    have hmod := sub_emod_of_lt (size - r) hdiff (hle.trans_lt hlt)
    rw [if_pos hle] at hmod
    rw [exportDiff, hshift, Int.add_emod_right, hmod, toInt]
    omega
  · linarith

end export_large

namespace Inv
variable {b : ℕ} {s t : ByteArray}

theorem writeToFile_null_iff (h : Inv b s) :
    (∃ ofs, (writeToFile true s).run .opened = .error .nullDeref ofs) ↔
      exportEnds b (s.nodes.length - s.position / b) s.position s.getReadSize = false := by
  have hcap := h.capacity_eq
  have hle := h.position_le_capacity
  have hdiv : s.position / b ≤ s.nodes.length := Nat.div_le_of_le_mul (by omega)
  have hcur : s.cur = if s.position / b < s.nodes.length then some (s.position / b) else none := by
    rw [h.cur_eq, cursorAt]
    simp only [Nat.div_lt_iff_lt_mul h.base_pos, Nat.mul_comm b]
  rw [← h.exportLoop_null_iff (s.nodes.length + 1) _ _ .opened hcur (by omega)
    (Nat.lt_succ_of_le (Nat.sub_le _ _)), writeToFile, if_pos rfl, EStateM.run_bind]
  cases (exportLoop s (s.nodes.length + 1) s.cur s.position s.getReadSize).run .opened with
  | ok u ofs =>
    refine iff_of_false ?_ ?_
    · rintro ⟨ofs', hrun⟩
      cases hrun
    · rintro ⟨ofs', hrun⟩
      cases hrun
  | error e ofs => simp

theorem exportEnds_iff (h : Inv b s) (hb : b ≤ 2 ^ 31) :
    exportEnds b (s.nodes.length - s.position / b) s.position s.getReadSize = true ↔
      s.getReadSize = 0 ∨ s.position % b = 0 ∨ b ≤ s.getReadSize := by
  have hmod := Nat.mod_lt s.position h.base_pos
  constructor
  · intro hends
    by_contra hbad
    rw [not_or, not_or] at hbad
    obtain ⟨hR, hd, hshort⟩ := hbad
    have hswap := exportEnds_swaps hb (Nat.pos_of_ne_zero hd) hmod (Nat.pos_of_ne_zero hR)
      (not_le.mp hshort) (s.nodes.length - s.position / b) (s.position / b)
    rw [Nat.div_add_mod, hends] at hswap
    cases hswap
  · intro hfits
    by_contra hends
    obtain ⟨ofs, hnull⟩ := h.writeToFile_null_iff.mpr (Bool.eq_false_iff.mpr hends)
    have hint : toInt (s.position % b : ℕ) = (s.position % b : ℕ) :=
      (toInt_natCast_eq_iff _).mpr (hmod.trans_le hb)
    obtain ⟨ofs', hok, -⟩ := h.run_writeToFile
      (hfits.imp_right (Or.imp_right fun hle => ⟨hint, hle⟩))
    rw [hok] at hnull
    cases hnull

theorem exportEnds_large_iff (h : Inv b s) (hb : 2 ^ 31 < b) {nodes : ℕ} {left₁ left₂ left₃ : ℤ}
    (hnodes : s.nodes.length - s.position / b = nodes) (h₁ : exportDiff b s.position = left₁)
    (h₂ : exportDiff b (s.size - left₁) = left₂) (h₃ : exportDiff b (s.size - left₂) = left₃) :
    exportEnds b nodes s.position s.getReadSize = true ↔
      s.getReadSize = 0 ∨ b < s.getReadSize ∨ left₁ ≤ 0 ∨ 2 ≤ nodes ∧ left₂ ≤ 0 ∨
        3 ≤ nodes ∧ left₃ ≤ 0 := by
  have hle := h.position_le
  have hcap := h.size_le
  rw [h.capacity_eq] at hcap
  have hdm := Nat.div_add_mod s.position b
  obtain ⟨r, hr⟩ : ∃ r, r = s.getReadSize := ⟨_, rfl⟩
  have hpos : (s.position : ℤ) = s.size - r := by
    rw [hr, getReadSize]
    omega
  have hroom : s.position % b + r ≤ nodes * b := by
    rw [← hnodes, Nat.sub_mul, Nat.mul_comm, Nat.mul_comm (s.position / b)]
    omega
  rw [← hr]
  rcases Nat.eq_zero_or_pos r with hzero | hrpos
  · exact iff_of_true (exportEnds_nonpos _ _ (by omega)) (.inl hzero)
  obtain ⟨n, rfl⟩ : ∃ n, nodes = n + 1 := Nat.exists_eq_succ_of_ne_zero (by rintro rfl; omega)
  rcases lt_or_ge b r with hfull | hlast
  · refine iff_of_true ?_ (.inr (.inl hfull))
    rw [hpos]
    refine exportEnds_of_full hb (by omega) ?_
    rw [← hpos]
    exact_mod_cast hroom
  · rw [hpos] at h₁ ⊢
    rw [exportEnds_last n s.size (by omega) (by omega), h₁,
      exportEnds_iff_left hb (h₁ ▸ exportDiff_lt b _) h₂ h₃]
    omega

theorem settles_readFromFile (h : Inv b s) (fuel : ℕ) (ifs : Option IStream) :
    Settles b (readFromFile fuel ifs) s ∨
      ∃ t, (readFromFile fuel ifs).run s = .error .stuck t := by
  cases ifs with
  | none => exact .inl ⟨s, h, .inl ⟨_, rfl⟩⟩
  | some ifs =>
    rw [readFromFile]
    obtain ⟨ifs', t, ht, hrun⟩ | ⟨t, hrun⟩ := h.importLoop_outcome fuel ifs
    · exact .inl ⟨t, ht, .inl ⟨_, by rw [EStateM.run_bind, hrun]; rfl⟩⟩
    · exact .inr ⟨t, by rw [EStateM.run_bind, hrun]⟩

end Inv

def Call.DerefsNull (host : Endian) (s : ByteArray) (c : Call) : Prop :=
  ∃ t, (c.run host).run s = .error .nullDeref t

def Sound (b : ℕ) (m : Method Unit) (s : ByteArray) : Prop :=
  Settles b m s ∨ ∃ e t, m.run s = .error e t ∧ (e = .stuck ∨ e = .overrun)

section outcome
variable {α : Type} {b : ℕ} {m : Method α} {s t : ByteArray}

theorem Sound.inv {m : Method Unit} (h : Sound b m s)
    (hend : m.run s = .ok () t ∨ ∃ what, m.run s = .error (.outOfRange what) t) : Inv b t := by
  obtain hsettles | ⟨e, u, hrun, rfl | rfl⟩ := h
  · exact hsettles.inv hend
  · rw [hrun] at hend
    rcases hend with hend | ⟨what, hend⟩ <;> cases hend
  · rw [hrun] at hend
    rcases hend with hend | ⟨what, hend⟩ <;> cases hend

theorem Sound.not_null {m : Method Unit} (h : Sound b m s) : m.run s ≠ .error .nullDeref t := by
  obtain hsettles | ⟨e, u, hrun, rfl | rfl⟩ := h
  · exact hsettles.not_null
  · rw [hrun]
    nofun
  · rw [hrun]
    nofun

theorem run_const (m : Method α) (s : ByteArray) :
    (const m).run s = match m.run s with
      | .ok _ _ => .ok () s
      | .error e _ => .error e s := rfl

theorem run_call_writeToFile (host : Endian) (opened : Bool) (s : ByteArray) :
    ((Call.writeToFile opened).run host).run s =
      match (writeToFile opened s).run .opened with
      | .ok _ _ => .ok () s
      | .error e _ => .error e s := rfl

theorem Settles.const_ok (h : Inv b s) {v : α} (hrun : m.run s = .ok v t) :
    Settles b (const m) s :=
  ⟨s, h, .inl ⟨(), by rw [run_const, hrun]⟩⟩

theorem Settles.const_throw (h : Inv b s) {what : String}
    (hrun : m.run s = .error (.outOfRange what) t) : Settles b (const m) s :=
  ⟨s, h, .inr ⟨what, by rw [run_const, hrun]⟩⟩

end outcome

namespace Inv
variable {b : ℕ} {s t : ByteArray}

theorem toString_outcome (h : Inv b s) :
    (∃ str, toString.run s = .ok str s) ∨
      ∃ what, toString.run s = .error (.outOfRange what) s := by
  by_cases hlt : s.getReadSize < 2 ^ 64
  · exact .inl ⟨_, h.run_toString hlt⟩
  · have hdiff : sizeDiff s.size s.position < 2 ^ 64 := Nat.mod_lt _ (Nat.two_pow_pos 64)
    refine .inr ⟨"not enough len", ?_⟩
    rw [ByteArray.toString, EStateM.run_bind, EStateM.run_get]
    dsimp only
    rw [if_neg (by omega), run_readAt_eq, if_pos (by omega)]

theorem call_readAt (h : Inv b s) (n q : ℕ) :
    ((Call.readAt n q).NodeFits s → Settles b (const (readAt n q)) s) ∧
      (¬ (Call.readAt n q).NodeFits s → (readAt n q).run s = .error .nullDeref s) := by
  rw [Call.NodeFits]
  by_cases hguard : sizeDiff s.size q < n
  · have hthrow := run_readAt_eq s n q
    rw [if_pos hguard] at hthrow
    exact ⟨fun _ => .const_throw h hthrow, fun hnot => absurd (.inl hguard) hnot⟩
  · rcases Nat.eq_zero_or_pos n with rfl | hn
    · rw [h.run_readAt_zero]
      by_cases hpos : s.position < s.capacity
      · refine ⟨fun _ => .const_ok h ((h.run_readAt_zero q).trans (if_pos hpos)), fun hnot => ?_⟩
        exact absurd (.inr ⟨hpos, .inl rfl⟩) hnot
      · exact ⟨fun hfits => absurd (hfits.resolve_left hguard).1 hpos, fun _ => if_neg hpos⟩
    · have hrun := h.run_readAt hn hguard
      by_cases hfits : s.position < s.capacity ∧ s.peekOffset q + n ≤ s.capacity
      · refine ⟨fun _ => .const_ok h (hrun.trans (if_pos hfits)), fun hnot => ?_⟩
        exact absurd (.inr ⟨hfits.1, .inr hfits.2⟩) hnot
      · refine ⟨fun hcond => absurd ?_ hfits, fun _ => hrun.trans (if_neg hfits)⟩
        obtain ⟨hpos, hzero | hle⟩ := hcond.resolve_left hguard
        · exact absurd hzero hn.ne'
        · exact ⟨hpos, hle⟩

theorem call_getReadBuffersAt (h : Inv b s) (len q : ℕ) :
    ((Call.getReadBuffersAt len q).NodeFits s → Settles b (const (getReadBuffersAt len q)) s) ∧
      (¬ (Call.getReadBuffersAt len q).NodeFits s →
        (getReadBuffersAt len q).run s = .error .nullDeref s) := by
  rw [Call.NodeFits]
  refine ⟨fun hfits => ?_, fun hnot => ?_⟩
  · obtain ⟨vs, hrun, -⟩ := h.run_getReadBuffersAt hfits
    exact .const_ok h hrun
  · rw [not_or, not_le] at hnot
    exact h.run_getReadBuffersAt_null hnot.1 hnot.2

theorem call_writeToFile (h : Inv b s) (host : Endian) (opened : Bool) :
    ((Call.writeToFile opened).NodeFits s → Sound b ((Call.writeToFile opened).run host) s) ∧
      (¬ (Call.writeToFile opened).NodeFits s → (Call.writeToFile opened).DerefsNull host s) := by
  cases opened with
  | false => exact ⟨fun _ => .inl ⟨s, h, .inl ⟨(), rfl⟩⟩, fun hnot => absurd nofun hnot⟩
  | true =>
    have hfits : (Call.writeToFile true).NodeFits s ↔
        exportEnds b (s.nodes.length - s.position / b) s.position s.getReadSize = true := by
      rw [Call.NodeFits, h.base]
      split_ifs with hb
      · rw [h.exportEnds_iff hb]
        simp
      · rw [h.exportEnds_large_iff (not_le.mp hb) rfl rfl rfl rfl]
        simp
    have hnull := h.writeToFile_null_iff
    rw [hfits, Bool.not_eq_true, ← hnull, Call.DerefsNull]
    cases hrun : (writeToFile true s).run .opened with
    | ok v ofs =>
      refine ⟨fun _ => .inl ⟨s, h, .inl ⟨(), ?_⟩⟩, nofun⟩
      rw [run_call_writeToFile, hrun]
    | error e ofs =>
      have hcall : ((Call.writeToFile true).run host).run s = .error e s := by
        rw [run_call_writeToFile, hrun]
      refine ⟨fun hends => ?_, fun ⟨ofs', heq⟩ => ⟨s, by cases heq; exact hcall⟩⟩
      cases e with
      | outOfRange what => exact .inl ⟨s, h, .inr ⟨what, hcall⟩⟩
      | nullDeref =>
        rw [hnull.mp ⟨ofs, hrun⟩] at hends
        cases hends
      | overrun => exact .inr ⟨_, s, hcall, .inr rfl⟩
      | stuck => exact .inr ⟨_, s, hcall, .inl rfl⟩

theorem call_outcome (h : Inv b s) (host : Endian) (c : Call) :
    (c.NodeFits s → Sound b (c.run host) s) ∧ (¬ c.NodeFits s → c.DerefsNull host s) := by
  have hsound : ∀ {c : Call}, Sound b (c.run host) s → c.NodeFits s →
      (c.NodeFits s → Sound b (c.run host) s) ∧ (¬ c.NodeFits s → c.DerefsNull host s) :=
    fun hs hfits => ⟨fun _ => hs, fun hnot => absurd hfits hnot⟩
  cases c with
  | write buf => exact hsound (.inl (.of_writes h rfl (Writes.bytes buf))) trivial
  | read n =>
    rcases Nat.eq_zero_or_pos n with rfl | hn
    · have hrun := h.run_read_zero
      by_cases hpos : s.position < s.capacity
      · rw [if_pos hpos] at hrun
        exact hsound (.inl (Settles.mutating ⟨s, h, .inl ⟨_, hrun⟩⟩)) (.inr hpos)
      · rw [if_neg hpos] at hrun
        refine ⟨fun hfits => absurd (hfits.resolve_left (· rfl)) hpos, fun _ => ⟨s, ?_⟩⟩
        rw [Call.run, run_mutating, hrun]
    · exact hsound (.inl (h.settles_read hn.ne').mutating) (.inl hn.ne')
  | readAt n q =>
    obtain ⟨hfits, hnull⟩ := h.call_readAt n q
    refine ⟨fun hc => .inl (hfits hc), fun hc => ⟨s, ?_⟩⟩
    rw [Call.run, run_const, hnull hc]
  | setPosition v => exact hsound (.inl (h.settles_setPosition v)) trivial
  | clear =>
    obtain ⟨t, hrun, ht, -⟩ := h.run_clear
    exact hsound (.inl ⟨t, ht, .inl ⟨(), hrun⟩⟩) trivial
  | setIsLittleEndian value =>
    obtain ⟨t, hrun, ht, -⟩ := h.run_setIsLittleEndian value
    exact hsound (.inl ⟨t, ht, .inl ⟨(), hrun⟩⟩) trivial
  | toString =>
    refine hsound (.inl ?_) trivial
    obtain ⟨str, hrun⟩ | ⟨what, hrun⟩ := h.toString_outcome
    · exact .const_ok h hrun
    · exact .const_throw h hrun
  | toHexString =>
    refine hsound (.inl ?_) trivial
    obtain ⟨str, hrun⟩ | ⟨what, hrun⟩ := h.toString_outcome
    · exact .const_ok h (by rw [ByteArray.toHexString, EStateM.run_bind, hrun]; rfl)
    · exact .const_throw h (by rw [ByteArray.toHexString, EStateM.run_bind, hrun])
  | getReadBuffers len =>
    obtain ⟨vs, hrun, -⟩ := h.run_getReadBuffers len
    exact hsound (.inl (.const_ok h hrun)) trivial
  | getReadBuffersAt len q =>
    obtain ⟨hfits, hnull⟩ := h.call_getReadBuffersAt len q
    refine ⟨fun hc => .inl (hfits hc), fun hc => ⟨s, ?_⟩⟩
    rw [Call.run, run_const, hnull hc]
  | getWriteBuffers len =>
    obtain ⟨t, vs, hrun, ht, -⟩ := h.run_getWriteBuffers len
    exact hsound (.inl (Settles.mutating ⟨t, ht, .inl ⟨_, hrun⟩⟩)) trivial
  | writeItem i =>
    obtain ⟨xs, hw⟩ := Kind.writes host i
    exact hsound (.inl (.of_writes h rfl hw)) trivial
  | writeStringWithoutLength str =>
    exact hsound (.inl (.of_writes h rfl (Writes.bytes str))) trivial
  | readItem k => exact hsound (.inl (Settles.of_decodes h (Decodes.kind host k)).mutating) trivial
  | writeToFile opened => exact h.call_writeToFile host opened
  | readFromFile fuel ifs =>
    refine hsound ?_ trivial
    obtain hsettles | ⟨t, hstuck⟩ := h.settles_readFromFile fuel ifs
    · exact .inl hsettles.mutating
    · exact .inr ⟨_, t, by rw [Call.run, run_mutating, hstuck], .inl rfl⟩

end Inv

theorem Inv.reached {b : ℕ} {host : Endian} {s t : ByteArray} {a : Call ⊕ Access} (h : Inv b s)
    (hstep : Reached host s a t) : Inv b t := by
  cases a with
  | inl c =>
    obtain ⟨hsound, hnull⟩ := h.call_outcome host c
    by_cases hfits : c.NodeFits s
    · exact (hsound hfits).inv hstep
    · obtain ⟨u, hrun⟩ := hnull hfits
      rw [Reached, hrun] at hstep
      rcases hstep with hstep | ⟨what, hstep⟩ <;> cases hstep
  | inr a => exact h.accessed hstep

/-- In every reachable state a call stays away from null exactly when its nodes are there. -/
theorem no_null_deref_iff (b : ℕ) (hb : 1 ≤ b) (fresh : ℕ → UInt8) (host : Endian)
    (as : List (Call ⊕ Access)) (s : ByteArray) (hrun : Run (Reached host) (new b fresh) as s)
    (c : Call) : ¬ c.DerefsNull host s ↔ c.NodeFits s := by
  have h : Inv b s := hrun.invariant (fun _ _ _ hs hstep => hs.reached hstep) (Inv.of_new hb)
  obtain ⟨hsound, hnull⟩ := h.call_outcome host c
  constructor
  · intro hsafe
    by_contra hfits
    exact hsafe (hnull hfits)
  · rintro hfits ⟨t, hrun⟩
    exact (hsound hfits).not_null hrun

theorem reached_fourBytes (position : ℕ) (cur : Option ℕ)
    (h : (setPosition position).run (fourBytes 4 none) = .ok ⟨⟩ (fourBytes position cur)) :
    Run (Reached .little) (new 2 fun _ => 0)
      [.inl (.write [1, 2, 3, 4]), .inl (.setPosition position)]
      (fourBytes position cur) :=
  .cons (t := fourBytes 4 none) (.inl rfl) (.cons (.inl h) (.nil _))

theorem no_null_deref_iff_full_node :
    ¬ (Call.toString).DerefsNull .little (fourBytes 4 none) ∧
      ¬ (Call.read 1).DerefsNull .little (fourBytes 4 none) := by
  have hrun := reached_fourBytes 4 none rfl
  exact ⟨(no_null_deref_iff 2 (by decide) _ _ _ _ hrun .toString).mpr trivial,
    (no_null_deref_iff 2 (by decide) _ _ _ _ hrun (.read 1)).mpr (.inl (by decide))⟩

/-- At the end of a full last node `m_cur` is null, and both reads of no bytes look at it; before
it three calls walk off the list. -/
theorem null_deref_at_node_end :
    (∃ as, Run (Reached .little) (new 2 fun _ => 0) as (fourBytes 4 none)) ∧
      (Call.read 0).DerefsNull .little (fourBytes 4 none) ∧
      (Call.readAt 0 0).DerefsNull .little (fourBytes 4 none) ∧
    (∃ as, Run (Reached .little) (new 2 fun _ => 0) as (fourBytes 3 (some 1))) ∧
      (Call.readAt 3 0).DerefsNull .little (fourBytes 3 (some 1)) ∧
      (Call.getReadBuffersAt 1 4).DerefsNull .little (fourBytes 3 (some 1)) ∧
      (Call.writeToFile true).DerefsNull .little (fourBytes 3 (some 1)) := by
  have hend := reached_fourBytes 4 none rfl
  have hlast := reached_fourBytes 3 (some 1) rfl
  have hnull : Inv 2 (fourBytes 4 none) :=
    hend.invariant (fun _ _ _ hs hstep => hs.reached hstep) (Inv.of_new (by decide))
  have h : Inv 2 (fourBytes 3 (some 1)) :=
    hlast.invariant (fun _ _ _ hs hstep => hs.reached hstep) (Inv.of_new (by decide))
  refine ⟨⟨_, hend⟩, ⟨_, rfl⟩, (hnull.call_outcome .little _).2 ?_, ⟨_, hlast⟩,
    (h.call_outcome .little _).2 ?_, ⟨_, rfl⟩, (h.call_outcome .little _).2 ?_⟩
  · rintro (hlt | ⟨hpos, -⟩)
    · exact absurd hlt (Nat.not_lt_zero _)
    · exact absurd hpos (by decide)
  · have hdiff : sizeDiff 4 0 = 4 := by decide +kernel
    rintro (hlt | ⟨-, hzero | hle⟩)
    · exact absurd (hdiff ▸ hlt) (by decide)
    · cases hzero
    · exact absurd hle (by decide)
  · intro hfits
    have hsmall := hfits rfl
    rw [if_pos (by decide)] at hsmall
    exact absurd hsmall (by decide)

end ApexStorm.ByteArray
