import ApexStorm.ByteArray.FileInput

/-!
# Writing to a file

`writeToFile` walks the nodes from the cursor on and hands a piece of each to the
output stream. The length of a piece is computed from what is left to write and from
the offset of the position in its node, which is kept in an `int`; sizes are below
`2^63`, so the arithmetic in `int64_t` is exact. The first piece ends with its node only
if a whole node is left to write or the position is at the start of one.
-/

namespace ApexStorm.ByteArray
open Lib Lib.Chunks

@[irreducible] def toInt (x : ℤ) : ℤ := (x + 2 ^ 31) % 2 ^ 32 - 2 ^ 31

structure OStream where
  bytes : List UInt8
  lens : List ℤ
  bad : Bool

def OStream.opened : OStream := ⟨[], [], false⟩

/-- `ofs.write(p, len)` with `xs` at `p`. A negative length makes the stream bad, and a bad stream
stores nothing. -/
def OStream.write (ofs : OStream) (xs : List UInt8) (len : ℤ) : OStream :=
  let bad := ofs.bad || decide (len < 0)
  ⟨if bad then ofs.bytes else ofs.bytes ++ xs, ofs.lens ++ [len], bad⟩

def look {α : Type} (ba : ByteArray) (m : Method α) : EStateM Fault OStream α := fun ofs =>
  match m.run ba with
  | .ok v _ => .ok v ofs
  | .error e _ => .error e ofs

def loadRegion (cur : Option ℕ) (diff len : ℤ) : Method (List UInt8) := do
  let node ← deref cur
  if len ≤ 0 then return []
  else if 0 ≤ diff ∧ diff + len ≤ node.size then
    return slice node.ptr diff.toNat len.toNat
  else throw .overrun

def exportDiff (base_size : ℕ) (pos : ℤ) : ℤ := toInt (pos % base_size)

def exportLen (base_size : ℕ) (pos read_size : ℤ) : ℤ :=
  (if read_size > base_size then (base_size : ℤ) else read_size) - exportDiff base_size pos

def exportLoop (ba : ByteArray) (fuel : ℕ) (cur : Option ℕ) (pos read_size : ℤ) :
    EStateM Fault OStream Unit :=
  if read_size > 0 then
    match fuel with
    | 0 => throw .stuck
    | fuel + 1 => do
      let diff := exportDiff ba.baseSize pos
      let len := exportLen ba.baseSize pos read_size
      let xs ← look ba (loadRegion cur diff len)
      modify (·.write xs len)
      let cur ← look ba (next cur)
      exportLoop ba fuel cur (pos + len) (read_size - len)
  else pure ()

/-- Every pass leaves a node behind, so there is one pass more than nodes at most. -/
def writeToFile (opened : Bool) (ba : ByteArray) : EStateM Fault OStream Bool := do
  if opened then
    exportLoop ba (ba.nodes.length + 1) ba.cur ba.position ba.getReadSize
    return true
  else return false

theorem toInt_zero : toInt (0 : ℕ) = (0 : ℕ) := by
  rw [toInt]
  norm_num

theorem exportDiff_node {b d : ℕ} (i : ℕ) (hd : d < b) :
    exportDiff b ((b * i + d : ℕ) : ℤ) = toInt d := by
  rw [exportDiff, ← Int.natCast_mod, Nat.mul_add_mod, Nat.mod_eq_of_lt hd]

theorem exportLen_eq {b d r : ℕ} {pos : ℤ} (hdiff : exportDiff b pos = d) (hle : d ≤ min r b) :
    exportLen b pos r = (min r b - d : ℕ) := by
  rw [exportLen, hdiff]
  clear hdiff
  split_ifs <;> omega

def nextNode (ba : ByteArray) (i : ℕ) : Option ℕ :=
  if i + 1 < ba.nodes.length then some (i + 1) else none

section export_loop
variable {b i fuel : ℕ} {ba : ByteArray} {pos r : ℤ} {ofs ofs' : OStream}

theorem run_look_ok {α : Type} {m : Method α} {v : α} {t : ByteArray} (h : m.run ba = .ok v t) :
    (look ba m).run ofs = .ok v ofs := by
  rw [EStateM.run, look, h]

theorem run_look_error {α : Type} {m : Method α} {e : Fault} {t : ByteArray}
    (h : m.run ba = .error e t) : (look ba m).run ofs = .error e ofs := by
  rw [EStateM.run, look, h]

theorem run_exportLoop_done (hr : r ≤ 0) (cur : Option ℕ) :
    (exportLoop ba fuel cur pos r).run ofs = .ok () ofs := by
  rw [exportLoop.eq_def, if_neg (by omega), EStateM.run_pure]

theorem run_exportLoop_null (hr : 0 < r) :
    (exportLoop ba (fuel + 1) none pos r).run ofs = .error .nullDeref ofs := by
  rw [exportLoop, if_pos hr]
  rfl

theorem Layout.run_loadRegion (h : Layout b ba) (hi : i < ba.nodes.length) (diff len : ℤ) :
    (loadRegion (some i) diff len).run ba =
      if len ≤ 0 then .ok [] ba
      else if 0 ≤ diff ∧ diff + len ≤ b then
        .ok (slice ba.flat (b * i + diff.toNat) len.toNat) ba
      else .error .overrun ba := by
  simp only [loadRegion, EStateM.run_bind, Layout.run_deref ba hi, h.node_size hi]
  split_ifs with hlen hfit
  · rfl
  · have hin : diff.toNat + len.toNat ≤ b := by omega
    rw [flat, h.chunks.slice_flatten (by simpa using hi) hin, List.getElem_map]
    rfl
  · rfl

theorem Layout.run_exportLoop_pass (h : Layout b ba) (hi : i < ba.nodes.length) (hr : 0 < r)
    (fuel : ℕ) (pos : ℤ) (ofs : OStream) :
    (exportLoop ba (fuel + 1) (some i) pos r).run ofs =
      if exportLen b pos r ≤ 0 then
        (exportLoop ba fuel (ba.nextNode i) (pos + exportLen b pos r) (r - exportLen b pos r)).run
          (ofs.write [] (exportLen b pos r))
      else if 0 ≤ exportDiff b pos ∧ exportDiff b pos + exportLen b pos r ≤ b then
        (exportLoop ba fuel (ba.nextNode i) (pos + exportLen b pos r) (r - exportLen b pos r)).run
          (ofs.write (slice ba.flat (b * i + (exportDiff b pos).toNat) (exportLen b pos r).toNat)
            (exportLen b pos r))
      else .error .overrun ofs := by
  have hload := h.run_loadRegion hi (exportDiff b pos) (exportLen b pos r)
  have hnext : ∀ ofs, (ba.look (next (some i))).run ofs = .ok (ba.nextNode i) ofs :=
    fun ofs => run_look_ok (Layout.run_next ba i)
  rw [exportLoop, if_pos hr, h.base]
  split_ifs at hload ⊢
  · simp only [EStateM.run_bind, run_look_ok hload, EStateM.run_modify, hnext]
  · simp only [EStateM.run_bind, run_look_ok hload, EStateM.run_modify, hnext]
  · simp only [EStateM.run_bind, run_look_error hload]

theorem OStream.write_of_nonneg (hbad : ofs.bad = false) (xs : List UInt8) {len : ℤ}
    (hlen : 0 ≤ len) : ofs.write xs len = ⟨ofs.bytes ++ xs, ofs.lens ++ [len], false⟩ := by
  have hdec : decide (len < 0) = false := by simpa using hlen
  simp [OStream.write, hbad, hdec]

theorem Layout.run_exportLoop (h : Layout b ba) {d r : ℕ} (fuel : ℕ) (ofs : OStream)
    (hi : i < ba.nodes.length) (hd : d < b)
    (hint : toInt d = d) (hr : 0 < r) (hroom : b * i + d + r ≤ ba.capacity)
    (hwhole : d = 0 ∨ b ≤ r) (hfuel : ba.nodes.length ≤ i + fuel) (hbad : ofs.bad = false) :
    ∃ lens, (∀ len ∈ lens, 0 ≤ len) ∧
      (exportLoop ba fuel (some i) ((b * i + d : ℕ) : ℤ) (r : ℤ)).run ofs =
        .ok () ⟨ofs.bytes ++ slice ba.flat (b * i + d) r, ofs.lens ++ lens, false⟩ := by
  induction fuel generalizing i d r ofs with
  | zero => omega
  | succ fuel ih =>
    have hdiff : exportDiff b ((b * i + d : ℕ) : ℤ) = d := by
      rw [exportDiff_node i hd, hint]
    have hlen := exportLen_eq (r := r) hdiff (by clear hdiff hint; omega)
    have hpass := h.run_exportLoop_pass hi (Int.natCast_pos.mpr hr) fuel ((b * i + d : ℕ) : ℤ) ofs
    rw [hlen, hdiff] at hpass
    clear hdiff hlen hint
    obtain ⟨k, hk⟩ : ∃ k, k = min r b - d := ⟨_, rfl⟩
    rw [← hk, if_neg (by omega), if_pos (by omega), Int.toNat_natCast, Int.toNat_natCast,
      OStream.write_of_nonneg hbad _ (by omega)] at hpass
    rw [hpass]
    by_cases hlast : r = k
    · refine ⟨[(k : ℤ)], by simp, ?_⟩
      rw [run_exportLoop_done (by omega), hlast]
    · have hnode : b * i + d + k = b * (i + 1) + 0 := by
        rw [Nat.mul_succ]
        omega
      have hi' : i + 1 < ba.nodes.length := h.node_succ_lt (p := b * (i + 1)) (by omega) le_rfl
      obtain ⟨lens, hlens, hrun⟩ := ih (i := i + 1) (d := 0) (r := r - k)
        ⟨ofs.bytes ++ slice ba.flat (b * i + d) k, ofs.lens ++ [(k : ℤ)], false⟩
        hi' h.base_pos toInt_zero (by omega) (by omega) (.inl rfl) (by omega) rfl
      have hjoin := slice_append ba.flat (b * i + d) k (r - k)
      rw [show k + (r - k) = r by omega, hnode] at hjoin
      refine ⟨(k : ℤ) :: lens, by simpa using hlens, ?_⟩
      rw [nextNode, if_pos hi', ← Nat.cast_add, ← Nat.cast_sub (by omega), hnode, hrun,
        List.append_assoc, hjoin, List.append_assoc]
      rfl

theorem Layout.offset_lt (h : Layout b ba) (hi : i < ba.nodes.length) {diff len : ℤ}
    (hdiff : 0 ≤ diff) (hlen : 0 < len) (hfit : diff + len ≤ b) :
    b * i + diff.toNat < ba.capacity := by
  have hnode : b * (i + 1) ≤ b * ba.nodes.length := Nat.mul_le_mul_left b hi
  rw [h.capacity_eq]
  rw [Nat.mul_succ] at hnode
  omega

theorem Layout.nextNode_lt {j : ℕ} (hj : ba.nextNode i = some j) : j < ba.nodes.length := by
  rw [nextNode] at hj
  split_ifs at hj with hlt
  cases hj
  exact hlt

theorem OStream.write_extends (ofs : OStream) (xs : List UInt8) (len : ℤ) :
    ofs.lens <+: (ofs.write xs len).lens ∧ ofs.bytes <+: (ofs.write xs len).bytes := by
  refine ⟨List.prefix_append _ _, ?_⟩
  simp only [OStream.write]
  split_ifs
  · exact List.prefix_rfl
  · exact List.prefix_append _ _

theorem Layout.exportLoop_pass (h : Layout b ba) {cur : Option ℕ}
    (hcur : ∀ i, cur = some i → i < ba.nodes.length) (hr : 0 < r)
    (hrun : (exportLoop ba fuel cur pos r).run ofs = .ok () ofs') :
    ∃ i fuel' xs, cur = some i ∧ fuel = fuel' + 1 ∧
      (exportLoop ba fuel' (ba.nextNode i) (pos + exportLen b pos r)
        (r - exportLen b pos r)).run (ofs.write xs (exportLen b pos r)) = .ok () ofs' ∧
      (0 < exportLen b pos r → 0 ≤ exportDiff b pos ∧ exportDiff b pos + exportLen b pos r ≤ b ∧
        xs = slice ba.flat (b * i + (exportDiff b pos).toNat) (exportLen b pos r).toNat) := by
  cases fuel with
  | zero =>
    rw [exportLoop, if_pos hr] at hrun
    cases hrun
  | succ fuel =>
    cases cur with
    | none =>
      rw [run_exportLoop_null hr] at hrun
      cases hrun
    | some i =>
      rw [h.run_exportLoop_pass (hcur i rfl) hr] at hrun
      split_ifs at hrun with hlen hfit
      · exact ⟨i, fuel, [], rfl, rfl, hrun, fun hpos => absurd hpos (not_lt.mpr hlen)⟩
      · exact ⟨i, fuel, _, rfl, rfl, hrun, fun _ => ⟨hfit.1, hfit.2, rfl⟩⟩

theorem Layout.exportLoop_extends (h : Layout b ba) {cur : Option ℕ}
    (hcur : ∀ i, cur = some i → i < ba.nodes.length)
    (hrun : (exportLoop ba fuel cur pos r).run ofs = .ok () ofs') :
    ofs.lens <+: ofs'.lens ∧ ofs.bytes <+: ofs'.bytes := by
  induction fuel generalizing cur pos r ofs with
  | zero =>
    by_cases hr : 0 < r
    · obtain ⟨i, fuel, xs, -, hfuel, -⟩ := h.exportLoop_pass hcur hr hrun
      cases hfuel
    · rw [run_exportLoop_done (not_lt.mp hr)] at hrun
      cases hrun
      exact ⟨List.prefix_rfl, List.prefix_rfl⟩
  | succ fuel ih =>
    by_cases hr : 0 < r
    · obtain ⟨i, fuel', xs, -, hfuel, hrest, -⟩ := h.exportLoop_pass hcur hr hrun
      cases hfuel
      obtain ⟨hlens, hbytes⟩ := ih (fun j hj => nextNode_lt hj) hrest
      have hwrite := ofs.write_extends xs (exportLen b pos r)
      exact ⟨hwrite.1.trans hlens, hwrite.2.trans hbytes⟩
    · rw [run_exportLoop_done (not_lt.mp hr)] at hrun
      cases hrun
      exact ⟨List.prefix_rfl, List.prefix_rfl⟩

theorem Layout.exportLoop_negative (h : Layout b ba) {cur : Option ℕ}
    (hcur : ∀ i, cur = some i → i < ba.nodes.length) (hr : 0 < r) (hneg : exportLen b pos r < 0)
    (hrun : (exportLoop ba fuel cur pos r).run ofs = .ok () ofs') : ∃ len ∈ ofs'.lens, len < 0 := by
  obtain ⟨i, fuel', xs, -, -, hrest, -⟩ := h.exportLoop_pass hcur hr hrun
  have hext := (h.exportLoop_extends (fun j hj => nextNode_lt hj) hrest).1
  exact ⟨_, hext.subset (List.mem_append_right _ (List.mem_singleton_self _)), hneg⟩

/-- A pass of length zero changes nothing but the node, so the next one is like it. -/
theorem Layout.exportLoop_idle (h : Layout b ba) {cur : Option ℕ}
    (hcur : ∀ i, cur = some i → i < ba.nodes.length) (hr : 0 < r) (hzero : exportLen b pos r = 0) :
    (exportLoop ba fuel cur pos r).run ofs ≠ .ok () ofs' := by
  intro hrun
  induction fuel generalizing cur ofs with
  | zero =>
    obtain ⟨i, fuel, xs, -, hfuel, -⟩ := h.exportLoop_pass hcur hr hrun
    cases hfuel
  | succ fuel ih =>
    obtain ⟨i, fuel', xs, -, hfuel, hrest, -⟩ := h.exportLoop_pass hcur hr hrun
    cases hfuel
    rw [hzero, add_zero, sub_zero] at hrest
    exact ih (fun j hj => nextNode_lt hj) hrest

theorem Layout.exportLen_pos (h : Layout b ba) {cur : Option ℕ}
    (hcur : ∀ i, cur = some i → i < ba.nodes.length) (hr : 0 < r)
    (hrun : (exportLoop ba fuel cur pos r).run ofs = .ok () ofs')
    (hlens : ∀ len ∈ ofs'.lens, 0 ≤ len) : 0 < exportLen b pos r := by
  rcases lt_trichotomy (exportLen b pos r) 0 with hneg | hzero | hpos
  · obtain ⟨len, hmem, hlt⟩ := h.exportLoop_negative hcur hr hneg hrun
    exact absurd (hlens len hmem) (not_le.mpr hlt)
  · exact absurd hrun (h.exportLoop_idle hcur hr hzero)
  · exact hpos

theorem Layout.exportLoop_copies (h : Layout b ba) {cur : Option ℕ}
    (hcur : ∀ i, cur = some i → i < ba.nodes.length) (hr : 0 < r) (hbad : ofs.bad = false)
    (hrun : (exportLoop ba fuel cur pos r).run ofs = .ok () ofs')
    (hlens : ∀ len ∈ ofs'.lens, 0 ≤ len) :
    ∃ i, cur = some i ∧ 0 < exportLen b pos r ∧ 0 ≤ exportDiff b pos ∧
      exportDiff b pos + exportLen b pos r ≤ b ∧
      ofs.bytes ++ slice ba.flat (b * i + (exportDiff b pos).toNat) (exportLen b pos r).toNat <+:
        ofs'.bytes := by
  have hlen := h.exportLen_pos hcur hr hrun hlens
  obtain ⟨i, fuel', xs, hi, -, hrest, hxs⟩ := h.exportLoop_pass hcur hr hrun
  obtain ⟨hdiff, hfit, rfl⟩ := hxs hlen
  have hext := (h.exportLoop_extends (fun j hj => nextNode_lt hj) hrest).2
  rw [OStream.write_of_nonneg hbad _ hlen.le] at hext
  exact ⟨i, hi, hlen, hdiff, hfit, hext⟩

end export_loop

/-- `writeToFile` comes back, with no negative length on the way, and `file` is what `toString`
returns. -/
def Exports (s : ByteArray) (file : List UInt8) : Prop :=
  ∃ ofs, (writeToFile true s).run .opened = .ok true ofs ∧ (∀ len ∈ ofs.lens, 0 ≤ len) ∧
    ofs.bytes = file ∧ toString.run s = .ok file s

theorem run_writeToFile_iff (s : ByteArray) (ofs : OStream) :
    (writeToFile true s).run .opened = .ok true ofs ↔
      (exportLoop s (s.nodes.length + 1) s.cur s.position s.getReadSize).run .opened =
        .ok () ofs := by
  rw [writeToFile, if_pos rfl, EStateM.run_bind]
  cases (exportLoop s (s.nodes.length + 1) s.cur s.position s.getReadSize).run .opened with
  | ok u t => simp
  | error e t => simp

namespace Inv
variable {b : ℕ} {s : ByteArray}

theorem run_writeToFile (h : Inv b s)
    (hfits : s.getReadSize = 0 ∨ s.position % b = 0 ∨
      toInt (s.position % b : ℕ) = (s.position % b : ℕ) ∧ b ≤ s.getReadSize) :
    ∃ ofs, (writeToFile true s).run .opened = .ok true ofs ∧ (∀ len ∈ ofs.lens, 0 ≤ len) ∧
      ofs.bytes = slice s.content s.position s.getReadSize := by
  have hread : s.getReadSize = s.size - s.position := rfl
  have hsz := h.size_le
  have hpos := h.position_le
  rcases Nat.eq_zero_or_pos s.getReadSize with hzero | hR
  · rw [hzero]
    refine ⟨.opened, (run_writeToFile_iff s _).mpr ?_, nofun, rfl⟩
    exact run_exportLoop_done (by rw [hzero]; rfl) _
  · obtain ⟨hcur, hi, hdm⟩ := h.cur_eq_some (show s.position < s.capacity by omega)
    have hmod : s.position % b < b := Nat.mod_lt _ h.base_pos
    have hint : toInt (s.position % b : ℕ) = (s.position % b : ℕ) := by
      rcases hfits with hzero | hzero | hint
      · exact absurd hzero hR.ne'
      · rw [hzero, toInt_zero]
      · exact hint.1
    have hwhole : s.position % b = 0 ∨ b ≤ s.getReadSize := by
      rcases hfits with hzero | hzero | hint
      · exact absurd hzero hR.ne'
      · exact .inl hzero
      · exact .inr hint.2
    have hroom : b * (s.position / b) + s.position % b + s.getReadSize ≤ s.capacity := by
      clear hint hfits
      omega
    obtain ⟨lens, hlens, hrun⟩ := h.run_exportLoop (s.nodes.length + 1) .opened hi hmod
      hint hR hroom hwhole ((Nat.le_succ _).trans (Nat.le_add_left _ _)) rfl
    rw [← hdm] at hrun
    refine ⟨_, (run_writeToFile_iff s _).mpr (by rw [hcur]; exact hrun), hlens, ?_⟩
    rw [content, slice_take (by clear hint hfits; omega)]
    rfl

theorem exports (h : Inv b s) (hsize : s.size < 2 ^ 64)
    (hfits : s.getReadSize = 0 ∨ s.position % b = 0 ∨
      toInt (s.position % b : ℕ) = (s.position % b : ℕ) ∧ b ≤ s.getReadSize) :
    Exports s (slice s.content s.position s.getReadSize) := by
  obtain ⟨ofs, hrun, hlens, hbytes⟩ := h.run_writeToFile hfits
  exact ⟨ofs, hrun, hlens, hbytes, h.run_toString ((Nat.sub_le _ _).trans_lt hsize)⟩

theorem exportLoop_of_exports (h : Inv b s) (hsize : s.size < 2 ^ 64) (hR : 0 < s.getReadSize)
    {file : List UInt8} (hexp : Exports s file) :
    ∃ ofs, (exportLoop s (s.nodes.length + 1) (some (s.position / b)) s.position
        s.getReadSize).run .opened = .ok () ofs ∧ (∀ len ∈ ofs.lens, 0 ≤ len) ∧
      ofs.bytes = slice s.flat s.position s.getReadSize := by
  have hread : s.getReadSize = s.size - s.position := rfl
  have hsz := h.size_le
  obtain ⟨hcur, -, -⟩ := h.cur_eq_some (show s.position < s.capacity by omega)
  obtain ⟨ofs, hrun, hlens, rfl, hstr⟩ := hexp
  rw [run_writeToFile_iff, hcur] at hrun
  rw [h.run_toString ((Nat.sub_le _ _).trans_lt hsize), content, slice_take (by omega)] at hstr
  exact ⟨ofs, hrun, hlens, (EStateM.Result.ok.inj hstr).1.symm⟩

theorem exports_first (h : Inv b s) (hsize : s.size < 2 ^ 64) (hR : 0 < s.getReadSize)
    {file : List UInt8} (hexp : Exports s file) :
    s.flat[b * (s.position / b) + (toInt (s.position % b : ℕ)).toNat]? = s.flat[s.position]? := by
  have hread : s.getReadSize = s.size - s.position := rfl
  have hsz := h.size_le
  have hflat := h.flat_length
  obtain ⟨-, hi, hdm⟩ := h.cur_eq_some (show s.position < s.capacity by omega)
  have hcur : ∀ j, some (s.position / b) = some j → j < s.nodes.length := by
    intro j hj
    cases hj
    exact hi
  have hdiff : exportDiff b (s.position : ℤ) = toInt (s.position % b : ℕ) := by
    have hnode := exportDiff_node (s.position / b) (Nat.mod_lt s.position h.base_pos)
    rwa [← hdm] at hnode
  have hle : s.position + 0 ≤ s.flat.length := by omega
  have hRz := Int.natCast_pos.mpr hR
  obtain ⟨ofs, hrun, hlens, hbytes⟩ := h.exportLoop_of_exports hsize hR hexp
  obtain ⟨j, hj, hpos, h0, hfit, hbegin⟩ := h.exportLoop_copies hcur hRz rfl hrun hlens
  cases hj
  have hin := h.offset_lt hi h0 hpos hfit
  rw [hbytes, hdiff] at hbegin
  rw [hdiff, ← hflat] at hin
  exact getElem?_eq_of_slice_append (m := 0) hle (Int.lt_toNat.mpr hpos) hin hbegin

/-- With less than a node to write, the second piece is taken from the next node although the
first one stopped short of its end. -/
theorem exports_second (h : Inv b s) (hsize : s.size < 2 ^ 64) (hd : 0 < s.position % b)
    (hint : toInt (s.position % b : ℕ) = (s.position % b : ℕ)) (hR : 0 < s.getReadSize)
    (hshort : s.getReadSize < b) {file : List UInt8} (hexp : Exports s file) :
    s.flat[b * (s.position / b + 1) + (toInt s.getReadSize).toNat]? =
      s.flat[b * (s.position / b) + s.getReadSize]? := by
  have hread : s.getReadSize = s.size - s.position := rfl
  have hsz := h.size_le
  have hflat := h.flat_length
  have hmod := Nat.mod_lt s.position h.base_pos
  obtain ⟨-, hi, hdm⟩ := h.cur_eq_some (show s.position < s.capacity by clear hint; omega)
  have hcur : ∀ j, some (s.position / b) = some j → j < s.nodes.length := by
    intro j hj
    cases hj
    exact hi
  have hdiff : exportDiff b (s.position : ℤ) = (s.position % b : ℕ) := by
    have hnode := exportDiff_node (s.position / b) hmod
    rwa [← hdm, hint] at hnode
  obtain ⟨ofs, hrun, hlens, hbytes⟩ := h.exportLoop_of_exports hsize hR hexp
  have hRz := Int.natCast_pos.mpr hR
  have hlen : exportLen b s.position s.getReadSize =
      (s.getReadSize : ℤ) - (s.position % b : ℕ) := by
    rw [exportLen, hdiff, if_neg (not_lt.mpr (Int.ofNat_le.mpr hshort.le))]
  clear hint
  have hpos := h.exportLen_pos hcur hRz hrun hlens
  obtain ⟨j, fuel, xs, hj, -, hrest, hxs⟩ := h.exportLoop_pass hcur hRz hrun
  obtain ⟨-, -, hxs⟩ := hxs hpos
  cases hj
  rw [OStream.write_of_nonneg rfl _ hpos.le] at hrest
  rw [hdiff, Int.toNat_natCast, ← hdm] at hxs
  rw [hlen] at hrest hxs hpos
  clear hlen hdiff
  obtain ⟨k, hk⟩ : ∃ k, s.getReadSize = s.position % b + k :=
    ⟨s.getReadSize - s.position % b, by omega⟩
  have hgap : (s.getReadSize : ℤ) - (s.position % b : ℕ) = k := by omega
  have hstop : s.position + k = b * (s.position / b) + s.getReadSize := by omega
  rw [hgap, ← Nat.cast_add, hstop, show (s.getReadSize : ℤ) - k = (s.position % b : ℕ) by omega,
    hxs, hgap, Int.toNat_natCast] at hrest
  have hnext := exportDiff_node (s.position / b) hshort
  obtain ⟨j, hj, hpos', h0, hfit, hbegin⟩ := h.exportLoop_copies (fun j hj => Layout.nextNode_lt hj)
    (Int.natCast_pos.mpr hd) rfl hrest hlens
  have hin := h.offset_lt (Layout.nextNode_lt hj) h0 hpos' hfit
  obtain rfl : s.position / b + 1 = j := by
    rw [nextNode] at hj
    split_ifs at hj
    exact Option.some.inj hj
  rw [hbytes, hnext] at hbegin
  rw [hnext, ← hflat] at hin
  rw [← hstop]
  have hle : s.position + k ≤ s.flat.length := by
    clear hnext hin hfit h0 hbegin hpos hpos'
    omega
  exact getElem?_eq_of_slice_append hle (Int.lt_toNat.mpr hpos') hin hbegin

theorem short_offsets (h : Inv b s) (hR : 0 < s.getReadSize) (hshort : s.getReadSize < b)
    (hd : 0 < s.position % b) :
    b * (s.position / b) + s.getReadSize < b * (s.position / b + 1) ∧
      b * (s.position / b) + s.getReadSize < s.capacity := by
  have hread : s.getReadSize = s.size - s.position := rfl
  have hsz := h.size_le
  have hdm := Nat.div_add_mod s.position b
  rw [Nat.mul_succ]
  omega

theorem exists_changed (h : Inv b s) {dst : ℕ} (hdst : dst < s.capacity) (x : UInt8) :
    ∃ a t, Accessed s a t ∧ t.position = s.position ∧ t.size = s.size ∧
      t.capacity = s.capacity ∧ t.flat = s.flat.set dst x := by
  have hcap := h.capacity_eq
  have hflat := h.flat_length
  have hnode : dst / b < s.nodes.length := Nat.div_lt_of_lt_mul (by omega)
  have hmod : dst % b < b := Nat.mod_lt _ h.base_pos
  obtain ⟨ns, hstore, -, -, hns⟩ := h.run_storeAt (dst % b) [x] hnode hmod
  rw [Nat.div_add_mod, overlay_singleton x (by omega)] at hns
  exact ⟨.deposit ⟨dst / b, dst % b, 1⟩ [x], _, ⟨le_rfl, hstore⟩, rfl, rfl, rfl, hns⟩

theorem exists_not_exports (h : Inv b s) {src dst : ℕ} (hne : src ≠ dst) (hdst : dst < s.capacity)
    (hforce : ∀ t file, Inv b t → t.position = s.position → t.size = s.size → Exports t file →
      t.flat[src]? = t.flat[dst]?) :
    ∃ as t, Run Accessed s as t ∧ t.position = s.position ∧ t.size = s.size ∧
      t.capacity = s.capacity ∧ ∀ file, ¬ Exports t file := by
  obtain ⟨x, hx⟩ : ∃ x, s.flat[src]? ≠ some x := by
    by_cases hzero : s.flat[src]? = some 0
    · exact ⟨1, by rw [hzero]; decide⟩
    · exact ⟨0, hzero⟩
  obtain ⟨a, t, hstep, hpos, hsize, hcap, hflat⟩ := h.exists_changed hdst x
  refine ⟨[a], t, .cons hstep (.nil _), hpos, hsize, hcap, fun file hexp => ?_⟩
  have hsame := hforce t file (h.accessed hstep) hpos hsize hexp
  have hin : dst < s.flat.length := h.flat_length ▸ hdst
  rw [hflat, List.getElem?_set_ne hne.symm, List.getElem?_set_self hin] at hsame
  exact hx hsame

theorem eq_of_toNat_eq {z : ℤ} {d : ℕ} (h : z.toNat = d) (hd : d ≠ 0) : z = d := by
  omega

theorem exists_forced (h : Inv b s) (hsize : s.size < 2 ^ 64) (hR : s.getReadSize ≠ 0)
    (hd : s.position % b ≠ 0)
    (hbad : ¬ (toInt (s.position % b : ℕ) = (s.position % b : ℕ) ∧ b ≤ s.getReadSize)) :
    ∃ src dst, src ≠ dst ∧ dst < s.capacity ∧ ∀ t file, Inv b t → t.position = s.position →
      t.size = s.size → Exports t file → t.flat[src]? = t.flat[dst]? := by
  have hread : ∀ t : ByteArray, t.position = s.position → t.size = s.size →
      t.getReadSize = s.getReadSize := by
    intro t hpos hsz
    rw [getReadSize, hpos, hsz, getReadSize]
  by_cases hint : toInt (s.position % b : ℕ) = (s.position % b : ℕ)
  · have hshort : s.getReadSize < b := not_le.mp fun hle => hbad ⟨hint, hle⟩
    obtain ⟨hlt, hle⟩ := h.short_offsets (Nat.pos_of_ne_zero hR) hshort (Nat.pos_of_ne_zero hd)
    refine ⟨b * (s.position / b + 1) + (toInt s.getReadSize).toNat,
      b * (s.position / b) + s.getReadSize, (Nat.lt_add_right _ hlt).ne', hle, ?_⟩
    intro t file ht hpos hsz hexp
    have hR' := hread t hpos hsz
    rw [← hR', ← hpos]
    refine ht.exports_second (hsz ▸ hsize) ?_ ?_ ?_ ?_ hexp
    · rw [hpos]
      exact Nat.pos_of_ne_zero hd
    · rw [hpos]
      exact hint
    · rw [hR']
      exact Nat.pos_of_ne_zero hR
    · rw [hR']
      exact hshort
  · refine ⟨b * (s.position / b) + (toInt (s.position % b : ℕ)).toNat, s.position, ?_, ?_, ?_⟩
    · intro heq
      have hdm := Nat.div_add_mod s.position b
      have hsame := Nat.add_left_cancel (heq.trans hdm.symm)
      exact hint (eq_of_toNat_eq hsame hd)
    · have := h.size_le
      rw [getReadSize] at hR
      clear hint hbad
      omega
    · intro t file ht hpos hsz hexp
      rw [← hpos]
      refine ht.exports_first (hsz ▸ hsize) ?_ hexp
      rw [hread t hpos hsz]
      exact Nat.pos_of_ne_zero hR

end Inv

theorem toInt_natCast_eq_iff (d : ℕ) : toInt d = d ↔ d < 2 ^ 31 := by
  rw [toInt]
  omega

/-- Export and import are inverse for arrays of these sizes, whatever their bytes, if nothing is
written, or the position is at the start of a node, or there is a whole node to write and the
offset in the first one fits an `int`. -/
theorem file_round_trip_iff (b : ℕ) (hb : 1 ≤ b) (fresh : ℕ → UInt8) (as : List Access)
    (s : ByteArray) (hrun : Run Accessed (new b fresh) as s) (hcap : s.capacity < 2 ^ 63) :
    (∀ as' t, Run Accessed s as' t → t.position = s.position → t.size = s.size →
      t.capacity = s.capacity → ∃ file, Exports t file ∧ ImportsBack file) ↔
    s.getReadSize = 0 ∨ s.position % b = 0 ∨ s.position % b < 2 ^ 31 ∧ b ≤ s.getReadSize := by
  have h := Inv.of_accesses hb hrun
  have hsize : s.size < 2 ^ 64 := h.size_le.trans_lt (by omega)
  rw [← toInt_natCast_eq_iff]
  constructor
  · intro hall
    by_contra hbad
    rw [not_or, not_or] at hbad
    obtain ⟨hR, hd, hbad⟩ := hbad
    obtain ⟨src, dst, hne, hdst, hforce⟩ := h.exists_forced hsize hR hd hbad
    obtain ⟨as', t, hrun', hpos, hsz, hcap', hnot⟩ := h.exists_not_exports hne hdst hforce
    obtain ⟨file, hexp, -⟩ := hall as' t hrun' hpos hsz hcap'
    exact hnot file hexp
  · intro hfits as' t hrun' hpos hsz _
    have ht : Inv b t := hrun'.invariant (fun _ _ _ h hstep => h.accessed hstep) h
    have hread : t.getReadSize = s.getReadSize := by rw [getReadSize, hpos, hsz, getReadSize]
    refine ⟨_, ht.exports (by rw [hsz]; exact hsize) ?_, importsBack ?_⟩
    · rw [hread, hpos]
      exact hfits
    · have hlen := List.length_take_le t.getReadSize (t.content.drop t.position)
      have hle : t.getReadSize ≤ t.size := Nat.sub_le _ _
      rw [slice]
      omega

theorem file_round_trip_iff_whole_node :
    ∃ file, Exports (fourBytes 1 (some 0)) file ∧ ImportsBack file := by
  have hrun := run_fourBytes 1 (some 0) rfl
  refine (file_round_trip_iff 2 (by decide) _ _ _ hrun (by decide)).mpr ?_ [] _ (.nil _) rfl rfl rfl
  exact .inr (.inr ⟨by decide, by decide⟩)

/-- One byte to write from offset 1 of its node: every pass has length 0, until the nodes end. -/
theorem export_runs_off_list :
    (∃ as, Run Accessed (new 2 fun _ => 0) as (fourBytes 3 (some 1))) ∧
      (∃ ofs, (writeToFile true (fourBytes 3 (some 1))).run .opened = .error .nullDeref ofs) ∧
      toString.run (fourBytes 3 (some 1)) = .ok [4] (fourBytes 3 (some 1)) ∧
      ∀ file, ¬ Exports (fourBytes 3 (some 1)) file := by
  have hrun := run_fourBytes 3 (some 1) rfl
  have h := Inv.of_accesses (show 1 ≤ 2 by decide) hrun
  have hlen : exportLen 2 3 1 = 0 := by decide +kernel
  have hpass := h.run_exportLoop_pass (i := 1) (r := 1) (by decide) (by decide) 2 3 .opened
  rw [hlen, if_pos le_rfl] at hpass
  have hnull : (exportLoop (fourBytes 3 (some 1)) 3 (some 1) 3 1).run .opened =
      .error .nullDeref (OStream.opened.write [] 0) := hpass.trans (run_exportLoop_null (by decide))
  have hfile : (writeToFile true (fourBytes 3 (some 1))).run .opened =
      .error .nullDeref (OStream.opened.write [] 0) := by
    have hcall : (writeToFile true (fourBytes 3 (some 1))).run .opened = (do
        exportLoop (fourBytes 3 (some 1)) 3 (some 1) 3 1
        return true).run .opened := rfl
    rw [hcall, EStateM.run_bind, hnull]
  refine ⟨⟨_, hrun⟩, ⟨_, hfile⟩, h.run_toString (by decide), ?_⟩
  rintro file ⟨ofs, hok, -⟩
  rw [hfile] at hok
  cases hok

end ApexStorm.ByteArray
