import ApexStorm.ByteArray.Layout

/-!
# What each method does to the content

One lemma per method: from a state with `Inv b` the call returns, keeps `Inv b`
and changes content and position as on a flat sequence of bytes.
-/

namespace ApexStorm.ByteArray
open Lib.Chunks

namespace Inv
variable {b : ℕ} {ba : ByteArray}

theorem content_length (h : Inv b ba) : ba.content.length = ba.size := by
  have hflat := h.flat_length
  have hsize := h.size_le
  rw [content, List.length_take]
  omega

theorem position_le_capacity (h : Inv b ba) : ba.position ≤ ba.capacity :=
  h.position_le.trans h.size_le

theorem cur_eq_none_iff (h : Inv b ba) : ba.cur = none ↔ ba.position = ba.capacity := by
  rw [h.cur_eq, cursorAt_eq_none_iff (h.capacity_eq ▸ h.position_le_capacity), h.capacity_eq]

theorem cur_eq_some (h : Inv b ba) (hp : ba.position < ba.capacity) :
    ba.cur = some (ba.position / b) ∧ ba.position / b < ba.nodes.length ∧
      ba.position = b * (ba.position / b) + ba.position % b := by
  have hlt : ba.position < b * ba.nodes.length := h.capacity_eq ▸ hp
  refine ⟨by rw [h.cur_eq, cursorAt, if_pos hlt], ?_, (Nat.div_add_mod _ _).symm⟩
  exact Nat.div_lt_of_lt_mul hlt

theorem of_new {fresh : ℕ → UInt8} (hb : 0 < b) : Inv b (new b fresh) := by
  refine ⟨⟨hb, rfl, ?_, by simp [new], by simp [new]⟩, le_rfl, by simp [new], ?_⟩
  · intro n hn
    rw [List.mem_singleton.mp hn]
    rfl
  · simp [new, cursorAt, hb]

theorem run_addCapacity (h : Inv b ba) {size : ℕ} (hsize : 0 < size) :
    ∃ ba', (addCapacity size).run ba = .ok ⟨⟩ ba' ∧ Inv b ba' ∧ ba'.position = ba.position ∧
      ba'.size = ba.size ∧ ba'.endian = ba.endian ∧ ba'.content = ba.content ∧
      ba'.position + size ≤ ba'.capacity := by
  have hpos := h.position_le_capacity
  have hne : size ≠ 0 := by omega
  by_cases hroom : size ≤ ba.getCapacity
  · refine ⟨ba, ?_, h, rfl, rfl, rfl, rfl, by rw [getCapacity] at hroom; omega⟩
    simp only [addCapacity, if_neg hne, EStateM.run_bind, EStateM.run_get, ge_iff_le, if_pos hroom,
      EStateM.run_pure]
  · set need := size - ba.getCapacity with hneed
    set count := (need + ba.baseSize - 1) / ba.baseSize with hcount
    have hcap : ba.getCapacity = ba.capacity - ba.position := rfl
    have hbase := h.base
    have hbpos := h.base_pos
    have hceil : need ≤ b * count := by
      rw [hcount, hbase]
      have hdm := Nat.div_add_mod (need + b - 1) b
      have hlt := Nat.mod_lt (need + b - 1) hbpos
      omega
    have hcpos : count ≠ 0 := by
      intro h0
      rw [h0] at hceil
      omega
    obtain ⟨ns, fr, hrun, hlen, hns⟩ := h.run_appendNodes count
    set cur' := if ba.getCapacity = 0 then some ba.nodes.length else ba.cur with hcur'
    have hinv : Inv b { ba with
        nodes := ba.nodes ++ ns, capacity := ba.capacity + b * count, fresh := fr,
        cur := cur' } := by
      have hcapacity := h.capacity_eq
      have hgrow : b * (ba.nodes.length + count) = b * ba.nodes.length + b * count := by ring
      refine ⟨⟨hbpos, hbase, ?_, ?_, ?_⟩, h.position_le, ?_, ?_⟩
      · intro n hn
        rcases List.mem_append.mp hn with hn | hn
        · exact h.uniform n hn
        · exact hns n hn
      · have := h.nodes_pos
        simp only [List.length_append]
        omega
      · simp only [List.length_append, hlen]
        omega
      · have := h.size_le
        simp only
        omega
      · simp only [hcur', List.length_append, hlen]
        by_cases hfull : ba.getCapacity = 0
        · have hp : ba.position = b * ba.nodes.length + 0 := by omega
          rw [if_pos hfull, hp, cursorAt_some hbpos (by omega)]
        · have hlt : ba.position < b * ba.nodes.length := by omega
          have hlt' : ba.position < b * (ba.nodes.length + count) := by omega
          rw [if_neg hfull, h.cur_eq, cursorAt, cursorAt, if_pos hlt, if_pos hlt']
    refine ⟨_, ?_, hinv, rfl, rfl, rfl, ?_, by simp only; omega⟩
    · simp only [addCapacity, if_neg hne, EStateM.run_bind, EStateM.run_get, ge_iff_le,
        if_neg hroom, ← hneed, ← hcount, hrun, if_neg hcpos]
      split_ifs with hfull
      · simp only [EStateM.run_modify, hcur', if_pos hfull]
      · simp only [EStateM.run_pure, hcur', if_neg hfull]
    · have hflat := h.flat_length
      have hsz := h.size_le
      simp only [content, flat, List.map_append, List.flatten_append] at hflat ⊢
      exact List.take_append_of_le_length (by omega)

theorem run_write (h : Inv b ba) (buf : List UInt8) :
    ∃ ba', (write buf).run ba = .ok ⟨⟩ ba' ∧ Inv b ba' ∧ ba'.endian = ba.endian ∧
      ba'.position = ba.position + buf.length ∧
      ba'.content = overlay ba.content ba.position buf := by
  by_cases hbuf : buf.length = 0
  · refine ⟨ba, by simp only [write, if_pos hbuf, EStateM.run_pure], h, rfl, by omega, ?_⟩
    rw [List.length_eq_zero_iff.mp hbuf, overlay_nil]
  · obtain ⟨mid, hadd, hm, hmpos, hmsize, hmend, hmcont, hmroom⟩ :=
      h.run_addCapacity (Nat.pos_of_ne_zero hbuf)
    obtain ⟨hcur, hi, hdm⟩ := hm.cur_eq_some (by omega)
    have hmod : mid.position % b < b := Nat.mod_lt _ hm.base_pos
    obtain ⟨ns, hlen, hns, hflat, hloop⟩ := hm.run_writeLoop hcur hi hmod hdm
      (Nat.pos_of_ne_zero hbuf) hmroom (Nat.zero_add buf.length).le le_rfl
    have hwhole : slice buf 0 buf.length = buf := by simp [slice]
    have hle := hm.position_le
    have hmflat := hm.flat_length
    have hmsz := hm.size_le
    set mid' : ByteArray := { mid with
      nodes := ns
      position := mid.position + buf.length
      cur := cursorAt b mid.nodes.length (mid.position + buf.length)
      size := max mid.size (mid.position + buf.length) } with hmid'
    have hL := hm.toLayout.withNodes hlen hns (mid.position + buf.length)
      (cursorAt b mid.nodes.length (mid.position + buf.length))
    refine ⟨mid', ?_, ⟨⟨hL.base_pos, hL.base, hL.uniform, hL.nodes_pos, hL.capacity_eq⟩,
      le_max_right _ _, max_le hmsz hmroom, by simp only [hmid', hlen]⟩, hmend, ?_, ?_⟩
    · simp only [write, if_neg hbuf, EStateM.run_bind, hadd, EStateM.run_get, hcur,
        Layout.run_deref _ hi, hm.node_size hi, hm.base, hloop, EStateM.run_modify]
      split_ifs with hgrow
      · simp only [hmid', max_eq_right (le_of_lt hgrow), hm.base]
      · simp only [hmid', max_eq_left (not_lt.mp hgrow), hm.base]
    · simp only [hmid', hmpos]
    · rw [← hmcont, ← hmpos]
      simp only [content, flat, hmid'] at hflat hmflat ⊢
      rw [hflat, hwhole, overlay_take hle (by omega)]

theorem run_read (h : Inv b ba) {n : ℕ} (hn : 0 < n) (hle : n ≤ ba.size - ba.position) :
    ∃ ba', (read n).run ba = .ok (slice ba.content ba.position n) ba' ∧ Inv b ba' ∧
      ba'.endian = ba.endian ∧ ba'.position = ba.position + n ∧ ba'.size = ba.size ∧
      ba'.content = ba.content := by
  have hsz := h.size_le
  obtain ⟨hcur, hi, hdm⟩ := h.cur_eq_some (by omega)
  have hmod : ba.position % b < b := Nat.mod_lt _ h.base_pos
  have hloop := h.run_readLoop hcur hi hmod hdm hn (by omega) le_rfl
  refine ⟨{ ba with
      position := ba.position + n, cur := cursorAt b ba.nodes.length (ba.position + n) }, ?_,
    ⟨⟨h.base_pos, h.base, h.uniform, h.nodes_pos, h.capacity_eq⟩, ?_, hsz, rfl⟩,
    rfl, rfl, rfl, rfl⟩
  · have hnot : ¬ n > ba.getReadSize := by rw [getReadSize]; omega
    simp only [read, EStateM.run_bind, EStateM.run_get, if_neg hnot, hcur, Layout.run_deref _ hi,
      h.node_size hi, h.base, hloop]
    rw [content, slice_take (by omega)]
  · simp only
    omega

theorem run_read_short {n : ℕ} (hlt : ba.size - ba.position < n) :
    (read n).run ba = .error (.outOfRange "not enough len") ba := by
  have hshort : n > ba.getReadSize := hlt
  simp only [read, EStateM.run_bind, EStateM.run_get, if_pos hshort, run_throw]

theorem run_setPosition_beyond {v : ℕ} (hlt : ba.capacity < v) :
    (setPosition v).run ba = .error (.outOfRange "set_position out of range") ba := by
  simp only [setPosition, EStateM.run_bind, EStateM.run_get, gt_iff_lt, if_pos hlt, run_throw]

end Inv

namespace Layout
variable {b i : ℕ} {ba : ByteArray}

theorem run_seek (h : Layout b ba) {fuel v : ℕ} (hcur : ba.cur = some i)
    (hi : i < ba.nodes.length) (hv : b * i + v ≤ ba.capacity)
    (hfuel : ba.nodes.length ≤ i + fuel) :
    (seek fuel v).run ba = .ok ⟨⟩ { ba with cur := cursorAt b ba.nodes.length (b * i + v) } := by
  induction fuel generalizing ba i v with
  | zero => omega
  | succ fuel ih =>
    rw [seek]
    simp only [EStateM.run_bind, EStateM.run_get, hcur, run_deref _ hi, h.node_size hi]
    by_cases hgt : b < v
    · have hsum : b * i + v = b * (i + 1) + (v - b) := by rw [Nat.mul_succ]; omega
      have hi' : i + 1 < ba.nodes.length := h.node_succ_lt (p := b * (i + 1)) (by omega) le_rfl
      have h' := h.withNodes rfl h.uniform ba.position (some (i + 1))
      have hrun := ih h' (v := v - b) rfl hi' (by simp only; omega) (by simp only; omega)
      simp only [gt_iff_lt, if_pos hgt, EStateM.run_bind, run_advance hcur, if_pos hi', hrun, hsum]
    · rw [if_neg (by omega)]
      by_cases heq : v = b
      · have hsum : b * i + v = b * (i + 1) := by rw [Nat.mul_succ]; omega
        rw [if_pos heq, run_advance hcur, hsum, cursorAt_node h.base_pos]
      · rw [if_neg heq, EStateM.run_pure, cursorAt_some (by omega) hi, ← hcur]

end Layout

namespace Inv
variable {b : ℕ} {ba : ByteArray}

theorem run_setPosition (h : Inv b ba) {v : ℕ} (hv : v ≤ ba.capacity) :
    ∃ ba', (setPosition v).run ba = .ok ⟨⟩ ba' ∧ Inv b ba' ∧ ba'.endian = ba.endian ∧
      ba'.position = v ∧ ba'.size = max ba.size v ∧ ba'.flat = ba.flat ∧
      ba'.capacity = ba.capacity := by
  set mid : ByteArray := { ba with position := v, size := max ba.size v, cur := some 0 } with hmid
  have hL : Layout b mid := ⟨h.base_pos, h.base, h.uniform, h.nodes_pos, h.capacity_eq⟩
  have hseek := hL.run_seek (i := 0) (v := v) rfl h.nodes_pos (by simpa [hmid] using hv)
    (Nat.zero_add ba.nodes.length).ge
  simp only [Nat.mul_zero, Nat.zero_add] at hseek
  refine ⟨{ mid with cur := cursorAt b ba.nodes.length v }, ?_,
    ⟨⟨h.base_pos, h.base, h.uniform, h.nodes_pos, h.capacity_eq⟩,
      le_max_right _ _, max_le h.size_le hv, rfl⟩, rfl, rfl, rfl, rfl, rfl⟩
  have hnot : ¬ v > ba.capacity := by omega
  simp only [setPosition, EStateM.run_bind, EStateM.run_get, if_neg hnot, EStateM.run_modify]
  rw [← hseek]
  congr 1
  split_ifs with hgrow
  · simp only [hmid, max_eq_right (le_of_lt hgrow)]
  · simp only [hmid, max_eq_left (not_lt.mp hgrow)]

theorem run_clear (h : Inv b ba) :
    ∃ ba', clear.run ba = .ok ⟨⟩ ba' ∧ Inv b ba' ∧ ba'.endian = ba.endian ∧ ba'.position = 0 ∧
      ba'.content = [] := by
  have hpos := h.nodes_pos
  have hlen : (ba.nodes.take 1).length = 1 := by rw [List.length_take]; omega
  refine ⟨_, rfl, ⟨⟨h.base_pos, h.base, ?_, by simp [hlen], by simp [hlen, h.base]⟩, le_rfl,
    Nat.zero_le _, ?_⟩, rfl, rfl, by simp [content]⟩
  · intro n hn
    exact h.uniform n (List.mem_of_mem_take hn)
  · simp only [hlen]
    exact (cursorAt_some h.base_pos Nat.zero_lt_one).symm

theorem run_setIsLittleEndian (h : Inv b ba) (value : Bool) :
    ∃ ba', (setIsLittleEndian value).run ba = .ok ⟨⟩ ba' ∧ Inv b ba' ∧
      ba'.position = ba.position ∧ ba'.content = ba.content :=
  ⟨_, rfl, ⟨⟨h.base_pos, h.base, h.uniform, h.nodes_pos, h.capacity_eq⟩, h.position_le,
    h.size_le, h.cur_eq⟩, rfl, rfl⟩

end Inv

namespace Layout
variable {b i : ℕ} {ba : ByteArray}

theorem run_ioVecs (h : Layout b ba) {fuel npos len : ℕ} (hi : i < ba.nodes.length)
    (hnpos : npos < b) (hroom : b * i + npos + len ≤ ba.capacity) (hfuel : len ≤ fuel) :
    ∃ vs, (ioVecs fuel (some i) npos (b - npos) len).run ba = .ok vs ba ∧
      Tiles b ba.nodes.length (b * i + npos) vs (b * i + npos + len) := by
  induction fuel generalizing i npos len with
  | zero =>
    have hlen : len = 0 := by omega
    exact ⟨[], by rw [hlen, ioVecs_zero, EStateM.run_pure], hlen ▸ .nil _⟩
  | succ fuel ih =>
    by_cases hlen : len = 0
    · exact ⟨[], by rw [hlen, ioVecs_zero, EStateM.run_pure], hlen ▸ .nil _⟩
    by_cases hfit : len ≤ b - npos
    · refine ⟨[⟨i, npos, len⟩], ?_,
        .cons rfl hi (by simp only; omega) (by simp only; omega) (.nil _)⟩
      simp only [ioVecs, if_neg hlen, ge_iff_le, if_pos hfit, EStateM.run_bind, ioVecs_zero,
        EStateM.run_pure]
    · have hnext : b * i + npos + (b - npos) = b * (i + 1) := by rw [Nat.mul_succ]; omega
      have hi' : i + 1 < ba.nodes.length := h.node_succ_lt (p := b * (i + 1)) (by omega) le_rfl
      obtain ⟨vs, hvs, htiles⟩ := @ih (i + 1) 0 (len - (b - npos)) hi' h.base_pos
        (by omega) (by omega)
      have hend : b * (i + 1) + 0 + (len - (b - npos)) = b * i + npos + len := by omega
      rw [hend, Nat.add_zero, ← hnext] at htiles
      refine ⟨⟨i, npos, b - npos⟩ :: vs, ?_,
        .cons rfl hi (by simp only; omega) (by simp only; omega) htiles⟩
      have hnext' : (next (some i)).run ba = .ok (some (i + 1)) ba := by
        simp only [EStateM.run, next, if_pos hi']
      rw [Nat.sub_zero] at hvs
      simp only [ioVecs, if_neg hlen, ge_iff_le, if_neg hfit, EStateM.run_bind, hnext',
        run_deref _ hi', h.node_size hi', hvs, EStateM.run_pure]

end Layout

namespace Inv
variable {b : ℕ} {ba : ByteArray}

theorem run_getWriteBuffers (h : Inv b ba) (len : ℕ) :
    ∃ ba' vs, (getWriteBuffers len).run ba = .ok (len, vs) ba' ∧ Inv b ba' ∧
      ba'.endian = ba.endian ∧ ba'.position = ba.position ∧ ba'.content = ba.content ∧
      ba'.position + len ≤ ba'.capacity ∧
      Tiles b ba'.nodes.length ba'.position vs (ba'.position + len) := by
  by_cases hlen : len = 0
  · refine ⟨ba, [], by simp [getWriteBuffers, hlen], h, rfl, rfl, rfl, ?_, hlen ▸ .nil _⟩
    have := h.position_le_capacity
    omega
  · obtain ⟨mid, hadd, hm, hmpos, -, hmend, hmcont, hmroom⟩ :=
      h.run_addCapacity (Nat.pos_of_ne_zero hlen)
    obtain ⟨hcur, hi, hdm⟩ := hm.cur_eq_some (by omega)
    have hmod : mid.position % b < b := Nat.mod_lt _ hm.base_pos
    obtain ⟨vs, hvs, htiles⟩ := hm.run_ioVecs hi hmod (hdm ▸ hmroom) le_rfl
    rw [← hdm] at htiles
    refine ⟨mid, vs, ?_, hm, hmend, hmpos, hmcont, hmroom, htiles⟩
    simp only [getWriteBuffers, if_neg hlen, EStateM.run_bind, hadd, EStateM.run_get, hcur,
      Layout.run_deref _ hi, hm.node_size hi, hm.base, hvs, EStateM.run_pure]

end Inv

end ApexStorm.ByteArray
