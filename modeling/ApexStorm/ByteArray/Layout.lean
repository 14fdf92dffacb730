import ApexStorm.ByteArray.Basic

/-!
# The node list as one flat memory

`Inv b` collects what the redundant fields say about each other: every node has
size `b`, the capacity counts the nodes, and the cursor is the node of the
position, null exactly at the end of the last node. Under it every method runs
as one access to the concatenation `flat` of the nodes.
-/

namespace ApexStorm.ByteArray
open Lib.Chunks

def flat (ba : ByteArray) : List UInt8 := (ba.nodes.map Node.ptr).flatten

def content (ba : ByteArray) : List UInt8 := ba.flat.take ba.size

def cursorAt (b n p : ℕ) : Option ℕ := if p < b * n then some (p / b) else none

structure Layout (b : ℕ) (ba : ByteArray) : Prop where
  base_pos : 0 < b
  base : ba.baseSize = b
  uniform : ∀ n ∈ ba.nodes, n.size = b
  nodes_pos : 0 < ba.nodes.length
  capacity_eq : ba.capacity = b * ba.nodes.length

structure Inv (b : ℕ) (ba : ByteArray) : Prop extends Layout b ba where
  position_le : ba.position ≤ ba.size
  size_le : ba.size ≤ ba.capacity
  cur_eq : ba.cur = cursorAt b ba.nodes.length ba.position

theorem run_throw {α : Type} (e : Fault) (s : ByteArray) :
    EStateM.run (throw e : Method α) s = .error e s := rfl

@[simp] theorem writeLoop_zero (buf : List UInt8) (fuel npos ncap bpos : ℕ) :
    writeLoop buf fuel npos ncap bpos 0 = pure ⟨⟩ := by
  cases fuel <;> rfl

@[simp] theorem readLoop_zero (fuel npos ncap : ℕ) : readLoop fuel npos ncap 0 = pure [] := by
  cases fuel <;> rfl

@[simp] theorem ioVecs_zero (fuel : ℕ) (cur : Option ℕ) (npos ncap : ℕ) :
    ioVecs fuel cur npos ncap 0 = pure [] := by
  cases fuel <;> cases cur <;> rfl

section cursor
variable {b n i off p : ℕ}

theorem cursorAt_some (hoff : off < b) (hi : i < n) : cursorAt b n (b * i + off) = some i := by
  have hb : 0 < b := by omega
  have hlt : b * i + off < b * n := by nlinarith
  rw [cursorAt, if_pos hlt, Nat.mul_add_div hb, Nat.div_eq_of_lt hoff, Nat.add_zero]

theorem cursorAt_node (hb : 0 < b) :
    cursorAt b n (b * (i + 1)) = if i + 1 < n then some (i + 1) else none := by
  by_cases hi : i + 1 < n
  · rw [if_pos hi]
    exact cursorAt_some hb hi
  · rw [if_neg hi, cursorAt, if_neg]
    exact Nat.not_lt.mpr (Nat.mul_le_mul_left b (by omega))

theorem cursorAt_eq_none_iff (hp : p ≤ b * n) : cursorAt b n p = none ↔ p = b * n := by
  rw [cursorAt]
  split_ifs with h
  · simp; omega
  · simp; omega

end cursor

/-- The vectors lie in nodes of size `b`, of which there are `n`, and follow each other from
offset `p` of the flat memory to offset `e`. -/
inductive Tiles (b n : ℕ) : ℕ → List IoVec → ℕ → Prop
  | nil (p : ℕ) : Tiles b n p [] p
  | cons {p e : ℕ} {v : IoVec} {vs : List IoVec} (hp : p = b * v.node + v.base) (hnode : v.node < n)
      (hlen : 0 < v.len) (hfit : v.base + v.len ≤ b) (h : Tiles b n (p + v.len) vs e) :
      Tiles b n p (v :: vs) e

namespace Layout
variable {b i : ℕ} {ba : ByteArray}

theorem chunks (h : Layout b ba) : Uniform b (ba.nodes.map Node.ptr) := by
  intro c hc
  obtain ⟨n, hn, rfl⟩ := List.mem_map.mp hc
  rw [n.size_eq, h.uniform n hn]

theorem flat_length (h : Layout b ba) : ba.flat.length = ba.capacity := by
  rw [flat, h.chunks.length_flatten, List.length_map, h.capacity_eq]

theorem node_size (h : Layout b ba) (hi : i < ba.nodes.length) : (ba.nodes[i]).size = b :=
  h.uniform _ (List.getElem_mem hi)

@[simp] theorem run_deref (ba : ByteArray) (hi : i < ba.nodes.length) :
    (deref (some i)).run ba = .ok (ba.nodes[i]) ba := by
  simp only [EStateM.run, deref, List.getElem?_eq_getElem hi]

theorem run_advance (hi : ba.cur = some i) :
    advance.run ba =
      .ok ⟨⟩ { ba with cur := if i + 1 < ba.nodes.length then some (i + 1) else none } := by
  simp only [advance, EStateM.run_bind, EStateM.run_get, hi]
  rfl

theorem run_loadFrom (h : Layout b ba) {npos len : ℕ} (hi : i < ba.nodes.length)
    (hlen : npos + len ≤ b) :
    (loadFrom (some i) npos len).run ba = .ok (slice ba.flat (b * i + npos) len) ba := by
  rw [loadFrom, EStateM.run_bind, run_deref ba hi]
  simp only [h.node_size hi, if_pos hlen, EStateM.run_pure]
  rw [flat, h.chunks.slice_flatten (by simpa using hi) hlen, List.getElem_map]

theorem run_storeAt (h : Layout b ba) (npos : ℕ) (xs : List UInt8) (hi : i < ba.nodes.length)
    (hlen : npos + xs.length ≤ b) :
    ∃ ns, (storeAt i npos xs).run ba = .ok () { ba with nodes := ns } ∧
      ns.length = ba.nodes.length ∧ (∀ n ∈ ns, n.size = b) ∧
      (ns.map Node.ptr).flatten = overlay ba.flat (b * i + npos) xs := by
  have hfit : npos + xs.length ≤ (ba.nodes[i]).size := by rw [h.node_size hi]; exact hlen
  refine ⟨ba.nodes.set i ((ba.nodes[i]).store npos xs hfit), ?_, by simp, ?_, ?_⟩
  · simp only [EStateM.run, storeAt, List.getElem?_eq_getElem hi, dif_pos hfit]
  · intro n hn
    rcases List.mem_or_eq_of_mem_set hn with hn | rfl
    · exact h.uniform n hn
    · exact h.node_size hi
  · have hset := h.chunks.flatten_set (by simpa using hi) hlen
    rw [List.getElem_map] at hset
    rw [List.map_set]
    exact hset

theorem run_storeCur (h : Layout b ba) (npos : ℕ) (xs : List UInt8) (hcur : ba.cur = some i)
    (hi : i < ba.nodes.length) (hlen : npos + xs.length ≤ b) :
    ∃ ns, (storeCur npos xs).run ba = .ok () { ba with nodes := ns } ∧
      ns.length = ba.nodes.length ∧ (∀ n ∈ ns, n.size = b) ∧
      (ns.map Node.ptr).flatten = overlay ba.flat (b * i + npos) xs := by
  have hsame : (storeCur npos xs).run ba = (storeAt i npos xs).run ba := by
    simp only [EStateM.run, storeCur, storeAt, hcur]
  rw [hsame]
  exact h.run_storeAt npos xs hi hlen

theorem withNodes (h : Layout b ba) {ns : List Node} (hlen : ns.length = ba.nodes.length)
    (hns : ∀ n ∈ ns, n.size = b) (p : ℕ) (c : Option ℕ) :
    Layout b { ba with nodes := ns, position := p, cur := c } :=
  ⟨h.base_pos, h.base, hns, hlen ▸ h.nodes_pos, hlen ▸ h.capacity_eq⟩

theorem node_succ_lt (h : Layout b ba) {p : ℕ} (hp : p < ba.capacity) (hi : b * i ≤ p) :
    i < ba.nodes.length := by
  have hcap := h.capacity_eq
  by_contra hlast
  have : b * ba.nodes.length ≤ b * i := Nat.mul_le_mul_left b (by omega)
  omega

theorem run_writeLoop (h : Layout b ba) {buf : List UInt8} {fuel npos bpos size : ℕ}
    (hcur : ba.cur = some i) (hi : i < ba.nodes.length) (hnpos : npos < b)
    (hpos : ba.position = b * i + npos) (hsize : 0 < size)
    (hroom : ba.position + size ≤ ba.capacity) (hbuf : bpos + size ≤ buf.length)
    (hfuel : size ≤ fuel) :
    ∃ ns, ns.length = ba.nodes.length ∧ (∀ n ∈ ns, n.size = b) ∧
      (ns.map Node.ptr).flatten = overlay ba.flat ba.position (slice buf bpos size) ∧
      (writeLoop buf fuel npos (b - npos) bpos size).run ba = .ok ⟨⟩ { ba with
        nodes := ns
        position := ba.position + size
        cur := cursorAt b ba.nodes.length (ba.position + size) } := by
  induction fuel generalizing ba i npos bpos size with
  | zero => omega
  | succ fuel ih =>
    have hsz : size ≠ 0 := by omega
    by_cases hfit : size ≤ b - npos
    · have hslice : (slice buf bpos size).length = size := slice_length hbuf
      obtain ⟨ns, hstore, hlen, hns, hflat⟩ :=
        h.run_storeCur npos (slice buf bpos size) hcur hi (by omega)
      have hi' : i < ns.length := by omega
      refine ⟨ns, hlen, hns, by rw [hflat, hpos], ?_⟩
      simp only [writeLoop, if_neg hsz, ge_iff_le, if_pos hfit, EStateM.run_bind, hstore,
        EStateM.run_get, hcur, run_deref { ba with nodes := ns, cur := some i } hi',
        hns _ (List.getElem_mem hi')]
      by_cases hfull : b = npos + size
      · have hnext : ba.position + size = b * (i + 1) := by rw [hpos, Nat.mul_succ]; omega
        simp only [if_pos hfull, EStateM.run_bind, run_advance (i := i), EStateM.run_modify,
          writeLoop_zero, EStateM.run_pure, hnext, cursorAt_node h.base_pos, hlen]
      · have hstay : ba.position + size = b * i + (npos + size) := by omega
        simp only [if_neg hfull, EStateM.run_bind, EStateM.run_modify, writeLoop_zero,
          EStateM.run_pure, hstay, cursorAt_some (show npos + size < b by omega) hi]
    · have hslice : (slice buf bpos (b - npos)).length = b - npos := slice_length (by omega)
      obtain ⟨ns, hstore, hlen, hns, hflat⟩ :=
        h.run_storeCur npos (slice buf bpos (b - npos)) hcur hi (by omega)
      have hnext : ba.position + (b - npos) = b * (i + 1) := by rw [hpos, Nat.mul_succ]; omega
      have hi' : i + 1 < ba.nodes.length := h.node_succ_lt (p := b * (i + 1)) (by omega) le_rfl
      have hi'' : i + 1 < ns.length := by omega
      have h' := h.withNodes hlen hns (ba.position + (b - npos)) (some (i + 1))
      obtain ⟨ns', hlen', hns', hflat', hrun⟩ :=
        @ih (i + 1) _ h' 0 (bpos + (b - npos)) (size - (b - npos)) rfl
          hi'' h.base_pos (by simpa using hnext) (by omega) (by simp only; omega) (by omega)
          (by omega)
      refine ⟨ns', hlen'.trans hlen, hns', ?_, ?_⟩
      · have hjoin := slice_append buf bpos (b - npos) (size - (b - npos))
        rw [Nat.add_sub_cancel' (by omega)] at hjoin
        rw [hflat']
        simp only [flat] at hflat ⊢
        rw [hflat, ← hpos, ← hjoin, ← overlay_overlay _ _ (by rw [← flat, h.flat_length]; omega),
          hslice]
      · simp only [Nat.sub_zero, hlen] at hrun
        simp only [writeLoop, if_neg hsz, ge_iff_le, if_neg hfit, EStateM.run_bind, hstore,
          EStateM.run_modify, hcur, run_advance (i := i), hlen, if_pos hi', EStateM.run_get,
          run_deref { ba with
            nodes := ns, position := ba.position + (b - npos), cur := some (i + 1) } hi'',
          hns _ (List.getElem_mem hi''), hrun, Nat.add_assoc,
          Nat.add_sub_cancel' (show b - npos ≤ size by omega)]

theorem run_readLoop (h : Layout b ba) {fuel npos size : ℕ}
    (hcur : ba.cur = some i) (hi : i < ba.nodes.length) (hnpos : npos < b)
    (hpos : ba.position = b * i + npos) (hsize : 0 < size)
    (hroom : ba.position + size ≤ ba.capacity) (hfuel : size ≤ fuel) :
    (readLoop fuel npos (b - npos) size).run ba =
      .ok (slice ba.flat ba.position size) { ba with
        position := ba.position + size
        cur := cursorAt b ba.nodes.length (ba.position + size) } := by
  induction fuel generalizing ba i npos size with
  | zero => omega
  | succ fuel ih =>
    have hsz : size ≠ 0 := by omega
    by_cases hfit : size ≤ b - npos
    · simp only [readLoop, if_neg hsz, ge_iff_le, if_pos hfit, EStateM.run_bind, EStateM.run_get,
        hcur, h.run_loadFrom hi (show npos + size ≤ b by omega), run_deref ba hi, h.node_size hi]
      by_cases hfull : b = npos + size
      · have hnext : ba.position + size = b * (i + 1) := by rw [hpos, Nat.mul_succ]; omega
        simp only [if_pos hfull, EStateM.run_bind, run_advance hcur, EStateM.run_modify,
          readLoop_zero, EStateM.run_pure, ← hpos, hnext, cursorAt_node h.base_pos, List.append_nil]
      · have hstay : ba.position + size = b * i + (npos + size) := by omega
        simp only [if_neg hfull, EStateM.run_bind, EStateM.run_modify, readLoop_zero,
          EStateM.run_pure, ← hpos, hstay, cursorAt_some (show npos + size < b by omega) hi,
          List.append_nil, hcur]
    · have hnext : ba.position + (b - npos) = b * (i + 1) := by rw [hpos, Nat.mul_succ]; omega
      have hi' : i + 1 < ba.nodes.length := h.node_succ_lt (p := b * (i + 1)) (by omega) le_rfl
      have h' := h.withNodes rfl h.uniform (ba.position + (b - npos)) (some (i + 1))
      have hrun := @ih (i + 1) _ h' 0 (size - (b - npos)) rfl hi' h.base_pos
        (by simpa using hnext) (by omega) (by simp only; omega) (by omega)
      have hjoin := slice_append ba.flat ba.position (b - npos) (size - (b - npos))
      rw [Nat.add_sub_cancel' (by omega)] at hjoin
      simp only [Nat.sub_zero] at hrun
      simp only [readLoop, if_neg hsz, ge_iff_le, if_neg hfit, EStateM.run_bind, EStateM.run_get,
        hcur, h.run_loadFrom hi (show npos + (b - npos) ≤ b by omega), EStateM.run_modify,
        run_advance (i := i), if_pos hi', run_deref { ba with
          position := ba.position + (b - npos), cur := some (i + 1) } hi', h.node_size hi', hrun,
        EStateM.run_pure, ← hpos, Nat.add_assoc,
        Nat.add_sub_cancel' (show b - npos ≤ size by omega)]
      rw [← hjoin]
      rfl

theorem run_appendNodes (h : Layout b ba) (count : ℕ) :
    ∃ ns fr, (appendNodes count).run ba = .ok ⟨⟩ { ba with
        nodes := ba.nodes ++ ns, capacity := ba.capacity + b * count, fresh := fr } ∧
      ns.length = count ∧ ∀ n ∈ ns, n.size = b := by
  induction count generalizing ba with
  | zero => exact ⟨[], ba.fresh, by simp [appendNodes], rfl, by simp⟩
  | succ count ih =>
    have hnode : (Node.new ba.baseSize ba.fresh).size = b := h.base
    have h' : Layout b { ba with
        nodes := ba.nodes ++ [Node.new ba.baseSize ba.fresh]
        capacity := ba.capacity + ba.baseSize
        fresh := fun i => ba.fresh (ba.baseSize + i) } := by
      refine ⟨h.base_pos, h.base, ?_, by simp, ?_⟩
      · intro n hn
        rcases List.mem_append.mp hn with hn | hn
        · exact h.uniform n hn
        · rw [List.mem_singleton.mp hn, hnode]
      · simp only [List.length_append, List.length_singleton, h.capacity_eq, h.base]
        ring
    obtain ⟨ns, fr, hrun, hlen, hns⟩ := ih h'
    refine ⟨Node.new ba.baseSize ba.fresh :: ns, fr, ?_, by simp [hlen], ?_⟩
    · have hcap : ba.capacity + ba.baseSize + b * count = ba.capacity + b * (count + 1) := by
        rw [h.base]; ring
      rw [appendNodes, EStateM.run_bind, EStateM.run_modify]
      simp only [hrun, hcap, List.append_assoc, List.singleton_append]
    · intro n hn
      rcases List.mem_cons.mp hn with rfl | hn
      · exact hnode
      · exact hns n hn

end Layout

end ApexStorm.ByteArray
