import ApexStorm.ByteArray.Refinement

/-!
# Reading without moving

The const overload `read(buf, n, q)`, `toString` and both `getReadBuffers` walk the
nodes on a local pointer and leave the object as it is. The const `read` and the
`getReadBuffers` with a position mix what they compute from that position with the
cursor of the object, so each agrees with its purpose only where the two agree.

An object is reached by calls and by what the kernel writes through the vectors that
`getWriteBuffers` hands out.
-/

namespace ApexStorm.ByteArray
open Lib Lib.Chunks

/-- The loop of the const `read`, whose node pointer is a local variable. -/
def peekLoop (fuel : ℕ) (cur : Option ℕ) (npos ncap size : ℕ) : Method (List UInt8) :=
  if size = 0 then pure []
  else
    match fuel with
    | 0 => throw .stuck
    | fuel + 1 => do
      if ncap ≥ size then
        let bytes ← loadFrom cur npos size
        let node ← deref cur
        let cur ← if node.size = npos + size then next cur else pure cur
        return bytes ++ (← peekLoop fuel cur npos ncap 0)
      else
        let bytes ← loadFrom cur npos ncap
        let cur ← next cur
        let node ← deref cur
        return bytes ++ (← peekLoop fuel cur 0 node.size (size - ncap))

def sizeDiff (x y : ℕ) : ℕ := (x + 2 ^ 64 - y) % 2 ^ 64

/-- The const `read(buf, size, position)`. -/
def readAt (size position : ℕ) : Method (List UInt8) := do
  let ba ← get
  if size > sizeDiff ba.size position then
    throw (.outOfRange "not enough len")
  let npos := position % ba.baseSize
  let node ← deref ba.cur
  peekLoop size ba.cur npos (node.size - npos) size

def toString : Method (List UInt8) := do
  let ba ← get
  if ba.getReadSize = 0 then return []
  readAt ba.getReadSize ba.position

def getReadBuffers (len : ℕ) : Method (ℕ × List IoVec) := do
  let ba ← get
  let len := min ba.getReadSize len
  if len = 0 then return (0, [])
  let npos := ba.position % ba.baseSize
  let node ← deref ba.cur
  let buffers ← ioVecs len ba.cur npos (node.size - npos) len
  return (len, buffers)

/-- `while (count > 0) cur = cur->next`. -/
def walk : ℕ → Option ℕ → Method (Option ℕ)
  | 0, cur => pure cur
  | count + 1, cur => do walk count (← next cur)

/-- `getReadBuffers(buffers, len, position)`. The clamp and the first capacity come from the
cursor, the start from `position`. -/
def getReadBuffersAt (len position : ℕ) : Method (ℕ × List IoVec) := do
  let ba ← get
  let len := min ba.getReadSize len
  if len = 0 then return (0, [])
  let npos := position % ba.baseSize
  let cur ← walk (position / ba.baseSize) (some 0)
  let node ← deref ba.cur
  let buffers ← ioVecs len cur npos (node.size - npos) len
  return (len, buffers)

def gather : List IoVec → Method (List UInt8)
  | [] => pure []
  | v :: vs => do return (← loadFrom (some v.node) v.base v.len) ++ (← gather vs)

def scatter : List IoVec → List UInt8 → Method Unit
  | [], _ => pure ()
  | v :: vs, xs => do
    storeAt v.node v.base (xs.take v.len)
    scatter vs (xs.drop v.len)

def IoVec.Inside (v : IoVec) (ba : ByteArray) : Prop :=
  ∃ n, ba.nodes[v.node]? = some n ∧ v.base + v.len ≤ n.size

inductive Access
  | call (e : Event)
  | deposit (v : IoVec) (xs : List UInt8)

def Accessed (s : ByteArray) (a : Access) (t : ByteArray) : Prop :=
  match a with
  | .call e => Step s e t
  | .deposit v xs => xs.length ≤ v.len ∧ (storeAt v.node v.base xs).run s = .ok () t

namespace Layout
variable {b i : ℕ} {ba : ByteArray}

@[simp] theorem peekLoop_zero (fuel : ℕ) (cur : Option ℕ) (npos ncap : ℕ) :
    peekLoop fuel cur npos ncap 0 = pure [] := by
  cases fuel <;> rfl

theorem run_next (ba : ByteArray) (i : ℕ) :
    (next (some i)).run ba = .ok (if i + 1 < ba.nodes.length then some (i + 1) else none) ba := rfl

theorem run_peekLoop (h : Layout b ba) {fuel npos size : ℕ} (hi : i < ba.nodes.length)
    (hnpos : npos < b) (hsize : 0 < size) (hfuel : size ≤ fuel) :
    (peekLoop fuel (some i) npos (b - npos) size).run ba =
      if b * i + npos + size ≤ ba.capacity then .ok (slice ba.flat (b * i + npos) size) ba
      else .error .nullDeref ba := by
  induction fuel generalizing i npos size with
  | zero => omega
  | succ fuel ih =>
    have hsz : size ≠ 0 := by omega
    have hcap : b * (i + 1) ≤ ba.capacity := by
      rw [h.capacity_eq]
      exact Nat.mul_le_mul_left b hi
    have hnode : b * i + npos + (b - npos) = b * (i + 1) := by rw [Nat.mul_succ]; omega
    by_cases hfit : size ≤ b - npos
    · rw [if_pos (by omega)]
      simp only [peekLoop, if_neg hsz, ge_iff_le, if_pos hfit, EStateM.run_bind,
        h.run_loadFrom hi (show npos + size ≤ b by omega), run_deref ba hi, h.node_size hi]
      by_cases hfull : b = npos + size
      · simp only [if_pos hfull, EStateM.run_bind, run_next, peekLoop_zero, EStateM.run_pure,
          List.append_nil]
      · simp only [if_neg hfull, EStateM.run_bind, peekLoop_zero, EStateM.run_pure, List.append_nil]
    · simp only [peekLoop, if_neg hsz, ge_iff_le, if_neg hfit, EStateM.run_bind,
        h.run_loadFrom hi (show npos + (b - npos) ≤ b by omega), run_next]
      by_cases hlast : i + 1 < ba.nodes.length
      · have hrun := @ih (i + 1) 0 (size - (b - npos)) hlast h.base_pos (by omega) (by omega)
        have hend : b * (i + 1) + 0 + (size - (b - npos)) = b * i + npos + size := by omega
        rw [Nat.sub_zero, hend] at hrun
        simp only [if_pos hlast, run_deref ba hlast, h.node_size hlast, hrun]
        split_ifs
        · have hjoin := slice_append ba.flat (b * i + npos) (b - npos) (size - (b - npos))
          rw [Nat.add_sub_cancel' (by omega), hnode] at hjoin
          simp only [EStateM.run_pure, Nat.add_zero, hjoin]
        · rfl
      · have hend : ba.capacity = b * (i + 1) := by
          rw [h.capacity_eq, show ba.nodes.length = i + 1 by omega]
        rw [if_neg hlast, if_neg (by omega)]
        rfl

theorem run_walk (ba : ByteArray) {count : ℕ} (hcount : i + count ≤ ba.nodes.length)
    (hi : i < ba.nodes.length) :
    (walk count (some i)).run ba =
      .ok (if i + count < ba.nodes.length then some (i + count) else none) ba := by
  induction count generalizing i with
  | zero => rw [walk, EStateM.run_pure, Nat.add_zero, if_pos hi]
  | succ count ih =>
    rw [walk, EStateM.run_bind, run_next]
    by_cases hlast : i + 1 < ba.nodes.length
    · simp only [if_pos hlast]
      rw [ih (by omega) hlast, Nat.add_right_comm, Nat.add_assoc]
    · obtain rfl : count = 0 := by omega
      simp only [if_neg hlast, walk, EStateM.run_pure]

theorem run_gather (h : Layout b ba) {p e : ℕ} {vs : List IoVec}
    (ht : Tiles b ba.nodes.length p vs e) :
    p ≤ e ∧ (gather vs).run ba = .ok (slice ba.flat p (e - p)) ba := by
  induction ht with
  | nil p => exact ⟨le_rfl, by simp [gather, slice]⟩
  | @cons p e v vs hp hnode hlen hfit _ ih =>
    obtain ⟨hle, hrun⟩ := ih
    have hjoin := slice_append ba.flat p v.len (e - (p + v.len))
    rw [show v.len + (e - (p + v.len)) = e - p by omega] at hjoin
    refine ⟨by omega, ?_⟩
    simp only [gather, EStateM.run_bind, h.run_loadFrom hnode hfit, hrun, EStateM.run_pure, ← hp,
      hjoin]

theorem Tiles.inside (h : Layout b ba) {p e : ℕ} {vs : List IoVec}
    (ht : Tiles b ba.nodes.length p vs e) : ∀ v ∈ vs, 0 < v.len ∧ v.Inside ba := by
  induction ht with
  | nil p => simp
  | cons hp hnode hlen hfit _ ih =>
    intro v hv
    rcases List.mem_cons.mp hv with rfl | hv
    · exact ⟨hlen, _, List.getElem?_eq_getElem hnode, by rwa [h.node_size hnode]⟩
    · exact ih v hv

theorem run_scatter (h : Layout b ba) {p e : ℕ} {vs : List IoVec} {xs : List UInt8}
    (ht : Tiles b ba.nodes.length p vs e) (hxs : p + xs.length ≤ e) (he : e ≤ ba.capacity) :
    ∃ ns, (scatter vs xs).run ba = .ok () { ba with nodes := ns } ∧
      ns.length = ba.nodes.length ∧ (∀ n ∈ ns, n.size = b) ∧
      (ns.map Node.ptr).flatten = overlay ba.flat p xs := by
  obtain ⟨n, hn⟩ : ∃ n, n = ba.nodes.length := ⟨_, rfl⟩
  rw [← hn] at ht
  induction ht generalizing ba xs with
  | nil p =>
    obtain rfl : xs = [] := List.length_eq_zero_iff.mp (by omega)
    exact ⟨ba.nodes, rfl, rfl, h.uniform, by rw [overlay_nil]; rfl⟩
  | @cons p e v vs hp hnode hlen hfit ht ih =>
    have htake : (xs.take v.len).length ≤ v.len := List.length_take_le _ _
    have hle : p + v.len ≤ e := (h.run_gather (hn ▸ ht)).1
    obtain ⟨ns, hstore, hns, hsize, hflat⟩ :=
      h.run_storeAt v.base (xs.take v.len) (hn ▸ hnode) (by omega)
    have h' := h.withNodes hns hsize ba.position ba.cur
    have hrest : p + v.len + (xs.drop v.len).length ≤ e := by
      rw [List.length_drop]
      omega
    obtain ⟨ns', hrun, hns', hsize', hflat'⟩ := ih h' hrest he (hn.trans hns.symm)
    refine ⟨ns', ?_, hns'.trans hns, hsize', ?_⟩
    · rw [scatter, EStateM.run_bind, hstore]
      exact hrun
    · rw [hflat']
      change overlay (ns.map Node.ptr).flatten (p + v.len) (xs.drop v.len) = _
      have hfl := h.flat_length
      by_cases hshort : xs.length ≤ v.len
      · rw [hflat, List.drop_eq_nil_of_le hshort, overlay_nil, List.take_of_length_le hshort, hp]
      · have hexact : (xs.take v.len).length = v.len := by rw [List.length_take]; omega
        have hjoin := overlay_overlay (l := ba.flat) (p := p) (xs.take v.len) (xs.drop v.len)
          (by omega)
        rwa [hexact, List.take_append_drop, hp, ← hflat, ← hp] at hjoin

end Layout

namespace Inv
variable {b : ℕ} {s t : ByteArray}

theorem accessed (h : Inv b s) {a : Access} (hstep : Accessed s a t) : Inv b t := by
  cases a with
  | call e =>
    have hR : Related b s ⟨s.content, s.position, h.content_length ▸ h.position_le⟩ := ⟨h, rfl, rfl⟩
    obtain ⟨f, -, hR'⟩ := step_simulates s e t _ hR hstep
    exact hR'.inv
  | deposit v xs =>
    obtain ⟨-, hrun⟩ := hstep
    have hi : v.node < s.nodes.length := by
      by_contra hge
      simp only [EStateM.run, storeAt, List.getElem?_eq_none (not_lt.mp hge)] at hrun
      cases hrun
    have hfit : v.base + xs.length ≤ b := by
      by_contra hgt
      have hnot : ¬ v.base + xs.length ≤ (s.nodes[v.node]).size := by rwa [h.node_size hi]
      simp only [EStateM.run, storeAt, List.getElem?_eq_getElem hi, dif_neg hnot] at hrun
      cases hrun
    obtain ⟨ns, hstore, hlen, hsize, -⟩ := h.run_storeAt v.base xs hi hfit
    rw [hstore] at hrun
    cases hrun
    have hL := h.toLayout.withNodes hlen hsize s.position s.cur
    exact ⟨⟨hL.base_pos, hL.base, hL.uniform, hL.nodes_pos, hL.capacity_eq⟩, h.position_le,
      h.size_le, by rw [h.cur_eq]; simp only [hlen]⟩

theorem of_accesses (hb : 1 ≤ b) {fresh : ℕ → UInt8} {as : List Access}
    (hrun : Run Accessed (new b fresh) as s) : Inv b s :=
  hrun.invariant (fun _ _ _ h hstep => h.accessed hstep) (Inv.of_new hb)

end Inv

/-- Where the loop of `readAt` starts: at the offset of `q` in its node, but in the node of the
cursor. -/
def peekOffset (s : ByteArray) (q : ℕ) : ℕ :=
  s.baseSize * (s.position / s.baseSize) + q % s.baseSize

/-- What `read(buf, n, q)` is for: it throws when the content ends before `q + n`, and otherwise
stores what `setPosition(q)` and `read(buf, n)` would. -/
def ReadsAt (s : ByteArray) (n q : ℕ) : Prop :=
  if s.size < q + n then (readAt n q).run s = .error (.outOfRange "not enough len") s
  else ∃ bytes t u, (setPosition q).run s = .ok ⟨⟩ t ∧ (read n).run t = .ok bytes u ∧
    (readAt n q).run s = .ok bytes s

/-- Behind the end the difference must wrap to less than `n`. Inside the content there must be a
node at the cursor, and it must be the node of `q` unless the bytes happen to be the same. -/
def PeekFits (s : ByteArray) (n q : ℕ) : Prop :=
  if s.size < q then s.size + 2 ^ 64 < q + n
  else s.size < q + n ∨ s.position < s.capacity ∧
    (q / s.baseSize = s.position / s.baseSize ∨
      s.peekOffset q + n ≤ s.capacity ∧ slice s.flat (s.peekOffset q) n = slice s.flat q n)

namespace Inv
variable {b n q : ℕ} {s : ByteArray}

theorem run_guard {α : Type} (c : Prop) [Decidable c] (e : Fault) (k : Method α) (s : ByteArray) :
    EStateM.run (do
      if c then throw e
      k) s = if c then .error e s else k.run s := by
  split_ifs <;> rfl

theorem run_readAt_eq (s : ByteArray) (n q : ℕ) :
    (readAt n q).run s =
      if n > sizeDiff s.size q then .error (.outOfRange "not enough len") s
      else (do
        let node ← deref s.cur
        peekLoop n s.cur (q % s.baseSize) (node.size - q % s.baseSize) n).run s := by
  rw [readAt, EStateM.run_bind, EStateM.run_get]
  exact run_guard _ _ _ s

theorem run_readAt (h : Inv b s) (hn : 0 < n) (hpass : ¬ n > sizeDiff s.size q) :
    (readAt n q).run s =
      if s.position < s.capacity ∧ s.peekOffset q + n ≤ s.capacity
      then .ok (slice s.flat (s.peekOffset q) n) s else .error .nullDeref s := by
  have hmod : q % b < b := Nat.mod_lt _ h.base_pos
  rw [run_readAt_eq, if_neg hpass, EStateM.run_bind]
  by_cases hpos : s.position < s.capacity
  · obtain ⟨hcur, hi, -⟩ := h.cur_eq_some hpos
    simp only [hcur, Layout.run_deref s hi, h.node_size hi, h.base,
      h.run_peekLoop hi hmod hn le_rfl, hpos, true_and, peekOffset]
  · have hcur : s.cur = none := h.cur_eq_none_iff.mpr (le_antisymm h.position_le_capacity
      (not_lt.mp hpos))
    rw [hcur, if_neg fun hfits => hpos hfits.1]
    rfl

theorem peekOffset_eq (h : Inv b s) (hq : q / b = s.position / b) : s.peekOffset q = q := by
  rw [peekOffset, h.base, ← hq, Nat.div_add_mod]

theorem run_seek_read (h : Inv b s) (hn : 0 < n) (hle : q + n ≤ s.size) :
    ∃ t u, (setPosition q).run s = .ok ⟨⟩ t ∧ (read n).run t = .ok (slice s.flat q n) u := by
  have hsz := h.size_le
  obtain ⟨t, hset, ht, -, hpos, hsize, hflat, -⟩ := h.run_setPosition (v := q) (by omega)
  rw [max_eq_left (by omega)] at hsize
  obtain ⟨u, hread, -⟩ := ht.run_read hn (by omega)
  refine ⟨t, u, hset, ?_⟩
  rw [hread, hpos, content, hflat, hsize, slice_take hle]

end Inv

theorem reads_at_iff_peek_fits (b : ℕ) (hb : 1 ≤ b) (fresh : ℕ → UInt8) (as : List Access)
    (s : ByteArray) (hrun : Run Accessed (new b fresh) as s) (hcap : s.capacity < 2 ^ 64)
    (n q : ℕ) (hn : 1 ≤ n) (hn64 : n < 2 ^ 64) (hq : q < 2 ^ 64) :
    ReadsAt s n q ↔ PeekFits s n q := by
  have h := Inv.of_accesses hb hrun
  have hsz := h.size_le
  rw [ReadsAt, PeekFits]
  by_cases hbehind : s.size < q
  · have hwrap : sizeDiff s.size q = s.size + 2 ^ 64 - q := Nat.mod_eq_of_lt (by omega)
    rw [if_pos (by omega), if_pos hbehind]
    by_cases hshort : n > sizeDiff s.size q
    · exact iff_of_true (by rw [Inv.run_readAt_eq, if_pos hshort]) (by omega)
    · refine iff_of_false ?_ (by omega)
      rw [h.run_readAt hn hshort]
      split_ifs <;> simp
  · have hdiff : sizeDiff s.size q = s.size - q := by
      rw [sizeDiff]
      omega
    rw [if_neg hbehind]
    by_cases hshort : s.size < q + n
    · rw [if_pos hshort]
      exact iff_of_true (by rw [Inv.run_readAt_eq, if_pos (by omega)]) (.inl hshort)
    · obtain ⟨t, u, hset, hread⟩ := h.run_seek_read hn (not_lt.mp hshort)
      rw [if_neg hshort, h.run_readAt hn (by omega), h.base]
      constructor
      · rintro ⟨bytes, t', u', hset', hread', hpeek⟩
        rw [hset] at hset'
        cases hset'
        rw [hread] at hread'
        cases hread'
        split_ifs at hpeek with hfits
        exact .inr ⟨hfits.1, .inr ⟨hfits.2, (EStateM.Result.ok.inj hpeek).1⟩⟩
      · rintro (hlt | ⟨hpos, hsame | ⟨hfits, hsame⟩⟩)
        · exact absurd hlt hshort
        · have hoff := h.peekOffset_eq hsame
          exact ⟨_, t, u, hset, hread, by rw [hoff, if_pos ⟨hpos, by omega⟩]⟩
        · exact ⟨_, t, u, hset, hread, by rw [if_pos ⟨hpos, hfits⟩, hsame]⟩

def fourBytes (position : ℕ) (cur : Option ℕ) : ByteArray :=
  ⟨2, position, 4, 4, .big, [⟨[1, 2], 2, rfl⟩, ⟨[3, 4], 2, rfl⟩], cur, fun _ => 0⟩

theorem run_fourBytes (position : ℕ) (cur : Option ℕ)
    (h : exec (.setPosition position) (fourBytes 4 none) = some (.done, fourBytes position cur)) :
    Run Accessed (new 2 fun _ => 0) [.call ⟨.write [1, 2, 3, 4], 2, .done⟩,
      .call ⟨.setPosition position, 4, .done⟩] (fourBytes position cur) := by
  have hwrite : Step (new 2 fun _ => 0) ⟨.write [1, 2, 3, 4], 2, .done⟩ (fourBytes 4 none) :=
    ⟨trivial, rfl, rfl⟩
  have hseek : Step (fourBytes 4 none) ⟨.setPosition position, 4, .done⟩ (fourBytes position cur) :=
    ⟨trivial, rfl, h⟩
  exact .cons hwrite (.cons hseek (.nil _))

theorem reads_at_iff_peek_fits_same_node : ReadsAt (fourBytes 2 (some 1)) 1 3 := by
  have hrun := run_fourBytes 2 (some 1) rfl
  refine (reads_at_iff_peek_fits 2 (by decide) _ _ _ hrun (by decide) 1 3 (by decide)
    (by decide) (by decide)).mpr ?_
  exact .inr ⟨by decide, .inl (by decide)⟩

/-- The cursor is in the first node, so byte 2 is looked for there; and behind the end the
difference wraps. -/
theorem peek_misses_node :
    (∃ as, Run Accessed (new 2 fun _ => 0) as (fourBytes 0 (some 0))) ∧
      (∃ t u, (setPosition 2).run (fourBytes 0 (some 0)) = .ok ⟨⟩ t ∧ (read 1).run t = .ok [3] u) ∧
      (readAt 1 2).run (fourBytes 0 (some 0)) = .ok [1] (fourBytes 0 (some 0)) ∧
      ¬ ReadsAt (fourBytes 0 (some 0)) 1 2 ∧
      (readAt 1 5).run (fourBytes 0 (some 0)) = .ok [2] (fourBytes 0 (some 0)) ∧
      ¬ ReadsAt (fourBytes 0 (some 0)) 1 5 := by
  have hmiss : (readAt 1 2).run (fourBytes 0 (some 0)) = .ok [1] (fourBytes 0 (some 0)) := by
    rw [Inv.run_readAt_eq, if_neg (by decide +kernel)]
    rfl
  have hwrap : (readAt 1 5).run (fourBytes 0 (some 0)) = .ok [2] (fourBytes 0 (some 0)) := by
    rw [Inv.run_readAt_eq, if_neg (by decide +kernel)]
    rfl
  refine ⟨⟨_, run_fourBytes _ _ rfl⟩, ⟨_, _, rfl, rfl⟩, hmiss, ?_, hwrap, ?_⟩
  · rw [ReadsAt, if_neg (by decide), hmiss]
    rintro ⟨bytes, t, u, hset, hread, hpeek⟩
    cases hset
    cases hread
    cases hpeek
  · rw [ReadsAt, if_pos (by decide), hwrap]
    nofun

def GathersAt (s : ByteArray) (len q : ℕ) : Prop :=
  ∃ vs, (getReadBuffersAt len q).run s = .ok (min len (s.size - q), vs) s ∧
    (gather vs).run s = .ok (slice s.content q (min len (s.size - q))) s ∧ ∀ v ∈ vs, v.Inside s

namespace Inv
variable {b len q : ℕ} {s : ByteArray}

theorem run_getReadBuffersAt (h : Inv b s)
    (hq : min s.getReadSize len = 0 ∨ q + min s.getReadSize len ≤ s.capacity) :
    ∃ vs, (getReadBuffersAt len q).run s = .ok (min s.getReadSize len, vs) s ∧
      Tiles b s.nodes.length q vs (q + min s.getReadSize len) := by
  obtain ⟨r, hr⟩ : ∃ r, r = min s.getReadSize len := ⟨_, rfl⟩
  simp only [getReadBuffersAt, EStateM.run_bind, EStateM.run_get, ← hr] at hq ⊢
  by_cases hzero : r = 0
  · exact ⟨[], by rw [if_pos hzero, EStateM.run_pure, hzero], hzero ▸ .nil q⟩
  · have hsz := h.size_le
    have hcap := h.capacity_eq
    have hread : s.getReadSize = s.size - s.position := rfl
    obtain ⟨hcur, hi, -⟩ := h.cur_eq_some (show s.position < s.capacity by omega)
    have hroom := hq.resolve_left hzero
    have hnode : q / b < s.nodes.length := Nat.div_lt_of_lt_mul (by omega)
    have hmod : q % b < b := Nat.mod_lt _ h.base_pos
    have hdm : b * (q / b) + q % b = q := Nat.div_add_mod q b
    have hwalk := Layout.run_walk s (show 0 + q / b ≤ s.nodes.length by omega) h.nodes_pos
    rw [Nat.zero_add, if_pos hnode] at hwalk
    obtain ⟨vs, hvs, ht⟩ := h.run_ioVecs hnode hmod (by omega) (le_refl r)
    rw [hdm] at ht
    refine ⟨vs, ?_, ht⟩
    simp only [if_neg hzero, EStateM.run_bind, h.base, hwalk, hcur, Layout.run_deref s hi,
      h.node_size hi, hvs, EStateM.run_pure]

theorem getReadBuffersAt_length {k : ℕ} {vs : List IoVec} {t : ByteArray}
    (hrun : (getReadBuffersAt len q).run s = .ok (k, vs) t) : k = min s.getReadSize len := by
  simp only [getReadBuffersAt, EStateM.run_bind, EStateM.run_get] at hrun
  split_ifs at hrun with hzero
  · cases hrun
    exact hzero.symm
  · simp only [EStateM.run_bind] at hrun
    split at hrun
    · split at hrun
      · split at hrun
        · cases hrun
          rfl
        · cases hrun
      · cases hrun
    · cases hrun

end Inv

theorem gathers_at_iff (b : ℕ) (hb : 1 ≤ b) (fresh : ℕ → UInt8) (as : List Access)
    (s : ByteArray) (hrun : Run Accessed (new b fresh) as s) (len q : ℕ) (hq : q ≤ s.size) :
    GathersAt s len q ↔ q = s.position ∨ len ≤ s.size - max s.position q := by
  have h := Inv.of_accesses hb hrun
  have hpos := h.position_le
  have hread : s.getReadSize = s.size - s.position := rfl
  constructor
  · rintro ⟨vs, hvs, -⟩
    have hlen := Inv.getReadBuffersAt_length hvs
    omega
  · intro hcond
    have hlen : min s.getReadSize len = min len (s.size - q) := by omega
    have hfits : q + min s.getReadSize len ≤ s.size := by omega
    obtain ⟨vs, hvs, ht⟩ := h.run_getReadBuffersAt (.inr (hfits.trans h.size_le))
    obtain ⟨-, hgather⟩ := h.run_gather ht
    rw [hlen] at hvs hgather
    rw [Nat.add_sub_cancel_left, ← slice_take (k := s.size) (by omega)] at hgather
    exact ⟨vs, hvs, hgather, fun v hv => (Layout.Tiles.inside h.toLayout ht v hv).2⟩

theorem gathers_at_iff_ahead : GathersAt (fourBytes 1 (some 0)) 1 3 := by
  have hrun := run_fourBytes 1 (some 0) rfl
  exact (gathers_at_iff 2 (by decide) _ _ _ hrun 1 3 (by decide)).mpr (.inr (by decide))

/-- With the cursor at the end nothing is offered from position 0; with the cursor at 0 two bytes
are asked for behind the last one, and the null node is dereferenced. -/
theorem gather_clamped_by_cursor :
    (∃ as, Run Accessed (new 2 fun _ => 0) as (fourBytes 4 none)) ∧
      (getReadBuffersAt 4 0).run (fourBytes 4 none) = .ok (0, []) (fourBytes 4 none) ∧
      ¬ GathersAt (fourBytes 4 none) 4 0 ∧
    (∃ as, Run Accessed (new 2 fun _ => 0) as (fourBytes 0 (some 0))) ∧
      (getReadBuffersAt 2 3).run (fourBytes 0 (some 0)) = .error .nullDeref (fourBytes 0 (some 0)) ∧
      ¬ GathersAt (fourBytes 0 (some 0)) 2 3 := by
  refine ⟨⟨_, run_fourBytes _ _ rfl⟩, rfl, ?_, ⟨_, run_fourBytes _ _ rfl⟩, rfl, ?_⟩
  · rintro ⟨vs, hvs, -⟩
    cases hvs
  · rintro ⟨vs, hvs, -⟩
    cases hvs

namespace Inv
variable {b : ℕ} {s : ByteArray}

theorem run_toString (h : Inv b s) (hlt : s.getReadSize < 2 ^ 64) :
    toString.run s = .ok (slice s.content s.position s.getReadSize) s := by
  have hpos := h.position_le
  have hsz := h.size_le
  have hread : s.getReadSize = s.size - s.position := rfl
  rw [toString, EStateM.run_bind, EStateM.run_get]
  dsimp only
  by_cases hzero : s.getReadSize = 0
  · rw [if_pos hzero, EStateM.run_pure, hzero]
    rfl
  · have hdiff : sizeDiff s.size s.position = s.getReadSize := by
      rw [sizeDiff]
      omega
    have hoff := h.peekOffset_eq (q := s.position) rfl
    rw [if_neg hzero, h.run_readAt (Nat.pos_of_ne_zero hzero) (by omega), hoff,
      if_pos ⟨by omega, by omega⟩, content, slice_take (by omega)]

theorem run_getReadBuffers (h : Inv b s) (len : ℕ) :
    ∃ vs, (getReadBuffers len).run s = .ok (min s.getReadSize len, vs) s ∧
      Tiles b s.nodes.length s.position vs (s.position + min s.getReadSize len) := by
  have hread : s.getReadSize = s.size - s.position := rfl
  have hpos := h.position_le
  have hsz := h.size_le
  obtain ⟨r, hr⟩ : ∃ r, r = min s.getReadSize len := ⟨_, rfl⟩
  simp only [getReadBuffers, EStateM.run_bind, EStateM.run_get, ← hr]
  by_cases hzero : r = 0
  · exact ⟨[], by rw [if_pos hzero, EStateM.run_pure, hzero], hzero ▸ .nil _⟩
  · obtain ⟨hcur, hi, hdm⟩ := h.cur_eq_some (show s.position < s.capacity by omega)
    have hmod : s.position % b < b := Nat.mod_lt _ h.base_pos
    have hroom : b * (s.position / b) + s.position % b + r ≤ s.capacity := by omega
    obtain ⟨vs, hvs, ht⟩ := h.run_ioVecs hi hmod hroom le_rfl
    rw [← hdm] at ht
    refine ⟨vs, ?_, ht⟩
    simp only [if_neg hzero, EStateM.run_bind, h.base, hcur, Layout.run_deref s hi,
      h.node_size hi, hvs, EStateM.run_pure]

end Inv

def IoVec.Disjoint (v w : IoVec) : Prop :=
  v.node ≠ w.node ∨ v.base + v.len ≤ w.base ∨ w.base + w.len ≤ v.base

namespace Tiles
variable {b n p e : ℕ} {vs : List IoVec}

theorem sum_len (h : Tiles b n p vs e) : p + (vs.map IoVec.len).sum = e := by
  induction h with
  | nil p => simp
  | cons _ _ _ _ _ ih =>
    rw [List.map_cons, List.sum_cons]
    omega

theorem start_le (h : Tiles b n p vs e) : ∀ v ∈ vs, p ≤ b * v.node + v.base := by
  induction h with
  | nil p => simp
  | cons hp _ _ _ _ ih =>
    intro v hv
    rcases List.mem_cons.mp hv with rfl | hv
    · exact hp.le
    · exact (Nat.le_add_right _ _).trans (ih v hv)

theorem disjoint (h : Tiles b n p vs e) : vs.Pairwise IoVec.Disjoint := by
  induction h with
  | nil p => exact .nil
  | @cons p e v vs hp _ _ _ hrest ih =>
    refine .cons (fun w hw => ?_) ih
    have hle := hrest.start_le w hw
    by_cases hnode : v.node = w.node
    · rw [hp, hnode] at hle
      exact .inr (.inl (by omega))
    · exact .inl hnode

end Tiles

theorem Inv.run_scatter {b : ℕ} {s : ByteArray} (h : Inv b s) {e : ℕ} {vs : List IoVec}
    (ht : Tiles b s.nodes.length s.position vs e) (xs : List UInt8)
    (hxs : s.position + xs.length ≤ e) (he : e ≤ s.capacity) :
    ∃ t, (scatter vs xs).run s = .ok () t ∧ Inv b t ∧ t.position = s.position ∧
      t.size = s.size ∧ t.capacity = s.capacity ∧ t.flat = overlay s.flat s.position xs := by
  obtain ⟨ns, hrun, hlen, hns, hflat⟩ := h.toLayout.run_scatter ht hxs he
  have hL := h.toLayout.withNodes hlen hns s.position s.cur
  exact ⟨_, hrun, ⟨⟨hL.base_pos, hL.base, hL.uniform, hL.nodes_pos, hL.capacity_eq⟩, h.position_le,
    h.size_le, by rw [h.cur_eq]; simp only [hlen]⟩, rfl, rfl, rfl, hflat⟩

/-- Filling the vectors of `getWriteBuffers` and moving the position is a `write`. -/
theorem scatter_eq_write (b : ℕ) (hb : 1 ≤ b) (fresh : ℕ → UInt8) (as : List Access)
    (s : ByteArray) (hrun : Run Accessed (new b fresh) as s) (len : ℕ) (xs : List UInt8)
    (hxs : xs.length ≤ len) :
    ∃ vs t, (getWriteBuffers len).run s = .ok (len, vs) t ∧ (vs.map IoVec.len).sum = len ∧
      vs.Pairwise IoVec.Disjoint ∧
      (∀ v ∈ vs, v.Inside t ∧ s.position ≤ t.baseSize * v.node + v.base) ∧
      ∃ u w x, (scatter vs xs).run t = .ok () u ∧
        (setPosition (u.getPosition + xs.length)).run u = .ok () w ∧ (write xs).run s = .ok () x ∧
        w.position = x.position ∧ w.size = x.size ∧ w.content = x.content := by
  have h := Inv.of_accesses hb hrun
  obtain ⟨t, vs, hget, ht, -, htpos, htcont, hroom, htiles⟩ := h.run_getWriteBuffers len
  have hsum := htiles.sum_len
  obtain ⟨u, hscatter, hu, hupos, husize, hucap, huflat⟩ :=
    ht.run_scatter htiles xs (by omega) hroom
  obtain ⟨w, hset, hw, -, hwpos, hwsize, hwflat, -⟩ :=
    hu.run_setPosition (v := u.getPosition + xs.length) (by rw [getPosition]; omega)
  obtain ⟨x, hwrite, hx, -, hxpos, hxcont⟩ := h.run_write xs
  have hposition : w.position = x.position := by
    rw [hwpos, getPosition, hupos, htpos, hxpos]
  have hcontent : w.content = x.content := by
    have hle := ht.size_le
    have htflat := ht.flat_length
    rw [content, hwflat, hwsize, huflat, getPosition, husize, hupos,
      overlay_take ht.position_le (by omega), ← content, htcont, htpos, hxcont]
  refine ⟨vs, t, hget, by omega, htiles.disjoint, fun v hv => ⟨?_, ?_⟩, u, w, x, hscatter, hset,
    hwrite, hposition, ?_, hcontent⟩
  · exact (Layout.Tiles.inside ht.toLayout htiles v hv).2
  · rw [ht.base, ← htpos]
    exact htiles.start_le v hv
  · rw [← hw.content_length, ← hx.content_length, hcontent]

theorem scatter_eq_write_full_node :
    ∃ vs t u w, (getWriteBuffers 3).run (fourBytes 4 none) = .ok (3, vs) t ∧
      (scatter vs [5, 6]).run t = .ok () u ∧ (setPosition 6).run u = .ok () w ∧
      w.content = [1, 2, 3, 4, 5, 6] := by
  have hrun := run_fourBytes 4 none rfl
  obtain ⟨vs, t, hget, -, -, -, u, w, x, hscatter, hset, hwrite, -, -, hcontent⟩ :=
    scatter_eq_write 2 (by decide) _ _ _ hrun 3 [5, 6] (by decide)
  cases hget
  cases hscatter
  cases hwrite
  exact ⟨_, _, _, w, rfl, rfl, hset, hcontent⟩

end ApexStorm.ByteArray
