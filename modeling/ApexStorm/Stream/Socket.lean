import ApexStorm.Stream.FixSize

/-!
# Writing to a socket stream

`SocketStream::write(buffer, length)` returns `m_socket && m_socket->send(…)`, which is
a truth value: every send counts as one byte, whether it accepted more or failed. So
`writeFixSize` makes as many sends as there are bytes, each from the next offset.
The overload for a `ByteArray` returns the answer of the socket and moves the cursor
by it.
-/

namespace ApexStorm.Stream
open Lib Lib.Chunks

/-- What `Socket::send` answers, by the number of the call and the bytes requested. -/
abbrev Answers := ℕ → ℕ → ℤ

def Answers.Valid (send : Answers) : Prop :=
  ∀ i n, 1 ≤ n → send i n = -1 ∨ 1 ≤ send i n ∧ send i n ≤ n

/-- The bytes the socket has accepted, as offsets into the buffer. -/
structure Outgoing where
  accepted : List ℕ
  calls : ℕ
  failed : Bool
  deriving DecidableEq

/-- `write((const char *)buffer + offset, left)` on a connected stream. -/
def write (send : Answers) (offset left : ℕ) (s : Outgoing) : Option (ℤ × Outgoing) :=
  let rt := send s.calls left
  some (if rt ≠ 0 then 1 else 0,
    ⟨s.accepted ++ List.range' offset rt.toNat, s.calls + 1, s.failed || decide (rt < 0)⟩)

def writeFixSize (send : Answers) (fuel length : ℕ) : Option (ℤ × Outgoing) :=
  fixSize (write send) fuel length ⟨[], 0, false⟩

/-- What a fixed-size write owes: the socket has a beginning of the buffer, each byte once and in
order, all of it exactly when `length` is returned, and a failure shows in the result. -/
def WritesOnce (send : Answers) (length : ℕ) : Prop :=
  ∃ fuel ret s m, writeFixSize send fuel length = some (ret, s) ∧ m ≤ length ∧
    s.accepted = List.range m ∧ (ret = length ↔ m = length) ∧ (s.failed = true → ret < 0)

def taken (send : Answers) (length i : ℕ) : ℕ := (send i (length - i)).toNat

def sent (send : Answers) (length i : ℕ) : ℕ := ∑ j ∈ Finset.range i, taken send length j

/-- Every send accepts one byte. The second case needs a length that is no `int`: the result is
negative anyway, and the sends that are not refused happen to follow each other. -/
def OneByOne (send : Answers) (length : ℕ) : Prop :=
  length < 2 ^ 31 ∧ (∀ i < length, send i (length - i) = 1) ∨
    2 ^ 31 ≤ length ∧ toInt length < 0 ∧ sent send length length < length ∧
      ∀ i < length, send i (length - i) = -1 ∨ sent send length i = i

section Intervals
variable {k : ℕ → ℕ} {n m : ℕ}

theorem length_flatMap_range' (k : ℕ → ℕ) (n : ℕ) :
    ((List.range n).flatMap fun i => List.range' i (k i)).length = ∑ i ∈ Finset.range n, k i := by
  induction n with
  | zero => rfl
  | succ n ih => simp [List.range_succ, Finset.sum_range_succ, ih]

theorem range_append_range' (n k : ℕ) : List.range n ++ List.range' n k = List.range (n + k) := by
  rw [List.range_add, List.range'_eq_map_range]

theorem flatMap_range'_eq_range :
    ((List.range n).flatMap fun i => List.range' i (k i)) = List.range m ↔
      m = ∑ i ∈ Finset.range n, k i ∧ ∀ i < n, k i = 0 ∨ ∑ j ∈ Finset.range i, k j = i := by
  induction n generalizing m with
  | zero =>
    rw [List.range_zero, List.flatMap_nil, eq_comm, List.range_eq_nil]
    simp
  | succ n ih =>
    have hlen := length_flatMap_range' k n
    rw [List.range_succ, List.flatMap_append, List.flatMap_singleton, Finset.sum_range_succ]
    by_cases hk : k n = 0
    · rw [hk, List.range'_zero, List.append_nil, ih, Nat.add_zero]
      apply and_congr_right
      intro _
      constructor
      · intro h i hi
        rcases Nat.lt_succ_iff_lt_or_eq.mp hi with hi | rfl
        · exact h i hi
        · exact .inl hk
      · intro h i hi
        exact h i (by omega)
    · constructor
      · intro h
        have hm := congrArg List.length h
        rw [List.length_append, hlen, List.length_range', List.length_range] at hm
        have hinit : ((List.range n).flatMap fun i => List.range' i (k i)) =
            List.range (∑ i ∈ Finset.range n, k i) := by
          have htake := congrArg (List.take (∑ i ∈ Finset.range n, k i)) h
          rwa [List.take_left' hlen, List.take_range, Nat.min_eq_left (by omega)] at htake
        have hstart : ∑ i ∈ Finset.range n, k i = n := by
          have hget := congrArg (fun l => l[∑ i ∈ Finset.range n, k i]?) h
          simp only [List.getElem?_append_right hlen.le, hlen, Nat.sub_self] at hget
          rw [List.getElem?_range' (by omega), List.getElem?_range (by omega)] at hget
          simpa using hget.symm
        refine ⟨hm.symm, fun i hi => ?_⟩
        rcases Nat.lt_succ_iff_lt_or_eq.mp hi with hi | rfl
        · exact (ih.mp hinit).2 i hi
        · exact .inr hstart
      · rintro ⟨hm, h⟩
        have hstart := (h n (Nat.lt_succ_self n)).resolve_left hk
        rw [(ih (m := n)).mpr ⟨hstart.symm, fun i hi => h i (by omega)⟩, range_append_range', hm,
          hstart]
end Intervals

section Write
variable {send : Answers} {fuel length : ℕ}

def Outgoing.after (s : Outgoing) (send : Answers) (length : ℕ) (is : List ℕ) : Outgoing :=
  ⟨s.accepted ++ is.flatMap (fun i => List.range' i (taken send length i)), s.calls + is.length,
    s.failed || is.any fun i => decide (send i (length - i) < 0)⟩

theorem write_eq (hvalid : send.Valid) {offset left : ℕ} {s : Outgoing} (hs : s.calls = offset)
    (hleft : 0 < left) (hlength : length = offset + left) :
    write send offset left s = some (1, s.after send length [offset]) := by
  have hrt : send offset left ≠ 0 := by
    rcases hvalid offset left hleft with h | h <;> omega
  have hrest : length - offset = left := by omega
  simp [write, hs, hrt, Outgoing.after, taken, hrest]

theorem fixLoop_write (hvalid : send.Valid) {offset left : ℕ} {s : Outgoing}
    (hs : s.calls = offset) (hlength : length = offset + left) (hlt : length < 2 ^ 64) :
    fixLoop (write send) fuel offset left s =
      if left < fuel then some (s.after send length (List.range' offset left)) else none := by
  induction fuel generalizing offset left s with
  | zero => rfl
  | succ fuel ih =>
    cases left with
    | zero =>
      rw [fixLoop_zero, if_pos (Nat.zero_lt_succ fuel)]
      simp [Outgoing.after]
    | succ left =>
      have hone : toSize 1 = 1 := toSize_natCast (k := 1) (by omega)
      have hoff : (offset + 1) % 2 ^ 64 = offset + 1 := by omega
      have hleft : (left + 1 + 2 ^ 64 - 1) % 2 ^ 64 = left := by omega
      have hcalls : (s.after send length [offset]).calls = offset + 1 := by
        rw [Outgoing.after, hs, List.length_singleton]
      rw [fixLoop_step (Nat.zero_lt_succ left) (write_eq hvalid hs (Nat.zero_lt_succ left) hlength),
        hone, hoff, hleft, ih hcalls (by omega)]
      simp [Outgoing.after, List.range'_succ, Nat.add_assoc, Nat.add_comm 1, Bool.or_assoc]

theorem writeFixSize_eq (hvalid : send.Valid) (hlt : length < 2 ^ 64) :
    writeFixSize send fuel length =
      if length < fuel then
        some (toInt length, Outgoing.after ⟨[], 0, false⟩ send length (List.range length))
      else none := by
  have hloop := @fixLoop_write send fuel length hvalid 0 length ⟨[], 0, false⟩ rfl
    (Nat.zero_add length).symm hlt
  rw [← List.range_eq_range'] at hloop
  rw [writeFixSize, fixSize, hloop]
  split_ifs <;> rfl

theorem writesOnce_iff (hvalid : send.Valid) (hlt : length < 2 ^ 64) :
    WritesOnce send length ↔ sent send length length ≤ length ∧
      (∀ i < length, taken send length i = 0 ∨ sent send length i = i) ∧
      (toInt length = length ↔ sent send length length = length) ∧
      ((∃ i < length, send i (length - i) < 0) → toInt length < 0) := by
  have hfailed : (Outgoing.after ⟨[], 0, false⟩ send length (List.range length)).failed = true ↔
      ∃ i < length, send i (length - i) < 0 := by
    simp [Outgoing.after]
  have haccepted : ∀ m, (Outgoing.after ⟨[], 0, false⟩ send length
      (List.range length)).accepted = List.range m ↔ m = sent send length length ∧
        ∀ i < length, taken send length i = 0 ∨ sent send length i = i := by
    intro m
    rw [Outgoing.after, List.nil_append, flatMap_range'_eq_range]
    rfl
  constructor
  · rintro ⟨fuel, ret, s, m, hrun, hm, hacc, hret, hfail⟩
    rw [writeFixSize_eq hvalid hlt] at hrun
    split_ifs at hrun with hfuel
    obtain ⟨rfl, rfl⟩ := Prod.mk.inj (Option.some.inj hrun)
    obtain ⟨rfl, hstarts⟩ := (haccepted m).mp hacc
    exact ⟨hm, hstarts, hret, fun h => hfail (hfailed.mpr h)⟩
  · rintro ⟨hm, hstarts, hret, hfail⟩
    refine ⟨length + 1, toInt length, _, _, ?_, hm, (haccepted _).mpr ⟨rfl, hstarts⟩, hret,
      fun h => hfail (hfailed.mp h)⟩
    rw [writeFixSize_eq hvalid hlt, if_pos (Nat.lt_succ_self length)]

theorem taken_pos (hvalid : send.Valid) {i : ℕ} (hi : i < length)
    (h : ¬ send i (length - i) < 0) : 1 ≤ taken send length i := by
  rw [taken]
  rcases hvalid i (length - i) (by omega) with h' | h' <;> omega

theorem le_sent (h : ∀ i < length, 1 ≤ taken send length i) {i : ℕ} (hi : i ≤ length) :
    i ≤ sent send length i := by
  induction i with
  | zero => exact Nat.zero_le _
  | succ i ih =>
    have hprev := ih (by omega)
    have hstep := h i hi
    rw [sent, Finset.sum_range_succ, ← sent]
    omega

/-- Where every send accepts something, the sends follow each other only byte by byte. -/
theorem send_eq_one (h : ∀ i < length, 1 ≤ taken send length i)
    (hstarts : ∀ i < length, taken send length i = 0 ∨ sent send length i = i)
    (hall : sent send length length = length) {i : ℕ} (hi : i < length) :
    send i (length - i) = 1 := by
  have hstart : ∀ j ≤ length, sent send length j = j := by
    intro j hj
    rcases Nat.lt_or_ge j length with hlt | hge
    · have hpos := h j hlt
      exact (hstarts j hlt).resolve_left (by omega)
    · rw [le_antisymm hj hge, hall]
  have hnext := hstart (i + 1) hi
  rw [sent, Finset.sum_range_succ, ← sent, hstart i hi.le, taken] at hnext
  omega

/-- Once and in order goes exactly what is sent byte by byte. -/
theorem writes_once_iff_one_by_one (send : Answers) (hvalid : send.Valid) (length : ℕ)
    (hlength : length < 2 ^ 64) : WritesOnce send length ↔ OneByOne send length := by
  rw [writesOnce_iff hvalid hlength]
  constructor
  · rintro ⟨hle, hstarts, hret, hfail⟩
    by_cases hsmall : length < 2 ^ 31
    · have hint := toInt_eq_iff.mpr hsmall
      have hpos : ∀ i < length, 1 ≤ taken send length i := by
        intro i hi
        apply taken_pos hvalid hi
        intro hneg
        have := hfail ⟨i, hi, hneg⟩
        omega
      exact .inl ⟨hsmall, fun i hi => send_eq_one hpos hstarts (hret.mp hint) hi⟩
    · have hlt : sent send length length < length :=
        lt_of_le_of_ne hle fun h => hsmall (toInt_eq_iff.mp (hret.mpr h))
      have hneg : toInt length < 0 := by
        apply hfail
        by_contra hnone
        have := le_sent (fun i hi => taken_pos hvalid hi fun h => hnone ⟨i, hi, h⟩) le_rfl
        omega
      refine .inr ⟨not_lt.mp hsmall, hneg, hlt, fun i hi => ?_⟩
      rcases hvalid i (length - i) (by omega) with h | h
      · exact .inl h
      · exact .inr ((hstarts i hi).resolve_left (by rw [taken]; omega))
  · rintro (⟨hsmall, hone⟩ | ⟨hlarge, hneg, hlt, hstarts⟩)
    · have hsent : ∀ i ≤ length, sent send length i = i := by
        intro i hi
        induction i with
        | zero => rfl
        | succ i ih =>
          rw [sent, Finset.sum_range_succ, ← sent, ih (by omega), taken, hone i hi]
          rfl
      refine ⟨(hsent length le_rfl).le, fun i hi => .inr (hsent i hi.le),
        iff_of_true (toInt_eq_iff.mpr hsmall) (hsent length le_rfl), ?_⟩
      rintro ⟨i, hi, hneg⟩
      rw [hone i hi] at hneg
      omega
    · refine ⟨hlt.le, fun i hi => (hstarts i hi).imp_left fun h => ?_,
        iff_of_false (by omega) (by omega), fun _ => hneg⟩
      rw [taken, h]
      rfl

theorem writes_once_iff_one_by_one_single : WritesOnce (fun _ _ => 1) 3 := by
  have hvalid : Answers.Valid fun _ _ => 1 := fun _ _ hn => .inr ⟨le_rfl, Int.ofNat_le.mpr hn⟩
  exact (writes_once_iff_one_by_one _ hvalid 3 (by decide)).mpr
    (.inl ⟨by decide, fun _ _ => rfl⟩)

/-- A socket that takes all it is offered gets the second byte twice; one that refuses everything
gets nothing, and still 2 is returned. -/
theorem send_counted_as_one_byte :
    writeFixSize (fun _ n => n) 3 2 = some (2, ⟨[0, 1, 1], 2, false⟩) ∧
      ¬ WritesOnce (fun _ n => n) 2 ∧
      writeFixSize (fun _ _ => -1) 3 2 = some (2, ⟨[], 2, true⟩) ∧
      ¬ WritesOnce (fun _ _ => -1) 2 := by
  have hall : Answers.Valid fun _ n => n := fun _ _ hn => .inr ⟨Int.ofNat_le.mpr hn, le_rfl⟩
  have hnone : Answers.Valid fun _ _ => -1 := fun _ _ _ => .inl rfl
  refine ⟨by decide +kernel, ?_, by decide +kernel, ?_⟩
  · rw [writesOnce_iff hall (by decide)]
    rintro ⟨hle, -⟩
    exact absurd hle (by decide)
  · rw [writesOnce_iff hnone (by decide)]
    rintro ⟨-, -, -, hfail⟩
    exact absurd (hfail ⟨0, by decide, by decide⟩) (by decide +kernel)

end Write

/-- `SocketStream::write(ba, length)`; `send` is the answer to the bytes it is offered. -/
def writeByteArray (send : List UInt8 → ℤ) (length : ℕ) : ByteArray.Method ℤ := do
  let (_, iovs) ← ByteArray.getReadBuffers length
  let offered ← ByteArray.gather iovs
  let rt := send offered
  if rt > 0 then
    ByteArray.setPosition ((← get).position + rt.toNat)
  return rt

theorem run_writeByteArray {b : ℕ} {s : ByteArray} (h : ByteArray.Inv b s) {length : ℕ}
    {vs : List ByteArray.IoVec} {offered : List UInt8} {send : List UInt8 → ℤ}
    (hview : (ByteArray.getReadBuffers length).run s = .ok (offered.length, vs) s)
    (hgather : (ByteArray.gather vs).run s = .ok offered s)
    (hle : offered.length ≤ s.getReadSize) (hsend : send offered ≤ offered.length) :
    ∃ t, (writeByteArray send length).run s = .ok (send offered) t ∧
      t.position = s.position + (send offered).toNat ∧ t.size = s.size ∧ t.content = s.content := by
  have hread : s.getReadSize = s.size - s.position := rfl
  have hpos := h.position_le
  have hsz := h.size_le
  by_cases hrt : send offered > 0
  · obtain ⟨t, hset, -, -, htpos, hsize, hflat, -⟩ := h.run_setPosition
      (show s.position + (send offered).toNat ≤ s.capacity by omega)
    rw [max_eq_left (by omega)] at hsize
    refine ⟨t, ?_, htpos, hsize, by rw [ByteArray.content, hflat, hsize, ByteArray.content]⟩
    simp only [writeByteArray, EStateM.run_bind, hview, hgather, if_pos hrt, EStateM.run_get, hset,
      EStateM.run_pure]
  · refine ⟨s, ?_, by rw [Int.toNat_of_nonpos (by omega), Nat.add_zero], rfl, rfl⟩
    simp only [writeByteArray, EStateM.run_bind, hview, hgather, if_neg hrt, EStateM.run_pure]

theorem gather_agrees_with_toString (b : ℕ) (hb : 1 ≤ b) (fresh : ℕ → UInt8)
    (as : List ByteArray.Access) (s : ByteArray)
    (hrun : Run ByteArray.Accessed (ByteArray.new b fresh) as s) (hcap : s.capacity < 2 ^ 64)
    (len : ℕ) :
    ∃ vs str, (ByteArray.getReadBuffers len).run s = .ok (min len s.getReadSize, vs) s ∧
      ByteArray.toString.run s = .ok str s ∧
      (ByteArray.gather vs).run s = .ok (str.take (min len s.getReadSize)) s ∧
      (∀ v ∈ vs, 0 < v.len ∧ v.Inside s) ∧
      ∀ send : List UInt8 → ℤ, (∀ xs, send xs ≤ xs.length) →
        ∃ rt t, rt = send (str.take (min len s.getReadSize)) ∧
          (writeByteArray send len).run s = .ok rt t ∧
          t.position = s.position + rt.toNat ∧ t.size = s.size ∧ t.content = s.content ∧
          slice s.content s.position rt.toNat =
            (str.take (min len s.getReadSize)).take rt.toNat := by
  have h := ByteArray.Inv.of_accesses hb hrun
  have hread : s.getReadSize = s.size - s.position := rfl
  have hpos := h.position_le
  have hlen := h.content_length
  obtain ⟨vs, hview, ht⟩ := h.run_getReadBuffers len
  obtain ⟨-, hgather⟩ := h.run_gather ht
  rw [Nat.min_comm] at hview ht hgather
  have htake : (slice s.content s.position s.getReadSize).take (min len s.getReadSize) =
      slice s.content s.position (min len s.getReadSize) := take_slice (Nat.min_le_right _ _)
  have hoffered : (slice s.content s.position (min len s.getReadSize)).length =
      min len s.getReadSize := slice_length (by omega)
  rw [Nat.add_sub_cancel_left, ← slice_take (k := s.size) (by omega),
    ← ByteArray.content] at hgather
  have hsize := h.size_le
  refine ⟨vs, _, hview, h.run_toString (by omega), by rw [htake, hgather],
    ByteArray.Layout.Tiles.inside h.toLayout ht, fun send hsend => ?_⟩
  rw [htake]
  obtain ⟨t, hwrite, htpos, hsize, hcont⟩ := run_writeByteArray h (by rw [hoffered]; exact hview)
    hgather (by omega) (hsend _)
  refine ⟨_, t, rfl, hwrite, htpos, hsize, hcont, ?_⟩
  have hle := hsend (slice s.content s.position (min len s.getReadSize))
  rw [hoffered] at hle
  exact (take_slice (Int.toNat_le.mpr hle)).symm

theorem gather_agrees_with_toString_two_nodes :
    ∃ vs str, (ByteArray.getReadBuffers 4).run (ByteArray.fourBytes 1 (some 0)) =
        .ok (3, vs) (ByteArray.fourBytes 1 (some 0)) ∧
      ByteArray.toString.run (ByteArray.fourBytes 1 (some 0)) =
        .ok str (ByteArray.fourBytes 1 (some 0)) ∧
      (ByteArray.gather vs).run (ByteArray.fourBytes 1 (some 0)) =
        .ok (str.take 3) (ByteArray.fourBytes 1 (some 0)) := by
  have hrun := ByteArray.run_fourBytes 1 (some 0) rfl
  obtain ⟨vs, str, hview, hstr, hgather, -⟩ :=
    gather_agrees_with_toString 2 (by decide) _ _ _ hrun (by decide) 4
  exact ⟨vs, str, hview, hstr, hgather⟩

end ApexStorm.Stream
