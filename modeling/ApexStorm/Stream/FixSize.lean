import ApexStorm.ByteArray.Views
import ApexStorm.Lib.Wire

/-!
# Fixed-size reads of a stream

`readFixSize` and `writeFixSize` are one loop over a single transfer. The `int` that
the transfer returns is kept in a `size_t`: the test `len < 0` never succeeds, a
failure is added as `2 ^ 64 - 1`, and the end of the stream repeats the same read.
So a fixed-size read does its work exactly when nothing interrupts it.
-/

namespace ApexStorm.Stream
open Lib Lib.Chunks

def toSize (rt : ℤ) : ℕ := (rt % 2 ^ 64).toNat

def toInt (n : ℕ) : ℤ := (n : ℤ).bmod (2 ^ 32)

section Loop
variable {σ : Type}

/-- The loop of the fixed-size transfers; `op offset left` is the single transfer, undefined where
it leaves the memory. -/
def fixLoop (op : ℕ → ℕ → σ → Option (ℤ × σ)) : ℕ → ℕ → ℕ → σ → Option σ
  | 0, _, _, _ => none
  | fuel + 1, offset, left, s =>
    if left > 0 then do
      let (rt, s) ← op offset left s
      -- `len < 0` is false for every `size_t`
      let len := toSize rt
      fixLoop op fuel ((offset + len) % 2 ^ 64) ((left + 2 ^ 64 - len) % 2 ^ 64) s
    else some s

def fixSize (op : ℕ → ℕ → σ → Option (ℤ × σ)) (fuel length : ℕ) (s : σ) : Option (ℤ × σ) := do
  let s ← fixLoop op fuel 0 length s
  return (toInt length, s)

end Loop

structure Source where
  wire : Wire UInt8
  calls : ℕ

def Source.recv (s : Source) (n : ℕ) : Arrival UInt8 × Source :=
  let (a, wire) := s.wire.read n
  (a, ⟨wire, s.calls + 1⟩)

def result : Arrival UInt8 → ℤ
  | .items xs => xs.length
  | .fail => -1

structure Filling where
  source : Source
  mem : List UInt8

def read (buffer offset left : ℕ) (s : Filling) : Option (ℤ × Filling) :=
  let (a, source) := s.source.recv left
  let pos := (buffer + offset) % 2 ^ 64
  if pos + a.list.length ≤ s.mem.length then
    some (result a, ⟨source, overlay s.mem pos a.list⟩)
  else none

def readFixSize (buffer fuel length : ℕ) (s : Filling) : Option (ℤ × Filling) :=
  fixSize (read buffer) fuel length s

structure ByteFilling where
  source : Source
  ba : ByteArray

/-- `SocketStream::read(ba, length)` when `recv` stores `xs`. -/
def recvInto (length : ℕ) (xs : List UInt8) : ByteArray.Method Unit := do
  let (_, iovs) ← ByteArray.getWriteBuffers length
  ByteArray.scatter iovs xs
  if xs.length > 0 then
    ByteArray.setPosition ((← get).position + xs.length)

def readByteArray (_offset left : ℕ) (s : ByteFilling) : Option (ℤ × ByteFilling) :=
  let (a, source) := s.source.recv left
  match (recvInto left a.list).run s.ba with
  | .ok _ ba => some (result a, ⟨source, ba⟩)
  | .error _ _ => none

def readFixSizeByteArray (fuel length : ℕ) (s : ByteFilling) : Option (ℤ × ByteFilling) :=
  fixSize readByteArray fuel length s

/-- What a fixed-size read of `length` bytes owes on the stream `w`: it returns, with `length`
exactly when the stream carries as many bytes, which are then where they belong; and it returns
no more than zero without another `read` once a read has found nothing. -/
def ReadsFixed {σ : Type} (w : Wire UInt8) (length : ℕ) (run : ℕ → Option (ℤ × σ)) (calls : σ → ℕ)
    (Holds : List UInt8 → σ → Prop) : Prop :=
  ∃ fuel ret s, run fuel = some (ret, s) ∧ (ret = length ↔ ¬ w.BreaksBefore length) ∧
    (ret = length → ∃ xs, xs.length = length ∧ w.Begins xs ∧ Holds xs s) ∧
    ∀ k, (w k).list = [] → (w.content k).length < length → ret ≤ 0 ∧ calls s ≤ k + 1

/-- The bytes come without a break and their number is an `int`. The second case is a slip that
cancels itself: a first read that fails leaves nothing of the largest length. -/
def Uninterrupted (w : Wire UInt8) (length : ℕ) : Prop :=
  length < 2 ^ 31 ∧ ¬ w.BreaksBefore length ∨ length = 2 ^ 64 - 1 ∧ w 0 = .fail

theorem toSize_natCast {k : ℕ} (h : k < 2 ^ 64) : toSize k = k := by
  rw [toSize]
  omega

theorem toSize_neg_one : toSize (-1) = 2 ^ 64 - 1 := by
  rw [toSize]
  omega

theorem toInt_lt (n : ℕ) : toInt n < 2 ^ 31 := Int.bmod_lt (by norm_num)

theorem toInt_eq_iff {n : ℕ} : toInt n = n ↔ n < 2 ^ 31 := by
  constructor
  · intro h
    have hlt := toInt_lt n
    omega
  · intro h
    apply Int.bmod_eq_of_le <;> omega

theorem toInt_max : toInt (2 ^ 64 - 1) = -1 := by decide +kernel

theorem result_eq (a : Arrival UInt8) : result a = a.list.length ∨ a = .fail ∧ result a = -1 := by
  cases a with
  | items xs => exact .inl rfl
  | fail => exact .inr ⟨rfl, rfl⟩

section Loop
variable {σ : Type} {op : ℕ → ℕ → σ → Option (ℤ × σ)} {fuel offset left : ℕ} {s s' : σ}

theorem fixLoop_zero : fixLoop op (fuel + 1) offset 0 s = some s := by
  rw [fixLoop, if_neg (lt_irrefl 0)]

theorem fixLoop_step {rt : ℤ} (hleft : 0 < left) (h : op offset left s = some (rt, s')) :
    fixLoop op (fuel + 1) offset left s =
      fixLoop op fuel ((offset + toSize rt) % 2 ^ 64) ((left + 2 ^ 64 - toSize rt) % 2 ^ 64)
        s' := by
  rw [fixLoop, if_pos hleft, h]
  rfl

def Counts (op : ℕ → ℕ → σ → Option (ℤ × σ)) (calls : σ → ℕ) : Prop :=
  ∀ ⦃offset left rt s s'⦄, op offset left s = some (rt, s') → calls s' = calls s + 1

/-- `At done w s`: the bytes `done` have arrived where they belong, and `w` is the rest. -/
def Reader (op : ℕ → ℕ → σ → Option (ℤ × σ)) (length : ℕ)
    (At : List UInt8 → Wire UInt8 → σ → Prop) : Prop :=
  ∀ ⦃done w w' a s left⦄, At done w s → 0 < left → done.length + left ≤ length →
    w.read left = (a, w') → ∃ s', op done.length left s = some (result a, s') ∧
      At (done ++ a.list) w' s'

variable {calls : σ → ℕ} {length : ℕ} {At : List UInt8 → Wire UInt8 → σ → Prop}
  {w w' : Wire UInt8} {done : List UInt8}

theorem Counts.calls_le (hcounts : Counts op calls)
    (hloop : fixLoop op fuel offset left s = some s') :
    calls s ≤ calls s' ∧ (0 < left → calls s < calls s') := by
  induction fuel generalizing offset left s with
  | zero => cases hloop
  | succ fuel ih =>
    rw [fixLoop] at hloop
    split_ifs at hloop with hleft
    · obtain ⟨⟨rt, t⟩, hop, hloop⟩ := Option.bind_eq_some_iff.mp hloop
      have hcount := hcounts hop
      have hle := (ih hloop).1
      omega
    · cases hloop
      exact ⟨le_rfl, fun hpos => absurd hpos hleft⟩

namespace Reader

theorem next_lengths {a : Arrival UInt8} (hne : a.list ≠ []) (hlen : a.list.length ≤ left)
    (hleft : offset + left < 2 ^ 64) :
    (offset + toSize (result a)) % 2 ^ 64 = offset + a.list.length ∧
      (left + 2 ^ 64 - toSize (result a)) % 2 ^ 64 = left - a.list.length := by
  have hrt : result a = a.list.length := by
    rcases result_eq a with h | ⟨rfl, -⟩
    · exact h
    · exact absurd rfl hne
  rw [hrt, toSize_natCast (by omega)]
  omega

theorem delivers (h : Reader op length At) (hat : At done w s)
    (hlen : done.length + left ≤ length) (hlength : length < 2 ^ 64)
    (hw : ¬ w.BreaksBefore left) :
    ∃ fuel s' xs w', fixLoop op fuel done.length left s = some s' ∧ xs.length = left ∧
      w.Begins xs ∧ At (done ++ xs) w' s' := by
  induction left using Nat.strong_induction_on generalizing done w s with
  | _ left ih =>
    rcases Nat.eq_zero_or_pos left with rfl | hleft
    · exact ⟨1, s, [], w, fixLoop_zero, rfl, Wire.begins_nil, by simpa using hat⟩
    · obtain ⟨a, w₁, hread⟩ : ∃ a w₁, w.read left = (a, w₁) := ⟨_, _, rfl⟩
      have hne := Wire.read_ne_nil hw hleft hread
      have hle := Wire.read_length_le hread
      have hpos := List.length_pos_iff.mpr hne
      obtain ⟨t, hop, hat'⟩ := h hat hleft hlen hread
      obtain ⟨hoff, hrest⟩ := next_lengths hne hle (show done.length + left < 2 ^ 64 by omega)
      obtain ⟨fuel, s', xs, w', hloop, hxs, hbegins, hend⟩ := ih (left - a.list.length) (by omega)
        hat' (by rw [List.length_append]; omega) (Wire.not_breaksBefore_read hw hread)
      refine ⟨fuel + 1, s', a.list ++ xs, w', ?_, ?_, .of_read hread hbegins, ?_⟩
      · rw [fixLoop_step hleft hop, hoff, hrest, ← List.length_append]
        exact hloop
      · rw [List.length_append]
        omega
      · rwa [← List.append_assoc]

theorem reads_on_at_once (h : Reader op length At) (hcounts : Counts op calls) (hat : At done w s)
    (hleft : 0 < left) (hlen : done.length + left ≤ length) (hlength : length < 2 ^ 64)
    (hloop : fixLoop op fuel done.length left s = some s') (h0 : (w 0).list = []) :
    left = 2 ^ 64 - 1 ∧ w 0 = .fail ∨ calls s + 1 < calls s' := by
  obtain ⟨t, hop, -⟩ := h hat hleft hlen (Wire.read_of_le (by rw [h0]; exact Nat.zero_le _))
  have hcount := hcounts hop
  cases fuel with
  | zero => cases hloop
  | succ fuel =>
    rw [fixLoop_step hleft hop] at hloop
    have hmore := (hcounts.calls_le hloop).2
    rcases result_eq (w 0) with hrt | ⟨hfail, hrt⟩
    · rw [hrt, h0, List.length_nil, toSize_natCast (by omega)] at hmore
      have := hmore (by omega)
      omega
    · rw [hrt, toSize_neg_one] at hmore
      by_cases hall : left = 2 ^ 64 - 1
      · exact .inl ⟨hall, hfail⟩
      · have := hmore (by omega)
        omega

theorem reads_on (h : Reader op length At) (hcounts : Counts op calls) (hat : At done w s)
    (hlen : done.length + left ≤ length) (hlength : length < 2 ^ 64)
    (hloop : fixLoop op fuel done.length left s = some s') {k : ℕ} (hk : (w k).list = [])
    (hlt : (w.content k).length < left) :
    left = 2 ^ 64 - 1 ∧ w 0 = .fail ∨
      ∃ j, (w j).list = [] ∧ (w.content j).length < left ∧ calls s + j + 1 < calls s' := by
  have hleft : 0 < left := by omega
  by_cases h0 : (w 0).list = []
  · rcases h.reads_on_at_once hcounts hat hleft hlen hlength hloop h0 with hall | hcalls
    · exact .inl hall
    · exact .inr ⟨0, h0, hleft, hcalls⟩
  · -- the first piece is read whole, and the break is one piece nearer
    induction k generalizing done w s left fuel with
    | zero => exact absurd hk h0
    | succ k ih =>
      rw [Wire.content, List.length_append] at hlt
      have hpos := List.length_pos_iff.mpr h0
      obtain ⟨t, hop, hat'⟩ := h hat hleft hlen (Wire.read_of_le (by omega))
      have hcount := hcounts hop
      cases fuel with
      | zero => cases hloop
      | succ fuel =>
        obtain ⟨hoff, hrest⟩ := next_lengths h0 (show (w 0).list.length ≤ left by omega)
          (show done.length + left < 2 ^ 64 by omega)
        rw [fixLoop_step hleft hop, hoff, hrest, ← List.length_append] at hloop
        have hlen' : (done ++ (w 0).list).length + (left - (w 0).list.length) ≤ length := by
          rw [List.length_append]
          omega
        have hleft' : 0 < left - (w 0).list.length := by omega
        have hlater : ∃ j, (w.next j).list = [] ∧
            (w.next.content j).length < left - (w 0).list.length ∧ calls t + j + 1 < calls s' := by
          by_cases h1 : (w.next 0).list = []
          · rcases h.reads_on_at_once hcounts hat' hleft' hlen' hlength hloop h1 with hall | hcalls
            · omega
            · exact ⟨0, h1, hleft', hcalls⟩
          · rcases ih hat' hlen' hloop hk (by omega) hleft' h1 with hall | hj
            · omega
            · exact hj
        obtain ⟨j, hj, hjlt, hcalls⟩ := hlater
        refine .inr ⟨j + 1, hj, ?_, by omega⟩
        rw [Wire.content, List.length_append]
        omega

theorem fixSize_of_loop (hloop : fixLoop op fuel 0 length s = some s') :
    fixSize op fuel length s = some (toInt length, s') := by
  rw [fixSize, hloop]
  rfl

theorem fixSize_eq_some {ret : ℤ} (hrun : fixSize op fuel length s = some (ret, s')) :
    fixLoop op fuel 0 length s = some s' ∧ ret = toInt length := by
  obtain ⟨t, hloop, heq⟩ := Option.bind_eq_some_iff.mp hrun
  obtain ⟨rfl, rfl⟩ := Prod.mk.inj (Option.some.inj heq)
  exact ⟨hloop, rfl⟩

/-- One argument for both overloads of `readFixSize`. -/
theorem readsFixed_iff (h : Reader op length At) (hcounts : Counts op calls) (hat : At [] w s)
    (hcalls : calls s = 0) (hlength : length < 2 ^ 64) {Holds : List UInt8 → σ → Prop}
    (hholds : ∀ xs w' s', xs.length = length → At xs w' s' → Holds xs s') :
    ReadsFixed w length (fun fuel => fixSize op fuel length s) calls Holds ↔
      Uninterrupted w length := by
  constructor
  · rintro ⟨fuel, ret, s', hrun, hret, -, hsoon⟩
    obtain ⟨hloop, hint⟩ := fixSize_eq_some hrun
    by_cases hbreaks : w.BreaksBefore length
    · obtain ⟨k, hk, hlt⟩ := hbreaks
      rcases h.reads_on hcounts hat (Nat.zero_add length).le hlength hloop hk hlt with
        hall | ⟨j, hj, hjlt, hj'⟩
      · exact .inr hall
      · have := (hsoon j hj hjlt).2
        omega
    · exact .inl ⟨toInt_eq_iff.mp (hint ▸ hret.mpr hbreaks), hbreaks⟩
  · rintro (⟨hlt, hw⟩ | ⟨hall, hfail⟩)
    · obtain ⟨fuel, s', xs, w', hloop, hxs, hbegins, hend⟩ :=
        h.delivers hat (Nat.zero_add length).le hlength hw
      exact ⟨fuel, _, s', fixSize_of_loop hloop, iff_of_true (toInt_eq_iff.mpr hlt) hw,
        fun _ => ⟨xs, hxs, hbegins, hholds xs w' s' hxs hend⟩,
        fun k hk hklt => absurd ⟨k, hk, hklt⟩ hw⟩
    · have h0 : (w 0).list = [] := by rw [hfail]; rfl
      have hpos : 0 < length := by omega
      obtain ⟨t, hop, -⟩ := h hat hpos (Nat.zero_add length).le
        (Wire.read_of_le (by rw [h0]; exact Nat.zero_le _))
      have hop' : op 0 length s = some (-1, t) := by rw [hfail] at hop; exact hop
      have hcount := hcounts hop'
      have hrest : (length + 2 ^ 64 - toSize (-1)) % 2 ^ 64 = 0 := by rw [toSize_neg_one]; omega
      have hneg : toInt length = -1 := hall ▸ toInt_max
      have hloop : fixLoop op 2 0 length s = some t := by
        rw [fixLoop_step hpos hop', hrest, fixLoop_zero]
      exact ⟨2, _, t, fixSize_of_loop hloop, iff_of_false (by omega) (not_not.mpr ⟨0, h0, hpos⟩),
        fun hret => by omega, fun k _ _ => ⟨by omega, by omega⟩⟩

end Reader
end Loop

theorem counts_read (buffer : ℕ) : Counts (read buffer) (·.source.calls) := by
  intro offset left rt s s' h
  rw [read] at h
  dsimp only at h
  split_ifs at h
  cases h
  rfl

theorem reader_read {mem : List UInt8} {buffer length : ℕ} (hbuffer : buffer + length ≤ mem.length)
    (hmem : mem.length ≤ 2 ^ 64) :
    Reader (read buffer) length
      fun done w s => s.source.wire = w ∧ s.mem = overlay mem buffer done := by
  rintro done w w' a s left ⟨rfl, hs⟩ hleft hlen hread
  have hle := Wire.read_length_le hread
  have hpos : (buffer + done.length) % 2 ^ 64 = buffer + done.length := by omega
  have hsize : s.mem.length = mem.length := by
    rw [hs, overlay_length done (by omega)]
    omega
  refine ⟨⟨⟨w', s.source.calls + 1⟩, overlay s.mem (buffer + done.length) a.list⟩, ?_, rfl, ?_⟩
  · simp only [read, Source.recv, hread, hpos]
    rw [if_pos (by omega)]
  · rw [hs, overlay_overlay done a.list (by omega)]

theorem run_recvInto {b : ℕ} {ba : ByteArray} (h : ByteArray.Inv b ba) {length : ℕ}
    {xs : List UInt8} (hxs : xs.length ≤ length) :
    ∃ ba', (recvInto length xs).run ba = .ok () ba' ∧ ByteArray.Inv b ba' ∧
      ba'.position = ba.position + xs.length ∧
      ba'.content = overlay ba.content ba.position xs := by
  obtain ⟨mid, vs, hget, hmid, -, hmpos, hmcont, hroom, htiles⟩ := h.run_getWriteBuffers length
  have hfits : mid.position + xs.length ≤ mid.position + length := by omega
  obtain ⟨u, hscatter, hu, hupos, husize, hucap, huflat⟩ := hmid.run_scatter htiles xs hfits hroom
  have hlen := hmid.flat_length
  have hle := hmid.position_le
  have hsz := hmid.size_le
  rw [← hmcont, ← hmpos]
  by_cases hnil : xs.length > 0
  · obtain ⟨t, hset, ht, -, hpos, hts, htf, -⟩ := hu.run_setPosition
      (v := u.position + xs.length) (by omega)
    refine ⟨t, ?_, ht, by omega, ?_⟩
    · simp only [recvInto, EStateM.run_bind, hget, hscatter, if_pos hnil, EStateM.run_get, hset]
    · rw [ByteArray.content, htf, hts, huflat, husize, hupos, ByteArray.content,
        overlay_take hle (by omega)]
  · obtain rfl : xs = [] := List.length_eq_zero_iff.mp (by omega)
    refine ⟨u, ?_, hu, hupos, ?_⟩
    · simp only [recvInto, EStateM.run_bind, hget, hscatter, if_neg hnil, EStateM.run_pure]
    · rw [overlay_nil, ByteArray.content, ByteArray.content, huflat, overlay_nil, husize]

theorem counts_readByteArray : Counts readByteArray (·.source.calls) := by
  intro offset left rt s s' h
  rw [readByteArray] at h
  dsimp only at h
  split at h
  · cases h
    rfl
  · cases h

theorem reader_readByteArray (b : ℕ) (ba : ByteArray) (length : ℕ) :
    Reader readByteArray length
      fun done w s => s.source.wire = w ∧ ByteArray.Inv b s.ba ∧
        s.ba.position = ba.position + done.length ∧ ba.position ≤ ba.content.length ∧
        s.ba.content = overlay ba.content ba.position done := by
  rintro done w w' a s left ⟨rfl, hinv, hpos, hle, hcont⟩ hleft hlen hread
  obtain ⟨t, hrun, ht, htpos, htcont⟩ := run_recvInto hinv (Wire.read_length_le hread)
  refine ⟨⟨⟨w', s.source.calls + 1⟩, t⟩, ?_, rfl, ht, ?_, hle, ?_⟩
  · simp only [readByteArray, Source.recv, hread, hrun]
  · rw [htpos, hpos, List.length_append, Nat.add_assoc]
  · rw [htcont, hcont, hpos, overlay_overlay done a.list hle]

theorem readFixSize_iff {w : Wire UInt8} {mem : List UInt8} {buffer length : ℕ}
    (hlength : length < 2 ^ 64) (hbuffer : buffer + length ≤ mem.length)
    (hmem : mem.length ≤ 2 ^ 64) :
    ReadsFixed w length (fun fuel => readFixSize buffer fuel length ⟨⟨w, 0⟩, mem⟩)
      (·.source.calls) (fun xs s => s.mem = overlay mem buffer xs) ↔ Uninterrupted w length := by
  apply (reader_read hbuffer hmem).readsFixed_iff (counts_read buffer)
    ⟨rfl, (overlay_nil mem buffer).symm⟩ rfl hlength
  rintro xs w' s' - ⟨-, hmem'⟩
  exact hmem'

theorem fixed_reads_iff_uninterrupted (w : Wire UInt8) (length : ℕ) (hlength : length < 2 ^ 64) :
    (∀ (mem : List UInt8) (buffer : ℕ), buffer + length ≤ mem.length → mem.length ≤ 2 ^ 64 →
      (ReadsFixed w length (fun fuel => readFixSize buffer fuel length ⟨⟨w, 0⟩, mem⟩)
        (·.source.calls) (fun xs s => s.mem = overlay mem buffer xs) ↔ Uninterrupted w length)) ∧
    ∀ (b : ℕ) (fresh : ℕ → UInt8) (as : List ByteArray.Access) (ba : ByteArray), 1 ≤ b →
      Run ByteArray.Accessed (ByteArray.new b fresh) as ba →
      (ReadsFixed w length (fun fuel => readFixSizeByteArray fuel length ⟨⟨w, 0⟩, ba⟩)
        (·.source.calls) (fun xs s => s.ba.position = ba.position + length ∧
          s.ba.content = overlay ba.content ba.position xs) ↔ Uninterrupted w length) := by
  refine ⟨fun mem buffer hbuffer hmem => readFixSize_iff hlength hbuffer hmem, ?_⟩
  intro b fresh as ba hb hrun
  have h := ByteArray.Inv.of_accesses hb hrun
  apply (reader_readByteArray b ba length).readsFixed_iff counts_readByteArray
    ⟨rfl, h, rfl, h.content_length ▸ h.position_le, (overlay_nil _ _).symm⟩ rfl hlength
  rintro xs w' s' hxs ⟨-, -, hpos, -, hcont⟩
  exact ⟨hxs ▸ hpos, hcont⟩

def threeBytes : Wire UInt8 := Wire.push [1, 2] (Wire.push [3] fun _ => .items [])

theorem uninterrupted_threeBytes : Uninterrupted threeBytes 3 := by
  refine .inl ⟨by decide, ?_⟩
  rintro ⟨k, hk, hlt⟩
  match k with
  | 0 => cases hk
  | 1 => cases hk
  | k + 2 =>
    simp only [Wire.content, List.length_append] at hlt
    change 2 + (1 + _) < 3 at hlt
    omega

theorem fixed_reads_iff_uninterrupted_three :
    ReadsFixed threeBytes 3 (fun fuel => readFixSize 1 fuel 3 ⟨⟨threeBytes, 0⟩, [0, 0, 0, 0, 0]⟩)
      (·.source.calls) (fun xs s => s.mem = overlay [0, 0, 0, 0, 0] 1 xs) ∧
    ReadsFixed threeBytes 3
      (fun fuel => readFixSizeByteArray fuel 3 ⟨⟨threeBytes, 0⟩, ByteArray.new 2 fun _ => 0⟩)
      (·.source.calls) (fun xs s => s.ba.position = 0 + 3 ∧ s.ba.content = overlay [] 0 xs) := by
  have h := fixed_reads_iff_uninterrupted threeBytes 3 (by decide)
  exact ⟨(h.1 [0, 0, 0, 0, 0] 1 (by decide) (by decide)).mpr uninterrupted_threeBytes,
    (h.2 2 _ [] _ (by decide) (.nil _)).mpr uninterrupted_threeBytes⟩

def failsFirst : Wire UInt8
  | 0 => .fail
  | 1 => .items [97, 98]
  | _ => .items []

theorem fixLoop_read_end (mem : List UInt8) (fuel calls : ℕ) :
    fixLoop (read 0) fuel 0 1 ⟨⟨fun _ => .items [], calls⟩, mem⟩ = none := by
  induction fuel generalizing calls with
  | zero => rfl
  | succ fuel ih =>
    have hop : read 0 0 1 ⟨⟨fun _ => .items [], calls⟩, mem⟩ =
        some (((0 : ℕ) : ℤ), ⟨⟨fun _ => .items [], calls + 1⟩, mem⟩) := by
      simp only [read, Source.recv, Wire.read, Arrival.list, result, List.length_nil]
      rw [if_pos (Nat.zero_le _)]
      rfl
    rw [fixLoop_step Nat.one_pos hop, toSize_natCast (by omega)]
    exact ih (calls + 1)

/-- One byte is asked for. The failure turns the request into one for two bytes at the address
before the buffer, and the call returns 1; at the end of the stream it does not return. -/
theorem failure_counted_as_length :
    (readFixSize 1 4 1 ⟨⟨failsFirst, 0⟩, [7, 7, 7]⟩).map
        (fun r => (r.1, r.2.mem, r.2.source.calls)) = some (1, [97, 98, 7], 2) ∧
      ¬ ReadsFixed failsFirst 1 (fun fuel => readFixSize 1 fuel 1 ⟨⟨failsFirst, 0⟩, [7, 7, 7]⟩)
        (·.source.calls) (fun xs s => s.mem = overlay [7, 7, 7] 1 xs) ∧
      ∀ fuel, readFixSize 0 fuel 1 ⟨⟨fun _ => .items [], 0⟩, [7]⟩ = none := by
  refine ⟨by decide +kernel, ?_, fun fuel => ?_⟩
  · rw [readFixSize_iff (by decide) (by decide) (by decide)]
    rintro (⟨-, hw⟩ | ⟨hmax, -⟩)
    · exact hw ⟨0, rfl, Nat.one_pos⟩
    · omega
  · rw [readFixSize, fixSize, fixLoop_read_end]
    rfl

end ApexStorm.Stream
