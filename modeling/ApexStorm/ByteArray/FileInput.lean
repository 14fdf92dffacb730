import ApexStorm.ByteArray.Views

/-!
# Reading a file

`readFromFile` reads pieces of the base size until the stream says that it has met the
end of the file, and writes each piece at the position. What the reads deliver is a
parameter. The loop asks for nothing but eof, so it ends with the first read that
sets it, and an error that does not set it keeps it going.
-/

namespace ApexStorm.ByteArray
open Lib Lib.Chunks

/-- What one `ifs.read` does: it delivers all that was asked for, or less and sets eof, or fails
without eof and delivers nothing. -/
inductive Delivery
  | full (xs : List UInt8)
  | eof (xs : List UInt8)
  | fail

def Delivery.bytes : Delivery → List UInt8
  | .full xs | .eof xs => xs
  | .fail => []

def Delivery.isEof : Delivery → Bool
  | .eof _ => true
  | _ => false

structure Device (n : ℕ) where
  reads : ℕ → Delivery
  full_length : ∀ k xs, reads k = .full xs → xs.length = n
  eof_length : ∀ k xs, reads k = .eof xs → xs.length < n
  fail_stays : ∀ k, reads k = .fail → reads (k + 1) = .fail

structure IStream where
  reads : ℕ → Delivery
  count : ℕ
  eof : Bool

def IStream.opened (reads : ℕ → Delivery) : IStream := ⟨reads, 0, false⟩

def IStream.read (ifs : IStream) : List UInt8 × IStream :=
  let d := ifs.reads ifs.count
  (d.bytes, { ifs with count := ifs.count + 1, eof := d.isEof })

def IStream.delivered (ifs : IStream) : List UInt8 :=
  ((List.range ifs.count).map fun k => (ifs.reads k).bytes).flatten

def importLoop (fuel : ℕ) (ifs : IStream) : Method IStream :=
  if ifs.eof then return ifs
  else
    match fuel with
    | 0 => throw .stuck
    | fuel + 1 => do
      let (buff, ifs) := ifs.read
      write buff
      importLoop fuel ifs

/-- No stream stands for a file that does not open. -/
def readFromFile (fuel : ℕ) : Option IStream → Method (Bool × Option IStream)
  | none => return (false, none)
  | some ifs => do
    let ifs ← importLoop fuel ifs
    return (true, some ifs)

theorem IStream.delivered_read (ifs : IStream) :
    ifs.read.2.delivered = ifs.delivered ++ ifs.read.1 := by
  simp [IStream.delivered, IStream.read, List.range_succ]

section import_loop
variable {b : ℕ} {s : ByteArray} {ifs : IStream}

theorem importLoop_eof (reads : ℕ → Delivery) (count fuel : ℕ) :
    importLoop fuel ⟨reads, count, true⟩ = pure ⟨reads, count, true⟩ := by
  rw [importLoop.eq_def, if_pos rfl]

theorem run_importLoop_pass (heof : ifs.eof = false) (fuel : ℕ) :
    (importLoop (fuel + 1) ifs).run s =
      (do write ifs.read.1; importLoop fuel ifs.read.2).run s := by
  rw [importLoop, if_neg (by simp [heof])]

theorem run_importLoop (h : Inv b s) (ifs : IStream) (heof : ifs.eof = false) {j fuel : ℕ}
    (hend : (ifs.reads (ifs.count + j)).isEof = true)
    (hbefore : ∀ i < j, (ifs.reads (ifs.count + i)).isEof = false) (hfuel : j < fuel) :
    ∃ t xs, (importLoop fuel ifs).run s = .ok ⟨ifs.reads, ifs.count + j + 1, true⟩ t ∧ Inv b t ∧
      IStream.delivered ⟨ifs.reads, ifs.count + j + 1, true⟩ = ifs.delivered ++ xs ∧
      t.position = s.position + xs.length ∧ t.content = overlay s.content s.position xs := by
  induction j generalizing ifs s fuel with
  | zero =>
    obtain ⟨fuel, rfl⟩ := Nat.exists_eq_succ_of_ne_zero (show fuel ≠ 0 by omega)
    obtain ⟨t, hwrite, ht, -, hpos, hcont⟩ := h.run_write ifs.read.1
    have hlast : ifs.read.2 = ⟨ifs.reads, ifs.count + 0 + 1, true⟩ := by
      rw [← hend]
      rfl
    refine ⟨t, ifs.read.1, ?_, ht, hlast ▸ ifs.delivered_read, hpos, hcont⟩
    rw [run_importLoop_pass heof, EStateM.run_bind, hwrite, hlast]
    simp only [importLoop_eof, EStateM.run_pure]
  | succ j ih =>
    obtain ⟨fuel, rfl⟩ := Nat.exists_eq_succ_of_ne_zero (show fuel ≠ 0 by omega)
    obtain ⟨mid, hwrite, hmid, -, hmpos, hmcont⟩ := h.run_write ifs.read.1
    have hshift : ∀ i,
        ifs.reads (ifs.count + (i + 1)) = ifs.read.2.reads (ifs.read.2.count + i) := by
      intro i
      rw [show ifs.count + (i + 1) = ifs.count + 1 + i by omega]
      rfl
    obtain ⟨t, xs, hrun, ht, hall, hpos, hcont⟩ := ih hmid ifs.read.2
      (hbefore 0 (by omega)) (hshift j ▸ hend) (fun i hi => hshift i ▸ hbefore (i + 1) (by omega))
      (show j < fuel by omega)
    have hcount : ifs.count + (j + 1) + 1 = ifs.read.2.count + j + 1 := by
      rw [Nat.add_comm j 1, ← Nat.add_assoc]
      rfl
    rw [hcount]
    refine ⟨t, ifs.read.1 ++ xs, ?_, ht, ?_, ?_, ?_⟩
    · rw [run_importLoop_pass heof, EStateM.run_bind, hwrite]
      exact hrun
    · rw [← List.append_assoc, ← ifs.delivered_read]
      exact hall
    · rw [hpos, hmpos, List.length_append, Nat.add_assoc]
    · have hle := h.position_le
      rw [hcont, hmcont, hmpos, overlay_overlay _ _ (by rw [h.content_length]; exact hle)]

theorem run_importLoop_endless (h : Inv b s) (ifs : IStream) (heof : ifs.eof = false)
    (hnone : ∀ k, (ifs.reads k).isEof = false) (fuel : ℕ) :
    ∃ t, (importLoop fuel ifs).run s = .error .stuck t := by
  induction fuel generalizing ifs s with
  | zero => exact ⟨s, by rw [importLoop, if_neg (by simp [heof]), run_throw]⟩
  | succ fuel ih =>
    obtain ⟨mid, hwrite, hmid, -⟩ := h.run_write ifs.read.1
    obtain ⟨t, hrun⟩ := ih hmid ifs.read.2 (hnone _) hnone
    refine ⟨t, ?_⟩
    rw [run_importLoop_pass heof, EStateM.run_bind, hwrite]
    exact hrun

end import_loop

def Imports (s : ByteArray) (reads : ℕ → Delivery) : Prop :=
  ∃ fuel ifs t, (readFromFile fuel (some (.opened reads))).run s = .ok (true, some ifs) t ∧
    t.position = s.position + ifs.delivered.length ∧
    t.content = overlay s.content s.position ifs.delivered

theorem Inv.run_readFromFile {b : ℕ} {s : ByteArray} (h : Inv b s) {reads : ℕ → Delivery} {k : ℕ}
    (hend : (reads k).isEof = true) (hbefore : ∀ i < k, (reads i).isEof = false) :
    ∃ t, (readFromFile (k + 1) (some (.opened reads))).run s =
        .ok (true, some ⟨reads, k + 1, true⟩) t ∧ Inv b t ∧
      t.position = s.position + (IStream.delivered ⟨reads, k + 1, true⟩).length ∧
      t.content = overlay s.content s.position (IStream.delivered ⟨reads, k + 1, true⟩) := by
  obtain ⟨t, xs, hrun, ht, hall, hpos, hcont⟩ := run_importLoop h (.opened reads) rfl
    (j := k) (by simpa [IStream.opened] using hend) (by simpa [IStream.opened] using hbefore)
    (Nat.lt_succ_self k)
  simp only [IStream.opened, Nat.zero_add] at hrun hall
  have hxs : IStream.delivered ⟨reads, k + 1, true⟩ = xs := by
    rw [hall]
    rfl
  refine ⟨t, ?_, ht, hxs ▸ hpos, hxs ▸ hcont⟩
  simp only [readFromFile, EStateM.run_bind, IStream.opened, hrun, EStateM.run_pure]

theorem imports_iff (b : ℕ) (hb : 1 ≤ b) (fresh : ℕ → UInt8) (as : List Access) (s : ByteArray)
    (hrun : Run Accessed (new b fresh) as s) (dev : Device s.baseSize) :
    Imports s dev.reads ↔ ∃ k xs, dev.reads k = .eof xs := by
  have h := Inv.of_accesses hb hrun
  have heof : ∀ d : Delivery, d.isEof = true ↔ ∃ xs, d = .eof xs := by
    intro d
    cases d <;> simp [Delivery.isEof]
  simp only [← heof]
  constructor
  · rintro ⟨fuel, ifs, t, hread, -⟩
    by_contra hnone
    obtain ⟨u, hstuck⟩ := run_importLoop_endless h (.opened dev.reads) rfl
      (fun k => Bool.eq_false_iff.mpr (not_exists.mp hnone k)) fuel
    simp only [readFromFile, EStateM.run_bind, hstuck] at hread
    cases hread
  · intro hex
    obtain ⟨t, hread, -, hpos, hcont⟩ := h.run_readFromFile (Nat.find_spec hex)
      (fun i hi => by simpa using Nat.find_min hex hi)
    exact ⟨_, _, t, hread, hpos, hcont⟩

def shortDevice : Device 2 where
  reads k := if k = 0 then .full [1, 2] else .eof [3]
  full_length k xs h := by split_ifs at h; cases h; rfl
  eof_length k xs h := by split_ifs at h; cases h; decide
  fail_stays k h := by split_ifs at h

theorem imports_iff_short : Imports (new 2 fun _ => 0) shortDevice.reads :=
  (imports_iff 2 (by decide) _ [] _ (.nil _) shortDevice).mpr ⟨1, [3], rfl⟩

def brokenDevice (n : ℕ) : Device n where
  reads _ := .fail
  full_length k xs h := by cases h
  eof_length k xs h := by cases h
  fail_stays k h := h

/-- An error without eof on the first read: whatever the number of passes, there is another. -/
theorem import_endless_on_error :
    (∀ fuel, ∃ t, (readFromFile fuel (some (.opened (brokenDevice 2).reads))).run
      (new 2 fun _ => 0) = .error .stuck t) ∧
    ¬ Imports (new 2 fun _ => 0) (brokenDevice 2).reads := by
  have hstuck : ∀ fuel, ∃ t, (readFromFile fuel (some (.opened (brokenDevice 2).reads))).run
      (new 2 fun _ => 0) = .error .stuck t := by
    intro fuel
    have hnew : Inv 2 (new 2 fun _ => 0) := Inv.of_new (by decide)
    obtain ⟨t, hrun⟩ := run_importLoop_endless hnew (.opened (brokenDevice 2).reads) rfl
      (fun _ => rfl) fuel
    exact ⟨t, by simp only [readFromFile, EStateM.run_bind, hrun]⟩
  refine ⟨hstuck, ?_⟩
  rintro ⟨fuel, ifs, t, hread, -⟩
  obtain ⟨u, hrun⟩ := hstuck fuel
  rw [hrun] at hread
  cases hread

def fileDevice (file : List UInt8) (n : ℕ) : Device n where
  reads k :=
    let piece := slice file (k * n) n
    if piece.length = n then .full piece else .eof piece
  full_length k xs h := by
    dsimp only at h
    split_ifs at h with hlen
    cases h
    exact hlen
  eof_length k xs h := by
    dsimp only at h
    split_ifs at h with hlen
    cases h
    exact lt_of_le_of_ne (List.length_take_le _ _) hlen
  fail_stays k h := by
    dsimp only at h
    split_ifs at h

section file
variable {file : List UInt8} {n : ℕ}

theorem fileDevice_bytes (k : ℕ) : ((fileDevice file n).reads k).bytes = slice file (k * n) n := by
  rw [fileDevice]
  dsimp only
  split_ifs <;> rfl

theorem fileDevice_isEof (hn : 1 ≤ n) (k : ℕ) :
    ((fileDevice file n).reads k).isEof = true ↔ file.length < (k + 1) * n := by
  have hlen : (slice file (k * n) n).length = n ↔ (k + 1) * n ≤ file.length := by
    rw [slice, List.length_take, List.length_drop, Nat.succ_mul]
    omega
  rw [← not_le, ← hlen, fileDevice]
  dsimp only
  split_ifs with hfull
  · exact iff_of_false Bool.false_ne_true (not_not.mpr hfull)
  · exact iff_of_true rfl hfull

theorem fileDevice_delivered (k : ℕ) (eof : Bool) :
    IStream.delivered ⟨(fileDevice file n).reads, k, eof⟩ = file.take (k * n) := by
  rw [IStream.delivered]
  induction k with
  | zero => simp
  | succ k ih =>
    rw [List.range_succ, List.map_append, List.flatten_append, ih, Nat.succ_mul, List.take_add]
    simp only [List.map_singleton, List.flatten_singleton, fileDevice_bytes]
    rfl

end file

def ImportsBack (file : List UInt8) : Prop :=
  ∀ n fresh, 1 ≤ n → ∃ fuel ifs t u,
    (readFromFile fuel (some (.opened (fileDevice file n).reads))).run (new n fresh) =
      .ok (true, some ifs) t ∧ t.content = file ∧ (setPosition 0).run t = .ok () u ∧
    toString.run u = .ok file u

theorem importsBack {file : List UInt8} (hfile : file.length < 2 ^ 64) : ImportsBack file := by
  intro n fresh hn
  have hnew : Inv n (new n fresh) := Inv.of_new hn
  have hlt : file.length < (file.length / n + 1) * n := by
    rw [Nat.mul_comm]
    exact Nat.lt_mul_div_succ _ hn
  have hend : ((fileDevice file n).reads (file.length / n)).isEof = true :=
    (fileDevice_isEof hn _).mpr hlt
  have hbefore : ∀ i < file.length / n, ((fileDevice file n).reads i).isEof = false := by
    intro i hi
    rw [Bool.eq_false_iff, ne_eq, fileDevice_isEof hn, not_lt]
    exact (Nat.le_div_iff_mul_le hn).mp hi
  obtain ⟨t, hread, ht, -, hcont⟩ := hnew.run_readFromFile hend hbefore
  rw [fileDevice_delivered, List.take_of_length_le hlt.le] at hcont
  have hcont' : t.content = file := by
    rw [hcont]
    simp [overlay, content, new]
  obtain ⟨u, hset, hu, -, hupos, husize, huflat, -⟩ := ht.run_setPosition (v := 0) (Nat.zero_le _)
  have hsize : t.size = file.length := by rw [← ht.content_length, hcont']
  rw [Nat.max_zero] at husize
  refine ⟨_, _, t, u, hread, hcont', hset, ?_⟩
  have hucont : u.content = file := by rw [content, huflat, husize, ← content, hcont']
  rw [hu.run_toString (by rw [getReadSize]; omega), hucont, hupos, getReadSize, hupos, husize,
    hsize]
  simp [slice]

end ApexStorm.ByteArray
