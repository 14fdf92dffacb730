import ApexStorm.Http.ClientHead

/-!
# Heads of chunks

The automaton of the response parser reads the line before a chunk as well: the size in
hexadecimal digits and extensions, which are recorded like headers. Each part is handled
at the byte behind it, which is a semicolon or begins the end of the line.
-/

namespace ApexStorm.Http.Client
open ApexStorm.Lib ApexStorm.Lib.Numeral

structure ChunkExt where
  name : List UInt8
  value : Option (List UInt8)
  name_ne : name ≠ []
  name_token : ∀ c ∈ name, token c = true
  value_ne : ∀ v ∈ value, v ≠ []
  value_token : ∀ v ∈ value, ∀ c ∈ v, token c = true

namespace ChunkExt
variable (e : ChunkExt)

def text : List UInt8 :=
  match e.value with
  | none => e.name
  | some v => e.name ++ [61] ++ v

def record (r : Recorded) : Recorded := r.onResponseHeaderField e.name (e.value.getD [])

end ChunkExt

structure ChunkHead where
  size : List UInt8
  exts : List ChunkExt
  eol : List UInt8
  size_ne : size ≠ []
  size_xdigit : ∀ c ∈ size, xdigit c = true
  eol_isEol : IsEol eol

def Recorded.setChunk (r : Recorded) (size : List UInt8) : Recorded :=
  let contentLen := toInt (min (number 16 size : ℤ) (2 ^ 63 - 1))
  { r with chunked := true, contentLen, chunksDone := contentLen ≤ 0 }

namespace ChunkHead
variable (h : ChunkHead)

def front : List UInt8 := h.size ++ h.exts.flatMap fun e => 59 :: e.text

def text : List UInt8 := h.front ++ h.eol

def frontRecord (r : Recorded) : Recorded :=
  h.exts.foldl (fun r e => e.record r) (r.setChunk h.size)

def record (r : Recorded) : Recorded := { h.frontRecord r with bodyStart := h.text.length }

end ChunkHead

section Leads
variable {m : Memory} {pos len : ℕ} {s : State} {d : Offsets × Recorded} {o : Offsets}
  {r r₁ r₂ : Recorded} {xs ys eol : List UInt8} {c : UInt8}

def ends : List UInt8 := [10, 13, 59]

theorem forall_ends {P : UInt8 → Prop} (hlf : P 10) (hcr : P 13) (hsemi : P 59) :
    ∀ c ∈ ends, P c := by
  simp only [ends, List.forall_mem_cons]
  exact ⟨hlf, hcr, hsemi, fun c hc => absurd hc List.not_mem_nil⟩

def Pending (len : ℕ) (m : Memory) (pos : ℕ) (s : State) (d : Offsets × Recorded)
    (r : Recorded) : Prop :=
  ∃ as o, (∀ c ∈ ends, clientNext s c = chunkEnd as c) ∧ .done ∉ as ∧
    (clientScanner len).acts m pos as d = some (o, r)

def Leads (s : State) (r : Recorded) (xs : List UInt8) (r₁ : Recorded) : Prop :=
  ∀ m pos len o, Holds m pos xs → m (pos + xs.length) ∈ ends → pos + xs.length < len →
    len < 2 ^ 31 →
    ∃ s₁ d₁, (clientScanner len).Steps m pos s (o, r) xs s₁ d₁ ∧
      Pending len m (pos + xs.length) s₁ d₁ r₁

theorem Leads.append (h : Leads s r xs r₁) (h' : Leads .extNameStart r₁ ys r₂) :
    Leads s r (xs ++ 59 :: ys) r₂ := by
  intro m pos len o hm hend hle hlen
  obtain ⟨hxs, hsemi, hys⟩ := holds_append.mp hm
  have hsum : pos + (xs ++ 59 :: ys).length = pos + xs.length + 1 + ys.length := by
    rw [List.length_append, List.length_cons]
    omega
  rw [hsum] at hend hle ⊢
  obtain ⟨s₁, d₁, hsteps, as, o₁, hnext, hdone, hacts⟩ :=
    h m pos len o hxs (by rw [hsemi]; decide) (by omega) hlen
  have hone : (clientScanner len).Steps m (pos + xs.length) s₁ d₁ [59] .extNameStart (o₁, r₁) :=
    .one hsemi (hnext 59 (by decide)) (any_stops hdone) hacts
  obtain ⟨s₂, d₂, hsteps', hpending⟩ := h' m (pos + xs.length + 1) len o₁ hys hend hle hlen
  exact ⟨s₂, d₂, hsteps.append (hone.append hsteps'), hpending⟩

theorem Leads.stops (h : Leads s r xs r₁) (heol : IsEol eol) (hm : Holds m pos (xs ++ eol))
    (hle : pos + (xs ++ eol).length ≤ len) (hlen : len < 2 ^ 31) :
    ∃ o', (clientScanner len).Stops m pos s (o, r) (xs ++ eol) .final
      (o', { r₁ with bodyStart := pos + (xs ++ eol).length }) := by
  obtain ⟨hxs, hend⟩ := holds_append.mp hm
  rw [List.length_append, ← Nat.add_assoc] at hle ⊢
  have hmem : m (pos + xs.length) ∈ ends := by
    rcases heol with rfl | rfl <;> rw [hend.1] <;> decide
  have hlt : pos + xs.length < len := by
    rcases heol with rfl | rfl <;> simp only [List.length_cons] at hle <;> omega
  obtain ⟨s₁, d₁, hsteps, as, o₁, hnext, hdone, hacts⟩ := h m pos len o hxs hmem hlt hlen
  refine ⟨o₁, hsteps.stops ?_⟩
  rcases heol with rfl | rfl
  · have hlf : clientNext s₁ 10 = some (as ++ [.done], .final) := hnext 10 (by decide)
    refine .one hend.1 hlf (by simp [clientScanner]) ?_
    rw [Scanner.acts_append (any_stops hdone) hacts]
    rfl
  · have hcr : (clientScanner len).Steps m (pos + xs.length) s₁ d₁ [13] .lastCr (o₁, r₁) :=
      .one hend.1 (hnext 13 (by decide)) (any_stops hdone) hacts
    exact hcr.stops (.one hend.2.1 rfl rfl rfl)

theorem digitIn_sixteen : ∀ c : UInt8, digitIn 16 c = xdigit c := by
  apply forall_byte
  decide +kernel

theorem chunk_next (h : xdigit c = true) :
    clientNext .start c = some ([.mark], .chunk) ∧ clientNext .chunk c = some ([], .chunk) := by
  have hne : isChar "H" c = false := by
    rw [isChar_singleton (b := 72) rfl, decide_eq_false_iff_not]
    exact ne_of_class h (by decide)
  constructor
  · simp [clientNext, hne, h]
  · simp [clientNext, h]

theorem leads_size (hne : xs ≠ []) (hxs : ∀ c ∈ xs, xdigit c = true) :
    Leads .start r xs (r.setChunk xs) := by
  intro m pos len o hm hend hle hlen
  obtain ⟨e, he⟩ : ∃ e, e = m (pos + xs.length) := ⟨_, rfl⟩
  have hholds : Holds m pos (xs ++ [e]) := holds_append.mpr ⟨hm, he.symm, trivial⟩
  have hfit : pos + (xs ++ [e]).length ≤ len := by
    rw [List.length_append, List.length_singleton]
    omega
  obtain ⟨rest, hrest⟩ := exists_slice hholds hfit
  have hdigits : xs.all (digitIn 16) = true := by
    simpa only [funext digitIn_sixteen, List.all_eq_true] using hxs
  have hclass : ∀ e ∈ ends, digitIn 16 e = false ∧ toLower e ≠ 120 :=
    forall_ends (by decide) (by decide) (by decide)
  rw [← he] at hend
  have hsize : strtol 16 (slice m pos (len - pos)) = min (number 16 xs : ℤ) (2 ^ 63 - 1) := by
    rw [hrest, List.append_assoc]
    exact strtol_digits hdigits hne (hclass e hend).1 (hclass e hend).2 rest
  obtain ⟨c, cs, rfl⟩ := List.exists_cons_of_ne_nil hne
  rw [List.forall_mem_cons] at hxs
  have hfirst : (clientScanner len).Steps m pos .start (o, r) [c] .chunk
      ({ o with mark := pos }, r) := .one hm.1 (chunk_next hxs.1).1 rfl rfl
  have hquiet : (clientScanner len).Steps m (pos + 1) .chunk ({ o with mark := pos }, r) cs .chunk
      ({ o with mark := pos }, r) :=
    steps_quiet hm.2 (Scanner.quiet_loop fun d hd => (chunk_next (hxs.2 d hd)).2)
  refine ⟨.chunk, _, hfirst.append hquiet, [.chunkSize], { o with mark := pos },
    forall_ends rfl rfl rfl, by decide, ?_⟩
  rw [acts_one, doAction, hsize]
  rfl

theorem steps_token {a : Action} {s₁ : State} {d₁ : Offsets × Recorded} (hne : xs ≠ [])
    (hxs : ∀ c ∈ xs, token c = true) (hm : Holds m pos xs) (ha : a ≠ .done)
    (hstart : ∀ c, token c = true → clientNext s c = some ([a], s₁))
    (hstay : ∀ c, token c = true → clientNext s₁ c = some ([], s₁))
    (hact : doAction len m pos a d = some d₁) :
    (clientScanner len).Steps m pos s d xs s₁ d₁ := by
  obtain ⟨c, cs, rfl⟩ := List.exists_cons_of_ne_nil hne
  rw [List.forall_mem_cons] at hxs
  have hfirst : (clientScanner len).Steps m pos s d [c] s₁ d₁ :=
    .one hm.1 (hstart c hxs.1) (any_stops fun h => ha (List.mem_singleton.mp h).symm)
      (acts_one.trans hact)
  exact hfirst.append
    (steps_quiet hm.2 (Scanner.quiet_loop fun d hd => hstay d (hxs.2 d hd)))

theorem leads_ext (e : ChunkExt) : Leads .extNameStart r e.text (e.record r) := by
  intro m pos len o hm hend hle hlen
  have hname (h : Holds m pos e.name) : (clientScanner len).Steps m pos .extNameStart (o, r) e.name
      .extName ({ o with fieldStart := pos }, r) :=
    steps_token (a := .startField) e.name_ne e.name_token h (by decide)
      (fun c hc => by simp [clientNext, hc]) (fun c hc => by simp [clientNext, hc]) rfl
  have hfield (n : ℕ) : doAction len m (pos + n) .writeField ({ o with fieldStart := pos }, r) =
      some (⟨o.mark, pos, lenTo pos (pos + n)⟩, r) := rfl
  rw [ChunkExt.text] at hm hend hle ⊢
  rw [ChunkExt.record]
  cases hvalue : e.value with
  | none =>
    rw [hvalue] at hm hend hle
    dsimp only at hm hend hle ⊢
    refine ⟨.extName, _, hname hm, [.writeField, .startValue, .writeValue],
      ⟨pos + e.name.length, pos, lenTo pos (pos + e.name.length)⟩, forall_ends rfl rfl rfl,
      by decide, ?_⟩
    rw [acts_step (by decide) (hfield _)]
    have hempty := string_empty m (by omega : pos + e.name.length < 2 ^ 64)
    exact acts_two (by decide) rfl
      (doAction_writeValue (o := ⟨_, pos, _⟩) (hm.string_eq (by omega)) hempty)
  | some v =>
    rw [hvalue] at hm hend hle
    dsimp only at hm hend hle ⊢
    obtain ⟨hleft, hv⟩ := holds_append.mp hm
    obtain ⟨hn, heq, -⟩ := holds_append.mp hleft
    have hsum : (e.name ++ [61]).length = e.name.length + 1 := by simp
    rw [List.length_append, hsum, ← Nat.add_assoc, ← Nat.add_assoc] at hend hle ⊢
    rw [hsum, ← Nat.add_assoc] at hv
    have hequals : (clientScanner len).Steps m (pos + e.name.length) .extName
        ({ o with fieldStart := pos }, r) [61] .extValueStart
        (⟨pos + e.name.length, pos, lenTo pos (pos + e.name.length)⟩, r) :=
      .one heq rfl rfl (acts_two (by decide) (hfield _) rfl)
    have htoken : (clientScanner len).Steps m (pos + (e.name ++ [61]).length) .extValueStart
        (⟨pos + e.name.length, pos, lenTo pos (pos + e.name.length)⟩, r) v .extValue
        (⟨pos + e.name.length + 1, pos, lenTo pos (pos + e.name.length)⟩, r) := by
      rw [hsum, ← Nat.add_assoc]
      exact steps_token (a := .startValue) (e.value_ne v hvalue) (e.value_token v hvalue) hv
        (by decide) (fun c hc => by simp [clientNext, hc])
        (fun c hc => by simp [clientNext, hc]) rfl
    refine ⟨_, _, ((hname hn).append hequals).append htoken, [.writeValue],
      ⟨pos + e.name.length + 1, pos, lenTo pos (pos + e.name.length)⟩, forall_ends rfl rfl rfl,
      by decide, ?_⟩
    rw [acts_one]
    exact doAction_writeValue (o := ⟨_, pos, lenTo pos _⟩) (hn.string_eq (by omega))
      (hv.string_eq (by omega))

theorem leads_exts (exts : List ChunkExt) (h : Leads s r xs r₁) :
    Leads s r (xs ++ exts.flatMap fun e => 59 :: e.text)
      (exts.foldl (fun r e => e.record r) r₁) := by
  induction exts generalizing xs r₁ with
  | nil =>
    rw [List.flatMap_nil, List.append_nil]
    exact h
  | cons e exts ih =>
    rw [List.flatMap_cons, ← List.append_assoc, List.foldl_cons]
    exact ih (h.append (leads_ext e))

theorem error_exts (exts : List ChunkExt) :
    (exts.foldl (fun r e => e.record r) r).error = r.error := by
  induction exts generalizing r with
  | nil => rfl
  | cons e exts ih => rw [List.foldl_cons, ih, ChunkExt.record]; exact if_neg e.name_ne

end Leads

theorem chunksDone_exts (exts : List ChunkExt) (r : Recorded) :
    (exts.foldl (fun r e => e.record r) r).chunksDone = r.chunksDone := by
  induction exts generalizing r with
  | nil => rfl
  | cons e exts ih => rw [List.foldl_cons, ih]; rfl

theorem toInt_nonpos_iff (n : ℕ) : toInt n ≤ 0 ↔ n % 2 ^ 32 = 0 ∨ 2 ^ 31 ≤ n % 2 ^ 32 := by
  rw [toInt, Int.bmod_def]
  split_ifs <;> omega

/-- A call on the head of a chunk consumes the head, records it and leaves the rest. The size
is cut to 32 bits, so a chunk of two gigabytes is taken for the last one. -/
theorem chunk_parsed_exactly (h : ChunkHead) (rest : List UInt8) (status : ℤ)
    (hlen : (h.text ++ rest).length < 2 ^ 31) :
    ∃ p m, (HttpResponseParer.new status).execute (cString (h.text ++ rest))
        (h.text ++ rest).length = some (p, m, h.text.length) ∧ slice m 0 rest.length = rest ∧
      p.recorded = h.record (HttpResponseParer.new status).recorded ∧
      p.hasError = false ∧ p.isFinished = true ∧
      (p.recorded.chunksDone = true ↔
        min (number 16 h.size) (2 ^ 63 - 1) % 2 ^ 32 = 0 ∨
          2 ^ 31 ≤ min (number 16 h.size) (2 ^ 63 - 1) % 2 ^ 32) := by
  have hne : h.text ≠ [] := by simp [ChunkHead.text, ChunkHead.front, h.size_ne]
  have hleads (r : Recorded) : Leads .start r h.front (h.frontRecord r) :=
    leads_exts h.exts (leads_size h.size_ne h.size_xdigit)
  obtain ⟨m, hexec, hslice⟩ := execute_of_stops (p := .new status) rfl hne hlen (Nat.zero_le _)
    fun m len hm hle hlen => (hleads _).stops h.eol_isEol hm (by rwa [Nat.zero_add]) hlen
  rw [Nat.zero_add] at hexec
  refine ⟨_, m, hexec, hslice, rfl, ?_, rfl, ?_⟩
  · have herror : (h.frontRecord (HttpResponseParer.new status).recorded).error = 0 :=
      error_exts h.exts
    simp [HttpResponseParer.hasError, herror]
  · have hdone : (h.frontRecord (HttpResponseParer.new status).recorded).chunksDone =
        decide (toInt (min (number 16 h.size : ℤ) (2 ^ 63 - 1)) ≤ 0) := chunksDone_exts h.exts _
    have hcast : min (number 16 h.size : ℤ) (2 ^ 63 - 1) =
        (min (number 16 h.size) (2 ^ 63 - 1) : ℕ) := by norm_num
    dsimp only
    rw [hdone, decide_eq_true_iff, hcast, toInt_nonpos_iff]

theorem crlf_isEol : IsEol [13, 10] := .inr rfl

def bigChunk : ChunkHead where
  size := ascii "80000000"
  exts := [⟨ascii "a", none, by decide, List.all_eq_true.mp (by decide),
    fun v hv => absurd hv (Option.not_mem_none v), fun v hv => absurd hv (Option.not_mem_none v)⟩]
  eol := [13, 10]
  size_ne := by decide
  size_xdigit := List.all_eq_true.mp (by decide)
  eol_isEol := crlf_isEol

theorem chunk_parsed_exactly_bigChunk :
    ∃ p m, (HttpResponseParer.new 0).execute (cString (ascii "80000000;a\r\n")) 12 =
      some (p, m, 12) ∧ p.isFinished = true ∧ p.recorded.chunksDone = true := by
  have htext : bigChunk.text ++ [] = ascii "80000000;a\r\n" := by decide +kernel
  obtain ⟨p, m, hexec, -, -, -, hfinished, hdone⟩ :=
    chunk_parsed_exactly bigChunk [] 0 (by decide +kernel)
  rw [htext] at hexec
  exact ⟨p, m, hexec, hfinished, hdone.mpr (by decide +kernel)⟩

end ApexStorm.Http.Client
