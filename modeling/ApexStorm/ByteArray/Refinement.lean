import ApexStorm.ByteArray.Methods
import ApexStorm.Lib.Run
import ApexStorm.Lib.Tape

/-!
# `ByteArray` refines a flat buffer

Every run of public calls on a fresh `ByteArray(b)` is matched call by call by
the same calls on a tape of bytes, with the same results and exceptions. The only
trace of the node size in the abstract system is the capacity, against which
`setPosition` checks its argument.
-/

namespace ApexStorm.ByteArray
open Lib Lib.Chunks

inductive Op
  | write (buf : List UInt8)
  | read (n : ℕ)
  | setPosition (v : ℕ)
  | clear
  | getWriteBuffers (len : ℕ)
  | setIsLittleEndian (value : Bool)
  deriving DecidableEq, Repr

inductive Obs
  | done
  | bytes (xs : List UInt8)
  | size (n : ℕ)
  | thrown (what : String)
  deriving DecidableEq, Repr

def Op.Valid : Op → Prop
  | .read n => 1 ≤ n
  | _ => True

def methodOf : Op → Method Obs
  | .write buf => do write buf; return .done
  | .read n => return .bytes (← read n)
  | .setPosition v => do setPosition v; return .done
  | .clear => do clear; return .done
  | .getWriteBuffers len => return .size (← getWriteBuffers len).1
  | .setIsLittleEndian value => do setIsLittleEndian value; return .done

/-- A thrown `std::out_of_range` is an observation; any other fault is undefined behaviour. -/
def exec (op : Op) (ba : ByteArray) : Option (Obs × ByteArray) :=
  match (methodOf op).run ba with
  | .ok obs ba' => some (obs, ba')
  | .error (.outOfRange what) ba' => some (.thrown what, ba')
  | .error _ _ => none

structure Event where
  op : Op
  capacity : ℕ
  obs : Obs

def Step (s : ByteArray) (e : Event) (t : ByteArray) : Prop :=
  e.op.Valid ∧ e.capacity = s.capacity ∧ exec e.op s = some (e.obs, t)

inductive TapeStep (cap : ℕ) : Tape UInt8 → Op → Obs → Tape UInt8 → Prop
  | write (f : Tape UInt8) (buf : List UInt8) : TapeStep cap f (.write buf) .done (f.write buf)
  | read (f : Tape UInt8) {n : ℕ} (h : n ≤ f.left) :
      TapeStep cap f (.read n) (.bytes (f.peek n)) (f.skip n h)
  | readShort (f : Tape UInt8) {n : ℕ} (h : f.left < n) :
      TapeStep cap f (.read n) (.thrown "not enough len") f
  | seek (f : Tape UInt8) {v : ℕ} (h : v ≤ f.cells.length) :
      TapeStep cap f (.setPosition v) .done (f.seek v h)
  | extend (f : Tape UInt8) {v : ℕ} (pad : List UInt8) (hv : v = (f.cells ++ pad).length)
      (hpad : pad ≠ []) (hcap : v ≤ cap) : TapeStep cap f (.setPosition v) .done (f.extend pad)
  | beyond (f : Tape UInt8) {v : ℕ} (hcap : cap < v) :
      TapeStep cap f (.setPosition v) (.thrown "set_position out of range") f
  | clear (f : Tape UInt8) : TapeStep cap f .clear .done Tape.empty
  | getWriteBuffers (f : Tape UInt8) (len : ℕ) :
      TapeStep cap f (.getWriteBuffers len) (.size len) f
  | setIsLittleEndian (f : Tape UInt8) (value : Bool) :
      TapeStep cap f (.setIsLittleEndian value) .done f

structure Related (b : ℕ) (ba : ByteArray) (f : Tape UInt8) : Prop where
  inv : Inv b ba
  cells_eq : f.cells = ba.content
  pos_eq : f.pos = ba.position

namespace Related
variable {b : ℕ} {ba : ByteArray} {f : Tape UInt8}

theorem length_eq (h : Related b ba f) : f.cells.length = ba.size := by
  rw [h.cells_eq, h.inv.content_length]

theorem left_eq (h : Related b ba f) : f.left = ba.size - ba.position := by
  rw [Tape.left, h.length_eq, h.pos_eq]

theorem of_new {fresh : ℕ → UInt8} (hb : 0 < b) : Related b (new b fresh) Tape.empty :=
  ⟨Inv.of_new hb, by simp [content, new, Tape.empty], rfl⟩

theorem exec_write (h : Related b ba f) (buf : List UInt8) :
    ∃ t, exec (.write buf) ba = some (.done, t) ∧ Related b t (f.write buf) := by
  obtain ⟨t, hrun, hinv, -, hpos, hcont⟩ := h.inv.run_write buf
  refine ⟨t, ?_, hinv, ?_, ?_⟩
  · simp only [exec, methodOf, EStateM.run_bind, hrun, EStateM.run_pure]
  · simp only [Tape.write, h.cells_eq, h.pos_eq, hcont]
  · simp only [Tape.write, h.pos_eq, hpos]

theorem exec_read (h : Related b ba f) {n : ℕ} (hn : 0 < n) (hle : n ≤ f.left) :
    ∃ t, exec (.read n) ba = some (.bytes (f.peek n), t) ∧ Related b t (f.skip n hle) := by
  obtain ⟨t, hrun, hinv, -, hpos, -, hcont⟩ := h.inv.run_read hn (h.left_eq ▸ hle)
  refine ⟨t, ?_, hinv, ?_, ?_⟩
  · simp only [exec, methodOf, EStateM.run_bind, hrun, EStateM.run_pure, Tape.peek, h.cells_eq,
      h.pos_eq]
  · simp only [Tape.skip, h.cells_eq, hcont]
  · simp only [Tape.skip, h.pos_eq, hpos]

theorem exec_read_short (h : Related b ba f) {n : ℕ} (hlt : f.left < n) :
    exec (.read n) ba = some (.thrown "not enough len", ba) := by
  have hrun := Inv.run_read_short (h.left_eq ▸ hlt)
  simp only [exec, methodOf, EStateM.run_bind, hrun]

theorem exec_setPosition_inside (h : Related b ba f) {v : ℕ} (hv : v ≤ f.cells.length) :
    ∃ t, exec (.setPosition v) ba = some (.done, t) ∧ Related b t (f.seek v hv) := by
  have hsize := h.length_eq
  have hcap := h.inv.size_le
  obtain ⟨t, hrun, hinv, -, hpos, hsz, hflat, -⟩ := h.inv.run_setPosition (v := v) (by omega)
  refine ⟨t, ?_, hinv, ?_, ?_⟩
  · simp only [exec, methodOf, EStateM.run_bind, hrun, EStateM.run_pure]
  · rw [max_eq_left (by omega)] at hsz
    simp only [Tape.seek, h.cells_eq, content, hflat, hsz]
  · simp only [Tape.seek, hpos]

theorem exec_setPosition_extend (h : Related b ba f) {v : ℕ} (hv : f.cells.length < v)
    (hcap : v ≤ ba.capacity) :
    ∃ t pad, exec (.setPosition v) ba = some (.done, t) ∧ Related b t (f.extend pad) ∧
      v = (f.cells ++ pad).length ∧ pad ≠ [] := by
  have hsize := h.length_eq
  have hlen := h.inv.flat_length
  obtain ⟨t, hrun, hinv, -, hpos, hsz, hflat, -⟩ := h.inv.run_setPosition hcap
  rw [max_eq_right (by omega)] at hsz
  have hsplit : ba.flat.take v = ba.flat.take ba.size ++ slice ba.flat ba.size (v - ba.size) := by
    conv_lhs => rw [← Nat.add_sub_cancel' (show ba.size ≤ v by omega), List.take_add]
    rfl
  have hpad : (slice ba.flat ba.size (v - ba.size)).length = v - ba.size :=
    slice_length (by omega)
  refine ⟨t, slice ba.flat ba.size (v - ba.size), ?_, ⟨hinv, ?_, ?_⟩, ?_, ?_⟩
  · simp only [exec, methodOf, EStateM.run_bind, hrun, EStateM.run_pure]
  · simp only [Tape.extend, h.cells_eq, content, hflat, hsz, hsplit]
  · simp only [Tape.extend, List.length_append, hpad, hpos]
    omega
  · rw [List.length_append, hpad]
    omega
  · rw [← List.length_pos_iff, hpad]
    omega

theorem exec_setPosition_beyond {v : ℕ} (hcap : ba.capacity < v) :
    exec (.setPosition v) ba = some (.thrown "set_position out of range", ba) := by
  have hrun := Inv.run_setPosition_beyond hcap
  simp only [exec, methodOf, EStateM.run_bind, hrun]

theorem exec_refines (h : Related b ba f) {op : Op} (hop : op.Valid) :
    ∃ obs t f', exec op ba = some (obs, t) ∧ TapeStep ba.capacity f op obs f' ∧
      Related b t f' := by
  cases op with
  | write buf =>
    obtain ⟨t, ht, hR⟩ := h.exec_write buf
    exact ⟨_, t, _, ht, .write f buf, hR⟩
  | read n =>
    by_cases hle : n ≤ f.left
    · obtain ⟨t, ht, hR⟩ := h.exec_read hop hle
      exact ⟨_, t, _, ht, .read f hle, hR⟩
    · exact ⟨_, ba, f, h.exec_read_short (by omega), .readShort f (by omega), h⟩
  | setPosition v =>
    by_cases hin : v ≤ f.cells.length
    · obtain ⟨t, ht, hR⟩ := h.exec_setPosition_inside hin
      exact ⟨_, t, _, ht, .seek f hin, hR⟩
    · by_cases hcap : v ≤ ba.capacity
      · obtain ⟨t, pad, ht, hR, hv, hpad⟩ := h.exec_setPosition_extend (by omega) hcap
        exact ⟨_, t, _, ht, .extend f pad hv hpad hcap, hR⟩
      · exact ⟨_, ba, f, exec_setPosition_beyond (by omega), .beyond f (by omega), h⟩
  | clear =>
    obtain ⟨t, hrun, hinv, -, hpos, hcont⟩ := h.inv.run_clear
    refine ⟨.done, t, _, ?_, .clear f, hinv, hcont.symm, hpos.symm⟩
    simp only [exec, methodOf, EStateM.run_bind, hrun, EStateM.run_pure]
  | getWriteBuffers len =>
    obtain ⟨t, vs, hrun, hinv, -, hpos, hcont, -⟩ := h.inv.run_getWriteBuffers len
    refine ⟨.size len, t, f, ?_, .getWriteBuffers f len, hinv, ?_, ?_⟩
    · simp only [exec, methodOf, EStateM.run_bind, hrun, EStateM.run_pure]
    · rw [h.cells_eq, hcont]
    · rw [h.pos_eq, hpos]
  | setIsLittleEndian value =>
    obtain ⟨t, hrun, hinv, hpos, hcont⟩ := h.inv.run_setIsLittleEndian value
    refine ⟨.done, t, f, ?_, .setIsLittleEndian f value, hinv, ?_, ?_⟩
    · simp only [exec, methodOf, EStateM.run_bind, hrun, EStateM.run_pure]
    · rw [h.cells_eq, hcont]
    · rw [h.pos_eq, hpos]

end Related

theorem step_simulates {b : ℕ} (s : ByteArray) (e : Event) (t : ByteArray) (f : Tape UInt8)
    (hR : Related b s f) (hstep : Step s e t) :
    ∃ f', TapeStep e.capacity f e.op e.obs f' ∧ Related b t f' := by
  obtain ⟨hop, hcap, hexec⟩ := hstep
  obtain ⟨obs, t', f', hexec', hf', hR'⟩ := hR.exec_refines hop
  rw [hexec, Option.some.injEq, Prod.mk.injEq] at hexec'
  obtain ⟨rfl, rfl⟩ := hexec'
  exact ⟨f', hcap ▸ hf', hR'⟩

theorem run_simulates {b : ℕ} (hb : 0 < b) {fresh : ℕ → UInt8} {es : List Event} {s : ByteArray}
    (h : Run Step (new b fresh) es s) :
    ∃ f, Run (fun f (e : Event) f' => TapeStep e.capacity f e.op e.obs f') Tape.empty es f ∧
      Related b s f :=
  h.simulate step_simulates (Related.of_new hb)

def observe : List Op → ByteArray → Option (List Obs)
  | [], _ => some []
  | op :: ops, s =>
    match exec op s with
    | none => none
    | some (obs, t) => (observe ops t).map (obs :: ·)

def StaysInside : List Op → ByteArray → Prop
  | [], _ => True
  | op :: ops, s => (∀ v, op = .setPosition v → v ≤ s.size) ∧
      ∀ obs t, exec op s = some (obs, t) → StaysInside ops t

theorem TapeStep.deterministic {cap cap' : ℕ} {f f₁ f₂ : Tape UInt8} {op : Op} {obs₁ obs₂ : Obs}
    (h₁ : TapeStep cap f op obs₁ f₁) (h₂ : TapeStep cap' f op obs₂ f₂)
    (hin : ∀ v, op = .setPosition v → v ≤ f.cells.length) (hcap : f.cells.length ≤ cap)
    (hcap' : f.cells.length ≤ cap') : obs₁ = obs₂ ∧ f₁ = f₂ := by
  have hlong : ∀ {v : ℕ} {pad : List UInt8}, v = (f.cells ++ pad).length → pad ≠ [] →
      f.cells.length < v := by
    intro v pad hv hne
    have := List.length_pos_iff.mpr hne
    rw [List.length_append] at hv
    omega
  cases h₁ with
  | write | clear | getWriteBuffers | setIsLittleEndian => cases h₂; exact ⟨rfl, rfl⟩
  | read hle =>
    cases h₂ with
    | read => exact ⟨rfl, rfl⟩
    | readShort hlt => omega
  | readShort hlt =>
    cases h₂ with
    | read hle => omega
    | readShort => exact ⟨rfl, rfl⟩
  | seek hv =>
    cases h₂ with
    | seek => exact ⟨rfl, rfl⟩
    | extend _ hvp hne => have := hlong hvp hne; omega
    | beyond hlt => omega
  | extend _ hvp hne =>
    have h := hin _ rfl
    have := hlong hvp hne
    omega
  | beyond hlt =>
    have h := hin _ rfl
    omega

theorem observe_eq {b₁ b₂ : ℕ} {ops : List Op} (hops : ∀ op ∈ ops, op.Valid)
    {s₁ s₂ : ByteArray} {f : Tape UInt8} (h₁ : Related b₁ s₁ f) (h₂ : Related b₂ s₂ f)
    (hin : StaysInside ops s₁) :
    ∃ obs, observe ops s₁ = some obs ∧ observe ops s₂ = some obs := by
  induction ops generalizing s₁ s₂ f with
  | nil => exact ⟨[], rfl, rfl⟩
  | cons op ops ih =>
    obtain ⟨o₁, t₁, f₁, he₁, hs₁, hR₁⟩ := h₁.exec_refines (hops op (by simp))
    obtain ⟨o₂, t₂, f₂, he₂, hs₂, hR₂⟩ := h₂.exec_refines (hops op (by simp))
    have hlen := h₁.length_eq
    have hlen' := h₂.length_eq
    have hcap := h₁.inv.size_le
    have hcap' := h₂.inv.size_le
    obtain ⟨rfl, rfl⟩ := hs₁.deterministic hs₂ (fun v hv => by have := hin.1 v hv; omega)
      (by omega) (by omega)
    obtain ⟨obs, ho₁, ho₂⟩ := ih (fun o ho => hops o (by simp [ho])) hR₁ hR₂ (hin.2 _ _ he₁)
    exact ⟨o₁ :: obs, by simp [observe, he₁, ho₁], by simp [observe, he₂, ho₂]⟩

/-- Every run from `ByteArray(b)` keeps the redundant fields consistent and is a run of the flat
buffer with the same results; every further call is defined and is matched too; and the results
do not depend on `b` as long as no `setPosition` goes past the size. -/
theorem refines_flat_buffer (b : ℕ) (hb : 1 ≤ b) (fresh : ℕ → UInt8) :
    (∀ es s, Run Step (new b fresh) es s →
      ∃ f, Run (fun f (e : Event) f' => TapeStep e.capacity f e.op e.obs f') Tape.empty es f ∧
        f.cells = s.content ∧ f.cells.length = s.size ∧ f.pos = s.position ∧
        (∀ n ∈ s.nodes, n.size = b) ∧ s.capacity = b * s.nodes.length ∧ s.size ≤ s.capacity ∧
        (s.cur = none ↔ s.position = s.capacity) ∧
        (s.position < s.capacity →
          s.cur = some (s.position / b) ∧ s.position / b < s.nodes.length) ∧
        ∀ op : Op, op.Valid → ∃ obs t f', exec op s = some (obs, t) ∧
          TapeStep s.capacity f op obs f' ∧ f'.cells = t.content ∧ f'.pos = t.position) ∧
    (∀ b' fresh' (ops : List Op), 1 ≤ b' → (∀ op ∈ ops, op.Valid) →
      StaysInside ops (new b fresh) →
      ∃ obs, observe ops (new b fresh) = some obs ∧ observe ops (new b' fresh') = some obs) := by
  refine ⟨?_, ?_⟩
  · intro es s hrun
    obtain ⟨f, hf, hR⟩ := run_simulates hb hrun
    refine ⟨f, hf, hR.cells_eq, hR.length_eq, hR.pos_eq, hR.inv.uniform, hR.inv.capacity_eq,
      hR.inv.size_le, hR.inv.cur_eq_none_iff, ?_, ?_⟩
    · intro hlt
      obtain ⟨hcur, hi, -⟩ := hR.inv.cur_eq_some hlt
      exact ⟨hcur, hi⟩
    · intro op hop
      obtain ⟨obs, t, f', hexec, hstep, hR'⟩ := hR.exec_refines hop
      exact ⟨obs, t, f', hexec, hstep, hR'.cells_eq, hR'.pos_eq⟩
  · intro b' fresh' ops hb' hops hin
    exact observe_eq hops (Related.of_new hb) (Related.of_new hb') hin

theorem refines_flat_buffer_two :
    StaysInside [.write [1, 2, 3], .setPosition 1, .read 2] (new 2 fun _ => 0) ∧
    ∃ obs, observe [.write [1, 2, 3], .setPosition 1, .read 2] (new 2 fun _ => 0) = some obs ∧
      observe [.write [1, 2, 3], .setPosition 1, .read 2] (new 3 fun _ => 7) = some obs := by
  have hin : StaysInside [.write [1, 2, 3], .setPosition 1, .read 2] (new 2 fun _ => 0) := by
    refine ⟨by simp, fun obs t h => ?_⟩
    cases h
    refine ⟨fun v hv => by cases hv; decide, fun obs t h => ?_⟩
    cases h
    exact ⟨by simp, fun obs t _ => trivial⟩
  refine ⟨hin, (refines_flat_buffer 2 (by decide) fun _ => 0).2 3 (fun _ => 7) _ (by decide) ?_ hin⟩
  intro op hop
  fin_cases hop
  · trivial
  · trivial
  · exact (by decide : 1 ≤ 2)

end ApexStorm.ByteArray
