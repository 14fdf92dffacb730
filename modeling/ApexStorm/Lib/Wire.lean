import Mathlib.Tactic

/-!
# A stream that arrives in pieces

A wire is the sequence of what the calls of `read` find: some items, none at the
end of the stream, or a failure. A read asks for at most `n` items and leaves the
rest of the piece it finds to the next read.
-/

namespace ApexStorm.Lib

inductive Arrival (α : Type*)
  | items (xs : List α)
  | fail
  deriving DecidableEq

def Arrival.list {α : Type*} : Arrival α → List α
  | .items xs => xs
  | .fail => []

abbrev Wire (α : Type*) := ℕ → Arrival α

namespace Wire
variable {α : Type*} {w w' : Wire α} {a : Arrival α} {xs ys zs : List α} {n : ℕ}

def next (w : Wire α) : Wire α := fun i => w (i + 1)

def push (xs : List α) (w : Wire α) : Wire α
  | 0 => .items xs
  | i + 1 => w i

def read (w : Wire α) (n : ℕ) : Arrival α × Wire α :=
  match w 0 with
  | .fail => (.fail, w.next)
  | .items xs =>
    if xs.length ≤ n then (.items xs, w.next) else (.items (xs.take n), push (xs.drop n) w.next)

def content : Wire α → ℕ → List α
  | _, 0 => []
  | w, n + 1 => (w 0).list ++ w.next.content n

def Begins (w : Wire α) (xs : List α) : Prop := ∃ n, xs <+: w.content n

def BreaksBefore (w : Wire α) (n : ℕ) : Prop := ∃ k, (w k).list = [] ∧ (w.content k).length < n

/-- The stream is `bs`, delivered without interruption and then at its end. -/
def Delivers (w : Wire α) (bs : List α) : Prop :=
  ∃ n, w.content n = bs ∧ (∀ i < n, (w i).list ≠ []) ∧ ∀ i, n ≤ i → (w i).list = []

theorem begins_nil : w.Begins [] := ⟨0, List.prefix_rfl⟩

theorem Begins.mono (h : w.Begins ys) (hxs : xs <+: ys) : w.Begins xs := by
  obtain ⟨n, hn⟩ := h
  exact ⟨n, hxs.trans hn⟩

theorem Begins.cons (h : w.next.Begins ys) : w.Begins ((w 0).list ++ ys) := by
  obtain ⟨n, hn⟩ := h
  exact ⟨n + 1, (List.prefix_append_right_inj _).mpr hn⟩

theorem Begins.of_push (h : (push xs w.next).Begins ys) (h0 : w 0 = .items (zs ++ xs)) :
    w.Begins (zs ++ ys) := by
  obtain ⟨n, hn⟩ := h
  cases n with
  | zero =>
    rw [List.prefix_nil.mp hn, List.append_nil]
    refine ⟨1, ?_⟩
    rw [content, h0]
    exact (List.prefix_append zs xs).trans (List.prefix_append _ _)
  | succ n =>
    refine ⟨n + 1, ?_⟩
    rw [content, h0, Arrival.list, List.append_assoc]
    exact (List.prefix_append_right_inj zs).mpr hn

theorem Begins.of_read (hread : w.read n = (a, w')) (h : w'.Begins ys) :
    w.Begins (a.list ++ ys) := by
  rw [read] at hread
  split at hread
  · next h0 =>
    cases hread
    simpa [h0] using h.cons
  · next xs h0 =>
    split_ifs at hread with hle
    · cases hread
      simpa [h0] using h.cons
    · cases hread
      apply h.of_push
      rw [h0, Arrival.list, List.take_append_drop]

theorem read_length_le (hread : w.read n = (a, w')) : a.list.length ≤ n := by
  rw [read] at hread
  split at hread
  · cases hread
    exact Nat.zero_le n
  · split_ifs at hread with hle
    · cases hread
      exact hle
    · cases hread
      exact List.length_take_le n _

theorem not_breaksBefore_read (h : ¬ w.BreaksBefore n) (hread : w.read n = (a, w')) :
    ¬ w'.BreaksBefore (n - a.list.length) := by
  rintro ⟨k, hk, hlen⟩
  rw [read] at hread
  split at hread
  · next h0 =>
    cases hread
    refine h ⟨k + 1, hk, ?_⟩
    rw [content, h0, List.length_append]
    simp only [Arrival.list, List.length_nil] at hlen ⊢
    omega
  · next xs h0 =>
    split_ifs at hread with hle
    · cases hread
      refine h ⟨k + 1, hk, ?_⟩
      rw [content, h0, List.length_append]
      simp only [Arrival.list] at hlen ⊢
      omega
    · cases hread
      simp only [Arrival.list, List.length_take] at hlen
      omega

theorem read_ne_nil (h : ¬ w.BreaksBefore n) (hn : 0 < n) (hread : w.read n = (a, w')) :
    a.list ≠ [] := by
  have h0 : (w 0).list ≠ [] := fun hnil => h ⟨0, hnil, hn⟩
  rw [read] at hread
  split at hread
  · next hfail => simp [hfail, Arrival.list] at h0
  · next xs hitems =>
    rw [hitems] at h0
    split_ifs at hread with hle
    · cases hread
      exact h0
    · cases hread
      simpa [Arrival.list, hn.ne'] using h0

theorem read_of_le (hle : (w 0).list.length ≤ n) : w.read n = (w 0, w.next) := by
  rw [read]
  split
  · next h0 => rw [h0]
  · next xs h0 =>
    rw [h0] at hle ⊢
    exact if_pos hle

namespace Delivers
variable {bs : List α}

theorem next (h : w.Delivers bs) :
    w.next.Delivers (bs.drop (w 0).list.length) ∧ (w 0).list <+: bs := by
  obtain ⟨n, hcontent, hfull, hend⟩ := h
  cases n with
  | zero =>
    subst hcontent
    have h0 := hend 0 le_rfl
    rw [h0]
    exact ⟨⟨0, rfl, fun i hi => absurd hi (Nat.not_lt_zero i),
      fun i _ => hend (i + 1) (Nat.zero_le _)⟩, List.nil_prefix⟩
  | succ n =>
    rw [content] at hcontent
    refine ⟨⟨n, by rw [← hcontent, List.drop_left], fun i hi => hfull (i + 1) (by omega), ?_⟩,
      ⟨_, hcontent⟩⟩
    exact fun i hi => hend (i + 1) (by omega)

theorem nil : Delivers (fun _ => .items []) ([] : List α) :=
  ⟨0, rfl, fun i hi => absurd hi (Nat.not_lt_zero i), fun _ _ => rfl⟩

theorem push (h : w.Delivers bs) (hxs : xs ≠ []) : (push xs w).Delivers (xs ++ bs) := by
  obtain ⟨n, hcontent, hfull, hend⟩ := h
  refine ⟨n + 1, by rw [content, ← hcontent]; rfl, ?_, ?_⟩
  · intro i hi
    cases i with
    | zero => exact hxs
    | succ i => exact hfull i (by omega)
  · intro i hi
    cases i with
    | zero => omega
    | succ i => exact hend i (by omega)

theorem of_read (h : w.Delivers bs) (hread : w.read n = (a, w')) :
    w'.Delivers (bs.drop a.list.length) ∧ a.list <+: bs := by
  obtain ⟨hnext, hbegins⟩ := h.next
  rw [read] at hread
  split at hread
  · next h0 =>
    cases hread
    rw [h0] at hnext hbegins
    exact ⟨hnext, hbegins⟩
  · next xs h0 =>
    rw [h0, Arrival.list] at hnext hbegins
    split_ifs at hread with hle
    · cases hread
      exact ⟨hnext, hbegins⟩
    · cases hread
      have hne : xs.drop n ≠ [] := by
        rw [ne_eq, List.drop_eq_nil_iff]
        omega
      have hdrop : bs.drop (xs.take n).length = xs.drop n ++ bs.drop xs.length := by
        obtain ⟨ys, rfl⟩ := hbegins
        rw [List.length_take, Nat.min_eq_left (by omega), List.drop_left,
          List.drop_append_of_le_length (by omega)]
      refine ⟨?_, (List.take_prefix n xs).trans hbegins⟩
      rw [Arrival.list, hdrop]
      exact push hnext hne

theorem content_mono (w : Wire α) {k n : ℕ} (h : n ≤ k) : w.content n <+: w.content k := by
  induction n generalizing w k with
  | zero => exact List.nil_prefix
  | succ n ih =>
    obtain ⟨k, rfl⟩ : ∃ j, k = j + 1 := ⟨k - 1, by omega⟩
    exact (List.prefix_append_right_inj _).mpr (ih w.next (by omega))

theorem unique {cs : List α} (h : w.Delivers bs) (h' : w.Delivers cs) : bs = cs := by
  obtain ⟨n, rfl, hfull, hend⟩ := h
  obtain ⟨m, rfl, hfull', hend'⟩ := h'
  have heq : n = m := by
    rcases Nat.lt_trichotomy n m with hlt | heq | hlt
    · exact absurd (hend n le_rfl) (hfull' n hlt)
    · exact heq
    · exact absurd (hend' m le_rfl) (hfull m hlt)
  rw [heq]

theorem not_breaksBefore (h : w.Delivers bs) (hn : n ≤ bs.length) : ¬ w.BreaksBefore n := by
  obtain ⟨m, rfl, hfull, -⟩ := h
  rintro ⟨k, hk, hlt⟩
  have hle : m ≤ k := by
    by_contra hcon
    exact hfull k (by omega) hk
  have := (content_mono w hle).length_le
  omega

end Delivers
end Wire
end ApexStorm.Lib
