import Mathlib.Data.List.DropRight
import ApexStorm.Lib.Numeral

/-!
# The text of a 128-bit address

An address is eight groups of one to four hexadecimal digits with colons between
them. Two colons in a row, at most once, stand for a run of zero groups. `read` takes
such a text apart at its colons; no text stands for two addresses.
-/

namespace ApexStorm.Lib.Inet
open Numeral

def join (gs : List (List UInt8)) : List UInt8 := [58].intercalate gs

def readGroup (g : List UInt8) : Option ℕ :=
  if g ≠ [] ∧ g.length ≤ 4 then value 16 g else none

def IsGroup (g : List UInt8) (n : ℕ) : Prop := readGroup g = some n

inductive Denotes (t : List UInt8) (ws : List ℕ) : Prop
  | full (gs : List (List UInt8)) (hgs : List.Forall₂ IsGroup gs ws) (hlen : ws.length = 8)
      (ht : t = join gs)
  | compressed (gl gr : List (List UInt8)) (l r : List ℕ) (hl : List.Forall₂ IsGroup gl l)
      (hr : List.Forall₂ IsGroup gr r) (hlen : l.length + r.length ≤ 7)
      (hws : ws = l ++ List.replicate (8 - (l.length + r.length)) 0 ++ r)
      (ht : t = join gl ++ [58, 58] ++ join gr)

/-- An end of the text next to the two colons is an empty piece. -/
def pad (gs : List (List UInt8)) : List (List UInt8) := if gs = [] then [[]] else gs

def read (t : List UInt8) : Option (List ℕ) := do
  let pieces := t.splitOn 58
  if [] ∉ pieces then
    let ws ← pieces.mapM readGroup
    if ws.length = 8 then some ws else none
  else
    let gl := pieces.takeWhile (· ≠ [])
    let gr := pieces.rtakeWhile (· ≠ [])
    let l ← gl.mapM readGroup
    let r ← gr.mapM readGroup
    if pieces = pad gl ++ [] :: pad gr ∧ l.length + r.length ≤ 7 then
      some (l ++ List.replicate (8 - (l.length + r.length)) 0 ++ r)
    else none

theorem digitValue_of_mem {b v w : ℕ} {xs : List UInt8} {c : UInt8}
    (h : xs.foldlM (fun v c =>
      (digitValue c).bind fun d => if d < b then some (b * v + d) else none) v = some w)
    (hc : c ∈ xs) : (digitValue c).isSome := by
  induction xs generalizing v with
  | nil => cases hc
  | cons x xs ih =>
    rw [List.foldlM_cons] at h
    obtain ⟨u, hu, hrest⟩ := Option.bind_eq_some_iff.mp h
    obtain ⟨d, hd, -⟩ := Option.bind_eq_some_iff.mp hu
    rcases List.mem_cons.mp hc with rfl | hc
    · rw [hd]
      rfl
    · exact ih hrest hc

section Groups
variable {g : List UInt8} {n : ℕ} {gs gl gr : List (List UInt8)} {ws : List ℕ}

theorem IsGroup.ne_nil (h : IsGroup g n) : g ≠ [] := by
  rintro rfl
  cases h

theorem IsGroup.not_mem (h : IsGroup g n) {c : UInt8} (hc : digitValue c = none) : c ∉ g := by
  intro hmem
  rw [IsGroup, readGroup] at h
  split_ifs at h
  have hdigit := digitValue_of_mem h hmem
  rw [hc] at hdigit
  cases hdigit

theorem isGroup_numeral (h : n < 2 ^ 16) : IsGroup (numeral 16 n) n := by
  have hlen : (numeral 16 n).length ≤ 3 + 1 := length_numeral_le (by decide) h
  rw [IsGroup, readGroup, if_pos ⟨numeral_ne_nil (by decide), hlen⟩]
  exact value_numeral (by decide) (by decide) n

theorem mapM_readGroup (h : List.Forall₂ IsGroup gs ws) : gs.mapM readGroup = some ws := by
  induction h with
  | nil => rfl
  | cons hg _ ih =>
    rw [List.mapM_cons, hg, ih]
    rfl

theorem forall_ne_nil (h : List.Forall₂ IsGroup gs ws) : ∀ g ∈ gs, g ≠ [] := by
  induction h with
  | nil => simp
  | cons hg _ ih =>
    intro x hx
    rcases List.mem_cons.mp hx with rfl | hx
    · exact hg.ne_nil
    · exact ih x hx

theorem forall_not_mem (h : List.Forall₂ IsGroup gs ws) {c : UInt8} (hc : digitValue c = none) :
    ∀ g ∈ gs, c ∉ g := by
  induction h with
  | nil => simp
  | cons hg _ ih =>
    intro x hx
    rcases List.mem_cons.mp hx with rfl | hx
    · exact hg.not_mem hc
    · exact ih x hx

theorem join_cons_cons (g g' : List UInt8) (gs : List (List UInt8)) :
    join (g :: g' :: gs) = g ++ 58 :: join (g' :: gs) := by
  simp [join, List.intercalate_cons_cons]

theorem not_mem_join {c : UInt8} (hc : c ≠ 58) (h : ∀ g ∈ gs, c ∉ g) : c ∉ join gs := by
  induction gs with
  | nil => simp [join]
  | cons g gs ih =>
    have hg := h g (by simp)
    have hgs := ih fun x hx => h x (by simp [hx])
    cases gs with
    | nil => simpa [join] using hg
    | cons g' gs =>
      rw [join_cons_cons]
      simp [hg, hgs, hc]

theorem join_append (hl : gl ≠ []) (hr : gr ≠ []) :
    join (gl ++ gr) = join gl ++ 58 :: join gr := by
  induction gl with
  | nil => exact absurd rfl hl
  | cons g gl ih =>
    cases gl with
    | nil =>
      obtain ⟨g', gr, rfl⟩ := List.exists_cons_of_ne_nil hr
      rw [List.singleton_append, join_cons_cons]
      simp [join]
    | cons g' gl =>
      rw [List.cons_append, List.cons_append, join_cons_cons, ← List.cons_append, ih (by simp),
        join_cons_cons]
      simp

theorem pad_ne_nil (gs : List (List UInt8)) : pad gs ≠ [] := by
  rw [pad]
  split_ifs with h <;> simp [h]

theorem join_pad (gs : List (List UInt8)) : join (pad gs) = join gs := by
  rw [pad]
  split_ifs with h
  · rw [h]
    rfl
  · rfl

theorem join_pieces (gl gr : List (List UInt8)) :
    join (pad gl ++ [] :: pad gr) = join gl ++ [58, 58] ++ join gr := by
  have hmiddle : join ([] :: pad gr) = 58 :: join (pad gr) :=
    join_append (List.cons_ne_nil [] []) (pad_ne_nil gr)
  rw [join_append (pad_ne_nil gl) (by simp), hmiddle, join_pad, join_pad]
  simp

theorem splitOn_pieces (hl : ∀ g ∈ gl, 58 ∉ g) (hr : ∀ g ∈ gr, 58 ∉ g) :
    (join gl ++ [58, 58] ++ join gr).splitOn 58 = pad gl ++ [] :: pad gr := by
  have hpad : ∀ {gs : List (List UInt8)}, (∀ g ∈ gs, 58 ∉ g) → ∀ g ∈ pad gs, 58 ∉ g := by
    intro gs h
    rw [pad]
    split_ifs
    · simp
    · exact h
  rw [← join_pieces]
  apply List.splitOn_intercalate
  · intro g hg
    rcases List.mem_append.mp hg with hg | hg
    · exact hpad hl g hg
    · rcases List.mem_cons.mp hg with rfl | hg
      · simp
      · exact hpad hr g hg
  · simp

theorem takeWhile_pieces (hl : ∀ g ∈ gl, g ≠ []) (rest : List (List UInt8)) :
    (pad gl ++ [] :: rest).takeWhile (· ≠ []) = gl := by
  rw [pad]
  split_ifs with h
  · simp [h]
  · rw [List.takeWhile_append_of_pos (by simpa using hl)]
    simp

theorem pad_reverse (gs : List (List UInt8)) : (pad gs).reverse = pad gs.reverse := by
  rw [pad, pad]
  split_ifs <;> simp_all

theorem rtakeWhile_pieces (hr : ∀ g ∈ gr, g ≠ []) (rest : List (List UInt8)) :
    (rest ++ [] :: pad gr).rtakeWhile (· ≠ []) = gr := by
  have hrev : (rest ++ [] :: pad gr).reverse = pad gr.reverse ++ [] :: rest.reverse := by
    simp [pad_reverse]
  rw [List.rtakeWhile, hrev, takeWhile_pieces (by simpa using hr), List.reverse_reverse]

end Groups

theorem read_of_denotes {t : List UInt8} {ws : List ℕ} (h : Denotes t ws) : read t = some ws := by
  cases h with
  | full gs hgs hlen ht =>
    have hne : gs ≠ [] := by
      rintro rfl
      cases hgs
      cases hlen
    have hpieces : t.splitOn 58 = gs := by
      rw [ht]
      exact List.splitOn_intercalate 58 (forall_not_mem hgs rfl) hne
    have hnil : [] ∉ gs := fun hmem => forall_ne_nil hgs [] hmem rfl
    simp [read, hpieces, hnil, mapM_readGroup hgs, hlen]
  | compressed gl gr l r hl hr hlen hws ht =>
    have hpieces : t.splitOn 58 = pad gl ++ [] :: pad gr := by
      rw [ht]
      exact splitOn_pieces (forall_not_mem hl rfl) (forall_not_mem hr rfl)
    rw [read, hpieces]
    simp only [takeWhile_pieces (forall_ne_nil hl), rtakeWhile_pieces (forall_ne_nil hr),
      mapM_readGroup hl, mapM_readGroup hr]
    simp [hlen, hws]

theorem Denotes.not_mem {t : List UInt8} {ws : List ℕ} (h : Denotes t ws) {c : UInt8}
    (hc : digitValue c = none) (hcolon : c ≠ 58) : c ∉ t := by
  cases h with
  | full gs hgs hlen ht =>
    rw [ht]
    exact not_mem_join hcolon (forall_not_mem hgs hc)
  | compressed gl gr l r hl hr hlen hws ht =>
    have hl' := not_mem_join hcolon (forall_not_mem hl hc)
    have hr' := not_mem_join hcolon (forall_not_mem hr hc)
    simp [ht, hl', hr', hcolon]

theorem Denotes.unique {t : List UInt8} {ws ws' : List ℕ} (h : Denotes t ws)
    (h' : Denotes t ws') : ws = ws' :=
  Option.some.inj ((read_of_denotes h).symm.trans (read_of_denotes h'))

end ApexStorm.Lib.Inet
