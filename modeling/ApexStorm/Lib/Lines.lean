import Mathlib.Tactic

/-!
# Blocks of lines that end in an empty line

Lines of bytes that end in CR LF, an empty line and a body of any bytes. As no line is
empty or holds a CR or LF itself, the body is what stands behind the first empty line.
-/

namespace ApexStorm.Lib.Lines

def crlf : List UInt8 := [13, 10]

structure IsLine (xs : List UInt8) : Prop where
  ne_nil : xs ≠ []
  cr : 13 ∉ xs
  lf : 10 ∉ xs

def block (lines : List (List UInt8)) : List UInt8 := lines.flatMap (· ++ crlf)

def frame (lines : List (List UInt8)) (body : List UInt8) : List UInt8 :=
  block lines ++ crlf ++ body

def afterBlank : List UInt8 → Option (List UInt8)
  | [] => none
  | c :: cs => if crlf ++ crlf <+: c :: cs then some ((c :: cs).drop 4) else afterBlank cs

/-- A first line and further ones, an empty line and then the body. -/
def Framed (text body : List UInt8) : Prop :=
  ∃ line lines, IsLine line ∧ (∀ l ∈ lines, IsLine l) ∧ text = frame (line :: lines) body

variable {xs ys body : List UInt8} {lines : List (List UInt8)}

theorem IsLine.append (hne : xs ++ ys ≠ []) (hxs : 13 ∉ xs ∧ 10 ∉ xs) (hys : 13 ∉ ys ∧ 10 ∉ ys) :
    IsLine (xs ++ ys) :=
  ⟨hne, List.not_mem_append hxs.1 hys.1, List.not_mem_append hxs.2 hys.2⟩

@[simp] theorem block_cons (line : List UInt8) (lines : List (List UInt8)) :
    block (line :: lines) = line ++ crlf ++ block lines := rfl

@[simp] theorem block_append (lines lines' : List (List UInt8)) :
    block (lines ++ lines') = block lines ++ block lines' := List.flatMap_append

theorem afterBlank_skip (h : 13 ∉ xs) (ys : List UInt8) :
    afterBlank (xs ++ ys) = afterBlank ys := by
  induction xs with
  | nil => rfl
  | cons c xs ih =>
    rw [List.mem_cons, not_or] at h
    rw [List.cons_append, afterBlank, if_neg, ih h.2]
    intro hblank
    exact h.1 (List.cons_prefix_cons.mp hblank).1

theorem afterBlank_crlf (h : ys.head? ≠ some 13) : afterBlank (crlf ++ ys) = afterBlank ys := by
  have hnot : ¬crlf ++ crlf <+: crlf ++ ys := by
    rintro ⟨rest, hrest⟩
    rw [List.append_assoc] at hrest
    have htail : crlf ++ rest = ys := List.append_cancel_left hrest
    exact h (by rw [← htail]; rfl)
  change (if crlf ++ crlf <+: crlf ++ ys then _ else afterBlank ([10] ++ ys)) = _
  rw [if_neg hnot, afterBlank_skip (by decide)]

theorem head_frame (hlines : ∀ l ∈ lines, IsLine l) (hne : lines ≠ []) (body : List UInt8) :
    (frame lines body).head? ≠ some 13 := by
  obtain ⟨line, lines, rfl⟩ := List.exists_cons_of_ne_nil hne
  have hline := hlines line List.mem_cons_self
  obtain ⟨c, cs, rfl⟩ := List.exists_cons_of_ne_nil hline.ne_nil
  rintro ⟨⟩
  exact hline.cr List.mem_cons_self

theorem afterBlank_frame (hlines : ∀ l ∈ lines, IsLine l) (hne : lines ≠ []) (body : List UInt8) :
    afterBlank (frame lines body) = some body := by
  induction lines with
  | nil => exact absurd rfl hne
  | cons line lines ih =>
    rw [List.forall_mem_cons] at hlines
    have hframe : frame (line :: lines) body = line ++ (crlf ++ frame lines body) := by
      simp [frame]
    rw [hframe, afterBlank_skip hlines.1.cr]
    cases lines with
    | nil => rfl
    | cons l lines => rw [afterBlank_crlf (head_frame hlines.2 nofun body), ih hlines.2 nofun]

theorem Framed.afterBlank_eq {text : List UInt8} (h : Framed text body) :
    afterBlank text = some body := by
  obtain ⟨line, lines, hline, hlines, rfl⟩ := h
  exact afterBlank_frame (List.forall_mem_cons.mpr ⟨hline, hlines⟩) nofun body

def push (c : UInt8) : List (List UInt8) → List (List UInt8)
  | [] => [[c]]
  | l :: ls => (c :: l) :: ls

def split : List UInt8 → List (List UInt8)
  | [] => [[]]
  | [c] => [[c]]
  | c :: d :: cs => if c = 13 ∧ d = 10 then [] :: split cs else push c (split (d :: cs))

theorem split_ne_nil (xs : List UInt8) : split xs ≠ [] := by
  fun_cases split xs with
  | case1 => exact List.cons_ne_nil _ _
  | case2 => exact List.cons_ne_nil _ _
  | case3 => exact List.cons_ne_nil _ _
  | case4 c d cs =>
    cases split (d :: cs) with
    | nil => exact List.cons_ne_nil _ _
    | cons l ls => exact List.cons_ne_nil _ _

theorem push_append {ls : List (List UInt8)} (h : ls ≠ []) (c : UInt8) (ls' : List (List UInt8)) :
    push c (ls ++ ls') = push c ls ++ ls' := by
  cases ls with
  | nil => exact absurd rfl h
  | cons l ls => rfl

/-- A CR at the end of `xs` does not take the LF away from the one that follows. -/
theorem split_append_crlf (xs ys : List UInt8) :
    split (xs ++ (crlf ++ ys)) = split xs ++ split ys := by
  fun_induction split xs with
  | case1 => rfl
  | case2 c =>
    change split (c :: 13 :: 10 :: ys) = _
    rw [split, if_neg fun h => absurd h.2 (by decide)]
    rfl
  | case3 c d cs h ih =>
    rw [List.cons_append, List.cons_append, split, if_pos h, ih]
    rfl
  | case4 c d cs h ih =>
    rw [List.cons_append, List.cons_append, split, if_neg h, ← List.cons_append, ih,
      push_append (split_ne_nil _)]

theorem split_block (lines : List (List UInt8)) (ys : List UInt8) :
    split (block lines ++ ys) = lines.flatMap split ++ split ys := by
  induction lines with
  | nil => rfl
  | cons line lines ih =>
    rw [block_cons, List.append_assoc, List.append_assoc, split_append_crlf, ih,
      List.flatMap_cons, List.append_assoc]

theorem split_of_not_mem (h : 13 ∉ xs) : split xs = [xs] := by
  fun_induction split xs with
  | case1 => rfl
  | case2 c => rfl
  | case3 c d cs hcond ih => exact absurd hcond.1 fun hc => h (hc ▸ List.mem_cons_self)
  | case4 c d cs hcond ih =>
    rw [ih fun hmem => h (List.mem_cons_of_mem c hmem)]
    rfl

end ApexStorm.Lib.Lines
