import ApexStorm.Lib.Chunks

/-!
# A sequence with a cursor

The flat buffer that a chunked byte store stands for: a sequence of cells and a
position in it. Writing replaces the cells at the cursor and extends the
sequence where it ends; the cursor never leaves the sequence.
-/

namespace ApexStorm.Lib
open Chunks

@[ext] structure Tape (α : Type*) where
  cells : List α
  pos : ℕ
  pos_le : pos ≤ cells.length

namespace Tape
variable {α : Type*}

def empty : Tape α := ⟨[], 0, le_rfl⟩

def left (f : Tape α) : ℕ := f.cells.length - f.pos

def write (f : Tape α) (xs : List α) : Tape α :=
  ⟨overlay f.cells f.pos xs, f.pos + xs.length, by
    rw [overlay_length xs f.pos_le]
    exact le_max_right _ _⟩

def peek (f : Tape α) (n : ℕ) : List α := slice f.cells f.pos n

def skip (f : Tape α) (n : ℕ) (h : n ≤ f.left) : Tape α :=
  ⟨f.cells, f.pos + n, by have := f.pos_le; rw [left] at h; omega⟩

def seek (f : Tape α) (v : ℕ) (h : v ≤ f.cells.length) : Tape α := ⟨f.cells, v, h⟩

/-- Moves the cursor behind the end, over cells `pad` that were never written. -/
def extend (f : Tape α) (pad : List α) : Tape α := ⟨f.cells ++ pad, (f.cells ++ pad).length, le_rfl⟩

end Tape
end ApexStorm.Lib
