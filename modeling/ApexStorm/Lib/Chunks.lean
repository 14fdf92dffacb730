import Mathlib.Tactic

/-!
# Overwriting and slicing a list that is stored in equal chunks

`overlay l p xs` replaces the elements of `l` from position `p` on by `xs`,
extending `l` where `xs` runs past its end. `slice l p n` reads `n` elements.
Both commute with the concatenation of equally long chunks, so an access inside
one chunk is the same access at its offset in the flat list.
-/

namespace ApexStorm.Lib.Chunks

variable {α : Type*}

def slice (l : List α) (p n : ℕ) : List α := (l.drop p).take n

def overlay (l : List α) (p : ℕ) (xs : List α) : List α :=
  l.take p ++ xs ++ l.drop (p + xs.length)

theorem slice_length {l : List α} {p n : ℕ} (h : p + n ≤ l.length) :
    (slice l p n).length = n := by
  simp only [slice, List.length_take, List.length_drop]
  omega

theorem slice_append (l : List α) (p m n : ℕ) :
    slice l p m ++ slice l (p + m) n = slice l p (m + n) := by
  simp only [slice, List.take_add, List.drop_drop]

theorem slice_take {l : List α} {p n k : ℕ} (h : p + n ≤ k) :
    slice (l.take k) p n = slice l p n := by
  simp only [slice, List.drop_take, List.take_take]
  congr 1
  omega

theorem take_slice {l : List α} {p n k : ℕ} (h : k ≤ n) :
    (slice l p n).take k = slice l p k := by
  rw [slice, slice, List.take_take, Nat.min_eq_left h]

theorem getElem?_slice (l : List α) (p n m : ℕ) :
    (slice l p n)[m]? = if m < n then l[p + m]? else none := by
  rw [slice, List.getElem?_take, List.getElem?_drop]

theorem getElem?_eq_of_slice_append {l : List α} {p n m q k : ℕ} (hm : p + m ≤ l.length)
    (hk : 0 < k) (hq : q < l.length) (h : slice l p m ++ slice l q k <+: slice l p n) :
    l[q]? = l[p + m]? := by
  obtain ⟨rest, hrest⟩ := h
  have hlen := slice_length hm
  have hat := congrArg (fun xs => xs[m]?) hrest
  simp only [List.append_assoc] at hat
  rw [List.getElem?_append_right hlen.le, hlen, Nat.sub_self, getElem?_slice,
    List.getElem?_append_left (by simp only [slice, List.length_take, List.length_drop]; omega),
    getElem?_slice, if_pos hk, Nat.add_zero] at hat
  split_ifs at hat with hlt
  · exact hat
  · rw [List.getElem?_eq_getElem hq] at hat
    cases hat

@[simp] theorem overlay_nil (l : List α) (p : ℕ) : overlay l p [] = l := by
  simp [overlay]

theorem overlay_length {l : List α} {p : ℕ} (xs : List α) (h : p ≤ l.length) :
    (overlay l p xs).length = max l.length (p + xs.length) := by
  simp only [overlay, List.length_append, List.length_take, List.length_drop]
  omega

theorem drop_overlay {l : List α} {p : ℕ} (xs : List α) (h : p ≤ l.length) :
    (overlay l p xs).drop p = xs ++ l.drop (p + xs.length) := by
  have hlen : (l.take p).length = p := by rw [List.length_take]; omega
  rw [overlay, List.append_assoc, List.drop_append_of_le_length hlen.ge,
    List.drop_eq_nil_of_le hlen.le, List.nil_append]

theorem overlay_inj {l xs ys : List α} {p : ℕ} (hlen : xs.length = ys.length)
    (h : overlay l p xs = overlay l p ys) : xs = ys := by
  rw [overlay, overlay, hlen] at h
  exact List.append_cancel_left (List.append_cancel_right h)

theorem overlay_overlay {l : List α} {p : ℕ} (xs ys : List α) (h : p ≤ l.length) :
    overlay (overlay l p xs) (p + xs.length) ys = overlay l p (xs ++ ys) := by
  have hlen : (l.take p ++ xs).length = p + xs.length := by simp; omega
  have htake : (overlay l p xs).take (p + xs.length) = l.take p ++ xs := by
    rw [overlay, ← hlen, List.take_left]
  have hdrop : (overlay l p xs).drop (p + xs.length + ys.length) =
      l.drop (p + (xs ++ ys).length) := by
    rw [overlay, ← hlen, List.drop_length_add_append, List.drop_drop, hlen, List.length_append,
      Nat.add_assoc]
  rw [overlay, htake, hdrop, overlay, List.append_assoc (l.take p) xs ys]

theorem overlay_take {l xs : List α} {p k : ℕ} (hp : p ≤ k) (hk : k ≤ l.length) :
    (overlay l p xs).take (max k (p + xs.length)) = overlay (l.take k) p xs := by
  have hlen : (l.take p ++ xs).length = p + xs.length := by simp; omega
  have hmin : min p k = p := by omega
  simp only [overlay, List.take_take, List.drop_take, hmin]
  rw [List.take_append, hlen, List.take_of_length_le (by omega)]
  congr 2
  omega

theorem overlay_singleton {l : List α} {p : ℕ} (x : α) (h : p < l.length) :
    overlay l p [x] = l.set p x := by
  rw [overlay, List.set_eq_take_append_cons_drop, if_pos h, List.append_assoc]
  rfl

def Uniform (b : ℕ) (cs : List (List α)) : Prop := ∀ c ∈ cs, c.length = b

namespace Uniform
variable {b : ℕ} {cs : List (List α)}

theorem length_flatten (h : Uniform b cs) : cs.flatten.length = b * cs.length := by
  induction cs with
  | nil => simp
  | cons c cs ih =>
    have hc : c.length = b := h c (by simp)
    have ht := ih (fun d hd => h d (by simp [hd]))
    simp only [List.flatten_cons, List.length_append, List.length_cons, ht, hc]
    ring

theorem take (h : Uniform b cs) (n : ℕ) : Uniform b (cs.take n) :=
  fun d hd => h d (List.mem_of_mem_take hd)

theorem split (h : Uniform b cs) {i : ℕ} (hi : i < cs.length) :
    cs.flatten = (cs.take i).flatten ++ (cs[i] ++ (cs.drop (i + 1)).flatten) ∧
      (cs.take i).flatten.length = b * i := by
  refine ⟨?_, ?_⟩
  · conv_lhs => rw [← List.take_append_drop i cs]
    rw [List.flatten_append, List.drop_eq_getElem_cons hi, List.flatten_cons]
  · rw [(h.take i).length_flatten, List.length_take, Nat.min_eq_left hi.le]

theorem slice_flatten (h : Uniform b cs) {i off n : ℕ} (hi : i < cs.length)
    (hn : off + n ≤ b) : slice cs.flatten (b * i + off) n = slice cs[i] off n := by
  obtain ⟨hsplit, hlen⟩ := h.split hi
  have hc : (cs[i]).length = b := h _ (List.getElem_mem hi)
  rw [slice, slice, hsplit, ← hlen, List.drop_length_add_append,
    List.drop_append_of_le_length (by omega), List.take_append_of_le_length]
  rw [List.length_drop]
  omega

theorem flatten_set (h : Uniform b cs) {i off : ℕ} {xs : List α} (hi : i < cs.length)
    (hn : off + xs.length ≤ b) :
    (cs.set i (overlay cs[i] off xs)).flatten = overlay cs.flatten (b * i + off) xs := by
  obtain ⟨hsplit, hlen⟩ := h.split hi
  have hc : (cs[i]).length = b := h _ (List.getElem_mem hi)
  have htake : cs.flatten.take (b * i + off) = (cs.take i).flatten ++ (cs[i]).take off := by
    rw [hsplit, ← hlen, List.take_length_add_append, List.take_append_of_le_length (by omega)]
  have hdrop : cs.flatten.drop (b * i + off + xs.length) =
      (cs[i]).drop (off + xs.length) ++ (cs.drop (i + 1)).flatten := by
    rw [hsplit, ← hlen, Nat.add_assoc, List.drop_length_add_append,
      List.drop_append_of_le_length (by omega)]
  rw [List.set_eq_take_append_cons_drop, if_pos hi, List.flatten_append, List.flatten_cons,
    overlay, overlay, htake, hdrop]
  simp only [List.append_assoc]

end Uniform
end ApexStorm.Lib.Chunks
