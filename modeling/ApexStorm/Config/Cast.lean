import ApexStorm.Lib.Block
import Mathlib.Data.Finmap

/-!
# Conversions between values and texts

`LexicalCast` for integers, strings and containers of them. A container is printed as a
node of the nodes that its elements' texts are read as, and read by printing the nodes
inside again. So a string inside a container survives exactly if it is the text of the
node it is read as.
-/

namespace ApexStorm.Config
open Lib Yaml

section Integers

def digits (cs : List Char) : Option ℕ :=
  if cs ≠ [] ∧ cs.all Char.isDigit then some (Nat.ofDigitChars 10 cs 0) else none

/-- `boost::lexical_cast<int>`. All that is used of it is that an integer is read as it is
printed. -/
structure IntCast where
  read : String → Option Int32
  read_toString : ∀ i : Int32, read (toString i.toInt) = some i

def lexicalCastInt (s : String) : Option Int32 :=
  match s.toList with
  | '-' :: cs => (digits cs).bind fun n => if n ≤ 2 ^ 31 then some (Int32.ofInt (-n)) else none
  | '+' :: cs => (digits cs).bind fun n => if n < 2 ^ 31 then some (Int32.ofInt n) else none
  | cs => (digits cs).bind fun n => if n < 2 ^ 31 then some (Int32.ofInt n) else none

theorem digits_repr (n : ℕ) : digits n.repr.toList = some n := by
  have hdigit : (Nat.toDigits 10 n).all Char.isDigit = true := by
    rw [List.all_eq_true]
    exact fun c hc => Nat.isDigit_of_mem_toDigits (by decide) (by decide) hc
  rw [Nat.toList_repr, digits, if_pos ⟨Nat.toDigits_ne_nil, hdigit⟩,
    Nat.ofDigitChars_toDigits (by decide) (by decide)]

theorem lexicalCastInt_of_digits {s : String} {n : ℕ} (h : digits s.toList = some n)
    (hn : n < 2 ^ 31) : lexicalCastInt s = some (Int32.ofInt n) := by
  have hdigit : ∀ c cs, s.toList = c :: cs → c.isDigit = true := by
    intro c cs hs
    rw [digits, hs] at h
    split_ifs at h with hall
    exact List.all_eq_true.mp hall.2 c List.mem_cons_self
  rw [lexicalCastInt]
  split
  · next hs => exact absurd (hdigit _ _ hs) (by decide)
  · next hs => exact absurd (hdigit _ _ hs) (by decide)
  · rw [h, Option.bind_some, if_pos hn]

theorem lexicalCastInt_toString (i : Int32) : lexicalCastInt (toString i.toInt) = some i := by
  have hlt := i.toInt_lt
  have hle := i.le_toInt
  have hback := i.ofInt_toInt
  rw [Int.toString_eq_repr]
  generalize i.toInt = z at hlt hle hback ⊢
  subst hback
  cases z with
  | ofNat n => exact lexicalCastInt_of_digits (digits_repr n) (Int.ofNat_lt.mp hlt)
  | negSucc n =>
    have htext : (Int.negSucc n).repr.toList = '-' :: (n + 1).repr.toList := String.toList_append
    rw [lexicalCastInt, htext]
    change ((digits (n + 1).repr.toList).bind fun n => _) = _
    rw [digits_repr, Option.bind_some, if_pos (by omega)]
    rfl

def decimalCast : IntCast := ⟨lexicalCastInt, lexicalCastInt_toString⟩

end Integers

inductive Ty
  | int
  | string
  | vector (t : Ty)
  | list (t : Ty)
  | set (t : Ty)
  | unorderedSet (t : Ty)
  | map (t : Ty)
  | unorderedMap (t : Ty)
  deriving DecidableEq

namespace Ty

def Val : Ty → Type
  | int => Int32
  | string => String
  | vector t => List t.Val
  | list t => List t.Val
  | set t => Finset t.Val
  | unorderedSet t => Finset t.Val
  | map t => Finmap fun _ : String => t.Val
  | unorderedMap t => Finmap fun _ : String => t.Val

instance decEqVal : (t : Ty) → DecidableEq t.Val
  | int => inferInstanceAs (DecidableEq Int32)
  | string => inferInstanceAs (DecidableEq String)
  | vector t => have := decEqVal t; inferInstanceAs (DecidableEq (List t.Val))
  | list t => have := decEqVal t; inferInstanceAs (DecidableEq (List t.Val))
  | set t => have := decEqVal t; inferInstanceAs (DecidableEq (Finset t.Val))
  | unorderedSet t => have := decEqVal t; inferInstanceAs (DecidableEq (Finset t.Val))
  | map t => have := decEqVal t; inferInstanceAs (DecidableEq (Finmap fun _ : String => t.Val))
  | unorderedMap t =>
    have := decEqVal t; inferInstanceAs (DecidableEq (Finmap fun _ : String => t.Val))

/-- A value with the orders in which its containers are walked. -/
def Walk : Ty → Type
  | int => Int32
  | string => String
  | vector t => List t.Walk
  | list t => List t.Walk
  | set t => List t.Walk
  | unorderedSet t => List t.Walk
  | map t => { l : List (String × t.Walk) // (l.map (·.1)).Nodup }
  | unorderedMap t => { l : List (String × t.Walk) // (l.map (·.1)).Nodup }

end Ty

structure Container (C β : Type) where
  empty : C
  push : C → β → C
  Mem : β → C → Prop

namespace Container
variable {β C : Type}

def build (c : Container C β) (ys : List β) : C := ys.foldl c.push c.empty

def sequence (β : Type) : Container (List β) β := ⟨[], fun vec x => vec ++ [x], fun x l => x ∈ l⟩

def finset (β : Type) [DecidableEq β] : Container (Finset β) β :=
  ⟨∅, fun vec x => insert x vec, fun x s => x ∈ s⟩

/-- `insert` of a map, which keeps the value of a key that is there. -/
def finmap (β : Type) : Container (Finmap fun _ : String => β) (String × β) :=
  ⟨∅, fun vec e => if e.1 ∈ vec then vec else vec.insert e.1 e.2,
    fun e m => m.lookup e.1 = some e.2⟩

end Container

def value : (t : Ty) → t.Walk → t.Val
  | .int, i => i
  | .string, s => s
  | .vector t, l => (Container.sequence t.Val).build (l.map (value t))
  | .list t, l => (Container.sequence t.Val).build (l.map (value t))
  | .set t, l => (Container.finset t.Val).build (l.map (value t))
  | .unorderedSet t, l => (Container.finset t.Val).build (l.map (value t))
  | .map t, l => (Container.finmap t.Val).build (l.1.map fun e => (e.1, value t e.2))
  | .unorderedMap t, l => (Container.finmap t.Val).build (l.1.map fun e => (e.1, value t e.2))

variable (Y : Format) (B : IntCast)

section Containers
variable {α β C : Type}

def itemsToStr (cast : α → Option String) (v : List α) : Option String :=
  (v.foldlM (fun node i => ((cast i).bind Y.load).bind node.pushBack) .null).map Y.emit

def entriesToStr (cast : α → Option String) (v : List (String × α)) : Option String :=
  (v.foldlM (fun node i => ((cast i.2).bind Y.load).bind fun n => node.set i.1 n) .null).map Y.emit

def itemsFromStr (cast : String → Option β) (c : Container C β) (v : String) : Option C :=
  (Y.load v).bind fun node =>
    (Y.items node).foldlM (fun vec i => (cast (Y.print i)).map (c.push vec)) c.empty

def entriesFromStr (cast : String → Option β) (c : Container C (String × β)) (v : String) :
    Option C :=
  (Y.load v).bind fun node => (Y.entryTexts node).bind fun es =>
    es.foldlM (fun vec i => ((cast i.2).map fun x => (i.1, x)).map (c.push vec)) c.empty

end Containers

/-- `LexicalCast<T, std::string>`. -/
def toStr : (t : Ty) → t.Walk → Option String
  | .int, i => some (toString (Int32.toInt i))
  | .string, s => some s
  | .vector t, v => itemsToStr Y (toStr t) v
  | .list t, v => itemsToStr Y (toStr t) v
  | .set t, v => itemsToStr Y (toStr t) v
  | .unorderedSet t, v => itemsToStr Y (toStr t) v
  | .map t, v => entriesToStr Y (toStr t) v.1
  | .unorderedMap t, v => entriesToStr Y (toStr t) v.1

/-- `LexicalCast<std::string, T>`. -/
def fromStr : (t : Ty) → String → Option t.Val
  | .int, v => B.read v
  | .string, v => some v
  | .vector t, v => itemsFromStr Y (fromStr t) (.sequence t.Val) v
  | .list t, v => itemsFromStr Y (fromStr t) (.sequence t.Val) v
  | .set t, v => itemsFromStr Y (fromStr t) (.finset t.Val) v
  | .unorderedSet t, v => itemsFromStr Y (fromStr t) (.finset t.Val) v
  | .map t, v => entriesFromStr Y (fromStr t) (.finmap t.Val) v
  | .unorderedMap t, v => entriesFromStr Y (fromStr t) (.finmap t.Val) v

def Strings (P : String → Prop) : (t : Ty) → t.Val → Prop
  | .int, _ => True
  | .string, s => P s
  | .vector t, v => ∀ x, (Container.sequence t.Val).Mem x v → Strings P t x
  | .list t, v => ∀ x, (Container.sequence t.Val).Mem x v → Strings P t x
  | .set t, v => ∀ x, (Container.finset t.Val).Mem x v → Strings P t x
  | .unorderedSet t, v => ∀ x, (Container.finset t.Val).Mem x v → Strings P t x
  | .map t, v => ∀ e, (Container.finmap t.Val).Mem e v → Strings P t e.2
  | .unorderedMap t, v => ∀ e, (Container.finmap t.Val).Mem e v → Strings P t e.2

/-- The text is printed as it is by the node it is read as. -/
def Stable (s : String) : Prop := (Y.load s).map Y.emit = some s

namespace Container
variable {β : Type}

theorem build_sequence (ys : List β) : (sequence β).build ys = ys := by
  have hfrom : ∀ l, ys.foldl (sequence β).push l = l ++ ys := by
    induction ys with
    | nil => exact fun l => (List.append_nil l).symm
    | cons y ys ih =>
      intro l
      rw [List.foldl_cons, ih, sequence, List.append_assoc]
      rfl
  exact hfrom []

theorem mem_build_sequence (ys : List β) (y : β) :
    (sequence β).Mem y ((sequence β).build ys) ↔ y ∈ ys := by
  rw [build_sequence]
  rfl

theorem mem_build_finset [DecidableEq β] (ys : List β) (x : β) :
    (finset β).Mem x ((finset β).build ys) ↔ x ∈ ys := by
  have hfrom : ∀ s : Finset β, x ∈ ys.foldl (finset β).push s ↔ x ∈ s ∨ x ∈ ys := by
    induction ys with
    | nil => simp
    | cons y ys ih =>
      intro s
      rw [List.foldl_cons, ih]
      simp only [finset, Finset.mem_insert, List.mem_cons]
      tauto
  exact (hfrom ∅).trans (by simp)

theorem lookup_push_finmap (m : Finmap fun _ : String => β) (e : String × β) (k : String) :
    ((finmap β).push m e).lookup k = (m.lookup k).or (if e.1 = k then some e.2 else none) := by
  rw [finmap]
  by_cases hk : e.1 = k
  · subst hk
    by_cases hmem : e.1 ∈ m
    · obtain ⟨y, hy⟩ := Finmap.mem_iff.mp hmem
      simp [hmem, hy]
    · simp [hmem, Finmap.lookup_eq_none.mpr hmem]
  · by_cases hmem : e.1 ∈ m
    · simp [hmem, hk]
    · simp [hmem, hk, Finmap.lookup_insert_of_ne m (Ne.symm hk)]

theorem lookup_build_finmap (ys : List (String × β)) (k : String) :
    ((finmap β).build ys).lookup k = (ys.find? (·.1 = k)).map (·.2) := by
  have hfrom : ∀ m : Finmap fun _ : String => β,
      (ys.foldl (finmap β).push m).lookup k =
        (m.lookup k).or ((ys.find? (·.1 = k)).map (·.2)) := by
    induction ys with
    | nil => simp
    | cons y ys ih =>
      intro m
      rw [List.foldl_cons, ih, lookup_push_finmap, Option.or_assoc, List.find?_cons]
      by_cases hk : y.1 = k <;> simp [hk]
  exact (hfrom ∅).trans (by simp [Finmap.lookup_empty])

theorem mem_of_mem_build_finmap {ys : List (String × β)} {e : String × β}
    (h : (finmap β).Mem e ((finmap β).build ys)) : e ∈ ys := by
  have hlookup := (lookup_build_finmap ys e.1).symm.trans h
  obtain ⟨e', hfind, hvalue⟩ := Option.map_eq_some_iff.mp hlookup
  have hkey : e'.1 = e.1 := by simpa using List.find?_some hfind
  obtain rfl : e' = e := Prod.ext hkey hvalue
  exact List.mem_of_find?_eq_some hfind

theorem mem_build_finmap_of_mem {ys : List (String × β)} (hkeys : (ys.map (·.1)).Nodup)
    {e : String × β} (h : e ∈ ys) : (finmap β).Mem e ((finmap β).build ys) := by
  have hsome : (ys.find? (·.1 = e.1)).isSome := List.find?_isSome.mpr ⟨e, h, by simp⟩
  obtain ⟨e', hfind⟩ := Option.isSome_iff_exists.mp hsome
  have hkey : e'.1 = e.1 := by simpa using List.find?_some hfind
  have hsame : e' = e := List.inj_on_of_nodup_map hkeys (List.mem_of_find?_eq_some hfind) h hkey
  exact (lookup_build_finmap ys e.1).trans (by rw [hfind, hsame]; rfl)

theorem exists_build_finmap (m : Finmap fun _ : String => β) :
    ∃ ys : List (String × β), (ys.map (·.1)).Nodup ∧ (finmap β).build ys = m := by
  induction m using Finmap.induction_on with
  | _ a =>
    refine ⟨a.entries.map fun s => (s.1, s.2), ?_, Finmap.ext_lookup fun k => ?_⟩
    · rw [List.map_map]
      exact a.nodupKeys
    · rw [lookup_build_finmap, Finmap.lookup_toFinmap, AList.lookup]
      induction a.entries with
      | nil => rfl
      | cons s l ih =>
        by_cases hk : s.1 = k
        · subst hk
          rw [List.dlookup_cons_eq]
          simp
        · rw [List.dlookup_cons_ne l s (Ne.symm hk), ← ih]
          simp [hk]

end Container

section Inside
variable {α β C : Type} {cast : α → Option String} {back : String → Option β} {val : α → β}

def Inside (cast : α → Option String) (back : String → Option β) (x : α) (y : β) : Prop :=
  ∃ n, (cast x).bind Y.load = some n ∧ back (Y.emit n) = some y

theorem itemsToStr_eq (l : List α) :
    itemsToStr Y cast l =
      (l.mapM fun x => (cast x).bind Y.load).map fun ns => Y.emit (.ofItems ns) := by
  rw [itemsToStr, Node.pushAll, Option.map_map]
  rfl

theorem itemsFromStr_emit (c : Container C β) (ns : List Node) :
    itemsFromStr Y back c (Y.emit (.ofItems ns)) =
      (ns.mapM fun n => back (Y.emit n)).map c.build := by
  rw [itemsFromStr, Y.load_emit, Option.bind_some, Y.items_ofItems, foldlM_map_eq, List.mapM_map]
  rfl

theorem entriesToStr_eq {l : List (String × α)} (hkeys : (l.map (·.1)).Nodup) :
    entriesToStr Y cast l =
      (l.mapM fun e => ((cast e.2).bind Y.load).map fun n => (e.1, n)).map fun es =>
        Y.emit (.ofEntries es) := by
  rw [entriesToStr, Node.setAll (f := fun x => (cast x).bind Y.load) l hkeys, Option.map_map]
  rfl

theorem entriesFromStr_emit (c : Container C (String × β)) (es : List (String × Node)) :
    entriesFromStr Y back c (Y.emit (.ofEntries es)) =
      (es.mapM fun e => (back (Y.emit e.2)).map fun x => (e.1, x)).map c.build := by
  rw [entriesFromStr, Y.load_emit, Option.bind_some, Y.entryTexts_ofEntries, Option.bind_some,
    foldlM_map_eq, List.mapM_map]
  rfl

variable {Y}

theorem inside_map_emit {o : α → Option Node} {l : α} {w : β} :
    Inside Y (fun l => (o l).map Y.emit) back l w ↔ ((o l).map Y.emit).bind back = some w := by
  cases hl : o l <;> simp [Inside, hl, Y.load_emit]

theorem inside_items {c : Container C β} {l : List α}
    (hl : ∀ x ∈ l, Inside Y cast back x (val x)) :
    Inside Y (itemsToStr Y cast) (itemsFromStr Y back c) l (c.build (l.map val)) := by
  obtain ⟨ns, hns, hback⟩ := mapM_chain hl
  refine ⟨.ofItems ns, ?_, ?_⟩
  · rw [itemsToStr_eq, hns, Option.map_some, Option.bind_some, Y.load_emit]
  · rw [itemsFromStr_emit, hback, Option.map_some]

theorem inside_entries {c : Container C (String × β)} {l : List (String × α)}
    (hkeys : (l.map (·.1)).Nodup) (hl : ∀ e ∈ l, Inside Y cast back e.2 (val e.2)) :
    Inside Y (entriesToStr Y cast) (entriesFromStr Y back c) l
      (c.build (l.map fun e => (e.1, val e.2))) := by
  have hentry : ∀ e ∈ l, ∃ n, (((cast e.2).bind Y.load).map fun n => (e.1, n)) = some n ∧
      ((back (Y.emit n.2)).map fun x => (n.1, x)) = some (e.1, val e.2) := by
    intro e he
    obtain ⟨n, hn, hval⟩ := hl e he
    exact ⟨(e.1, n), by rw [hn]; rfl, by rw [hval]; rfl⟩
  obtain ⟨es, hes, hback⟩ := mapM_chain hentry
  refine ⟨.ofEntries es, ?_, ?_⟩
  · rw [entriesToStr_eq Y hkeys, hes, Option.map_some, Option.bind_some, Y.load_emit]
  · rw [entriesFromStr_emit, hback, Option.map_some]

theorem of_inside_items {c : Container C β} {l : List α} {w : C}
    (h : Inside Y (itemsToStr Y cast) (itemsFromStr Y back c) l w) :
    ∃ ys, w = c.build ys ∧ ∀ y ∈ ys, ∃ x ∈ l, Inside Y cast back x y := by
  obtain ⟨n, hn, hw⟩ := h
  rw [itemsToStr_eq] at hn
  obtain ⟨text, htext, hn⟩ := Option.bind_eq_some_iff.mp hn
  obtain ⟨ns, hns, rfl⟩ := Option.map_eq_some_iff.mp htext
  obtain rfl := Option.some.inj ((Y.load_emit _).symm.trans hn)
  rw [itemsFromStr_emit] at hw
  obtain ⟨ys, hys, rfl⟩ := Option.map_eq_some_iff.mp hw
  exact ⟨ys, rfl, fun y hy => mem_of_mapM_chain hns hys hy⟩

theorem of_inside_entries {c : Container C (String × β)} {l : List (String × α)} {w : C}
    (hkeys : (l.map (·.1)).Nodup)
    (h : Inside Y (entriesToStr Y cast) (entriesFromStr Y back c) l w) :
    ∃ ys, w = c.build ys ∧ ∀ y ∈ ys, ∃ x ∈ l, Inside Y cast back x.2 y.2 := by
  obtain ⟨n, hn, hw⟩ := h
  rw [entriesToStr_eq Y hkeys] at hn
  obtain ⟨text, htext, hn⟩ := Option.bind_eq_some_iff.mp hn
  obtain ⟨es, hes, rfl⟩ := Option.map_eq_some_iff.mp htext
  obtain rfl := Option.some.inj ((Y.load_emit _).symm.trans hn)
  rw [entriesFromStr_emit] at hw
  obtain ⟨ys, hys, rfl⟩ := Option.map_eq_some_iff.mp hw
  refine ⟨ys, rfl, fun y hy => ?_⟩
  obtain ⟨e, he, e', hnode, hvalue⟩ := mem_of_mapM_chain hes hys hy
  obtain ⟨n, hn, rfl⟩ := Option.map_eq_some_iff.mp hnode
  obtain ⟨x, hx, rfl⟩ := Option.map_eq_some_iff.mp hvalue
  exact ⟨e, he, n, hn, hx⟩

end Inside

section RoundTrip
variable {Y B}

theorem strings_of_inside (t : Ty) {r : t.Walk} {w : t.Val}
    (h : Inside Y (toStr Y t) (fromStr Y B t) r w) : Strings (Stable Y) t w := by
  induction t with
  | int => trivial
  | string =>
    obtain ⟨n, -, hw⟩ := h
    obtain rfl := Option.some.inj hw
    exact congrArg (Option.map Y.emit) (Y.load_emit n)
  | vector t ih | list t ih =>
    obtain ⟨ys, rfl, hys⟩ := of_inside_items h
    intro y hy
    obtain ⟨x, -, hx⟩ := hys y ((Container.mem_build_sequence ys y).mp hy)
    exact ih hx
  | set t ih | unorderedSet t ih =>
    obtain ⟨ys, rfl, hys⟩ := of_inside_items h
    intro y hy
    obtain ⟨x, -, hx⟩ := hys y ((Container.mem_build_finset ys y).mp hy)
    exact ih hx
  | map t ih | unorderedMap t ih =>
    obtain ⟨ys, rfl, hys⟩ := of_inside_entries r.2 h
    intro y hy
    obtain ⟨x, -, hx⟩ := hys y (Container.mem_of_mem_build_finmap hy)
    exact ih hx

theorem inside_of_strings (t : Ty) (r : t.Walk) (h : Strings (Stable Y) t (value t r)) :
    Inside Y (toStr Y t) (fromStr Y B t) r (value t r) := by
  induction t with
  | int =>
    refine ⟨_, Y.load_int _, ?_⟩
    rw [Y.emit_int]
    exact B.read_toString r
  | string =>
    obtain ⟨n, hn, htext⟩ := Option.map_eq_some_iff.mp h
    exact ⟨n, hn, congrArg some htext⟩
  | vector t ih | list t ih =>
    refine inside_items fun x hx => ih x (h _ ?_)
    exact (Container.mem_build_sequence _ _).mpr (List.mem_map_of_mem hx)
  | set t ih | unorderedSet t ih =>
    refine inside_items fun x hx => ih x (h _ ?_)
    exact (Container.mem_build_finset _ _).mpr (List.mem_map_of_mem hx)
  | map t ih | unorderedMap t ih =>
    refine inside_entries r.2 fun e he => ih e.2 (h (e.1, value t e.2) ?_)
    refine Container.mem_build_finmap_of_mem ?_ (List.mem_map_of_mem he)
    rw [List.map_map]
    exact r.2

theorem bind_iff_inside {t : Ty} (ht : t ≠ .string) (r : t.Walk) (w : t.Val) :
    (toStr Y t r).bind (fromStr Y B t) = some w ↔ Inside Y (toStr Y t) (fromStr Y B t) r w := by
  cases t with
  | string => exact absurd rfl ht
  | int =>
    have hload := Y.load_int (Int32.toInt r)
    have hemit := Y.emit_int (Int32.toInt r)
    constructor
    · intro hw
      exact ⟨_, hload, hemit.symm ▸ hw⟩
    · rintro ⟨n, hn, hw⟩
      obtain rfl := Option.some.inj (hload.symm.trans hn)
      rw [hemit] at hw
      exact hw
  | _ => exact inside_map_emit.symm

end RoundTrip

theorem exists_walk (t : Ty) (v : t.Val) : ∃ r, value t r = v := by
  induction t with
  | int => exact ⟨v, rfl⟩
  | string => exact ⟨v, rfl⟩
  | vector t ih | list t ih =>
    obtain ⟨l, hl⟩ := List.map_surjective_iff.mpr ih v
    exact ⟨l, (Container.build_sequence _).trans hl⟩
  | set t ih | unorderedSet t ih =>
    obtain ⟨l, hl⟩ := List.map_surjective_iff.mpr ih (Finset.toList v)
    refine ⟨l, Finset.ext fun x => ?_⟩
    exact (Container.mem_build_finset _ x).trans (by rw [hl]; exact Finset.mem_toList)
  | map t ih | unorderedMap t ih =>
    obtain ⟨ys, hkeys, hys⟩ := Container.exists_build_finmap v
    have hwalk : Function.Surjective fun e : String × t.Walk => (e.1, value t e.2) := by
      rintro ⟨k, x⟩
      obtain ⟨r, rfl⟩ := ih x
      exact ⟨(k, r), rfl⟩
    obtain ⟨l, rfl⟩ := List.map_surjective_iff.mpr hwalk ys
    rw [List.map_map] at hkeys
    exact ⟨⟨l, hkeys⟩, hys⟩

theorem round_trip_iff (Y : Format) (B : IntCast) (t : Ty) (v : t.Val) :
    (∃ r, value t r = v) ∧ ∀ r, value t r = v →
      ((toStr Y t r).bind (fromStr Y B t) = some v ↔ t = .string ∨ Strings (Stable Y) t v) := by
  refine ⟨exists_walk t v, ?_⟩
  rintro r rfl
  by_cases ht : t = .string
  · subst ht
    exact ⟨fun _ => .inl rfl, fun _ => rfl⟩
  · rw [bind_iff_inside ht, or_iff_right ht]
    exact ⟨strings_of_inside t, inside_of_strings t r⟩

theorem stable_emit (Y : Format) (n : Node) : Stable Y (Y.emit n) :=
  congrArg (Option.map Y.emit) (Y.load_emit n)

theorem round_trip_iff_names :
    (toStr Block.block (.vector .string) ["log", "-1"]).bind
      (fromStr Block.block decimalCast (.vector .string)) = some ["log", "-1"] := by
  have hlog : Stable Block.block "log" := stable_emit Block.block (.scalar "log")
  have hone : Stable Block.block "-1" := stable_emit Block.block (.scalar "-1")
  refine ((round_trip_iff Block.block decimalCast (.vector .string) ["log", "-1"]).2
    ["log", "-1"] rfl).mpr (.inr fun s hs => ?_)
  rcases List.mem_cons.mp hs with rfl | hs
  · exact hlog
  · obtain rfl := List.mem_singleton.mp hs
    exact hone

theorem empty_string_inside (Y : Format) (B : IntCast) :
    (toStr Y (.vector .string) [""]).bind (fromStr Y B (.vector .string)) = some ["~"] := by
  have hinside : ∀ x ∈ [""], Inside Y (toStr Y .string) (fromStr Y B .string) x "~" := by
    intro x hx
    obtain rfl := List.mem_singleton.mp hx
    exact ⟨.null, Y.load_empty, congrArg some Y.emit_null⟩
  exact (bind_iff_inside (by decide) _ _).mpr (inside_items hinside)

theorem empty_string_changed :
    toStr Block.block (.vector .string) [""] = some "- ~" ∧
      fromStr Block.block decimalCast (.vector .string) "- ~" = some ["~"] ∧
      (toStr Block.block (.vector .string) [""]).bind
        (fromStr Block.block decimalCast (.vector .string)) ≠ some [""] := by
  have htext : toStr Block.block (.vector .string) [""] = some "- ~" := by decide +kernel
  have hback := empty_string_inside Block.block decimalCast
  rw [htext, Option.bind_some] at hback
  refine ⟨htext, hback, ?_⟩
  rw [htext, Option.bind_some, hback]
  intro h
  have hsame : ["~"] = [""] := Option.some.inj h
  exact absurd hsame (by decide)

end ApexStorm.Config
