import Mathlib.Tactic

/-!
# Trees of YAML nodes

The nodes of a document with the operations that build them and take them apart. A node
that is not there is undefined (`none`), which is not the same as null. `Format` is what
is assumed of the texts of nodes.
-/

namespace ApexStorm.Lib.Yaml

inductive Node
  | null
  | scalar (text : String)
  | seq (items : List Node)
  | map (entries : List (Node × Node))

section Chains
variable {α β γ : Type} {f : α → Option β} {g : β → Option γ} {l : List α}

theorem mapM_chain {h : α → γ} (hl : ∀ x ∈ l, ∃ y, f x = some y ∧ g y = some (h x)) :
    ∃ ys, l.mapM f = some ys ∧ ys.mapM g = some (l.map h) := by
  induction l with
  | nil => exact ⟨[], rfl, rfl⟩
  | cons x l ih =>
    rw [List.forall_mem_cons] at hl
    obtain ⟨⟨y, hy, hz⟩, hl⟩ := hl
    obtain ⟨ys, hys, hzs⟩ := ih hl
    exact ⟨y :: ys, by simp [hy, hys], by simp [hz, hzs]⟩

theorem exists_of_mem_mapM {ys : List β} (hys : l.mapM f = some ys) {y : β} (hy : y ∈ ys) :
    ∃ x ∈ l, f x = some y := by
  induction l generalizing ys with
  | nil =>
    cases hys
    cases hy
  | cons x l ih =>
    rw [List.mapM_cons] at hys
    obtain ⟨z, hz, hys⟩ := Option.bind_eq_some_iff.mp hys
    obtain ⟨zs, hzs, hys⟩ := Option.bind_eq_some_iff.mp hys
    cases hys
    rcases List.mem_cons.mp hy with rfl | hy
    · exact ⟨x, List.mem_cons_self, hz⟩
    · obtain ⟨x', hx', hy⟩ := ih hzs hy
      exact ⟨x', List.mem_cons_of_mem x hx', hy⟩

theorem mem_of_mapM_chain {ys : List β} {zs : List γ} (hys : l.mapM f = some ys)
    (hzs : ys.mapM g = some zs) {z : γ} (hz : z ∈ zs) :
    ∃ x ∈ l, ∃ y, f x = some y ∧ g y = some z := by
  obtain ⟨y, hy, hyz⟩ := exists_of_mem_mapM hzs hz
  obtain ⟨x, hx, hxy⟩ := exists_of_mem_mapM hys hy
  exact ⟨x, hx, y, hxy, hyz⟩

theorem foldlM_map_eq {δ : Type} (push : δ → β → δ) (d : δ) :
    l.foldlM (fun d x => (f x).map (push d)) d = (l.mapM f).map fun ys => ys.foldl push d := by
  induction l generalizing d with
  | nil => rfl
  | cons x l ih =>
    cases hx : f x with
    | none => simp [hx]
    | some y => cases hl : l.mapM f <;> simp [hx, ih, hl]

theorem foldlM_append {W : List β → γ} {push : γ → β → Option γ}
    (hpush : ∀ ys y, push (W ys) y = some (W (ys ++ [y]))) (ys : List β) :
    l.foldlM (fun c x => (f x).bind (push c)) (W ys) = (l.mapM f).map fun zs => W (ys ++ zs) := by
  induction l generalizing ys with
  | nil => simp
  | cons x l ih =>
    cases hx : f x with
    | none => simp [hx]
    | some y => cases hl : l.mapM f <;> simp [hx, hpush, ih, hl]

theorem mapM_eq_map {h : α → β} (hf : ∀ x ∈ l, f x = some (h x)) : l.mapM f = some (l.map h) := by
  induction l with
  | nil => rfl
  | cons x l ih =>
    rw [List.forall_mem_cons] at hf
    simp [hf.1, ih hf.2]

end Chains

namespace Node

/-- `Scalar()`, which is empty for all other nodes. -/
def text : Node → String
  | scalar s => s
  | _ => ""

/-- `as<std::string>()`; there is no text for a sequence or a map. -/
def asString : Node → Option String
  | scalar s => some s
  | null => some "null"
  | _ => none

def isKey (key : String) : Node → Bool
  | scalar s => s = key
  | _ => false

def size : Node → ℕ
  | seq items => items.length
  | map entries => entries.length
  | _ => 0

/-- `push_back`, which throws for scalars and maps. -/
def pushBack : Node → Node → Option Node
  | null, n => some (seq [n])
  | seq items, n => some (seq (items ++ [n]))
  | _, _ => none

def assign (key : String) (n : Node) : List (Node × Node) → List (Node × Node)
  | [] => [(scalar key, n)]
  | e :: es => if e.1.isKey key then (e.1, n) :: es else e :: assign key n es

/-- `node[key] = n`, which throws for a scalar and turns a sequence into a map. -/
def set : Node → String → Node → Option Node
  | null, key, n => some (map [(scalar key, n)])
  | scalar _, _, _ => none
  | seq items, key, n =>
    some (map (assign key n (items.mapIdx fun i x => (scalar (toString i), x))))
  | map entries, key, n => some (map (assign key n entries))

/-- `node[key]`, which throws for a scalar and may be undefined. -/
def get : Node → String → Option (Option Node)
  | scalar _, _ => none
  | map entries, key => some ((entries.find? fun e => e.1.isKey key).map (·.2))
  | _, _ => some none

/-- `node[i]`. In a map it is the value of a key that is read as the number. -/
def item (isIndex : Node → ℕ → Bool) (i : ℕ) : Node → Option Node
  | seq items => items[i]?
  | map entries => (entries.find? fun e => isIndex e.1 i).map (·.2)
  | _ => none

def pushUnder (key : String) (node n : Node) : Option Node :=
  (node.get key).bind fun old => ((old.getD null).pushBack n).bind (node.set key)

def ofItems : List Node → Node
  | [] => null
  | n :: ns => seq (n :: ns)

def ofEntries : List (String × Node) → Node
  | [] => null
  | e :: es => map ((e :: es).map fun e => (scalar e.1, e.2))

theorem pushBack_ofItems (ns : List Node) (n : Node) :
    (ofItems ns).pushBack n = some (ofItems (ns ++ [n])) := by
  cases ns <;> rfl

theorem assign_of_notMem {es : List (String × Node)} {key : String} (hkey : key ∉ es.map (·.1))
    (n : Node) :
    assign key n (es.map fun e => (scalar e.1, e.2)) =
      (es ++ [(key, n)]).map fun e => (scalar e.1, e.2) := by
  induction es with
  | nil => rfl
  | cons e es ih =>
    rw [List.map_cons, List.mem_cons, not_or] at hkey
    have hne : ¬(scalar e.1).isKey key = true := by simpa [isKey, eq_comm] using hkey.1
    rw [List.map_cons, assign, if_neg hne, ih hkey.2]
    rfl

theorem set_ofEntries {es : List (String × Node)} {key : String} (hkey : key ∉ es.map (·.1))
    (n : Node) : (ofEntries es).set key n = some (ofEntries (es ++ [(key, n)])) := by
  cases es with
  | nil => rfl
  | cons e es => exact congrArg (fun l => some (map l)) (assign_of_notMem hkey n)

theorem set_ofEntries_ite {p : Prop} [Decidable p] {es : List (String × Node)} {key : String}
    (hkey : key ∉ es.map (·.1)) (n : Node) :
    (if p then (ofEntries es).set key n else some (ofEntries es)) =
      some (ofEntries (es ++ if p then [(key, n)] else [])) := by
  split_ifs
  · exact set_ofEntries hkey n
  · rw [List.append_nil]

theorem get_ofEntries (es : List (String × Node)) (key : String) :
    (ofEntries es).get key = some ((es.find? (·.1 = key)).map (·.2)) := by
  cases es with
  | nil => rfl
  | cons e es =>
    rw [ofEntries, get, List.find?_map, Option.map_map]
    rfl

theorem set_ofEntries_last {es : List (String × Node)} {key : String}
    (hkey : key ∉ es.map (·.1)) (n n' : Node) :
    (ofEntries (es ++ [(key, n)])).set key n' = some (ofEntries (es ++ [(key, n')])) := by
  have hassign : ∀ es : List (String × Node), key ∉ es.map (·.1) →
      assign key n' ((es ++ [(key, n)]).map fun e => (scalar e.1, e.2)) =
        (es ++ [(key, n')]).map fun e => (scalar e.1, e.2) := by
    intro es hkey
    induction es with
    | nil => simp [assign, isKey]
    | cons e es ih =>
      rw [List.map_cons, List.mem_cons, not_or] at hkey
      have hne : ¬(scalar e.1).isKey key = true := by simpa [isKey, eq_comm] using hkey.1
      rw [List.cons_append, List.map_cons, assign, if_neg hne, ih hkey.2]
      rfl
  have hset := congrArg (fun l => some (map l)) (hassign es hkey)
  cases es with
  | nil => exact hset
  | cons e es => exact hset

def withItems (es : List (String × Node)) (key : String) : List Node → Node
  | [] => ofEntries es
  | n :: ns => ofEntries (es ++ [(key, seq (n :: ns))])

theorem get_withItems {es : List (String × Node)} {key : String} (hkey : key ∉ es.map (·.1))
    (ns : List Node) :
    (withItems es key ns).get key = some (if ns = [] then none else some (ofItems ns)) := by
  have hnone : es.find? (·.1 = key) = none := by
    rw [List.find?_eq_none]
    intro e he
    simpa using ne_of_mem_of_not_mem (List.mem_map_of_mem he) hkey
  cases ns with
  | nil => simp [withItems, get_ofEntries, hnone]
  | cons n ns => simp [withItems, get_ofEntries, hnone, ofItems]

theorem get_withItems_of_ne {es : List (String × Node)} {key key' : String} (hne : key' ≠ key)
    (ns : List Node) : (withItems es key ns).get key' = (ofEntries es).get key' := by
  cases ns with
  | nil => rfl
  | cons n ns => simp [withItems, get_ofEntries, Ne.symm hne]

theorem pushUnder_withItems {es : List (String × Node)} {key : String}
    (hkey : key ∉ es.map (·.1)) (ns : List Node) (n : Node) :
    (withItems es key ns).pushUnder key n = some (withItems es key (ns ++ [n])) := by
  rw [pushUnder, get_withItems hkey]
  cases ns with
  | nil => exact set_ofEntries hkey (seq [n])
  | cons m ns => exact set_ofEntries_last hkey (seq (m :: ns)) (seq (m :: ns ++ [n]))

section Loops
variable {α : Type} {f : α → Option Node}

theorem pushAll (l : List α) :
    l.foldlM (fun node x => (f x).bind node.pushBack) null = (l.mapM f).map ofItems :=
  foldlM_append pushBack_ofItems []

theorem pushAllUnder {es : List (String × Node)} {key : String} (hkey : key ∉ es.map (·.1))
    (l : List α) :
    l.foldlM (fun node x => (f x).bind (node.pushUnder key)) (ofEntries es) =
      (l.mapM f).map (withItems es key) :=
  foldlM_append (pushUnder_withItems hkey) []

theorem setAll_from (es : List (String × Node)) (l : List (String × α))
    (hkeys : (es.map (·.1) ++ l.map (·.1)).Nodup) :
    l.foldlM (fun node e => (f e.2).bind fun n => node.set e.1 n) (ofEntries es) =
      (l.mapM fun e => (f e.2).map fun n => (e.1, n)).map fun ms => ofEntries (es ++ ms) := by
  induction l generalizing es with
  | nil => simp
  | cons e l ih =>
    have hnew : e.1 ∉ es.map (·.1) := by
      intro hmem
      exact (List.nodup_append.mp hkeys).2.2 _ hmem _ List.mem_cons_self rfl
    cases he : f e.2 with
    | none => simp [he]
    | some n =>
      have hrest : ((es ++ [(e.1, n)]).map (·.1) ++ l.map (·.1)).Nodup := by
        simpa using hkeys
      cases hl : l.mapM (fun e => (f e.2).map fun n => (e.1, n)) <;>
        simp [he, set_ofEntries hnew, ih _ hrest, hl]

theorem setAll (l : List (String × α)) (hkeys : (l.map (·.1)).Nodup) :
    l.foldlM (fun node e => (f e.2).bind fun n => node.set e.1 n) null =
      (l.mapM fun e => (f e.2).map fun n => (e.1, n)).map ofEntries :=
  setAll_from [] l hkeys

end Loops
end Node

/-- Reading and printing texts. A text that cannot be read has no node. Integers are plain
scalars, and `isIndex` tells which keys are read as which number. -/
structure Format where
  load : String → Option Node
  emit : Node → String
  isIndex : Node → ℕ → Bool
  load_emit (n : Node) : load (emit n) = some n
  load_empty : load "" = some .null
  emit_null : emit .null = "~"
  load_int (i : ℤ) : load (toString i) = some (.scalar (toString i))
  emit_int (i : ℤ) : emit (.scalar (toString i)) = toString i

namespace Format
variable (Y : Format)

def print : Option Node → String
  | some n => Y.emit n
  | none => ""

def items (n : Node) : List (Option Node) := (List.range n.size).map fun i => n.item Y.isIndex i

/-- The keys and texts along an iterator. The entries of a sequence have no key, which throws. -/
def entryTexts : Node → Option (List (String × String))
  | .map entries => some (entries.map fun e => (e.1.text, Y.emit e.2))
  | .seq (_ :: _) => none
  | _ => some []

theorem items_ofItems (ns : List Node) : Y.items (.ofItems ns) = ns.map some := by
  cases ns with
  | nil => rfl
  | cons n ns =>
    refine List.ext_getElem (by simp [items, Node.ofItems, Node.size]) fun i hi hi' => ?_
    have hlen : i < (n :: ns).length := by simpa using hi'
    simp only [items, Node.ofItems, Node.item, List.getElem_map, List.getElem_range,
      List.getElem?_eq_getElem hlen]

theorem entryTexts_ofEntries (es : List (String × Node)) :
    Y.entryTexts (.ofEntries es) = some (es.map fun e => (e.1, Y.emit e.2)) := by
  cases es with
  | nil => rfl
  | cons e es =>
    simp [entryTexts, Node.ofEntries, Node.text]

end Format
end ApexStorm.Lib.Yaml
