import ApexStorm.Config.Cast
import ApexStorm.Config.Notify

/-!
# Loading a document into the configuration

`LoadFromYaml` lists the nodes of a document under their names and calls `fromString` of
the variables with these names. The name of a node is its path of keys, except that
nothing is left of empty keys at the front of the path.
-/

namespace ApexStorm.Config
open Lib Yaml

namespace ConfigVar
variable {T : Type} [DecidableEq T] {c : ConfigVar T} {v : T} {key : ℕ}

structure Applies (fromStr : String → Option T) (c : ConfigVar T) (val : String)
    (d : ConfigVar T) : Prop where
  callbacks : d.callbacks = c.callbacks
  failed : fromStr val = none → d = c
  value : ∀ v, fromStr val = some v → d.val = v
  equal : fromStr val = some c.val → d.log = c.log
  told : ∀ v, fromStr val = some v → v ≠ c.val →
    ∀ key ∈ c.callbacks, d.told key = c.told key ++ [(c.val, v)]
  silent : ∀ key ∉ c.callbacks, d.told key = c.told key

def Faithful (fromStr : String → Option T) (c : ConfigVar T) (val : String) : Prop :=
  ((c.fromString fromStr val).1 = true ↔ (fromStr val).isSome) ∧
    c.Applies fromStr val (c.fromString fromStr val).2

theorem told_notify_of_notMem (hkey : key ∉ c.callbacks) (v : T) :
    (c.notify v).told key = c.told key := by
  rw [notify]
  split_ifs with hv
  · rfl
  · have hnone : ∀ x ∈ c.callbacks.map fun key => (key, c.val, v), ¬decide (x.1 = key) = true := by
      intro x hx
      obtain ⟨k, hk, rfl⟩ := List.mem_map.mp hx
      have hne : k ≠ key := ne_of_mem_of_not_mem hk hkey
      simpa using hne
    rw [told, told, List.filter_append, List.filter_eq_nil_iff.mpr hnone, List.append_nil]

theorem applies_setValue (hnodup : c.callbacks.Nodup) {fromStr : String → Option T} {val : String}
    (hval : fromStr val = some v) : c.Applies fromStr val (c.setValue v) := by
  by_cases hv : v = c.val
  · rw [setValue, if_pos hv]
    refine ⟨rfl, fun _ => rfl, fun w hw => ?_, fun _ => rfl, fun w hw hne => ?_, fun _ _ => rfl⟩
    · rw [hval] at hw
      cases hw
      exact hv.symm
    · rw [hval] at hw
      cases hw
      exact absurd hv hne
  · rw [setValue, if_neg hv]
    have hcallbacks : (c.notify v).callbacks = c.callbacks := by rw [notify, if_neg hv]
    refine ⟨hcallbacks, fun h => ?_, fun w hw => ?_, fun h => ?_, fun w hw hne key hkey => ?_,
      fun key hkey => told_notify_of_notMem hkey v⟩
    · rw [hval] at h
      cases h
    · rw [hval] at hw
      cases hw
      rfl
    · rw [hval] at h
      cases h
      exact absurd rfl hv
    · rw [hval] at hw
      cases hw
      exact told_notify hnodup hkey hne

theorem applies_fromString (fromStr : String → Option T) (hnodup : c.callbacks.Nodup)
    (val : String) : c.Applies fromStr val (c.fromString fromStr val).2 := by
  cases hval : fromStr val with
  | some v =>
    rw [fromString, hval]
    exact applies_setValue hnodup hval
  | none =>
    rw [fromString, hval]
    refine ⟨rfl, fun _ => rfl, fun w hw => ?_, fun _ => rfl, fun w hw => ?_, fun _ _ => rfl⟩
    · rw [hval] at hw
      cases hw
    · rw [hval] at hw
      cases hw

theorem fromString_returns (fromStr : String → Option T) (c : ConfigVar T) (val : String) :
    (c.fromString fromStr val).1 = false := by
  rw [fromString]
  split <;> rfl

end ConfigVar

/-- Values and notifications are right for every text, but the flag is so only for the texts that
cannot be converted. -/
theorem from_string_faithful_iff {T : Type} [DecidableEq T] (fromStr : String → Option T)
    (c : ConfigVar T) (hsorted : c.callbacks.Pairwise (· < ·)) (val : String) :
    c.Applies fromStr val (c.fromString fromStr val).2 ∧
      (c.Faithful fromStr val ↔ fromStr val = none) := by
  have happlies := ConfigVar.applies_fromString fromStr (hsorted.imp Nat.ne_of_lt) val
  refine ⟨happlies, ?_⟩
  rw [ConfigVar.Faithful, ConfigVar.fromString_returns, and_iff_left happlies]
  simp

theorem from_string_faithful_iff_letters :
    (⟨0, [1, 2], [], []⟩ : ConfigVar Int32).Faithful lexicalCastInt "x" :=
  (from_string_faithful_iff lexicalCastInt ⟨0, [1, 2], [], []⟩ (by decide) "x").2.mpr (by decide)

/-- The listeners are told of the change from 0 to 5, and the result is false. -/
theorem converted_reports_false :
    lexicalCastInt "5" = some 5 ∧
      (⟨0, [1, 2], [], []⟩ : ConfigVar Int32).fromString lexicalCastInt "5" =
        (false, ⟨5, [1, 2], [], [(1, 0, 5), (2, 0, 5)]⟩) ∧
      ¬(⟨0, [1, 2], [], []⟩ : ConfigVar Int32).Faithful lexicalCastInt "5" := by
  have hfive : lexicalCastInt "5" = some 5 := by decide
  refine ⟨hfive, ?_, fun h => ?_⟩
  · rw [ConfigVar.fromString, hfive]
    rfl
  · have hsome := h.1
    rw [ConfigVar.fromString_returns, hfive] at hsome
    exact absurd hsome (by decide)

/-- A `ConfigVarBase` of the registry: a variable of some type with its conversion. -/
structure Var : Type 1 where
  T : Type
  [eq : DecidableEq T]
  typeName : String
  fromStr : String → Option T
  var : ConfigVar T

attribute [instance] Var.eq

def Var.fromString (x : Var) (val : String) : Var :=
  { x with var := (x.var.fromString x.fromStr val).2 }

def Var.converts (x : Var) (val : String) : Bool := (x.fromStr val).isSome

def validChar : List Char := "abcdefghikjlmnopqrstuvwxyz._0123456789".toList

def isValidName (name : String) : Bool := name.toList.all validChar.contains

/-- `GetDatas()`. -/
structure Registry : Type 1 where
  datas : List (String × Var)
  nodup : (datas.map (·.1)).Nodup
  valid : ∀ e ∈ datas, isValidName e.1 = true

/-- `std::transform` with `::tolower`. -/
def tolower (s : String) : String := String.ofList (s.toList.map Char.toLower)

namespace Registry

def lookupBase (r : Registry) (name : String) : Option Var :=
  (r.datas.find? (·.1 = name)).map (·.2)

theorem notMem_of_lookupBase {r : Registry} {name : String} (h : r.lookupBase name = none) :
    name ∉ r.datas.map (·.1) := by
  intro hmem
  obtain ⟨e, he, rfl⟩ := List.mem_map.mp hmem
  have hfind := List.find?_eq_none.mp (Option.map_eq_none_iff.mp h) e he
  simp at hfind

theorem nodup_append_one (r : Registry) {name : String} (h : r.lookupBase name = none) (v : Var) :
    ((r.datas ++ [(name, v)]).map (·.1)).Nodup := by
  rw [List.map_append]
  exact r.nodup.append (List.nodup_singleton name) (by simpa using notMem_of_lookupBase h)

/-- `Lookup` with the variable it would create. It throws `std::invalid_argument`, and the result is
null if the variable that is there has another type. -/
def lookup (r : Registry) (name : String) (v : Var) : Except String (Option Var × Registry) :=
  match h : r.lookupBase name with
  | some w => .ok (if w.typeName = v.typeName then some w else none, r)
  | none =>
    if hvalid : isValidName name = true then
      .ok (some v, ⟨r.datas ++ [(name, v)], nodup_append_one r h v,
        by simpa [or_imp, forall_and, hvalid] using r.valid⟩)
    else .error name

theorem lookupBase_lookup {r r' : Registry} {name : String} {v w : Var}
    (h : r.lookup name v = .ok (some w, r')) :
    r'.lookupBase name = some w ∧ ∀ other ≠ name, r'.lookupBase other = r.lookupBase other := by
  rw [lookup] at h
  split at h
  · next x hx =>
    split_ifs at h with htype
    · cases h
      exact ⟨hx, fun _ _ => rfl⟩
    · cases h
  · next hnone =>
    split_ifs at h with hvalid
    cases h
    refine ⟨?_, fun other hother => ?_⟩
    · rw [lookupBase, List.find?_append, Option.map_eq_none_iff.mp hnone]
      simp
    · simp [lookupBase, List.find?_append, Ne.symm hother]

def fromString (r : Registry) (name val : String) : Registry where
  datas := r.datas.map fun e => (e.1, if e.1 = name then e.2.fromString val else e.2)
  nodup := by
    rw [List.map_map]
    exact r.nodup
  valid := by
    intro e he
    obtain ⟨e, hmem, rfl⟩ := List.mem_map.mp he
    exact r.valid e hmem

theorem lookupBase_fromString (r : Registry) (name val v : String) :
    (r.fromString name val).lookupBase v =
      (r.lookupBase v).map fun x => if v = name then x.fromString val else x := by
  have hkey : ((fun e : String × Var => decide (e.1 = v)) ∘ fun e : String × Var =>
      (e.1, if e.1 = name then e.2.fromString val else e.2)) = fun e => decide (e.1 = v) := rfl
  rw [lookupBase, fromString, List.find?_map, hkey, lookupBase]
  cases hfind : r.datas.find? fun e => decide (e.1 = v) with
  | none => rfl
  | some e =>
    obtain rfl : e.1 = v := by simpa using List.find?_some hfind
    rfl

end Registry

def extend (path key : String) : String := if path = "" then key else path ++ "." ++ key

mutual
def listAllMember (path : String) : Node → List (String × Node)
  | .null => [(path, .null)]
  | .scalar s => [(path, .scalar s)]
  | .seq items => [(path, .seq items)]
  | .map entries => (path, .map entries) :: listMembers path entries

def listMembers (path : String) : List (Node × Node) → List (String × Node)
  | [] => []
  | (k, v) :: es => listAllMember (extend path k.text) v ++ listMembers path es
end

mutual
/-- The nodes of a document in pre-order with the keys on the way to them. -/
def nodes (path : List String) : Node → List (List String × Node)
  | .null => [(path, .null)]
  | .scalar s => [(path, .scalar s)]
  | .seq items => [(path, .seq items)]
  | .map entries => (path, .map entries) :: nodesOf path entries

def nodesOf (path : List String) : List (Node × Node) → List (List String × Node)
  | [] => []
  | (k, v) :: es => nodes (path ++ [k.text]) v ++ nodesOf path es
end

def nodeText (emit : Node → String) : Node → String
  | .scalar s => s
  | n => emit n

structure Loading : Type 1 where
  datas : Registry
  calls : List (Option (String × String))

namespace Loading
variable (emit : Node → String)

def visit (datas : Registry) (i : String × Node) : Option (String × String) :=
  if i.1 = "" then none
  else
    match datas.lookupBase (tolower i.1) with
    | some _ => some (tolower i.1, nodeText emit i.2)
    | none => none

def step (s : Loading) (i : String × Node) : Loading where
  datas :=
    match visit emit s.datas i with
    | some (name, val) => s.datas.fromString name val
    | none => s.datas
  calls := s.calls ++ [visit emit s.datas i]

end Loading

/-- `LoadFromYaml`, with the call of each node of the document. -/
def loadFromYaml (emit : Node → String) (datas : Registry) (root : Node) : Loading :=
  (listAllMember "" root).foldl (Loading.step emit) ⟨datas, []⟩

section Names

def name (path : List String) : String := path.foldl extend ""

def joined (path : List String) : String := ".".intercalate path

mutual
theorem listAllMember_eq (path : List String) : (n : Node) →
    listAllMember (name path) n = (nodes path n).map fun e => (name e.1, e.2)
  | .null => rfl
  | .scalar _ => rfl
  | .seq _ => rfl
  | .map entries => by rw [listAllMember, nodes, List.map_cons, listMembers_eq]

theorem listMembers_eq (path : List String) : (es : List (Node × Node)) →
    listMembers (name path) es = (nodesOf path es).map fun e => (name e.1, e.2)
  | [] => rfl
  | (k, v) :: es => by
    have hname : extend (name path) k.text = name (path ++ [k.text]) := by
      rw [name, name, List.foldl_append]
      rfl
    rw [listMembers, nodesOf, List.map_append, hname, listAllMember_eq, listMembers_eq]
end

theorem foldl_extend {path : String} (h : path ≠ "") (ks : List String) :
    ks.foldl extend path = joined (path :: ks) := by
  induction ks generalizing path with
  | nil => rfl
  | cons k ks ih =>
    have hne : path ++ "." ++ k ≠ "" := by
      intro hnil
      have hlength := congrArg String.length hnil
      simp at hlength
    rw [List.foldl_cons, extend, if_neg h, ih hne, joined, joined]
    cases ks <;> simp [String.intercalate_cons_cons, String.append_assoc]

theorem name_eq (path : List String) : name path = joined (path.dropWhile (· = "")) := by
  induction path with
  | nil => rfl
  | cons k ks ih =>
    by_cases hk : k = ""
    · subst hk
      exact ih
    · rw [List.dropWhile_cons_of_neg (by simpa using hk), ← foldl_extend hk]
      rfl

theorem name_eq_joined {path : List String} (h : path.head? ≠ some "") :
    name path = joined path := by
  rw [name_eq]
  cases path with
  | nil => rfl
  | cons k ks => rw [List.dropWhile_cons_of_neg (by simpa using h)]

theorem length_joined_cons (k : String) {ks : List String} (h : ks ≠ []) :
    (joined (k :: ks)).length = k.length + 1 + (joined ks).length := by
  obtain ⟨l, ls, rfl⟩ := List.exists_cons_of_ne_nil h
  rw [joined, String.intercalate_cons_cons, String.length_append, String.length_append]
  rfl

theorem length_name_le (path : List String) : (name path).length ≤ (joined path).length := by
  induction path with
  | nil => exact le_rfl
  | cons k ks ih =>
    by_cases hk : k = ""
    · subst hk
      cases ks with
      | nil => exact le_rfl
      | cons l ls =>
        rw [length_joined_cons "" (List.cons_ne_nil l ls)]
        exact ih.trans (Nat.le_add_left ..)
    · rw [name_eq_joined (by simpa using hk)]

theorem length_tolower (s : String) : (tolower s).length = s.length := by
  rw [tolower, String.length_ofList, List.length_map, String.length_toList]

/-- Behind an empty first key the two names differ. -/
theorem tolower_name_ne {k : String} {ks : List String} :
    tolower (name ("" :: k :: ks)) ≠ tolower (joined ("" :: k :: ks)) := by
  intro heq
  have hlength := congrArg String.length heq
  rw [length_tolower, length_tolower, length_joined_cons "" (List.cons_ne_nil k ks)] at hlength
  have hle : (name ("" :: k :: ks)).length ≤ (joined (k :: ks)).length := length_name_le (k :: ks)
  omega

end Names

theorem Var.fromString_of_not_converts {x : Var} {val : String} (h : x.converts val = false) :
    x.fromString val = x := by
  have hnone : x.fromStr val = none := by simpa [converts] using h
  rw [fromString, ConfigVar.fromString, hnone]

theorem Var.foldl_fromString (x : Var) (vals : List String) :
    vals.foldl fromString x = (vals.filter x.converts).foldl fromString x := by
  induction vals generalizing x with
  | nil => rfl
  | cons val vals ih =>
    have hkeep : (x.fromString val).converts = x.converts := rfl
    rw [List.foldl_cons, ih, hkeep, List.filter_cons]
    cases hval : x.converts val with
    | true => rfl
    | false => rw [fromString_of_not_converts hval]; rfl

def textsFor (v : String) (calls : List (Option (String × String))) : List String :=
  calls.filterMap fun call => call.bind fun c => if c.1 = v then some c.2 else none

namespace Loading
variable {emit : Node → String}

theorem visit_congr {datas datas' : Registry}
    (h : ∀ name, (datas'.lookupBase name).isSome = (datas.lookupBase name).isSome)
    (i : String × Node) : visit emit datas' i = visit emit datas i := by
  have hname := h (tolower i.1)
  rw [visit, visit]
  cases hl : datas.lookupBase (tolower i.1) <;> cases hl' : datas'.lookupBase (tolower i.1) <;>
    simp [hl, hl'] at hname ⊢

theorem lookupBase_step (s : Loading) (i : String × Node) (v : String) :
    (s.step emit i).datas.lookupBase v =
      (s.datas.lookupBase v).map fun x =>
        (textsFor v [visit emit s.datas i]).foldl Var.fromString x := by
  cases hcall : visit emit s.datas i with
  | none => simp [step, hcall, textsFor]
  | some call =>
    rw [step, hcall]
    refine (Registry.lookupBase_fromString ..).trans ?_
    by_cases hv : v = call.1
    · simp [textsFor, hv]
    · simp [textsFor, hv, Ne.symm hv]

theorem visit_step (s : Loading) (i j : String × Node) :
    visit emit (s.step emit i).datas j = visit emit s.datas j := by
  refine visit_congr (fun name => ?_) j
  rw [lookupBase_step, Option.isSome_map]

theorem foldl_step (emit : Node → String) (l : List (String × Node)) (s : Loading) :
    (l.foldl (step emit) s).calls = s.calls ++ l.map (visit emit s.datas) ∧
      ∀ v, (l.foldl (step emit) s).datas.lookupBase v =
        (s.datas.lookupBase v).map fun x =>
          (textsFor v (l.map (visit emit s.datas))).foldl Var.fromString x := by
  induction l generalizing s with
  | nil => simp [textsFor]
  | cons i l ih =>
    obtain ⟨hcalls, hdatas⟩ := ih (s.step emit i)
    have hvisit : l.map (visit emit (s.step emit i).datas) = l.map (visit emit s.datas) :=
      List.map_congr_left fun j _ => visit_step s i j
    rw [hvisit] at hcalls hdatas
    constructor
    · rw [List.foldl_cons, hcalls, step, List.append_assoc]
      rfl
    · intro v
      have hsplit : textsFor v ((i :: l).map (visit emit s.datas)) =
          textsFor v [visit emit s.datas i] ++ textsFor v (l.map (visit emit s.datas)) :=
        List.filterMap_append (l := [visit emit s.datas i])
      rw [List.foldl_cons, hdatas, lookupBase_step, Option.map_map, hsplit]
      simp only [List.foldl_append]
      rfl

end Loading

section Addressing
variable {emit : Node → String} {datas : Registry} {root : Node}

def expected (emit : Node → String) (datas : Registry) (e : List String × Node) :
    Option (String × String) :=
  (datas.lookupBase (tolower (joined e.1))).map fun _ => (tolower (joined e.1), nodeText emit e.2)

def Addressed (emit : Node → String) (datas : Registry) (root : Node) : Prop :=
  (loadFromYaml emit datas root).calls = (nodes [] root).map (expected emit datas)

/-- No variable has an empty name, and a path with an empty first key is the name of no variable,
with the empty keys at the front or without them. -/
structure Plain (datas : Registry) (root : Node) : Prop where
  unnamed : datas.lookupBase "" = none
  leading : ∀ e ∈ nodes [] root, e.1.head? = some "" →
    datas.lookupBase (tolower (joined e.1)) = none ∧
      datas.lookupBase (tolower (joined (e.1.dropWhile (· = "")))) = none

theorem calls_eq (emit : Node → String) (datas : Registry) (root : Node) :
    (loadFromYaml emit datas root).calls =
      (nodes [] root).map fun e => Loading.visit emit datas (name e.1, e.2) := by
  rw [loadFromYaml, (Loading.foldl_step emit _ _).1]
  change (listAllMember (name []) root).map (Loading.visit emit datas) = _
  rw [listAllMember_eq, List.map_map]
  rfl

theorem visit_of_ne {s : String} (h : s ≠ "") (n : Node) :
    Loading.visit emit datas (s, n) =
      (datas.lookupBase (tolower s)).map fun _ => (tolower s, nodeText emit n) := by
  rw [Loading.visit, if_neg h]
  cases datas.lookupBase (tolower s) <;> rfl

theorem visit_eq_none_iff (hunnamed : datas.lookupBase "" = none) (s : String) (n : Node) :
    Loading.visit emit datas (s, n) = none ↔ datas.lookupBase (tolower s) = none := by
  by_cases hs : s = ""
  · subst hs
    exact ⟨fun _ => hunnamed, fun _ => rfl⟩
  · rw [visit_of_ne hs, Option.map_eq_none_iff]

theorem visit_joined (hunnamed : datas.lookupBase "" = none) (e : List String × Node) :
    Loading.visit emit datas (joined e.1, e.2) = expected emit datas e := by
  by_cases hs : joined e.1 = ""
  · rw [expected, hs]
    exact (Option.map_eq_none_iff.mpr hunnamed).symm
  · exact visit_of_ne hs e.2

theorem fst_of_visit {s : String} {n : Node} {call : String × String}
    (h : Loading.visit emit datas (s, n) = some call) : call.1 = tolower s := by
  by_cases hs : s = ""
  · subst hs
    cases h
  · rw [visit_of_ne hs] at h
    obtain ⟨-, -, rfl⟩ := Option.map_eq_some_iff.mp h
    rfl

theorem expected_eq_none (hunnamed : datas.lookupBase "" = none) {path : List String} {n : Node}
    (hhead : path.head? = some "")
    (heq : Loading.visit emit datas (name path, n) = expected emit datas (path, n)) :
    expected emit datas (path, n) = none := by
  obtain ⟨ks, rfl⟩ := List.head?_eq_some_iff.mp hhead
  cases ks with
  | nil => exact Option.map_eq_none_iff.mpr hunnamed
  | cons k ks =>
    refine Option.eq_none_iff_forall_ne_some.mpr fun call hcall => ?_
    have hname := fst_of_visit (heq.trans hcall)
    obtain ⟨-, -, rfl⟩ := Option.map_eq_some_iff.mp hcall
    exact tolower_name_ne hname.symm

theorem visit_eq_expected_iff (hunnamed : datas.lookupBase "" = none) (path : List String)
    (n : Node) :
    Loading.visit emit datas (name path, n) = expected emit datas (path, n) ↔
      (path.head? = some "" → datas.lookupBase (tolower (joined path)) = none ∧
        datas.lookupBase (tolower (joined (path.dropWhile (· = "")))) = none) := by
  by_cases hhead : path.head? = some ""
  · rw [imp_iff_right hhead, ← name_eq]
    constructor
    · intro heq
      have hnone := expected_eq_none hunnamed hhead heq
      rw [hnone, visit_eq_none_iff hunnamed] at heq
      exact ⟨Option.map_eq_none_iff.mp hnone, heq⟩
    · rintro ⟨hjoined, hname⟩
      rw [(visit_eq_none_iff hunnamed _ _).mpr hname, expected, hjoined, Option.map_none]
  · refine ⟨fun _ h => absurd h hhead, fun _ => ?_⟩
    rw [name_eq_joined hhead]
    exact visit_joined hunnamed (path, n)

theorem mem_nodes_root (root : Node) : ([], root) ∈ nodes [] root := by
  cases root <;> exact List.mem_cons_self

theorem addressed_iff (emit : Node → String) (datas : Registry) (root : Node) :
    Addressed emit datas root ↔ Plain datas root := by
  rw [Addressed, calls_eq, List.map_inj_left]
  constructor
  · intro h
    have hunnamed : datas.lookupBase "" = none :=
      Option.map_eq_none_iff.mp (h ([], root) (mem_nodes_root root)).symm
    exact ⟨hunnamed, fun e he => (visit_eq_expected_iff hunnamed e.1 e.2).mp (h e he)⟩
  · intro h e he
    exact (visit_eq_expected_iff h.unnamed e.1 e.2).mpr (h.leading e he)

end Addressing

/-- The calls are those of the addressed variables exactly for plain documents. For every document a
variable goes through the texts of its calls, of which those that cannot be converted change
nothing, and no variable is added or removed. -/
theorem load_addresses_iff (emit : Node → String) (datas : Registry) (root : Node) :
    (Addressed emit datas root ↔ Plain datas root) ∧
      ∀ v, (loadFromYaml emit datas root).datas.lookupBase v =
        (datas.lookupBase v).map fun x =>
          ((textsFor v (loadFromYaml emit datas root).calls).filter x.converts).foldl
            Var.fromString x := by
  refine ⟨addressed_iff emit datas root, fun v => ?_⟩
  have hload := Loading.foldl_step emit (listAllMember "" root) ⟨datas, []⟩
  rw [loadFromYaml, hload.1, hload.2]
  simp only [← Var.foldl_fromString]
  rfl

def Registry.one (name : String) (h : isValidName name = true) (val : Int32) : Registry where
  datas := [(name, ⟨Int32, "i", lexicalCastInt, ⟨val, [], [], []⟩⟩)]
  nodup := List.nodup_singleton name
  valid := by simpa using h

/-- A document that sets the variable `a` by the path `.a`. -/
theorem empty_key_ignored :
    let datas := Registry.one "a" (by decide) 0
    let root := Node.map [(.scalar "", .map [(.scalar "a", .scalar "5")])]
    (nodes [] root).map (fun e => joined e.1) = ["", "", ".a"] ∧
      (loadFromYaml Block.emit datas root).calls = [none, none, some ("a", "5")] ∧
      ¬Addressed Block.emit datas root := by
  intro datas root
  have hcalls : (loadFromYaml Block.emit datas root).calls = [none, none, some ("a", "5")] := by
    decide
  refine ⟨by decide, hcalls, fun h => ?_⟩
  rw [Addressed, hcalls] at h
  exact absurd h (by decide)

end ApexStorm.Config
