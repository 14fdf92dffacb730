import ApexStorm.Lib.Yaml

/-!
# Nodes in block style

A format of nodes: the items of a sequence hang on dashes, the values of a map stand
behind or below their keys, and scalars are quoted unless they are plain. The reader goes
down with the indentation and gives back every node that was printed.
-/

namespace ApexStorm.Lib.Yaml.Block

abbrev Line := List Char

section Scalars

def plainChar (c : Char) : Bool := c.isAlphanum || c = '-' || c = '_' || c = '.' || c = '/'

def plainHead : Line → Bool
  | [] => false
  | '-' :: d :: _ => d.isDigit
  | c :: _ => c.isAlphanum

def plain (cs : Line) : Bool :=
  cs.all plainChar && plainHead cs && String.ofList cs ∉ ["null", "Null", "NULL"]

def escape : Char → Line
  | '"' => ['\\', '"']
  | '\\' => ['\\', '\\']
  | '\n' => ['\\', 'n']
  | c => [c]

def scalarText (s : String) : Line :=
  if plain s.toList then s.toList else '"' :: (s.toList.flatMap escape ++ ['"'])

def readQuoted : Line → Option (List Char × Line)
  | [] => none
  | '"' :: cs => some ([], cs)
  | '\\' :: 'n' :: cs => (readQuoted cs).map fun p => ('\n' :: p.1, p.2)
  | '\\' :: c :: cs => (readQuoted cs).map fun p => (c :: p.1, p.2)
  | c :: cs => (readQuoted cs).map fun p => (c :: p.1, p.2)

def readToken : Line → Option (Node × Line)
  | '~' :: cs => some (.null, cs)
  | '[' :: ']' :: cs => some (.seq [], cs)
  | '\x7b' :: '\x7d' :: cs => some (.map [], cs)
  | '"' :: cs => (readQuoted cs).map fun p => (.scalar (String.ofList p.1), p.2)
  | cs =>
    if cs.takeWhile plainChar = [] then none
    else some (.scalar (String.ofList (cs.takeWhile plainChar)), cs.dropWhile plainChar)

theorem readQuoted_escape (cs rest : List Char) :
    readQuoted (cs.flatMap escape ++ '"' :: rest) = some (cs, rest) := by
  induction cs with
  | nil => rfl
  | cons c cs ih =>
    rw [List.flatMap_cons, List.append_assoc]
    by_cases hquote : c = '"'
    · subst hquote
      simp [escape, readQuoted, ih]
    by_cases hslash : c = '\\'
    · subst hslash
      simp [escape, readQuoted, ih]
    by_cases hline : c = '\n'
    · subst hline
      simp [escape, readQuoted, ih]
    simp [escape, hslash, readQuoted, ih]

theorem takeWhile_plain {cs rest : Line} (hcs : cs.all plainChar = true)
    (hrest : rest.head?.all fun c => !plainChar c) :
    (cs ++ rest).takeWhile plainChar = cs ∧ (cs ++ rest).dropWhile plainChar = rest := by
  rw [List.all_eq_true] at hcs
  rw [List.takeWhile_append_of_pos hcs, List.dropWhile_append_of_pos hcs]
  cases rest with
  | nil => simp
  | cons c rest =>
    have hc : plainChar c = false := by simpa using hrest
    simp [hc]

theorem readToken_of_plainChar {c : Char} (hc : plainChar c = true) (cs : Line) :
    readToken (c :: cs) = some (.scalar (String.ofList ((c :: cs).takeWhile plainChar)),
      (c :: cs).dropWhile plainChar) := by
  have hne : (c :: cs).takeWhile plainChar ≠ [] := by simp [hc]
  rw [readToken.eq_def]
  split
  · next heq =>
    cases heq
    exact absurd hc (by decide)
  · next heq =>
    cases heq
    exact absurd hc (by decide)
  · next heq =>
    cases heq
    exact absurd hc (by decide)
  · next heq =>
    cases heq
    exact absurd hc (by decide)
  · rw [if_neg hne]

theorem plain_cons {cs : Line} (h : plain cs = true) :
    ∃ c cs', cs = c :: cs' ∧ cs.all plainChar = true := by
  rw [plain, Bool.and_eq_true, Bool.and_eq_true] at h
  cases cs with
  | nil => exact absurd h.1.2 (by decide)
  | cons c cs => exact ⟨c, cs, rfl, h.1.1⟩

theorem readToken_plain {cs rest : Line} (h : plain cs = true)
    (hrest : rest.head?.all fun c => !plainChar c) :
    readToken (cs ++ rest) = some (.scalar (String.ofList cs), rest) := by
  obtain ⟨c, cs, rfl, hall⟩ := plain_cons h
  obtain ⟨htake, hdrop⟩ := takeWhile_plain hall hrest
  have hc : plainChar c = true := List.all_eq_true.mp hall c List.mem_cons_self
  rw [List.cons_append] at htake hdrop ⊢
  rw [readToken_of_plainChar hc, htake, hdrop]

theorem readToken_scalarText (s : String) {rest : Line}
    (hrest : rest.head?.all fun c => !plainChar c) :
    readToken (scalarText s ++ rest) = some (.scalar s, rest) := by
  rw [scalarText]
  split_ifs with hplain
  · rw [readToken_plain hplain hrest, String.ofList_toList]
  · rw [List.cons_append, List.append_assoc]
    simp [readToken, readQuoted_escape]

end Scalars
def inline : Node → Option Line
  | .null => some ['~']
  | .scalar s => some (scalarText s)
  | .seq [] => some ['[', ']']
  | .map [] => some ['\x7b', '\x7d']
  | _ => none

def indent (l : Line) : Line := ' ' :: ' ' :: l

/-- The first line behind a mark and the others below it. -/
def hang (c : Char) : List Line → List Line
  | [] => []
  | l :: ls => (c :: ' ' :: l) :: ls.map indent

def entry (k v : Node) (kl vl : List Line) : List Line :=
  match k, inline v with
  | .scalar s, some t => [scalarText s ++ ':' :: ' ' :: t]
  | .scalar s, none => (scalarText s ++ [':']) :: vl.map indent
  | _, _ => hang '?' kl ++ hang ':' vl

def orElse (l : Line) : List Line → List Line
  | [] => [l]
  | l' :: ls => l' :: ls

mutual
def lines : Node → List Line
  | .null => [['~']]
  | .scalar s => [scalarText s]
  | .seq items => orElse ['[', ']'] (itemLines items)
  | .map entries => orElse ['\x7b', '\x7d'] (entryLines entries)

def itemLines : List Node → List Line
  | [] => []
  | n :: ns => hang '-' (lines n) ++ itemLines ns

def entryLines : List (Node × Node) → List Line
  | [] => []
  | (k, v) :: es => entry k v (lines k) (lines v) ++ entryLines es
end

def indented (l : Line) : Bool := l.take 2 = [' ', ' ']

def below (ls : List Line) : List Line := (ls.takeWhile indented).map (·.drop 2)

def behind (ls : List Line) : List Line := ls.dropWhile indented

mutual
def read : ℕ → List Line → Option Node
  | 0, _ => none
  | _ + 1, [] => none
  | f + 1, ('-' :: ' ' :: l) :: ls => (readItems f (('-' :: ' ' :: l) :: ls)).map .seq
  | f + 1, ('?' :: ' ' :: l) :: ls => (readEntries f (('?' :: ' ' :: l) :: ls)).map .map
  | f + 1, l :: ls =>
    match readToken l with
    | some (n, []) => if ls = [] then some n else none
    | some (_, ':' :: _) => (readEntries f (l :: ls)).map .map
    | _ => none

def readItems : ℕ → List Line → Option (List Node)
  | 0, _ => none
  | _ + 1, [] => some []
  | f + 1, ('-' :: ' ' :: l) :: ls => do
    let n ← read f (l :: below ls)
    let ns ← readItems f (behind ls)
    return n :: ns
  | _ + 1, _ => none

def readEntries : ℕ → List Line → Option (List (Node × Node))
  | 0, _ => none
  | _ + 1, [] => some []
  | f + 1, ('?' :: ' ' :: l) :: ls => do
    let k ← read f (l :: below ls)
    match behind ls with
    | (':' :: ' ' :: l) :: ls =>
      let v ← read f (l :: below ls)
      let es ← readEntries f (behind ls)
      return (k, v) :: es
    | _ => none
  | f + 1, l :: ls =>
    match readToken l with
    | some (k, ':' :: ' ' :: t) =>
      match readToken t with
      | some (v, []) => (readEntries f ls).map ((k, v) :: ·)
      | _ => none
    | some (k, [':']) => do
      let v ← read f (below ls)
      let es ← readEntries f (behind ls)
      return (k, v) :: es
    | _ => none
end

def weight (ls : List Line) : ℕ := (ls.map fun l => l.length + 1).sum

def emit (n : Node) : String := String.ofList (['\n'].intercalate (lines n))

def load (text : String) : Option Node :=
  if text = "" then some .null
  else read (2 * weight (text.toList.splitOn '\n')) (text.toList.splitOn '\n')

example : emit (.seq [.map [(.scalar "name", .scalar "root"), (.scalar "on", .seq [.scalar "a b"])],
    .scalar "-1"]) = "- name: root\n  on:\n    - \"a b\"\n- -1" := by
  decide

section Lines
variable {l : Line} {ls rest : List Line}

def Fresh (ls : List Line) : Prop := ∀ l ∈ ls.head?, indented l = false

theorem below_append (ls : List Line) (h : Fresh rest) : below (ls.map indent ++ rest) = ls := by
  have hindent : ∀ l ∈ ls.map indent, indented l = true := by
    intro l hl
    obtain ⟨l, -, rfl⟩ := List.mem_map.mp hl
    rfl
  have hrest : rest.takeWhile indented = [] := by
    cases rest with
    | nil => rfl
    | cons l rest => rw [List.takeWhile_cons_of_neg (by simp [h l rfl])]
  rw [below, List.takeWhile_append_of_pos hindent, hrest, List.append_nil, List.map_map]
  exact List.map_id ls

theorem behind_append (ls : List Line) (h : Fresh rest) :
    behind (ls.map indent ++ rest) = rest := by
  have hindent : ∀ l ∈ ls.map indent, indented l = true := by
    intro l hl
    obtain ⟨l, -, rfl⟩ := List.mem_map.mp hl
    rfl
  rw [behind, List.dropWhile_append_of_pos hindent]
  cases rest with
  | nil => rfl
  | cons l rest => rw [List.dropWhile_cons_of_neg (by simp [h l rfl])]

@[simp] theorem weight_cons (l : Line) (ls : List Line) :
    weight (l :: ls) = l.length + 1 + weight ls := by
  simp [weight]

@[simp] theorem weight_append (ls ls' : List Line) :
    weight (ls ++ ls') = weight ls + weight ls' := by
  simp [weight]

theorem le_weight_indent (ls : List Line) : weight ls ≤ weight (ls.map indent) := by
  induction ls with
  | nil => exact le_rfl
  | cons l ls ih =>
    rw [List.map_cons, weight_cons, weight_cons, indent, List.length_cons, List.length_cons]
    omega

def Begins (ls : List Line) : Prop := ∃ c l ls', ls = (c :: l) :: ls' ∧ c ≠ ' '

theorem Begins.fresh (h : Begins ls) : Fresh ls := by
  obtain ⟨c, l, ls', rfl, hc⟩ := h
  intro l' hl'
  obtain rfl : c :: l = l' := Option.some.inj hl'
  simp [indented, hc]

theorem begins_scalarText (s : String) (l : Line) (ls : List Line) :
    Begins ((scalarText s ++ l) :: ls) := by
  rw [scalarText]
  split_ifs with hplain
  · obtain ⟨c, cs, hcs, hall⟩ := plain_cons hplain
    rw [hcs] at hall ⊢
    refine ⟨c, cs ++ l, ls, rfl, fun hc => ?_⟩
    subst hc
    exact absurd (List.all_eq_true.mp hall ' ' List.mem_cons_self) (by decide)
  · exact ⟨'"', _, ls, rfl, by decide⟩

theorem begins_hang {c : Char} (hc : c ≠ ' ') (hls : ls ≠ []) (rest : List Line) :
    Begins (hang c ls ++ rest) := by
  obtain ⟨l, ls, rfl⟩ := List.exists_cons_of_ne_nil hls
  exact ⟨c, ' ' :: l, _, rfl, hc⟩

theorem entry_cases (k v : Node) (kl vl : List Line) :
    (∃ s t, k = .scalar s ∧ inline v = some t ∧
      entry k v kl vl = [scalarText s ++ ':' :: ' ' :: t]) ∨
    (∃ s, k = .scalar s ∧ entry k v kl vl = (scalarText s ++ [':']) :: vl.map indent) ∨
    entry k v kl vl = hang '?' kl ++ hang ':' vl := by
  cases k with
  | scalar s =>
    cases hv : inline v with
    | some t => exact .inl ⟨s, t, rfl, rfl, by simp only [entry, hv]⟩
    | none => exact .inr (.inl ⟨s, rfl, by simp only [entry, hv]⟩)
  | null => exact .inr (.inr rfl)
  | seq items => exact .inr (.inr rfl)
  | map entries => exact .inr (.inr rfl)

theorem begins_entry {k v : Node} {kl vl : List Line} (hkl : kl ≠ []) (rest : List Line) :
    Begins (entry k v kl vl ++ rest) := by
  rcases entry_cases k v kl vl with ⟨s, t, -, -, h⟩ | ⟨s, -, h⟩ | h <;> rw [h]
  · exact begins_scalarText _ _ _
  · exact begins_scalarText _ _ _
  · rw [List.append_assoc]
    exact begins_hang (by decide) hkl _

theorem orElse_of_ne {l : Line} (h : ls ≠ []) : orElse l ls = ls := by
  obtain ⟨l', ls, rfl⟩ := List.exists_cons_of_ne_nil h
  rfl

theorem Begins.ne_nil (h : Begins ls) : ls ≠ [] := by
  obtain ⟨c, l, ls', rfl, -⟩ := h
  exact List.cons_ne_nil _ _

theorem Begins.orElse {l : Line} (h : Begins [l]) (hls : ls = [] ∨ Begins ls) :
    Begins (orElse l ls) := by
  rcases hls with rfl | hls
  · exact h
  · rwa [orElse_of_ne hls.ne_nil]

theorem Begins.weight_pos (h : Begins ls) : 1 ≤ weight ls := by
  obtain ⟨c, l, ls', rfl, -⟩ := h
  rw [weight_cons]
  omega

mutual
theorem begins_lines : (n : Node) → Begins (lines n)
  | .null => ⟨'~', [], [], rfl, by decide⟩
  | .scalar s => by simpa [lines] using begins_scalarText s [] []
  | .seq items => by
    rw [lines]
    exact .orElse ⟨'[', _, _, rfl, by decide⟩ (begins_itemLines items)
  | .map entries => by
    rw [lines]
    exact .orElse ⟨_, _, _, rfl, by decide⟩ (begins_entryLines entries)

theorem begins_itemLines : (ns : List Node) → itemLines ns = [] ∨ Begins (itemLines ns)
  | [] => .inl rfl
  | n :: _ => .inr (begins_hang (by decide) (begins_lines n).ne_nil _)

theorem begins_entryLines : (es : List (Node × Node)) → entryLines es = [] ∨ Begins (entryLines es)
  | [] => .inl rfl
  | (k, _) :: _ => .inr (begins_entry (begins_lines k).ne_nil _)
end

end Lines

section Reading
variable {f : ℕ} {l : Line} {ls : List Line} {n k v : Node}

theorem inline_spec {t : Line} (h : inline n = some t) :
    lines n = [t] ∧ ∀ rest : Line, (rest.head?.all fun c => !plainChar c) →
      readToken (t ++ rest) = some (n, rest) := by
  unfold inline at h
  split at h <;> cases h
  · exact ⟨rfl, fun _ _ => rfl⟩
  · exact ⟨rfl, fun _ hrest => readToken_scalarText _ hrest⟩
  · exact ⟨rfl, fun _ _ => rfl⟩
  · exact ⟨rfl, fun _ _ => rfl⟩

theorem bare_of_readToken {rest : Line} (h : readToken l = some (n, rest))
    (hrest : rest.head? ≠ some ' ') :
    (∀ l', l = '-' :: ' ' :: l' → False) ∧ ∀ l', l = '?' :: ' ' :: l' → False := by
  constructor
  · rintro l' rfl
    rw [readToken_of_plainChar (by decide)] at h
    cases h
    exact hrest rfl
  · rintro l' rfl
    cases h

theorem read_token (h : readToken l = some (n, [])) : read (f + 1) [l] = some n := by
  obtain ⟨hdash, hmark⟩ := bare_of_readToken h nofun
  rw [read.eq_5 f l [] hdash hmark, h]
  rfl

theorem read_keyed {rest : Line} (h : readToken l = some (n, ':' :: rest)) :
    read (f + 1) (l :: ls) = (readEntries f (l :: ls)).map .map := by
  obtain ⟨hdash, hmark⟩ := bare_of_readToken h (by simp)
  rw [read.eq_5 f l ls hdash hmark, h]
  rfl

theorem readItems_hang {rest : List Line} (hls : ls ≠ []) (hrest : Fresh rest)
    {ns : List Node} (hn : read f ls = some n) (hns : readItems f rest = some ns) :
    readItems (f + 1) (hang '-' ls ++ rest) = some (n :: ns) := by
  obtain ⟨l, ls, rfl⟩ := List.exists_cons_of_ne_nil hls
  rw [hang, List.cons_append, readItems, below_append ls hrest, behind_append ls hrest, hn, hns]
  rfl

theorem head_colon (rest : Line) : ((':' :: rest).head?.all fun c => !plainChar c) = true := by
  rw [List.head?_cons]
  decide

theorem readEntries_hang {rest kl vl : List Line} (hkl : kl ≠ []) (hvl : vl ≠ [])
    (hrest : Fresh rest) {es : List (Node × Node)} (hk : read f kl = some k)
    (hv : read f vl = some v) (hes : readEntries f rest = some es) :
    readEntries (f + 1) (hang '?' kl ++ hang ':' vl ++ rest) = some ((k, v) :: es) := by
  obtain ⟨l, ls, rfl⟩ := List.exists_cons_of_ne_nil hkl
  obtain ⟨l', ls', rfl⟩ := List.exists_cons_of_ne_nil hvl
  have hvalue : Fresh (hang ':' (l' :: ls') ++ rest) :=
    (begins_hang (by decide) (List.cons_ne_nil l' ls') rest).fresh
  rw [List.append_assoc, hang, List.cons_append, readEntries, below_append ls hvalue,
    behind_append ls hvalue, hk]
  simp [hang, below_append ls' hrest, behind_append ls' hrest, hv, hes]

theorem readEntries_inline {t : Line} (hk : readToken l = some (k, ':' :: ' ' :: t))
    (hv : readToken t = some (v, [])) :
    readEntries (f + 1) (l :: ls) = (readEntries f ls).map ((k, v) :: ·) := by
  obtain ⟨-, hmark⟩ := bare_of_readToken hk (by simp)
  rw [readEntries.eq_4 f l ls hmark, hk]
  simp [hv]

theorem readEntries_block {rest vl : List Line} (hrest : Fresh rest) {es : List (Node × Node)}
    (hk : readToken l = some (k, [':'])) (hv : read f vl = some v)
    (hes : readEntries f rest = some es) :
    readEntries (f + 1) (l :: (vl.map indent ++ rest)) = some ((k, v) :: es) := by
  obtain ⟨-, hmark⟩ := bare_of_readToken hk (by simp)
  rw [readEntries.eq_4 f l _ hmark, hk]
  simp [below_append vl hrest, behind_append vl hrest, hv, hes]

theorem readEntries_entry {rest : List Line} (hrest : Fresh rest) {es : List (Node × Node)}
    (hk : read f (lines k) = some k) (hv : read f (lines v) = some v)
    (hes : readEntries f rest = some es) :
    readEntries (f + 1) (entry k v (lines k) (lines v) ++ rest) = some ((k, v) :: es) := by
  rcases entry_cases k v (lines k) (lines v) with
    ⟨s, t, rfl, hinline, h⟩ | ⟨s, rfl, h⟩ | h <;> rw [h]
  · have hvalue := (inline_spec hinline).2 [] rfl
    rw [List.append_nil] at hvalue
    rw [List.singleton_append, readEntries_inline (readToken_scalarText s (head_colon _)) hvalue,
      hes]
    rfl
  · exact readEntries_block hrest (readToken_scalarText s (head_colon _)) hv hes
  · exact readEntries_hang (begins_lines k).ne_nil (begins_lines v).ne_nil hrest hk hv hes

theorem read_entry (k v : Node) (rest : List Line) :
    read (f + 1) (entry k v (lines k) (lines v) ++ rest) =
      (readEntries f (entry k v (lines k) (lines v) ++ rest)).map .map := by
  rcases entry_cases k v (lines k) (lines v) with ⟨s, t, -, -, h⟩ | ⟨s, -, h⟩ | h <;> rw [h]
  · exact read_keyed (readToken_scalarText s (head_colon _))
  · exact read_keyed (readToken_scalarText s (head_colon _))
  · obtain ⟨l, ls, hl⟩ := List.exists_cons_of_ne_nil (begins_lines k).ne_nil
    rw [hl]
    rfl

theorem weight_hang (c : Char) (hls : ls ≠ []) : weight ls + 2 ≤ weight (hang c ls) := by
  obtain ⟨l, ls, rfl⟩ := List.exists_cons_of_ne_nil hls
  have hle := le_weight_indent ls
  rw [hang, weight_cons, weight_cons, List.length_cons, List.length_cons]
  omega

theorem weight_entry (k v : Node) :
    weight (lines k) + 2 ≤ weight (entry k v (lines k) (lines v)) ∧
      weight (lines v) + 2 ≤ weight (entry k v (lines k) (lines v)) := by
  rcases entry_cases k v (lines k) (lines v) with
    ⟨s, t, rfl, hinline, h⟩ | ⟨s, rfl, h⟩ | h <;> rw [h]
  · rw [(inline_spec hinline).1]
    simp [lines, weight]
  · have hle := le_weight_indent (lines v)
    have hpos := (begins_lines v).weight_pos
    simp only [lines, weight_cons, List.length_append, List.length_singleton]
    constructor
    · change (scalarText s).length + 1 + 0 + 2 ≤ _
      omega
    · omega
  · have hk := weight_hang '?' (begins_lines k).ne_nil
    have hv := weight_hang ':' (begins_lines v).ne_nil
    rw [weight_append]
    omega

theorem fresh_of_begins (h : ls = [] ∨ Begins ls) : Fresh ls := by
  rcases h with rfl | h
  · exact nofun
  · exact h.fresh

theorem read_hang (hls : ls ≠ []) (rest : List Line) :
    read (f + 1) (hang '-' ls ++ rest) = (readItems f (hang '-' ls ++ rest)).map .seq := by
  obtain ⟨l, ls, rfl⟩ := List.exists_cons_of_ne_nil hls
  rfl

mutual
theorem read_lines : (n : Node) → ∀ f, 2 * weight (lines n) ≤ f → read f (lines n) = some n
  | .null, f, hf => by
    obtain ⟨f, rfl⟩ := Nat.exists_eq_add_of_le' (show 1 ≤ f by simp [lines, weight] at hf; omega)
    exact read_token rfl
  | .scalar s, f, hf => by
    obtain ⟨f, rfl⟩ := Nat.exists_eq_add_of_le' (show 1 ≤ f by simp [lines, weight] at hf; omega)
    have htoken : readToken (scalarText s ++ []) = some (.scalar s, []) :=
      readToken_scalarText s rfl
    rw [List.append_nil] at htoken
    exact read_token htoken
  | .seq items, f, hf => by
    have ih := readItems_lines items
    have hpos := (begins_lines (.seq items)).weight_pos
    obtain ⟨f, rfl⟩ := Nat.exists_eq_add_of_le' (show 1 ≤ f by omega)
    cases items with
    | nil => exact read_token rfl
    | cons n ns =>
      have hlines : lines (.seq (n :: ns)) = itemLines (n :: ns) :=
        orElse_of_ne (begins_hang (by decide) (begins_lines n).ne_nil _).ne_nil
      rw [hlines] at hf hpos ⊢
      rw [itemLines, read_hang (begins_lines n).ne_nil, ← itemLines, ih f (by omega) hf]
      rfl
  | .map entries, f, hf => by
    have ih := readEntries_lines entries
    have hpos := (begins_lines (.map entries)).weight_pos
    obtain ⟨f, rfl⟩ := Nat.exists_eq_add_of_le' (show 1 ≤ f by omega)
    cases entries with
    | nil => exact read_token rfl
    | cons e es =>
      have hlines : lines (.map (e :: es)) = entryLines (e :: es) :=
        orElse_of_ne (begins_entry (begins_lines e.1).ne_nil _).ne_nil
      rw [hlines] at hf hpos ⊢
      rw [entryLines, read_entry, ← entryLines, ih f (by omega) hf]
      rfl

theorem readItems_lines : (ns : List Node) → ∀ f, 1 ≤ f → 2 * weight (itemLines ns) ≤ f + 1 →
    readItems f (itemLines ns) = some ns
  | [], f, hf, _ => by
    obtain ⟨f, rfl⟩ := Nat.exists_eq_add_of_le' hf
    rfl
  | n :: ns, f, hf, hw => by
    obtain ⟨f, rfl⟩ := Nat.exists_eq_add_of_le' hf
    have hn := weight_hang '-' (begins_lines n).ne_nil
    have hpos := (begins_lines n).weight_pos
    rw [itemLines, weight_append] at hw
    rw [itemLines]
    exact readItems_hang (begins_lines n).ne_nil (fresh_of_begins (begins_itemLines ns))
      (read_lines n f (by omega)) (readItems_lines ns f (by omega) (by omega))

theorem readEntries_lines : (es : List (Node × Node)) → ∀ f, 1 ≤ f →
    2 * weight (entryLines es) ≤ f + 1 → readEntries f (entryLines es) = some es
  | [], f, hf, _ => by
    obtain ⟨f, rfl⟩ := Nat.exists_eq_add_of_le' hf
    rfl
  | (k, v) :: es, f, hf, hw => by
    obtain ⟨f, rfl⟩ := Nat.exists_eq_add_of_le' hf
    have hpos := (begins_lines k).weight_pos
    obtain ⟨hk, hv⟩ := weight_entry k v
    rw [entryLines, weight_append] at hw
    rw [entryLines]
    exact readEntries_entry (fresh_of_begins (begins_entryLines es)) (read_lines k f (by omega))
      (read_lines v f (by omega)) (readEntries_lines es f (by omega) (by omega))
end

end Reading

section Breaks
variable {ls : List Line}

def Unbroken (ls : List Line) : Prop := ∀ l ∈ ls, '\n' ∉ l

theorem unbroken_scalarText (s : String) : '\n' ∉ scalarText s := by
  rw [scalarText]
  split_ifs with hplain
  · obtain ⟨c, cs, -, hall⟩ := plain_cons hplain
    intro hbreak
    exact absurd (List.all_eq_true.mp hall '\n' hbreak) (by decide)
  · have hescape : ∀ c, '\n' ∉ escape c := by
      intro c
      unfold escape
      split
      · decide
      · decide
      · decide
      · next hline => simpa [eq_comm] using hline
    simp [hescape]

theorem Unbroken.indent (h : Unbroken ls) : Unbroken (ls.map indent) := by
  intro l hl
  obtain ⟨l, hmem, rfl⟩ := List.mem_map.mp hl
  simpa [Block.indent] using h l hmem

theorem Unbroken.hang {c : Char} (hc : c ≠ '\n') (h : Unbroken ls) : Unbroken (hang c ls) := by
  cases ls with
  | nil => exact h
  | cons l ls =>
    obtain ⟨hl, hls⟩ := List.forall_mem_cons.mp h
    refine List.forall_mem_cons.mpr ⟨?_, Unbroken.indent hls⟩
    simpa [hc.symm] using hl

theorem Unbroken.orElse {l : Line} (hl : '\n' ∉ l) (h : Unbroken ls) : Unbroken (orElse l ls) := by
  cases ls with
  | nil => exact List.forall_mem_singleton.mpr hl
  | cons l' ls => exact h

theorem unbroken_entry {k v : Node} {kl vl : List Line} (hv : Unbroken (lines v))
    (hkl : Unbroken kl) (hvl : Unbroken vl) : Unbroken (entry k v kl vl) := by
  rcases entry_cases k v kl vl with ⟨s, t, -, hinline, h⟩ | ⟨s, -, h⟩ | h <;> rw [h]
  · rw [(inline_spec hinline).1] at hv
    have ht : '\n' ∉ t := hv t List.mem_cons_self
    refine List.forall_mem_singleton.mpr ?_
    simpa [unbroken_scalarText] using ht
  · refine List.forall_mem_cons.mpr ⟨?_, hvl.indent⟩
    simp [unbroken_scalarText]
  · exact List.forall_mem_append.mpr ⟨hkl.hang (by decide), hvl.hang (by decide)⟩

mutual
theorem unbroken_lines : (n : Node) → Unbroken (lines n)
  | .null => List.forall_mem_singleton.mpr (by decide)
  | .scalar s => List.forall_mem_singleton.mpr (unbroken_scalarText s)
  | .seq items => by
    rw [lines]
    exact .orElse (by decide) (unbroken_itemLines items)
  | .map entries => by
    rw [lines]
    exact .orElse (by decide) (unbroken_entryLines entries)

theorem unbroken_itemLines : (ns : List Node) → Unbroken (itemLines ns)
  | [] => nofun
  | n :: ns => by
    rw [itemLines]
    exact List.forall_mem_append.mpr
      ⟨(unbroken_lines n).hang (by decide), unbroken_itemLines ns⟩

theorem unbroken_entryLines : (es : List (Node × Node)) → Unbroken (entryLines es)
  | [] => nofun
  | (k, v) :: es => by
    rw [entryLines]
    exact List.forall_mem_append.mpr
      ⟨unbroken_entry (unbroken_lines v) (unbroken_lines k) (unbroken_lines v),
        unbroken_entryLines es⟩
end

end Breaks

theorem load_emit (n : Node) : load (emit n) = some n := by
  have hbegins := begins_lines n
  have hsplit : (emit n).toList.splitOn '\n' = lines n := by
    rw [emit, String.toList_ofList]
    exact List.splitOn_intercalate '\n' (unbroken_lines n) hbegins.ne_nil
  have hne : emit n ≠ "" := by
    intro hempty
    rw [hempty] at hsplit
    obtain ⟨c, l, ls, hlines, -⟩ := hbegins
    rw [hlines] at hsplit
    cases hsplit
  rw [load, if_neg hne, hsplit]
  exact read_lines n _ le_rfl

theorem plainChar_of_isDigit {c : Char} (h : c.isDigit = true) : plainChar c = true := by
  simp [plainChar, Char.isAlphanum, h]

theorem ne_of_digit {c : Char} (cs : List Char) (h : c.isDigit = true ∨ c = '-') :
    String.ofList (c :: cs) ∉ ["null", "Null", "NULL"] := by
  intro hmem
  have hhead : c = 'n' ∨ c = 'N' := by
    simp only [List.mem_cons, List.not_mem_nil, or_false] at hmem
    rcases hmem with hnull | hnull | hnull
    · exact .inl (List.cons.inj (String.ofList_injective hnull)).1
    · exact .inr (List.cons.inj (String.ofList_injective hnull)).1
    · exact .inr (List.cons.inj (String.ofList_injective hnull)).1
  rcases hhead with rfl | rfl <;> exact absurd h (by decide)

theorem plain_digits {c : Char} {cs : List Char} (h : ∀ d ∈ c :: cs, d.isDigit = true) :
    plain (c :: cs) = true ∧ plain ('-' :: c :: cs) = true := by
  have hc := h c List.mem_cons_self
  have hall : (c :: cs).all plainChar = true :=
    List.all_eq_true.mpr fun d hd => plainChar_of_isDigit (h d hd)
  have hhead : plainHead (c :: cs) = true := by
    unfold plainHead
    split
    · next heq => cases heq
    · next heq =>
      cases heq
      exact absurd hc (by decide)
    · next heq =>
      cases heq
      simp [Char.isAlphanum, hc]
  constructor
  · rw [plain, hall, hhead]
    simpa using ne_of_digit cs (.inl hc)
  · rw [plain, List.all_cons, hall]
    simpa [plainHead, hc, plainChar] using ne_of_digit (c :: cs) (.inr rfl)

theorem plain_int (i : ℤ) : plain (toString i).toList = true := by
  have hdigit : ∀ n : ℕ, ∃ c cs, n.repr.toList = c :: cs ∧ ∀ d ∈ c :: cs, d.isDigit = true := by
    intro n
    rw [Nat.toList_repr]
    obtain ⟨c, cs, hcs⟩ := List.exists_cons_of_ne_nil (Nat.toDigits_ne_nil (n := n) (b := 10))
    refine ⟨c, cs, hcs, fun d hd => ?_⟩
    rw [← hcs] at hd
    exact Nat.isDigit_of_mem_toDigits (by decide) (by decide) hd
  rw [Int.toString_eq_repr]
  cases i with
  | ofNat n =>
    obtain ⟨c, cs, hcs, hdigits⟩ := hdigit n
    change plain n.repr.toList = true
    rw [hcs]
    exact (plain_digits hdigits).1
  | negSucc n =>
    obtain ⟨c, cs, hcs, hdigits⟩ := hdigit (n + 1)
    have htext : (Int.negSucc n).repr.toList = '-' :: (n + 1).repr.toList := String.toList_append
    rw [htext, hcs]
    exact (plain_digits hdigits).2

theorem emit_int (i : ℤ) : emit (.scalar (toString i)) = toString i := by
  rw [emit, lines, scalarText, if_pos (plain_int i), List.intercalate_singleton,
    String.ofList_toList]

def block : Format where
  load := load
  emit := emit
  isIndex n i := n.isKey (toString i)
  load_emit := load_emit
  load_empty := rfl
  emit_null := by decide
  load_int i := by
    nth_rewrite 1 [← emit_int i]
    exact load_emit _
  emit_int := emit_int

end ApexStorm.Lib.Yaml.Block
