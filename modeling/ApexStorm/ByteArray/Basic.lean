import ApexStorm.Lib.Chunks

/-!
# The node list behind `ByteArray`

The linked list of nodes is a list, `m_root` is node 0 and a `Node *` is an
optional node number, `none` being the null pointer. A method runs on the object
and either returns or ends in a `Fault`; the object survives an exception in the
state it had when the exception was thrown. Dereferencing null and copying past
a node are faults, so a proof that a method returns also proves it memory safe.

`new char[s]` leaves the bytes of a node unspecified. The field `fresh` is an
arbitrary stream from which every allocation takes its bytes. Sizes are unbounded
naturals: every size and position is at most the number of allocated bytes.
-/

namespace ApexStorm
open Lib.Chunks

inductive Endian
  | little
  | big
  deriving DecidableEq, Repr

inductive Fault
  | outOfRange (what : String)
  | nullDeref
  | overrun
  | stuck
  deriving DecidableEq, Repr

structure ByteArray.Node where
  ptr : List UInt8
  size : ℕ
  size_eq : ptr.length = size
  deriving DecidableEq

structure ByteArray where
  baseSize : ℕ
  position : ℕ
  capacity : ℕ
  size : ℕ
  endian : Endian
  nodes : List ByteArray.Node
  cur : Option ℕ
  fresh : ℕ → UInt8

namespace ByteArray

abbrev Method (α : Type) := EStateM Fault ByteArray α

def Node.new (s : ℕ) (fresh : ℕ → UInt8) : Node := ⟨(List.range s).map fresh, s, by simp⟩

def Node.store (n : Node) (off : ℕ) (xs : List UInt8) (h : off + xs.length ≤ n.size) : Node :=
  ⟨overlay n.ptr off xs, n.size, by
    have hn := n.size_eq
    rw [overlay_length xs (by omega)]
    omega⟩

def new (base_size : ℕ) (fresh : ℕ → UInt8) : ByteArray where
  baseSize := base_size
  position := 0
  capacity := base_size
  size := 0
  endian := .big
  nodes := [Node.new base_size fresh]
  cur := some 0
  fresh := fun i => fresh (base_size + i)

def isLittleEndian (ba : ByteArray) : Bool := ba.endian == .little

def setIsLittleEndian (value : Bool) : Method Unit :=
  modify fun ba => { ba with endian := if value then .little else .big }

def getPosition (ba : ByteArray) : ℕ := ba.position
def getReadSize (ba : ByteArray) : ℕ := ba.size - ba.position
def getSize (ba : ByteArray) : ℕ := ba.size
def getCapacity (ba : ByteArray) : ℕ := ba.capacity - ba.position

def deref (p : Option ℕ) : Method Node := fun ba =>
  match p with
  | none => .error .nullDeref ba
  | some i =>
    match ba.nodes[i]? with
    | none => .error .nullDeref ba
    | some n => .ok n ba

def next (p : Option ℕ) : Method (Option ℕ) := fun ba =>
  match p with
  | none => .error .nullDeref ba
  | some i => .ok (if i + 1 < ba.nodes.length then some (i + 1) else none) ba

/-- `memcpy(m_cur->ptr + npos, xs, xs.length)`. -/
def storeCur (npos : ℕ) (xs : List UInt8) : Method Unit := fun ba =>
  match ba.cur with
  | none => .error .nullDeref ba
  | some i =>
    match ba.nodes[i]? with
    | none => .error .nullDeref ba
    | some n =>
      if h : npos + xs.length ≤ n.size then
        .ok () { ba with nodes := ba.nodes.set i (n.store npos xs h) }
      else .error .overrun ba

/-- A write of `xs` to `ptr + npos` of node `i`, from outside the object. -/
def storeAt (i npos : ℕ) (xs : List UInt8) : Method Unit := fun ba =>
  match ba.nodes[i]? with
  | none => .error .nullDeref ba
  | some n =>
    if h : npos + xs.length ≤ n.size then
      .ok () { ba with nodes := ba.nodes.set i (n.store npos xs h) }
    else .error .overrun ba

/-- `memcpy(dst, p->ptr + npos, len)`. -/
def loadFrom (p : Option ℕ) (npos len : ℕ) : Method (List UInt8) := do
  let node ← deref p
  if npos + len ≤ node.size then
    return slice node.ptr npos len
  else throw .overrun

def advance : Method Unit := do
  let ba ← get
  let p ← next ba.cur
  modify fun ba => { ba with cur := p }

def appendNodes : ℕ → Method Unit
  | 0 => pure ()
  | count + 1 => do
    modify fun ba => { ba with
      nodes := ba.nodes ++ [Node.new ba.baseSize ba.fresh]
      capacity := ba.capacity + ba.baseSize
      fresh := fun i => ba.fresh (ba.baseSize + i) }
    appendNodes count

def addCapacity (size : ℕ) : Method Unit := do
  if size = 0 then return
  let ba ← get
  let old_cap := ba.getCapacity
  if old_cap ≥ size then return
  let size := size - old_cap
  -- `std::ceil` of the quotient, taken exactly
  let count := (size + ba.baseSize - 1) / ba.baseSize
  -- the first new node comes right after the tail
  let first := if count = 0 then none else some ba.nodes.length
  appendNodes count
  if old_cap = 0 then
    modify fun ba => { ba with cur := first }

def writeLoop (buf : List UInt8) (fuel npos ncap bpos size : ℕ) : Method Unit :=
  if size = 0 then pure ()
  else
    match fuel with
    | 0 => throw .stuck
    | fuel + 1 => do
      if ncap ≥ size then
        storeCur npos (slice buf bpos size)
        let node ← deref (← get).cur
        if node.size = npos + size then
          advance
        modify fun ba => { ba with position := ba.position + size }
        writeLoop buf fuel npos ncap (bpos + size) 0
      else
        storeCur npos (slice buf bpos ncap)
        modify fun ba => { ba with position := ba.position + ncap }
        advance
        let node ← deref (← get).cur
        writeLoop buf fuel 0 node.size (bpos + ncap) (size - ncap)

def write (buf : List UInt8) : Method Unit := do
  if buf.length = 0 then return
  addCapacity buf.length
  let ba ← get
  let npos := ba.position % ba.baseSize
  let node ← deref ba.cur
  writeLoop buf buf.length npos (node.size - npos) 0 buf.length
  modify fun ba => if ba.position > ba.size then { ba with size := ba.position } else ba

def readLoop (fuel npos ncap size : ℕ) : Method (List UInt8) :=
  if size = 0 then pure []
  else
    match fuel with
    | 0 => throw .stuck
    | fuel + 1 => do
      if ncap ≥ size then
        let bytes ← loadFrom (← get).cur npos size
        let node ← deref (← get).cur
        if node.size = npos + size then
          advance
        modify fun ba => { ba with position := ba.position + size }
        return bytes ++ (← readLoop fuel npos ncap 0)
      else
        let bytes ← loadFrom (← get).cur npos ncap
        modify fun ba => { ba with position := ba.position + ncap }
        advance
        let node ← deref (← get).cur
        return bytes ++ (← readLoop fuel 0 node.size (size - ncap))

/-- Returns the bytes that `read(buf, size)` stores in `buf`. -/
def read (size : ℕ) : Method (List UInt8) := do
  let ba ← get
  if size > ba.getReadSize then
    throw (.outOfRange "not enough len")
  let npos := ba.position % ba.baseSize
  let node ← deref ba.cur
  readLoop size npos (node.size - npos) size

def seek (fuel v : ℕ) : Method Unit := do
  let node ← deref (← get).cur
  if v > node.size then
    match fuel with
    | 0 => throw .stuck
    | fuel + 1 => do
      advance
      seek fuel (v - node.size)
  else if v = node.size then
    advance

def setPosition (v : ℕ) : Method Unit := do
  let ba ← get
  if v > ba.capacity then
    throw (.outOfRange "set_position out of range")
  modify fun ba => { ba with position := v }
  modify fun ba => if ba.position > ba.size then { ba with size := ba.position } else ba
  modify fun ba => { ba with cur := some 0 }
  seek ba.nodes.length v

def clear : Method Unit :=
  modify fun ba => { ba with
    position := 0
    size := 0
    capacity := ba.baseSize
    nodes := ba.nodes.take 1
    cur := some 0 }

/-- An `iovec` whose base is `node->ptr + base`. -/
structure IoVec where
  node : ℕ
  base : ℕ
  len : ℕ
  deriving DecidableEq, Repr

/-- The gathering loop shared by `getReadBuffers` and `getWriteBuffers`. -/
def ioVecs (fuel : ℕ) (cur : Option ℕ) (npos ncap len : ℕ) : Method (List IoVec) :=
  if len = 0 then pure []
  else
    match fuel, cur with
    | 0, _ => throw .stuck
    | _, none => throw .nullDeref
    | fuel + 1, some i => do
      if ncap ≥ len then
        return ⟨i, npos, len⟩ :: (← ioVecs fuel (some i) npos ncap 0)
      else
        let cur ← next (some i)
        let node ← deref cur
        return ⟨i, npos, ncap⟩ :: (← ioVecs fuel cur 0 node.size (len - ncap))

def getWriteBuffers (len : ℕ) : Method (ℕ × List IoVec) := do
  if len = 0 then return (0, [])
  addCapacity len
  let ba ← get
  let npos := ba.position % ba.baseSize
  let node ← deref ba.cur
  let buffers ← ioVecs len ba.cur npos (node.size - npos) len
  return (len, buffers)

end ByteArray
end ApexStorm
