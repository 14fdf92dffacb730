import ApexStorm.Lib.Run
import ApexStorm.Lib.SortedSet

/-!
# Timers and their ordered set

A `Timer *` is an address and `heap` says which addresses hold a timer. The set
`m_timers` is ordered by a comparator that reads the timers, so its order changes
when a timer does. Every method runs under the manager's lock; the clock readings
and the addresses that `new` returns are its arguments. A method returns `none` when
it dereferences or erases the end iterator or a dead address.
-/

namespace ApexStorm
open Lib

abbrev TimerManager.Addr := ℕ

structure Timer (C : Type) where
  recurring : Bool
  ms : UInt64
  next : UInt64
  cb : Option C
  deriving DecidableEq, Repr

def Timer.ofNext {C : Type} (next : UInt64) : Timer C := ⟨false, 0, next, none⟩

open TimerManager in
structure TimerManager (C : Type) where
  heap : Addr → Option (Timer C)
  timers : List Addr
  tickled : Bool
  previousTime : UInt64
  atFrontCalls : ℕ

namespace TimerManager
variable {C : Type}

def new (now : UInt64) : TimerManager C := ⟨fun _ => none, [], false, now, 0⟩

def nextOf (heap : Addr → Option (Timer C)) (a : Addr) : UInt64 :=
  match heap a with
  | some t => t.next
  | none => 0

def comparator (heap : Addr → Option (Timer C)) : Option Addr → Option Addr → Bool
  | none, none => false
  | none, some _ => true
  | some _, none => false
  | some a, some b =>
    if nextOf heap a < nextOf heap b then true
    else if nextOf heap a > nextOf heap b then false
    else a < b

def less (heap : Addr → Option (Timer C)) (a b : Addr) : Bool := comparator heap (some a) (some b)

def find (m : TimerManager C) (a : Addr) : Option Addr := SortedSet.find (less m.heap) a m.timers

def erase (m : TimerManager C) (a : Addr) : TimerManager C :=
  { m with timers := SortedSet.erase (less m.heap) a m.timers }

def insert (m : TimerManager C) (a : Addr) : TimerManager C :=
  { m with timers := SortedSet.insert (less m.heap) a m.timers }

def store (m : TimerManager C) (a : Addr) (t : Timer C) : TimerManager C :=
  { m with heap := Function.update m.heap a (some t) }

@[simp] theorem store_heap_self (m : TimerManager C) (a : Addr) (t : Timer C) :
    (m.store a t).heap a = some t := Function.update_self ..

theorem store_heap_of_ne (m : TimerManager C) (t : Timer C) {a b : Addr} (h : b ≠ a) :
    (m.store a t).heap b = m.heap b := Function.update_of_ne h ..

/-- The locked `addTimer`, which reports an insertion at the front once. -/
def addTimerLocked (m : TimerManager C) (a : Addr) : TimerManager C :=
  let m := m.insert a
  let at_front := m.timers.head? == some a && !m.tickled
  if at_front then { m with tickled := true, atFrontCalls := m.atFrontCalls + 1 } else m

/-- The callback is stored unchecked, so it may be empty. -/
def addTimer (m : TimerManager C) (a : Addr) (now ms : UInt64) (cb : Option C) (recurring : Bool) :
    TimerManager C :=
  (m.store a ⟨recurring, ms, now + ms, cb⟩).addTimerLocked a

def cancel (m : TimerManager C) (a : Addr) : Option (Bool × TimerManager C) := do
  let t ← m.heap a
  match t.cb with
  | none => return (false, m)
  | some _ =>
    let m := m.store a { t with cb := none }
    let it ← m.find a
    return (true, m.erase it)

def refresh (m : TimerManager C) (a : Addr) (now : UInt64) : Option (Bool × TimerManager C) := do
  let t ← m.heap a
  match t.cb with
  | none => return (false, m)
  | some _ =>
    match m.find a with
    | none => return (false, m)
    | some it => return (true, ((m.erase it).store a { t with next := now + t.ms }).insert a)

/-- The iterator is dereferenced before it is compared with the end. -/
def reset (m : TimerManager C) (a : Addr) (ms : UInt64) (from_now : Bool) (now : UInt64) :
    Option (Bool × TimerManager C) := do
  let t ← m.heap a
  if ms = t.ms ∧ from_now = false then return (true, m)
  else
    match t.cb with
    | none => return (false, m)
    | some _ =>
      let it ← m.find a
      let start := if from_now then now else t.next - t.ms
      return (true,
        ((m.erase it).store a { t with ms := ms, next := start + ms }).addTimerLocked a)

def detectClockRollover (m : TimerManager C) (now : UInt64) : Bool × TimerManager C :=
  (decide (now < m.previousTime ∧ now < m.previousTime - 60 * 60 * 1000),
    { m with previousTime := now })

/-- The part of the set before the first timer that is due after `now`, found from a temporary
timer at address `x`, and the rest. -/
def splitDue (m : TimerManager C) (now : UInt64) (x : Addr) : List Addr × List Addr :=
  let heap := Function.update m.heap x (some (Timer.ofNext now))
  let front := m.timers.takeWhile (less heap · x)
  let it := m.timers.dropWhile (less heap · x)
  (front ++ it.takeWhile (nextOf m.heap · == now), it.dropWhile (nextOf m.heap · == now))

def expire (now : UInt64) : List Addr → TimerManager C → Option (List (Option C) × TimerManager C)
  | [], m => some ([], m)
  | a :: expired, m => do
    let t ← m.heap a
    let m := if t.recurring then (m.store a { t with next := now + t.ms }).insert a
      else m.store a { t with cb := none }
    let (cbs, m) ← expire now expired m
    return (t.cb :: cbs, m)

def listExpiredCb (m : TimerManager C) (now : UInt64) (x : Addr) :
    Option (List (Option C) × TimerManager C) := do
  match m.timers with
  | [] => return ([], m)
  | first :: _ =>
    let (rollover, m) := m.detectClockRollover now
    let t ← m.heap first
    if rollover = false ∧ t.next > now then return ([], m)
    else
      let (expired, rest) := if rollover then (m.timers, []) else m.splitDue now x
      expire now expired { m with timers := rest }

/-- The last owner of a timer outside the set drops it. -/
def release (m : TimerManager C) (a : Addr) : TimerManager C :=
  { m with heap := Function.update m.heap a none }

inductive Op (C : Type)
  | addTimer (a : Addr) (now ms : UInt64) (cb : Option C) (recurring : Bool)
  | cancel (a : Addr)
  | refresh (a : Addr) (now : UInt64)
  | reset (a : Addr) (ms : UInt64) (from_now : Bool) (now : UInt64)
  | listExpiredCb (now : UInt64) (x : Addr)
  | release (a : Addr)

inductive Result (C : Type)
  | done
  | flag (b : Bool)
  | cbs (l : List (Option C))

/-- `new` returns a free address, methods are called on live timers and only a timer outside the
set can lose its last owner. -/
def Op.Enabled (m : TimerManager C) : Op C → Prop
  | .addTimer a _ _ _ _ => m.heap a = none
  | .cancel a | .refresh a _ | .reset a _ _ _ => (m.heap a).isSome
  | .listExpiredCb _ x => m.heap x = none
  | .release a => a ∉ m.timers

def exec (m : TimerManager C) : Op C → Option (Result C × TimerManager C)
  | .addTimer a now ms cb recurring => some (.done, m.addTimer a now ms cb recurring)
  | .cancel a => (m.cancel a).map fun r => (.flag r.1, r.2)
  | .refresh a now => (m.refresh a now).map fun r => (.flag r.1, r.2)
  | .reset a ms from_now now => (m.reset a ms from_now now).map fun r => (.flag r.1, r.2)
  | .listExpiredCb now x => (m.listExpiredCb now x).map fun r => (.cbs r.1, r.2)
  | .release a => some (.done, m.release a)

def Step (m : TimerManager C) (e : Op C × Result C) (m' : TimerManager C) : Prop :=
  e.1.Enabled m ∧ exec m e.1 = some (e.2, m')

end TimerManager
end ApexStorm
