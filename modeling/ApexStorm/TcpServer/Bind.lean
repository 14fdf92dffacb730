import Mathlib.Tactic

/-!
# Binding a server to addresses

`TcpServer::bind` collects the sockets that listen and the addresses that failed, in the
vectors it finds: the sockets of earlier calls and the failures of the caller. It then
takes a vector that is not empty for a failure of its own and drops all sockets.
-/

namespace ApexStorm.TcpServer

variable {α : Type}

structure Answers where
  socket : ℤ
  bind : ℤ
  listen : ℤ

structure Socket (α : Type) where
  sock : ℤ
  family : ℤ
  bound : Option α
  deriving DecidableEq

namespace Socket

def createTCP (family : α → ℤ) (addr : α) : Socket α := ⟨-1, family addr, none⟩

def newSock (k : Answers) (s : Socket α) : Socket α := { s with sock := k.socket }

def bind (family : α → ℤ) (k : Answers) (s : Socket α) (addr : α) : Bool × Socket α :=
  let s := if s.sock = -1 then s.newSock k else s
  if s.sock = -1 then (false, s)
  else if family addr ≠ s.family then (false, s)
  else if k.bind ≠ 0 then (false, s)
  else (true, { s with bound := some addr })

def listen (k : Answers) (s : Socket α) : Bool :=
  if s.sock = -1 then false else if k.listen ≠ 0 then false else true

/-- The descriptors that the destructor closes. -/
def close (s : Socket α) : List ℤ := if s.sock = -1 then [] else [s.sock]

end Socket

structure Binding (α : Type) where
  socks : List (Socket α)
  fails : List α
  closed : List ℤ

/-- One round of the loop. A socket that failed is closed when its pointer goes. -/
def bindAddress (family : α → ℤ) (st : Binding α) (x : α × Answers) : Binding α :=
  match (Socket.createTCP family x.1).bind family x.2 x.1 with
  | (false, sock) => { st with fails := st.fails ++ [x.1], closed := st.closed ++ sock.close }
  | (true, sock) =>
    if sock.listen x.2 then { st with socks := st.socks ++ [sock] }
    else { st with fails := st.fails ++ [x.1], closed := st.closed ++ sock.close }

def bind (family : α → ℤ) (socks : List (Socket α)) (addrs : List (α × Answers))
    (fails : List α) : Bool × Binding α :=
  let st := addrs.foldl (bindAddress family) ⟨socks, fails, []⟩
  if st.fails ≠ [] then
    (false, { st with socks := [], closed := st.closed ++ st.socks.flatMap Socket.close })
  else (true, st)

def binds (x : α × Answers) : Bool := x.2.socket ≠ -1 && x.2.bind = 0 && x.2.listen = 0

def listener (family : α → ℤ) (x : α × Answers) : Socket α :=
  ⟨x.2.socket, family x.1, some x.1⟩

/-- The call succeeds for all addresses or leaves the sockets of the server alone. -/
def AllOrNothing (family : α → ℤ) (socks : List (Socket α)) (addrs : List (α × Answers))
    (fails : List α) : Prop :=
  ((bind family socks addrs fails).1 = true ↔ ∀ x ∈ addrs, binds x = true) ∧
  ((bind family socks addrs fails).1 = true →
    (bind family socks addrs fails).2.socks = socks ++ addrs.map (listener family)) ∧
  ((bind family socks addrs fails).1 = false →
    (bind family socks addrs fails).2.socks = socks ∧
      (bind family socks addrs fails).2.fails =
        fails ++ (addrs.filter fun x => !binds x).map (·.1))

variable {family : α → ℤ} {socks : List (Socket α)} {addrs : List (α × Answers)} {fails : List α}

theorem bindAddress_eq (family : α → ℤ) (st : Binding α) (x : α × Answers) :
    (bindAddress family st x).socks = st.socks ++ (if binds x then [listener family x] else []) ∧
      (bindAddress family st x).fails = st.fails ++ (if binds x then [] else [x.1]) := by
  rw [bindAddress, Socket.createTCP, Socket.bind, Socket.newSock]
  by_cases hsocket : x.2.socket = -1
  · simp [binds, hsocket]
  · by_cases hbind : x.2.bind = 0
    · by_cases hlisten : x.2.listen = 0
      · simp [binds, listener, Socket.listen, hsocket, hbind, hlisten]
      · simp [binds, Socket.listen, hsocket, hbind, hlisten]
    · simp [binds, hsocket, hbind]

theorem bindLoop_eq (addrs : List (α × Answers)) (st : Binding α) :
    (addrs.foldl (bindAddress family) st).socks =
        st.socks ++ (addrs.filter binds).map (listener family) ∧
      (addrs.foldl (bindAddress family) st).fails =
        st.fails ++ (addrs.filter fun x => !binds x).map (·.1) := by
  induction addrs generalizing st with
  | nil => simp
  | cons x addrs ih =>
    obtain ⟨hsocks, hfails⟩ := bindAddress_eq family st x
    rw [List.foldl_cons, (ih _).1, (ih _).2, hsocks, hfails]
    by_cases hx : binds x = true
    · simp [hx]
    · simp [hx]

theorem bind_fails :
    (bind family socks addrs fails).2.fails =
      fails ++ (addrs.filter fun x => !binds x).map (·.1) := by
  rw [bind]
  split_ifs <;> exact (bindLoop_eq addrs _).2

theorem bind_true_iff :
    (bind family socks addrs fails).1 = true ↔ fails = [] ∧ ∀ x ∈ addrs, binds x = true := by
  have hempty : (addrs.foldl (bindAddress family) ⟨socks, fails, []⟩).fails = [] ↔
      fails = [] ∧ ∀ x ∈ addrs, binds x = true := by
    rw [(bindLoop_eq addrs _).2]
    simp
  rw [bind, ← hempty]
  split_ifs with h
  · simpa using h
  · simpa using h

theorem bind_socks :
    (bind family socks addrs fails).2.socks =
      if (bind family socks addrs fails).1 then socks ++ addrs.map (listener family) else [] := by
  split_ifs with htrue
  · have hall := (bind_true_iff.mp htrue).2
    rw [bind] at htrue ⊢
    split_ifs at htrue ⊢
    rw [(bindLoop_eq addrs _).1, List.filter_eq_self.mpr hall]
  · rw [bind] at htrue ⊢
    split_ifs at htrue ⊢ with hfails
    · rfl
    · exact absurd rfl htrue

/-- The call is all or nothing exactly if all addresses are bound and the caller hands over no
failures, or an address fails and the server has no sockets yet. -/
theorem all_or_nothing_iff (family : α → ℤ) (socks : List (Socket α))
    (addrs : List (α × Answers)) (fails : List α) :
    AllOrNothing family socks addrs fails ↔
      (∀ x ∈ addrs, binds x = true) ∧ fails = [] ∨
        (∃ x ∈ addrs, binds x = false) ∧ socks = [] := by
  constructor
  · rintro ⟨htrue, -, hfalse⟩
    by_cases hall : ∀ x ∈ addrs, binds x = true
    · exact .inl ⟨hall, (bind_true_iff.mp (htrue.mpr hall)).1⟩
    · have hret : (bind family socks addrs fails).1 = false :=
        Bool.eq_false_iff.mpr fun hret => hall (htrue.mp hret)
      have hsocks := (hfalse hret).1
      rw [bind_socks, hret] at hsocks
      exact .inr ⟨by simpa using hall, hsocks.symm⟩
  · rintro (⟨hall, hfails⟩ | ⟨⟨x, hx, hfail⟩, hsocks⟩)
    · have hret : (bind family socks addrs fails).1 = true := bind_true_iff.mpr ⟨hfails, hall⟩
      refine ⟨iff_of_true hret hall, fun _ => by rw [bind_socks, if_pos hret], fun hfalse => ?_⟩
      rw [hret] at hfalse
      cases hfalse
    · have hall : ¬∀ x ∈ addrs, binds x = true := by
        intro hall
        rw [hall x hx] at hfail
        cases hfail
      have hret : (bind family socks addrs fails).1 ≠ true :=
        fun hret => hall (bind_true_iff.mp hret).2
      refine ⟨iff_of_false hret hall, fun htrue => absurd htrue hret, fun _ => ⟨?_, bind_fails⟩⟩
      rw [bind_socks, if_neg hret, hsocks]

/-- The second call of a server fails for one address: the socket of the first call is closed. -/
theorem earlier_socket_dropped :
    let first := (bind (fun _ => 2) [] [("a", ⟨5, 0, 0⟩)] []).2
    first.socks = [⟨5, 2, some "a"⟩] ∧
      (bind (fun _ => 2) first.socks [("b", ⟨6, -1, 0⟩)] []).1 = false ∧
      (bind (fun _ => 2) first.socks [("b", ⟨6, -1, 0⟩)] []).2.socks = [] ∧
      (bind (fun _ => 2) first.socks [("b", ⟨6, -1, 0⟩)] []).2.closed = [6, 5] ∧
      ¬AllOrNothing (fun _ => 2) first.socks [("b", ⟨6, -1, 0⟩)] [] := by
  refine ⟨by decide, by decide, by decide, by decide, ?_⟩
  rintro ⟨-, -, hfalse⟩
  exact absurd (hfalse (by decide)).1 (by decide)

end ApexStorm.TcpServer
