import Mathlib

/-! # The set of polled descriptors

The event loop keeps its descriptors in an array of `fd_size` slots, of which it polls the
first `fd_count`.  A slot is appended for every accepted socket, into an array that is
doubled when it is full, so that a write to the array stays inside it
(`inBounds_of_reachable`).  But the slot of the listening socket is filled without being
counted, and the sockets of the tracker's peers get none: nothing is ever polled
(`not_polls`).
-/
namespace TorrentClient

/-- `struct pollfd`. -/
structure pollfd where
  fd : Int
  events : UInt16
  revents : UInt16

/-- `POLLIN`. -/
def POLLIN : UInt16 := 1

/-- The event loop, as far as its descriptors are concerned. -/
structure EventLoop where
  /-- the slots that are allocated -/
  pfds : List pollfd
  fd_count : Nat
  fd_size : Nat
  /-- the loop variable of a pass over the slots; `none` at the call of `poll` -/
  i : Option Nat
  /-- the sockets `accept` has returned -/
  accepted : List Int

namespace EventLoop

/-- The slots that are polled. -/
def polled (s : EventLoop) : List pollfd := s.pfds.take s.fd_count

/-- The set-up, in an array whose slots held `stale`. -/
def init (sock : Int) (stale : Vector pollfd 5) : EventLoop where
  pfds := stale.toList.modifyHead fun p => { p with fd := sock, events := POLLIN }
  fd_count := 0
  fd_size := 5
  i := none
  accepted := []

/-- The array with room for one more: doubled when it is full, with `fresh` in the new
slots. -/
def grow (s : EventLoop) (fresh : Nat → pollfd) : EventLoop :=
  if s.fd_count = s.fd_size then
    { s with
      fd_size := s.fd_size * 2
      pfds := s.pfds ++ (List.range (s.fd_size * 2 - s.pfds.length)).map fresh }
  else s

/-- `pfds[fd_count].fd = clntSock; pfds[fd_count].events = POLLIN; fd_count++;` -/
def append (s : EventLoop) (clntSock : Int) : EventLoop :=
  { s with
    pfds := s.pfds.modify s.fd_count fun p => { p with fd := clntSock, events := POLLIN }
    fd_count := s.fd_count + 1
    accepted := if clntSock = -1 then s.accepted else s.accepted ++ [clntSock] }

/-- One step of the loop.  `sock` is the listening socket; `poll` reports what it likes on
the slots it is given, and `accept` returns -1 or any descriptor. -/
inductive Step (sock : Int) : EventLoop → EventLoop → Prop
  | poll {s : EventLoop} (report : pollfd → UInt16) (h : s.i = none) :
    Step sock s { s with
      pfds := s.polled.map (fun p => { p with revents := report p }) ++ s.pfds.drop s.fd_count
      i := some 0 }
  | done {s : EventLoop} {i : Nat} (h : s.i = some i) (hi : s.fd_count ≤ i) :
    Step sock s { s with i := none }
  | skip {s : EventLoop} {i : Nat} {p : pollfd} (h : s.i = some i) (hi : i < s.fd_count)
    (hp : s.pfds[i]? = some p) (hr : p.revents &&& POLLIN = 0) :
    Step sock s { s with i := some (i + 1) }
  | accept {s : EventLoop} {i : Nat} {p : pollfd} (clntSock : Int) (fresh : Nat → pollfd)
    (h : s.i = some i) (hi : i < s.fd_count) (hp : s.pfds[i]? = some p)
    (hr : p.revents &&& POLLIN ≠ 0) (hsock : p.fd = sock) :
    Step sock s { (s.grow fresh).append clntSock with i := some (i + 1) }
  /-- the message on another socket is received and handled -/
  | receive {s : EventLoop} {i : Nat} {p : pollfd} (h : s.i = some i) (hi : i < s.fd_count)
    (hp : s.pfds[i]? = some p) (hr : p.revents &&& POLLIN ≠ 0) (hsock : p.fd ≠ sock) :
    Step sock s { s with i := some (i + 1) }

/-- The states of the loop. -/
def Reachable (sock : Int) (stale : Vector pollfd 5) : EventLoop → Prop :=
  Relation.ReflTransGen (Step sock) (init sock stale)

/-- **The poll set**: the listening socket, every accepted socket and every connected one are
polled in one slot each, for input, and the slots are allocated. -/
structure PollSet (sock : Int) (connected : List Int) (s : EventLoop) : Prop where
  listener : s.polled.countP (·.fd = sock) = 1
  accepted : ∀ fd ∈ s.accepted, s.polled.countP (·.fd = fd) = 1
  connected : ∀ fd ∈ connected, s.polled.countP (·.fd = fd) = 1
  events : ∀ p ∈ s.polled, p.events = POLLIN
  count_le : s.fd_count ≤ s.fd_size
  size_eq : s.fd_size = s.pfds.length

/-! ## Writes to the array -/

/-- The slots that are counted are allocated, and there is at least one. -/
structure InBounds (s : EventLoop) : Prop where
  size_pos : 0 < s.fd_size
  count_le : s.fd_count ≤ s.fd_size
  size_eq : s.fd_size = s.pfds.length

section Bounds
variable {sock : Int} {stale : Vector pollfd 5} {s s' : EventLoop}

theorem inBounds_init : (init sock stale).InBounds where
  size_pos := show 0 < 5 by decide
  count_le := Nat.zero_le 5
  size_eq := by rw [init, List.length_modifyHead, Vector.length_toList]

/-- After growing there is a slot to write to. -/
theorem InBounds.grow (h : s.InBounds) (fresh : Nat → pollfd) :
    (s.grow fresh).InBounds ∧ (s.grow fresh).fd_count < (s.grow fresh).fd_size := by
  obtain ⟨hpos, hle, hsize⟩ := h
  rw [EventLoop.grow]
  split
  next heq =>
    refine ⟨⟨?_, ?_, ?_⟩, ?_⟩
    · show 0 < s.fd_size * 2
      omega
    · show s.fd_count ≤ s.fd_size * 2
      omega
    · show s.fd_size * 2 = _
      rw [List.length_append, List.length_map, List.length_range]
      omega
    · show s.fd_count < s.fd_size * 2
      omega
  next hne => exact ⟨⟨hpos, hle, hsize⟩, by omega⟩

/-- Every step stays inside the array. -/
theorem InBounds.step (h : s.InBounds) (hstep : Step sock s s') : s'.InBounds := by
  cases hstep with
  | poll report _ =>
    refine ⟨h.size_pos, h.count_le, ?_⟩
    have := h.count_le
    have := h.size_eq
    show s.fd_size = _
    rw [polled, List.length_append, List.length_map, List.length_take, List.length_drop]
    omega
  | done _ _ => exact ⟨h.size_pos, h.count_le, h.size_eq⟩
  | skip _ _ _ _ => exact ⟨h.size_pos, h.count_le, h.size_eq⟩
  | accept clntSock fresh _ _ _ _ _ =>
    obtain ⟨hgrow, hlt⟩ := h.grow fresh
    refine ⟨hgrow.size_pos, hlt, ?_⟩
    show (s.grow fresh).fd_size = _
    rw [append, List.length_modify]
    exact hgrow.size_eq
  | receive _ _ _ _ _ => exact ⟨h.size_pos, h.count_le, h.size_eq⟩

/-- **No state of the loop has more descriptors than slots.** -/
theorem inBounds_of_reachable (h : Reachable sock stale s) : s.InBounds := by
  induction h with
  | refl => exact inBounds_init
  | tail _ hstep ih => exact ih.step hstep

/-! ## What is polled -/

/-- With no slot to look at, a step adds none. -/
theorem fd_count_eq_zero_step (h : s.fd_count = 0) (hstep : Step sock s s') :
    s'.fd_count = 0 := by
  cases hstep with
  | poll _ _ => exact h
  | done _ _ => exact h
  | skip _ hi _ _ => omega
  | accept _ _ _ hi _ _ _ => omega
  | receive _ hi _ _ _ => omega

/-- The loop never counts a descriptor. -/
theorem fd_count_of_reachable (h : Reachable sock stale s) : s.fd_count = 0 := by
  induction h with
  | refl => rfl
  | tail _ hstep ih => exact fd_count_eq_zero_step ih hstep

/-- Where nothing is counted the listening socket is not polled. -/
theorem not_pollSet_of_fd_count {connected : List Int} (h : s.fd_count = 0) :
    ¬ s.PollSet sock connected := by
  intro hset
  have := hset.listener
  rw [polled, h, List.take_zero] at this
  cases this

/-- **In no state of the loop are the sockets polled.** -/
theorem not_polls (connected : List Int) (h : Reachable sock stale s) :
    ¬ s.PollSet sock connected :=
  not_pollSet_of_fd_count (fd_count_of_reachable h)

end Bounds

/-- Slots as they may be after `malloc`. -/
def zeroSlots : Vector pollfd 5 := Vector.replicate 5 ⟨0, 0, 0⟩

theorem not_polls_init : ¬ (init 3 zeroSlots).PollSet 3 [] := not_polls [] .refl

/-- The first call of `poll` waits for nothing. -/
theorem not_forall_polls : ¬ ∀ s, Reachable 3 zeroSlots s → s.PollSet 3 [] := by
  intro h
  exact not_pollSet_of_fd_count rfl (h (init 3 zeroSlots) .refl)

end EventLoop
end TorrentClient
