import Mathlib
import TorrentProof.PollSet

/-! # One round of polling

`poll` sets `revents` of the slots it is given, and the pass over the slots serves those
with an input.  The pass goes on into the slots `accept` appends, whose `revents` nobody has
set, and it does not look whether `poll` has succeeded.  So what is served is what was
reported exactly if those slots happen to hold no input, and `poll` does not fail with one
left in a slot (`servesReported_iff`).
-/
namespace TorrentClient
namespace EventLoop

/-! ## Slots -/

/-- The descriptor in a slot. -/
def fd? (s : EventLoop) (j : Nat) : Option Int := s.pfds[j]?.map (·.fd)

/-- What a slot holds as reported. -/
def revents? (s : EventLoop) (j : Nat) : Option UInt16 := s.pfds[j]?.map (·.revents)

/-- A slot holds an input. -/
def ready (s : EventLoop) (j : Nat) : Bool := (s.revents? j).any fun r => r &&& POLLIN != 0

/-- The next step of the pass is to accept or to receive, on slot `j`. -/
def Serves (s : EventLoop) (j : Nat) : Prop :=
  s.i = some j ∧ j < s.fd_count ∧ s.ready j = true

/-- `poll(pfds, fd_count, -1)`: if it succeeds it sets what it reports in the slots that are
polled, and if it fails it leaves them alone. -/
def poll (s : EventLoop) (outcome : Option (Nat → UInt16)) : EventLoop :=
  { s with
    pfds := match outcome with
      | none => s.pfds
      | some report =>
        (s.polled.mapIdx fun j p => { p with revents := report j }) ++ s.pfds.drop s.fd_count
    i := some 0 }

/-- A step of the pass. -/
def PassStep (sock : Int) (s s' : EventLoop) : Prop := s.i ≠ none ∧ Step sock s s'

/-- A call of `poll` with the listening socket among the slots that are polled. -/
structure PollCall (sock : Int) where
  state : EventLoop
  idle : state.i = none
  inBounds : state.InBounds
  listener : ∃ p ∈ state.polled, p.fd = sock

/-- **What is served was reported**: in the pass behind a call of `poll`, for a slot that was
polled in this round. -/
def ServesReported {sock : Int} (c : PollCall sock) (outcome : Option (Nat → UInt16)) : Prop :=
  ∀ s, Relation.ReflTransGen (PassStep sock) (c.state.poll outcome) s → ∀ j, s.Serves j →
    j < c.state.fd_count ∧ ∃ report ∈ outcome, report j &&& POLLIN ≠ 0

/-- How many of the first `k` slots are the listening socket with an input. -/
def accepts (sock : Int) (s : EventLoop) (k : Nat) : Nat :=
  (List.range k).countP fun j => s.fd? j == some sock && s.ready j

/-- A call that fails leaves no input in a polled slot.  Behind one that succeeds there are
as many slots as the pass accepts sockets, without an input. -/
structure CleanSlots {sock : Int} (c : PollCall sock) (outcome : Option (Nat → UInt16)) :
    Prop where
  failed : outcome = none → ∀ j < c.state.fd_count, c.state.ready j = false
  room : c.state.fd_count + (c.state.poll outcome).accepts sock c.state.fd_count ≤ c.state.fd_size
  clean : ∀ j, c.state.fd_count ≤ j →
    j < c.state.fd_count + (c.state.poll outcome).accepts sock c.state.fd_count →
      c.state.ready j = false

variable {sock : Int} {s s' s₀ : EventLoop}

/-- A step that serves no slot changes the loop variable only. -/
theorem step_of_not_serves {j : Nat} (hstep : Step sock s s') (hi : s.i = some j)
    (h : ¬ s.Serves j) : s' = { s with i := s'.i } := by
  cases hstep with
  | poll _ hidle => simp [hidle] at hi
  | done _ _ => rfl
  | skip _ _ _ _ => rfl
  | accept _ _ h' hlt hp hr _ =>
    obtain rfl := Option.some.inj (hi.symm.trans h')
    exact absurd ⟨hi, hlt, by simp [ready, revents?, hp, hr]⟩ h
  | receive _ _ _ _ _ => rfl

/-! ## What a step leaves of the slots -/

section Slots
variable {j : Nat} (fresh : Nat → pollfd) (clntSock : Int)

theorem slot_grow (h : j < s.pfds.length) : (s.grow fresh).pfds[j]? = s.pfds[j]? := by
  rw [grow]
  split
  · exact List.getElem?_append_left h
  · rfl

theorem length_le_grow : s.pfds.length ≤ (s.grow fresh).pfds.length := by
  rw [grow]
  split
  · simp
  · exact Nat.le_refl _

theorem fd_count_grow : (s.grow fresh).fd_count = s.fd_count := by
  rw [grow]
  split
  · rfl
  · rfl

/-- A new slot holds what was found in the memory. -/
theorem slot_grow_fresh (h : s.pfds.length ≤ j) (h' : j < (s.grow fresh).pfds.length) :
    (s.grow fresh).pfds[j]? = some (fresh (j - s.pfds.length)) := by
  rw [grow] at h' ⊢
  split at h'
  next heq =>
    rw [if_pos heq]
    have hlt : j - s.pfds.length < s.fd_size * 2 - s.pfds.length := by
      simp at h'
      omega
    show (s.pfds ++ _)[j]? = _
    rw [List.getElem?_append_right h, List.getElem?_map, List.getElem?_range hlt]
    rfl
  next hne => exact absurd h' (Nat.not_lt.mpr h)

/-- Appending a socket does not set `revents`. -/
theorem revents_append : (s.append clntSock).revents? j = s.revents? j := by
  rw [revents?, append, revents?]
  by_cases h : j = s.fd_count
  · subst h
    cases hp : s.pfds[s.fd_count]? with
    | none => simp [hp]
    | some p => simp [hp]
  · simp [List.getElem?_modify_ne _ _ (Ne.symm h)]

theorem fd_append (h : j ≠ s.fd_count) : (s.append clntSock).fd? j = s.fd? j := by
  rw [fd?, append, fd?]
  simp [List.getElem?_modify_ne _ _ (Ne.symm h)]

theorem length_append : (s.append clntSock).pfds.length = s.pfds.length := by
  simp [append]

end Slots

/-! ## The call of `poll` -/

section Poll
variable {outcome : Option (Nat → UInt16)} {j : Nat}

theorem length_poll (h : s.InBounds) : (s.poll outcome).pfds.length = s.pfds.length := by
  have := h.count_le
  have := h.size_eq
  cases outcome with
  | none => rfl
  | some report =>
    simp [poll, polled]
    omega

theorem InBounds.poll (h : s.InBounds) : (s.poll outcome).InBounds where
  size_pos := h.size_pos
  count_le := h.count_le
  size_eq := h.size_eq.trans (length_poll h).symm

/-- The slots behind the polled ones are left alone. -/
theorem ready_poll_of_ge (h : s.InBounds) (hj : s.fd_count ≤ j) :
    (s.poll outcome).ready j = s.ready j := by
  have := h.count_le
  have := h.size_eq
  cases outcome with
  | none => rfl
  | some report =>
    have hlen : (s.polled.mapIdx fun j p => { p with revents := report j }).length =
        s.fd_count := by
      simp [polled]
      omega
    rw [ready, revents?, EventLoop.poll]
    simp [List.getElem?_append_right (hlen.symm ▸ hj), hlen, ready, revents?,
      Nat.add_sub_cancel' hj]

/-- A polled slot is ready if that was reported. -/
theorem ready_poll_of_lt (h : s.InBounds) (report : Nat → UInt16) (hj : j < s.fd_count) :
    (s.poll (some report)).ready j = (report j &&& POLLIN != 0) := by
  have := h.count_le
  have := h.size_eq
  have hlt : j < s.polled.length := by
    simp [polled]
    omega
  rw [ready, revents?, EventLoop.poll]
  simp [List.getElem?_append_left, hlt]

/-- The step of the loop at `poll` is a call that succeeds. -/
theorem exists_poll (report : pollfd → UInt16) :
    ∃ report' : Nat → UInt16, s.poll (some report') =
      { s with
        pfds := s.polled.map (fun p => { p with revents := report p }) ++ s.pfds.drop s.fd_count
        i := some 0 } := by
  refine ⟨fun j => (s.pfds[j]?.map report).getD 0, ?_⟩
  have hmap : (s.polled.mapIdx fun j p =>
      { p with revents := (s.pfds[j]?.map report).getD 0 }) =
      s.polled.map fun p => { p with revents := report p } := by
    apply List.ext_getElem (by simp)
    intro j hj _
    simp [polled] at hj
    simp [polled, List.getElem?_eq_getElem hj.2]
  rw [EventLoop.poll, hmap]

end Poll

/-! ## The pass -/

/-- What holds in a pass from `s₀` on, as long as nothing is served behind the slots counted
there. -/
structure Passing (sock : Int) (s₀ s : EventLoop) : Prop where
  inBounds : s.InBounds
  length_le : s₀.pfds.length ≤ s.pfds.length
  fd_eq : ∀ j < s₀.fd_count, s.fd? j = s₀.fd? j
  revents_eq : ∀ j < s₀.pfds.length, s.revents? j = s₀.revents? j
  count_eq : ∀ k, s.i = some k → s.fd_count = s₀.fd_count + s₀.accepts sock (min k s₀.fd_count)

theorem Passing.refl (h : s.InBounds) (hi : s.i = some 0) : Passing sock s s where
  inBounds := h
  length_le := Nat.le_refl _
  fd_eq _ _ := rfl
  revents_eq _ _ := rfl
  count_eq k hk := by
    obtain rfl := Option.some.inj (hi.symm.trans hk)
    simp [accepts]

theorem Passing.ready_eq (h : Passing sock s₀ s) {j : Nat} (hj : j < s₀.pfds.length) :
    s.ready j = s₀.ready j := by
  rw [ready, ready, h.revents_eq j hj]

theorem accepts_succ (k : Nat) : s.accepts sock (k + 1) =
    s.accepts sock k + if s.fd? k = some sock ∧ s.ready k = true then 1 else 0 := by
  simp [accepts, List.range_succ, List.countP_append, List.countP_singleton]

/-- Going on from slot `k` without accepting. -/
theorem Passing.next {k : Nat} (h : Passing sock s₀ s) (hk : s.i = some k)
    (hnot : k < s₀.fd_count → ¬ (s₀.fd? k = some sock ∧ s₀.ready k = true)) :
    Passing sock s₀ { s with i := some (k + 1) } where
  inBounds := ⟨h.inBounds.size_pos, h.inBounds.count_le, h.inBounds.size_eq⟩
  length_le := h.length_le
  fd_eq := h.fd_eq
  revents_eq := h.revents_eq
  count_eq k' hk' := by
    obtain rfl := Option.some.inj hk'
    show s.fd_count = _
    rw [h.count_eq k hk]
    by_cases hk₀ : k < s₀.fd_count
    · rw [Nat.min_eq_left hk₀.le, Nat.min_eq_left hk₀, accepts_succ, if_neg (hnot hk₀)]
      rfl
    · rw [Nat.min_eq_right (by omega), Nat.min_eq_right (by omega)]

/-- Accepting on slot `k`. -/
theorem Passing.accept {k : Nat} (h : Passing sock s₀ s) (h₀ : s₀.InBounds) (hk : s.i = some k)
    (hk₀ : k < s₀.fd_count) (hyes : s₀.fd? k = some sock ∧ s₀.ready k = true)
    (clntSock : Int) (fresh : Nat → pollfd)
    (hin : InBounds { (s.grow fresh).append clntSock with i := some (k + 1) }) :
    Passing sock s₀ { (s.grow fresh).append clntSock with i := some (k + 1) } := by
  have := h₀.count_le
  have := h₀.size_eq
  have hlen := h.length_le
  have hcount := h.count_eq k hk
  have hslot : ∀ j < s₀.pfds.length, (s.grow fresh).pfds[j]? = s.pfds[j]? :=
    fun j hj => slot_grow fresh (by omega)
  refine ⟨hin, ?_, ?_, ?_, ?_⟩
  · show _ ≤ ((s.grow fresh).append clntSock).pfds.length
    rw [length_append]
    exact hlen.trans (length_le_grow fresh)
  · intro j hj
    show ((s.grow fresh).append clntSock).fd? j = _
    rw [fd_append clntSock (by rw [fd_count_grow]; omega), fd?, hslot j (by omega)]
    exact h.fd_eq j hj
  · intro j hj
    show ((s.grow fresh).append clntSock).revents? j = _
    rw [revents_append, revents?, hslot j hj]
    exact h.revents_eq j hj
  · intro k' hk'
    obtain rfl := Option.some.inj hk'
    show (s.grow fresh).fd_count + 1 = _
    rw [fd_count_grow, hcount, Nat.min_eq_left hk₀.le, Nat.min_eq_left hk₀, accepts_succ,
      if_pos hyes]
    rfl

/-- **A step of the pass** keeps it so. -/
theorem Passing.step (h : Passing sock s₀ s) (h₀ : s₀.InBounds) (hstep : PassStep sock s s')
    (hserves : ∀ j, s.Serves j → j < s₀.fd_count) : Passing sock s₀ s' := by
  obtain ⟨hi, hstep⟩ := hstep
  have hin := h.inBounds.step hstep
  have := h₀.count_le
  have := h₀.size_eq
  cases hstep with
  | poll _ hidle => exact absurd hidle hi
  | done _ _ => exact ⟨hin, h.length_le, h.fd_eq, h.revents_eq, fun k hk => by simp at hk⟩
  | @skip k p hk hlt hp hr =>
    refine h.next hk ?_
    intro hk₀ hyes
    rw [← h.ready_eq (by omega)] at hyes
    simp [ready, revents?, hp, hr] at hyes
  | @accept k p clntSock fresh hk hlt hp hr hsock =>
    have hserve : s.Serves k := ⟨hk, hlt, by simp [ready, revents?, hp, hr]⟩
    have hk₀ := hserves k hserve
    refine h.accept h₀ hk hk₀ ⟨?_, ?_⟩ clntSock fresh hin
    · rw [← h.fd_eq k hk₀, fd?, hp, ← hsock]
      rfl
    · rw [← h.ready_eq (by omega)]
      exact hserve.2.2
  | @receive k p hk hlt hp hr hsock =>
    refine h.next hk ?_
    intro hk₀ hyes
    rw [← h.fd_eq k hk₀, fd?, hp] at hyes
    exact hsock (Option.some.inj hyes.1)

/-! ## What is served -/

section Served
variable {c : PollCall sock} {outcome : Option (Nat → UInt16)} {j : Nat}

/-- With clean slots a slot that is served has been polled. -/
theorem CleanSlots.polled (h : CleanSlots c outcome)
    (hpass : Passing sock (c.state.poll outcome) s) (hserve : s.Serves j) :
    j < c.state.fd_count := by
  obtain ⟨hi, hlt, hready⟩ := hserve
  by_contra hge
  have hj : j < c.state.fd_count + (c.state.poll outcome).accepts sock c.state.fd_count := by
    have hcount : s.fd_count = c.state.fd_count +
        (c.state.poll outcome).accepts sock (min j c.state.fd_count) := hpass.count_eq j hi
    rwa [hcount, Nat.min_eq_right (Nat.not_lt.mp hge)] at hlt
  have hlen : j < (c.state.poll outcome).pfds.length := by
    have := h.room
    have := c.inBounds.size_eq
    rw [length_poll c.inBounds]
    omega
  rw [hpass.ready_eq hlen, ready_poll_of_ge c.inBounds (Nat.not_lt.mp hge),
    h.clean j (Nat.not_lt.mp hge) hj] at hready
  cases hready

/-- With clean slots the whole pass stays within what was polled. -/
theorem CleanSlots.passing (h : CleanSlots c outcome)
    (hrun : Relation.ReflTransGen (PassStep sock) (c.state.poll outcome) s) :
    Passing sock (c.state.poll outcome) s := by
  induction hrun with
  | refl => exact .refl c.inBounds.poll rfl
  | tail _ hstep ih => exact ih.step c.inBounds.poll hstep fun j => h.polled ih

theorem CleanSlots.servesReported (h : CleanSlots c outcome) : ServesReported c outcome := by
  intro s hrun j hserve
  have hpass := h.passing hrun
  have hj := h.polled hpass hserve
  refine ⟨hj, ?_⟩
  have := c.inBounds.count_le
  have := c.inBounds.size_eq
  have hready : (c.state.poll outcome).ready j = true := by
    rw [← hpass.ready_eq (by rw [length_poll c.inBounds]; omega)]
    exact hserve.2.2
  cases outcome with
  | none =>
    have hnot : (c.state.poll none).ready j = false := h.failed rfl j hj
    simp [hnot] at hready
  | some report =>
    rw [ready_poll_of_lt c.inBounds report hj] at hready
    exact ⟨report, rfl, by simpa using hready⟩

end Served

/-! ## Passes that serve too much -/

section Adversary

/-- A pass reaches every slot that was counted, and may find an input in all the memory that
is allocated on the way. -/
theorem exists_pass (sock : Int) (h₀ : s₀.InBounds) (hi₀ : s₀.i = some 0) :
    ∀ k ≤ s₀.fd_count, ∃ s, Relation.ReflTransGen (PassStep sock) s₀ s ∧ s.i = some k ∧
      Passing sock s₀ s ∧ ∀ j, s₀.pfds.length ≤ j → j < s.pfds.length → s.ready j = true := by
  intro k
  induction k with
  | zero =>
    intro _
    exact ⟨s₀, .refl, hi₀, .refl h₀ hi₀, fun j hle hlt => absurd hlt (Nat.not_lt.mpr hle)⟩
  | succ k ih =>
    intro hk
    obtain ⟨s, hrun, hi, hpass, hfresh⟩ := ih (by omega)
    have hmoves : s.i ≠ none := by simp [hi]
    have hserves : ∀ j, s.Serves j → j < s₀.fd_count := by
      intro j hserve
      obtain rfl := Option.some.inj (hi.symm.trans hserve.1)
      exact hk
    have hlt : k < s.fd_count := by
      have := hpass.count_eq k hi
      omega
    have hslot : k < s.pfds.length := by
      have := hpass.inBounds.count_le
      have := hpass.inBounds.size_eq
      omega
    have hp : s.pfds[k]? = some s.pfds[k] := List.getElem?_eq_getElem hslot
    by_cases hr : s.pfds[k].revents &&& POLLIN = 0
    · have hstep : PassStep sock s _ := ⟨hmoves, .skip hi hlt hp hr⟩
      exact ⟨_, hrun.tail hstep, rfl, hpass.step h₀ hstep hserves, hfresh⟩
    by_cases hsock : s.pfds[k].fd = sock
    · have hstep : PassStep sock s _ :=
        ⟨hmoves, .accept (-1) (fun _ => ⟨-1, 0, POLLIN⟩) hi hlt hp hr hsock⟩
      refine ⟨_, hrun.tail hstep, rfl, hpass.step h₀ hstep hserves, ?_⟩
      intro j hle hj
      show Option.any _ (EventLoop.revents? (append _ (-1)) j) = true
      rw [revents_append, revents?]
      by_cases hj' : j < s.pfds.length
      · rw [slot_grow _ hj']
        exact hfresh j hle hj'
      · rw [slot_grow_fresh _ (Nat.not_lt.mp hj') (by rw [← length_append (-1)]; exact hj)]
        decide
    · have hstep : PassStep sock s _ := ⟨hmoves, .receive hi hlt hp hr hsock⟩
      exact ⟨_, hrun.tail hstep, rfl, hpass.step h₀ hstep hserves, hfresh⟩

/-- On the way to a slot with an input something is served. -/
theorem exists_serves (sock : Int) (hin : s.InBounds) (d k : Nat) (hi : s.i = some k)
    (hlt : k + d < s.fd_count) (hready : s.ready (k + d) = true) :
    ∃ s' j, Relation.ReflTransGen (PassStep sock) s s' ∧ k ≤ j ∧ s'.Serves j := by
  induction d generalizing s k with
  | zero => exact ⟨s, k, .refl, Nat.le_refl k, hi, hlt, hready⟩
  | succ d ih =>
    by_cases hk : s.ready k = true
    · exact ⟨s, k, .refl, Nat.le_refl k, hi, by omega, hk⟩
    have hslot : k < s.pfds.length := by
      have := hin.count_le
      have := hin.size_eq
      omega
    have hp : s.pfds[k]? = some s.pfds[k] := List.getElem?_eq_getElem hslot
    have hr : s.pfds[k].revents &&& POLLIN = 0 := by
      simpa [ready, revents?, hp] using hk
    have hstep : PassStep sock s { s with i := some (k + 1) } :=
      ⟨by simp [hi], .skip hi (by omega) hp hr⟩
    have hadd : k + (d + 1) = k + 1 + d := by omega
    rw [hadd] at hlt hready
    obtain ⟨s', j, hrun, hle, hserve⟩ := ih (s := { s with i := some (k + 1) })
      ⟨hin.size_pos, hin.count_le, hin.size_eq⟩ (k + 1) rfl hlt hready
    exact ⟨s', j, .head hstep hrun, by omega, hserve⟩

variable {c : PollCall sock} {outcome : Option (Nat → UInt16)}

/-- In no pass is an input found behind the slots that were polled. -/
theorem ServesReported.not_ready (h : ServesReported c outcome)
    (hrun : Relation.ReflTransGen (PassStep sock) (c.state.poll outcome) s)
    (hin : s.InBounds) (hi : s.i = some c.state.fd_count) {j : Nat} (hj : c.state.fd_count ≤ j)
    (hlt : j < s.fd_count) : s.ready j = false := by
  by_contra hready
  obtain ⟨d, rfl⟩ := Nat.exists_eq_add_of_le hj
  obtain ⟨s', j, hrun', hle, hserve⟩ :=
    exists_serves sock hin d _ hi hlt (by simpa using hready)
  have := (h s' (hrun.trans hrun') j hserve).1
  omega

/-- A call that fails leaves no input in a polled slot. -/
theorem ServesReported.failed (h : ServesReported c none) {j : Nat} (hj : j < c.state.fd_count) :
    c.state.ready j = false := by
  have := c.inBounds.count_le
  have := c.inBounds.size_eq
  have hlen : (c.state.poll none).pfds.length = c.state.pfds.length := rfl
  have hpoll : (c.state.poll none).InBounds := c.inBounds.poll
  by_contra hready
  obtain ⟨s, hrun, hi, hpass, -⟩ :=
    exists_pass sock hpoll rfl j (show j ≤ c.state.fd_count from hj.le)
  have hlt : j < s.fd_count := by
    have : s.fd_count = c.state.fd_count + _ := hpass.count_eq j hi
    omega
  have hserve : s.Serves j := by
    refine ⟨hi, hlt, ?_⟩
    rw [hpass.ready_eq (by omega)]
    show c.state.ready j = true
    simpa using hready
  obtain ⟨-, report, hreport, -⟩ := h s hrun j hserve
  cases hreport

/-- The pass over the polled slots: as many slots are appended as sockets are accepted, and
none of them holds an input. -/
theorem ServesReported.exists_pass (h : ServesReported c outcome) :
    ∃ s, Passing sock (c.state.poll outcome) s ∧
      s.fd_count = c.state.fd_count + (c.state.poll outcome).accepts sock c.state.fd_count ∧
      (∀ j, c.state.fd_count ≤ j → j < s.fd_count → s.ready j = false) ∧
      ∀ j, c.state.pfds.length ≤ j → j < s.pfds.length → s.ready j = true := by
  have hpoll : (c.state.poll outcome).InBounds := c.inBounds.poll
  obtain ⟨s, hrun, hi, hpass, hfresh⟩ :=
    EventLoop.exists_pass sock hpoll rfl c.state.fd_count (Nat.le_refl _)
  refine ⟨s, hpass, ?_, ?_, ?_⟩
  · have hcount : s.fd_count = c.state.fd_count +
        (c.state.poll outcome).accepts sock (min c.state.fd_count c.state.fd_count) :=
      hpass.count_eq _ hi
    rwa [Nat.min_self] at hcount
  · intro j hj hlt
    exact h.not_ready hrun hpass.inBounds hi hj hlt
  · rwa [length_poll c.inBounds] at hfresh

theorem ServesReported.cleanSlots (h : ServesReported c outcome) : CleanSlots c outcome := by
  have hin := c.inBounds
  obtain ⟨s, hpass, hcount, hnot, hfresh⟩ := h.exists_pass
  have hsize := hpass.inBounds.size_eq
  have hle := hpass.inBounds.count_le
  refine ⟨?_, ?_, ?_⟩
  · rintro rfl j hj
    exact h.failed hj
  · by_contra hroom
    have := hin.size_eq
    have hready := hfresh c.state.fd_size (by omega) (by omega)
    rw [hnot c.state.fd_size hin.count_le (by omega)] at hready
    cases hready
  · intro j hj hlt
    have hready := hnot j hj (by omega)
    by_cases hj' : j < c.state.pfds.length
    · rwa [hpass.ready_eq (by rwa [length_poll hin]), ready_poll_of_ge hin hj] at hready
    · simp [ready, revents?, List.getElem?_eq_none (Nat.not_lt.mp hj')]

end Adversary

/-- **When a round serves what was reported.** -/
theorem servesReported_iff {sock : Int} (c : PollCall sock) (outcome : Option (Nat → UInt16)) :
    ServesReported c outcome ↔ CleanSlots c outcome :=
  ⟨fun h => h.cleanSlots, fun h => h.servesReported⟩

/-- The listening socket is polled, and a slot behind it holds an input. -/
def staleCall : PollCall 3 where
  state := {
    pfds := [⟨3, POLLIN, 0⟩, ⟨0, 0, POLLIN⟩, ⟨0, 0, 0⟩, ⟨0, 0, 0⟩, ⟨0, 0, 0⟩]
    fd_count := 1
    fd_size := 5
    i := none
    accepted := [] }
  idle := rfl
  inBounds := ⟨by decide, by decide, rfl⟩
  listener := ⟨⟨3, POLLIN, 0⟩, List.mem_singleton.mpr rfl, rfl⟩

/-- A connection is reported on the listening socket, and the pass receives from the socket
it has just accepted. -/
theorem not_servesReported_stale : ¬ ServesReported staleCall (some fun _ => POLLIN) := by
  intro h
  have hclean := h.cleanSlots.clean 1
  revert hclean
  decide

end EventLoop
end TorrentClient
