import Mathlib

/-! # Stream sockets

A connection delivers bytes in segments the receiver has no say in: `recv` returns the
next ones that have arrived, at most as many as it was asked for.  When everything has
been handed over it waits, or reports the end of the stream, or an error, from then on.
`recv_cases` says what one call does.
-/
namespace Socket

/-- What `recv` does once all bytes have been handed over. -/
inductive Ending where
  /-- it waits for ever -/
  | blocks
  /-- it returns 0 -/
  | closed
  /-- it returns -1 -/
  | failed
  deriving DecidableEq

/-- What is to come on a connection, in the pieces it comes in. -/
structure Conn where
  segments : List (List UInt8)
  nonempty : ∀ seg ∈ segments, seg ≠ []
  ending : Ending

/-- The bytes to come. -/
def Conn.bytes (c : Conn) : List UInt8 := c.segments.flatten

/-- A call of `recv` that returns. -/
structure Outcome where
  /-- the number it returns -/
  ret : Int
  /-- the bytes it puts at the start of the buffer -/
  bytes : List UInt8
  /-- what is still to come -/
  rest : Conn

/-- `recv(fd, buf, asked, 0)`; `none` is a call that does not return. -/
def recv (asked : Nat) (c : Conn) : Option Outcome :=
  match c with
  | ⟨[], _, .blocks⟩ => none
  | ⟨[], h, .closed⟩ => some ⟨0, [], ⟨[], h, .closed⟩⟩
  | ⟨[], h, .failed⟩ => some ⟨-1, [], ⟨[], h, .failed⟩⟩
  | ⟨seg :: segs, h, ending⟩ =>
    if hasked : seg.length ≤ asked then
      some ⟨seg.length, seg, ⟨segs, fun s hs => h s (List.mem_cons_of_mem _ hs), ending⟩⟩
    else
      some ⟨asked, seg.take asked, ⟨seg.drop asked :: segs, by
        intro s hs
        rcases List.mem_cons.mp hs with rfl | hs
        · exact fun hnil => hasked (List.drop_eq_nil_iff.mp hnil)
        · exact h s (List.mem_cons_of_mem _ hs), ending⟩⟩

variable {c : Conn} {asked : Nat} {o : Outcome}

/-- A segment that is asked for whole. -/
theorem recv_of_le {seg : List UInt8} {segs : List (List UInt8)} {h : ∀ s ∈ seg :: segs, s ≠ []}
    {ending : Ending} (hle : seg.length ≤ asked) :
    recv asked ⟨seg :: segs, h, ending⟩ =
      some ⟨seg.length, seg, ⟨segs, fun s hs => h s (List.mem_cons_of_mem _ hs), ending⟩⟩ := by
  rw [recv, dif_pos hle]

/-- A segment that is asked for in part. -/
theorem recv_of_lt {seg : List UInt8} {segs : List (List UInt8)} (h : ∀ s ∈ seg :: segs, s ≠ [])
    (ending : Ending) (hlt : asked < seg.length) :
    ∃ h', recv asked ⟨seg :: segs, h, ending⟩ =
      some ⟨asked, seg.take asked, ⟨seg.drop asked :: segs, h', ending⟩⟩ := by
  rw [recv, dif_neg (Nat.not_le.mpr hlt)]
  exact ⟨_, rfl⟩

/-- **What a call that returns does**: with nothing to come it reports the end or an error
and changes nothing; otherwise it hands over the next bytes, at least one if one was
asked for. -/
theorem recv_cases (h : recv asked c = some o) :
    (c.segments = [] ∧ o.ret ≤ 0 ∧ o.bytes = [] ∧ o.rest = c) ∨
      (o.ret = o.bytes.length ∧ o.bytes.length ≤ asked ∧ (0 < asked → o.bytes ≠ []) ∧
        c.bytes = o.bytes ++ o.rest.bytes) := by
  obtain ⟨segments, hne, ending⟩ := c
  cases segments with
  | nil =>
    left
    cases ending with
    | blocks => cases h
    | closed =>
      obtain rfl := Option.some.inj h
      exact ⟨rfl, Int.le_refl 0, rfl, rfl⟩
    | failed =>
      obtain rfl := Option.some.inj h
      exact ⟨rfl, show (-1 : Int) ≤ 0 by decide, rfl, rfl⟩
  | cons seg segs =>
    right
    by_cases hle : seg.length ≤ asked
    · rw [recv_of_le hle] at h
      obtain rfl := Option.some.inj h
      exact ⟨rfl, hle, fun _ => hne seg List.mem_cons_self, rfl⟩
    · obtain ⟨h', heq⟩ := recv_of_lt hne ending (Nat.not_le.mp hle)
      rw [heq] at h
      obtain rfl := Option.some.inj h
      refine ⟨?_, ?_, ?_, ?_⟩
      · show (asked : Int) = ((seg.take asked).length : Nat)
        rw [List.length_take, Nat.min_eq_left (by omega)]
      · exact List.length_take_le _ _
      · intro hpos hnil
        have := congrArg List.length hnil
        rw [List.length_take, List.length_nil] at this
        omega
      · show seg ++ segs.flatten = seg.take asked ++ (seg.drop asked ++ segs.flatten)
        rw [← List.append_assoc, List.take_append_drop]

/-- A call that returns a positive number hands over the next bytes. -/
theorem bytes_of_recv (h : recv asked c = some o) (hret : 0 < o.ret) :
    c.bytes = o.bytes ++ o.rest.bytes := by
  rcases recv_cases h with ⟨-, hle, -⟩ | ⟨-, -, -, hbytes⟩
  · omega
  · exact hbytes

/-- A connection without segments hands nothing over. -/
theorem eq_nil_of_segments_eq_nil {bs : List UInt8} {rest : Conn} (hnil : c.segments = [])
    (hbytes : c.bytes = bs ++ rest.bytes) : bs = [] := by
  rw [Conn.bytes, hnil, List.flatten_nil] at hbytes
  exact (List.append_eq_nil_iff.mp hbytes.symm).1

/-- How the stream ends does not change. -/
theorem ending_of_recv (h : recv asked c = some o) : o.rest.ending = c.ending := by
  obtain ⟨segments, hne, ending⟩ := c
  cases segments with
  | nil =>
    cases ending with
    | blocks => cases h
    | closed =>
      obtain rfl := Option.some.inj h
      rfl
    | failed =>
      obtain rfl := Option.some.inj h
      rfl
  | cons seg segs =>
    by_cases hle : seg.length ≤ asked
    · rw [recv_of_le hle] at h
      obtain rfl := Option.some.inj h
      rfl
    · obtain ⟨h', heq⟩ := recv_of_lt hne ending (Nat.not_le.mp hle)
      rw [heq] at h
      obtain rfl := Option.some.inj h
      rfl

/-- At the end of the stream a call returns 0. -/
theorem recv_closed (hbytes : c.bytes = []) (hclosed : c.ending = .closed) :
    recv asked c = some ⟨0, [], c⟩ := by
  obtain ⟨segments, hne, ending⟩ := c
  obtain rfl : ending = .closed := hclosed
  cases segments with
  | nil => rfl
  | cons seg segs =>
    have hseg := List.append_eq_nil_iff.mp (show seg ++ segs.flatten = [] from hbytes)
    exact absurd hseg.1 (hne seg List.mem_cons_self)

/-- A call returns as many bytes as it was asked for when the next segment starts with them. -/
theorem recv_full_iff (c : Conn) (bs : List UInt8) (hpos : 0 < asked) (hlen : bs.length = asked) :
    (∃ rest, recv asked c = some ⟨asked, bs, rest⟩) ↔ ∃ seg ∈ c.segments.head?, bs <+: seg := by
  obtain ⟨segments, hne, ending⟩ := c
  cases segments with
  | nil =>
    constructor
    · rintro ⟨rest, h⟩
      have hbs : bs = [] :=
        eq_nil_of_segments_eq_nil rfl (bytes_of_recv h (Int.natCast_pos.mpr hpos))
      rw [hbs, List.length_nil] at hlen
      omega
    · rintro ⟨seg, hseg, -⟩
      cases hseg
  | cons seg segs =>
    constructor
    · rintro ⟨rest, h⟩
      refine ⟨seg, rfl, ?_⟩
      by_cases hle : seg.length ≤ asked
      · rw [recv_of_le hle] at h
        obtain ⟨-, rfl, -⟩ := Outcome.mk.inj (Option.some.inj h)
        exact List.prefix_refl seg
      · obtain ⟨h', heq⟩ := recv_of_lt hne ending (Nat.not_le.mp hle)
        rw [heq] at h
        obtain ⟨-, rfl, -⟩ := Outcome.mk.inj (Option.some.inj h)
        exact List.take_prefix asked seg
    · rintro ⟨seg', hseg, hprefix⟩
      obtain rfl := Option.some.inj hseg
      by_cases hle : seg.length ≤ asked
      · obtain rfl := hprefix.eq_of_length (by have := hprefix.length_le; omega)
        rw [recv_of_le hle, hlen]
        exact ⟨_, rfl⟩
      · obtain ⟨h', heq⟩ := recv_of_lt hne ending (Nat.not_le.mp hle)
        have htake : seg.take asked = bs := by
          rw [← hlen, ← List.prefix_iff_eq_take.mp hprefix]
        rw [heq, htake]
        exact ⟨_, rfl⟩

/-- A call that returns as many bytes as it was asked for takes them off the segments, whole
multiples or not. -/
theorem dvd_segments_of_recv {bs : List UInt8} {rest : Conn} (hpos : 0 < asked)
    (h : recv asked c = some ⟨asked, bs, rest⟩) :
    (∀ seg ∈ c.segments, asked ∣ seg.length) ↔ ∀ seg ∈ rest.segments, asked ∣ seg.length := by
  obtain ⟨segments, hne, ending⟩ := c
  cases segments with
  | nil =>
    rcases recv_cases h with ⟨-, hret, -⟩ | ⟨-, -, hne, hbytes⟩
    · exact absurd hret (show ¬ (asked : Int) ≤ 0 by omega)
    · exact absurd (eq_nil_of_segments_eq_nil rfl hbytes) (hne hpos)
  | cons seg segs =>
    rw [List.forall_mem_cons]
    by_cases hle : seg.length ≤ asked
    · rw [recv_of_le hle] at h
      obtain ⟨hret, -, rfl⟩ := Outcome.mk.inj (Option.some.inj h)
      refine and_iff_right ?_
      rw [show seg.length = asked from by omega]
    · obtain ⟨h', heq⟩ := recv_of_lt hne ending (Nat.not_le.mp hle)
      rw [heq] at h
      obtain ⟨-, -, rfl⟩ := Outcome.mk.inj (Option.some.inj h)
      dsimp only
      rw [List.forall_mem_cons, List.length_drop, Nat.dvd_sub_self_right]
      refine and_congr_left fun _ => ⟨.inl, fun hor => hor.resolve_right (by omega)⟩

/-- Segments of whole multiples are received a multiple at a time. -/
theorem recv_of_dvd (hpos : 0 < asked) (hdvd : ∀ seg ∈ c.segments, asked ∣ seg.length)
    (hne : c.bytes ≠ []) : ∃ rest, recv asked c = some ⟨asked, c.bytes.take asked, rest⟩ ∧
      rest.bytes = c.bytes.drop asked := by
  obtain ⟨segments, hseg, ending⟩ := c
  cases segments with
  | nil => exact absurd rfl hne
  | cons seg segs =>
    have hle : asked ≤ seg.length :=
      Nat.le_of_dvd (List.length_pos_iff.mpr (hseg seg List.mem_cons_self))
        (hdvd seg List.mem_cons_self)
    have hbytes : (⟨seg :: segs, hseg, ending⟩ : Conn).bytes = seg ++ segs.flatten := rfl
    rw [hbytes, List.take_append_of_le_length hle, List.drop_append_of_le_length hle]
    rcases Nat.eq_or_lt_of_le hle with heq | hlt
    · subst heq
      refine ⟨⟨segs, fun s hs => hseg s (List.mem_cons_of_mem _ hs), ending⟩, ?_, ?_⟩
      · rw [recv_of_le (Nat.le_refl _), List.take_length]
      · rw [List.drop_length]
        rfl
    · obtain ⟨h', hrecv⟩ := recv_of_lt hseg ending hlt
      exact ⟨_, hrecv, rfl⟩

end Socket
