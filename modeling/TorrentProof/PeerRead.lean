import Mathlib
import TorrentProof.Receive

/-! # Reading from a peer

`peers::read` takes one byte after the other up to a newline or a zero byte, and
`peers::receive` takes a number of bytes at once.  The loop of `read` tests its buffer before
the first byte is in it, and the buffer starts with a zero byte: nothing is ever read.
`receive` puts a terminator over its last byte and returns a C string, so a byte is missing
at the least (`faithful_iff`).
-/
namespace TorrentClient
open CText Socket

/-! ## The two functions -/

/-- A newline or a zero byte. -/
def EndsLine (b : UInt8) : Prop := b = 10 ∨ b = 0

instance (b : UInt8) : Decidable (EndsLine b) := inferInstanceAs (Decidable (_ ∨ _))

/-- `while (buffer[0] != '\n' && buffer[0] != '\0')`, where a call of `recv` that returns 0
leaves the byte in the buffer.  A `std::string` cannot be made of the `nullptr` that is
returned for an error. -/
def readLoop : Nat → UInt8 → List UInt8 → Conn → Except Stop (List UInt8 × Conn)
  | fuel, buffer, reply, c =>
    if buffer ≠ 10 ∧ buffer ≠ 0 then
      match fuel with
      | 0 => .error .running
      | fuel + 1 =>
        match recv 1 c with
        | none => .error .blocked
        | some o =>
          if o.ret < 0 then .error .fault
          else
            let buffer := o.bytes.headD buffer
            readLoop fuel buffer (reply ++ [buffer]) o.rest
    else .ok (reply, c)

/-- `peers::read()`: what it returns, and what is still to come on the socket. -/
def peers.read (fuel : Nat) (c : Conn) : Except Stop (List UInt8 × Conn) := readLoop fuel 0 [] c

/-- `peers::receive(size)`. -/
def peers.receive (size : Int32) (c : Conn) : Except Stop (List UInt8 × Conn) :=
  if 0 < size.toInt then
    match recv size.toInt.toNat c with
    | none => .error .blocked
    | some o =>
      if o.ret < 0 then .error .fault
      else
        let buff := o.bytes ++ List.replicate (size.toInt.toNat - o.bytes.length) 0
        .ok (cstr (buff.set (size.toInt.toNat - 1) 0), o.rest)
  else .error .fault

/-! ## What a caller relies on -/

/-- The bytes up to and including the first that ends a line. -/
def line : List UInt8 → List UInt8
  | [] => []
  | b :: bs => if EndsLine b then [b] else b :: line bs

/-- There is a line to read, or the end of the stream. -/
def HasLine (c : Conn) : Prop := (∃ b ∈ c.bytes, EndsLine b) ∨ c.ending = .closed

/-- The next `recv` for `n` bytes returns them. -/
def Arrive (n : Int32) (c : Conn) : Prop :=
  0 < n.toInt ∧ ∃ seg ∈ c.segments.head?, n.toInt ≤ seg.length

/-- **Reads are faithful**: `read` returns the line and leaves the rest, and `receive` returns
the bytes it was asked for. -/
structure Faithful (c : Conn) (n : Int32) : Prop where
  read : HasLine c → ∃ fuel rest, peers.read fuel c = .ok (line c.bytes, rest) ∧
    c.bytes = line c.bytes ++ rest.bytes
  receive : Arrive n c → ∃ rest, peers.receive n c = .ok (c.bytes.take n.toInt.toNat, rest)

/-- There is nothing to read. -/
structure NothingToRead (c : Conn) (n : Int32) : Prop where
  read : HasLine c → c.bytes = []
  receive : ¬ Arrive n c

variable {c : Conn} {b : UInt8} {reply : List UInt8}

/-! ## What `read` does -/

theorem line_ne_nil {bs : List UInt8} (h : bs ≠ []) : line bs ≠ [] := by
  cases bs with
  | nil => exact absurd rfl h
  | cons b bs =>
    rw [line]
    by_cases hb : EndsLine b
    · simp [hb]
    · simp [hb]

/-- The loop is not entered. -/
theorem peers.read_eq (fuel : Nat) (c : Conn) : peers.read fuel c = .ok ([], c) := by
  cases fuel with
  | zero => rfl
  | succ fuel => rfl

/-- A round of the loop that takes a byte. -/
theorem readLoop_step {x : UInt8} {bs : List UInt8} (hb : ¬ EndsLine b) (hbytes : c.bytes = x :: bs)
    (reply : List UInt8) : ∃ rest, rest.bytes = bs ∧ rest.ending = c.ending ∧
      ∀ fuel, readLoop (fuel + 1) b reply c = readLoop fuel x (reply ++ [x]) rest := by
  obtain ⟨rest, hrecv, hrest⟩ :=
    recv_of_dvd Nat.one_pos (fun seg _ => Nat.one_dvd seg.length) (hbytes ▸ List.cons_ne_nil x bs)
  rw [hbytes] at hrecv hrest
  refine ⟨rest, hrest, ending_of_recv hrecv, ?_⟩
  intro fuel
  have hloop : b ≠ 10 ∧ b ≠ 0 := not_or.mp hb
  rw [readLoop, if_pos hloop]
  simp [hrecv]

/-- Once it is entered the loop would read a line that is there. -/
theorem readLoop_line (hb : ¬ EndsLine b) (hline : ∃ b ∈ c.bytes, EndsLine b) :
    ∃ fuel rest, readLoop fuel b reply c = .ok (reply ++ line c.bytes, rest) ∧
      c.bytes = line c.bytes ++ rest.bytes := by
  induction hbytes : c.bytes generalizing c b reply with
  | nil =>
    obtain ⟨b, hmem, -⟩ := hline
    simp [hbytes] at hmem
  | cons x bs ih =>
    obtain ⟨rest, hrest, -, hstep⟩ := readLoop_step hb hbytes reply
    by_cases hx : EndsLine x
    · have hstop : ¬ (x ≠ 10 ∧ x ≠ 0) := fun h => not_or.mpr h hx
      refine ⟨1, rest, ?_, ?_⟩
      · rw [hstep, readLoop, if_neg hstop, line, if_pos hx]
      · rw [line, if_pos hx, hrest]
        rfl
    · have hline' : ∃ b ∈ rest.bytes, EndsLine b := by
        obtain ⟨b, hmem, hends⟩ := hline
        rw [hbytes] at hmem
        rcases List.mem_cons.mp hmem with rfl | hmem
        · exact absurd hends hx
        · exact ⟨b, hrest ▸ hmem, hends⟩
      obtain ⟨fuel, rest', hloop, hrest'⟩ : ∃ fuel rest',
          readLoop fuel x (reply ++ [x]) rest = .ok (reply ++ [x] ++ line bs, rest') ∧
            bs = line bs ++ rest'.bytes := ih hx hline' hrest
      refine ⟨fuel + 1, rest', ?_, ?_⟩
      · rw [hstep, hloop, line, if_neg hx]
        simp
      · rw [line, if_neg hx, List.cons_append, ← hrest']

/-- Once it is entered it would not see the end of the stream. -/
theorem readLoop_closed (hb : ¬ EndsLine b) (hline : ¬ ∃ b ∈ c.bytes, EndsLine b)
    (hclosed : c.ending = .closed) (fuel : Nat) : readLoop fuel b reply c = .error .running := by
  have hloop : b ≠ 10 ∧ b ≠ 0 := not_or.mp hb
  induction fuel generalizing c b reply with
  | zero => rw [readLoop, if_pos hloop]
  | succ fuel ih =>
    cases hbytes : c.bytes with
    | nil =>
      rw [readLoop, if_pos hloop]
      simp [recv_closed hbytes hclosed, ih hb hline hclosed hloop]
    | cons x bs =>
      obtain ⟨rest, hrest, hending, hstep⟩ := readLoop_step hb hbytes reply
      have hx : ¬ EndsLine x := fun hx => hline ⟨x, by simp [hbytes], hx⟩
      have hline' : ¬ ∃ b ∈ rest.bytes, EndsLine b := by
        rw [hrest]
        rintro ⟨b, hmem, hends⟩
        exact hline ⟨b, by simp [hbytes, hmem], hends⟩
      rw [hstep]
      exact ih hx hline' (hending.trans hclosed) (not_or.mp hx)

/-! ## What `receive` does -/

/-- It returns the bytes up to the last one, and those only to a zero byte. -/
theorem peers.receive_eq {n : Int32} (h : Arrive n c) : ∃ rest,
    peers.receive n c = .ok (cstr (c.bytes.take (n.toInt.toNat - 1)), rest) := by
  obtain ⟨hpos, seg, hseg, hle⟩ := h
  have hlen : (seg.take n.toInt.toNat).length = n.toInt.toNat := by
    rw [List.length_take]
    omega
  obtain ⟨rest, hrecv⟩ :=
    (recv_full_iff c (seg.take n.toInt.toNat) (by omega) hlen).mpr ⟨seg, hseg, List.take_prefix _ _⟩
  have hbytes : c.bytes.take (n.toInt.toNat - 1) =
      (seg.take n.toInt.toNat).take (n.toInt.toNat - 1) := by
    have heq : c.bytes = seg.take n.toInt.toNat ++ rest.bytes :=
      bytes_of_recv hrecv (show (0 : Int) < (n.toInt.toNat : Nat) by omega)
    rw [heq, List.take_append_of_le_length (by omega)]
  refine ⟨rest, ?_⟩
  have hret : ¬ (n.toInt.toNat : Int) < 0 := by omega
  have hlt : n.toInt.toNat - 1 < (seg.take n.toInt.toNat).length := by omega
  rw [peers.receive, if_pos hpos, hrecv, hbytes]
  dsimp only
  rw [if_neg hret, hlen, Nat.sub_self, List.replicate_zero, List.append_nil, cstr_set_zero hlt]

/-- A byte is missing. -/
theorem peers.receive_ne {n : Int32} (h : Arrive n c) (rest : Conn) :
    peers.receive n c ≠ .ok (c.bytes.take n.toInt.toNat, rest) := by
  intro heq
  obtain ⟨rest', heq'⟩ := peers.receive_eq h
  obtain ⟨hpos, seg, hseg, hle⟩ := h
  have hlong : seg.length ≤ c.bytes.length := by
    obtain ⟨segs, hsegs⟩ := List.head?_eq_some_iff.mp hseg
    rw [Conn.bytes, hsegs]
    simp
  have hshort : (cstr (c.bytes.take (n.toInt.toNat - 1))).length ≤ n.toInt.toNat - 1 :=
    (List.takeWhile_prefix _).length_le.trans (List.length_take_le _ _)
  rw [heq'] at heq
  rw [(Prod.mk.inj (Except.ok.inj heq)).1, List.length_take] at hshort
  omega

/-! ## Faithful reads -/

/-- **Reads are faithful where there is nothing to read.** -/
theorem faithful_iff (c : Conn) (n : Int32) : Faithful c n ↔ NothingToRead c n := by
  constructor
  · intro h
    refine ⟨?_, ?_⟩
    · intro hline
      by_contra hne
      obtain ⟨fuel, rest, hread, -⟩ := h.read hline
      rw [peers.read_eq] at hread
      exact line_ne_nil hne (Prod.mk.inj (Except.ok.inj hread)).1.symm
    · intro harrive
      obtain ⟨rest, hreceive⟩ := h.receive harrive
      exact peers.receive_ne harrive rest hreceive
  · intro h
    refine ⟨?_, fun harrive => absurd harrive h.receive⟩
    intro hline
    rw [h.read hline]
    exact ⟨0, c, peers.read_eq 0 c, (h.read hline).symm⟩

/-- One line, in one segment. -/
def oneLine : Conn := ⟨[[97, 10]], by decide, .closed⟩

theorem not_faithful_oneLine : ¬ Faithful oneLine 2 := by
  intro h
  obtain ⟨fuel, rest, hread, -⟩ := h.read (.inr rfl)
  rw [peers.read_eq] at hread
  exact absurd hread (by simp [oneLine, Conn.bytes, line, EndsLine])

end TorrentClient
