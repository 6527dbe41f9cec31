import Mathlib
import TorrentProof.Overlay
import TorrentProof.Traced

/-! # The body of a tracker response

libcurl hands the body of a response to `write_callback` in chunks, as they come off
the network.  The callback copies each to where the response buffer begins, and
nobody tells it how large the buffer is.  `reassembles_iff` says for which chunks
that keeps inside the buffer and leaves the body in it.
-/
namespace TorrentClient
open Bytes
namespace TrackerConnector

/-- `sizeof response` in `TrackerConnector::request`. -/
def responseSize : Nat := 10000

/-- The buffer the callback writes to. -/
inductive Region where
  /-- `response` -/
  | response
  deriving DecidableEq

/-- `TrackerConnector::write_callback(ptr, size, nmemb, userdata)`: the buffer
afterwards and the number returned. -/
def write_callback (ptr : Mem) (size nmemb : Nat) (userdata : Mem) :
    Traced Region (Mem × Nat) := do
  let userdata ← Traced.memcpyInto .response userdata ptr (nmemb * size)
  pure (userdata, size * nmemb)

/-- `curl_easy_perform` with this callback: one call for each chunk, with `size` 1,
for as long as the callback returns the number of bytes it was given. -/
def curl_easy_perform : List (List UInt8) → Mem → Traced Region Mem
  | [], userdata => pure userdata
  | chunk :: chunks, userdata => do
    let (userdata, n) ← write_callback (Mem.ofList chunk fun _ => 0) 1 chunk.length userdata
    if n = chunk.length then curl_easy_perform chunks userdata else pure userdata

/-- What `request` has in `response` once libcurl is done: `stack` is what the array
held before its `memset`. -/
def response (chunks : List (List UInt8)) (stack : Mem) : Traced Region Mem := do
  let response ← Traced.bzero .response stack responseSize
  curl_easy_perform chunks response

/-- A response body in the chunks it is delivered in. -/
structure Delivery where
  chunks : List (List UInt8)
  nonempty : ∀ chunk ∈ chunks, chunk ≠ []

/-- The body that is delivered. -/
def Delivery.body (d : Delivery) : List UInt8 := d.chunks.flatten

/-- An access inside the buffer. -/
def InResponse : Access Region → Prop
  | .read .response off => off < responseSize
  | .write .response off => off < responseSize

instance : DecidablePred InResponse
  | .read .response off => inferInstanceAs (Decidable (off < responseSize))
  | .write .response off => inferInstanceAs (Decidable (off < responseSize))

/-- **The delivery is reassembled**: every access is inside the buffer, and a body
that fits it, with room for a zero, is what the buffer then holds, zeros behind it. -/
def Delivery.Reassembled (d : Delivery) : Prop :=
  ∀ stack, (response d.chunks stack).Within InResponse ∧
    (d.body.length < responseSize →
      (response d.chunks stack).val.slice 0 responseSize =
        d.body ++ List.replicate (responseSize - d.body.length) 0)

/-- No chunk is larger than the buffer, and in a body that fits all chunks but the
first are zeros, with nothing but zeros of the first under them. -/
def Delivery.Intact (d : Delivery) : Prop :=
  (∀ chunk ∈ d.chunks, chunk.length ≤ responseSize) ∧
    (d.body.length < responseSize → Harmless d.chunks)

instance (d : Delivery) : Decidable d.Intact := inferInstanceAs (Decidable (_ ∧ _))

/-! ## The callbacks as one overlay -/

theorem val_curl_easy_perform (chunks : List (List UInt8)) (m : Mem) :
    (curl_easy_perform chunks m).val = overlay chunks m := by
  induction chunks generalizing m with
  | nil => rfl
  | cons chunk chunks ih => simp [curl_easy_perform, write_callback, overlay, ih]

theorem within_curl_easy_perform (chunks : List (List UInt8)) (m : Mem) :
    (curl_easy_perform chunks m).Within InResponse ↔
      ∀ chunk ∈ chunks, chunk.length ≤ responseSize := by
  have hcall : ∀ n, (∀ i, i < n → InResponse (.write .response i)) ↔ n ≤ responseSize := by
    intro n
    constructor
    · intro h
      by_contra hgt
      have : responseSize < responseSize := h responseSize (by omega)
      omega
    · exact fun h i hi => show i < responseSize by omega
  induction chunks generalizing m with
  | nil => simp [curl_easy_perform]
  | cons chunk chunks ih =>
    simp [curl_easy_perform, write_callback, ih, hcall]

theorem val_response (chunks : List (List UInt8)) (stack : Mem) :
    (response chunks stack).val = overlay chunks (stack.bzero responseSize) := by
  rw [response, Traced.val_bind, Traced.val_bzero, val_curl_easy_perform]

theorem within_response (chunks : List (List UInt8)) (stack : Mem) :
    (response chunks stack).Within InResponse ↔
      ∀ chunk ∈ chunks, chunk.length ≤ responseSize := by
  rw [response, Traced.within_bind, within_curl_easy_perform, Traced.within_bzero]
  exact and_iff_right fun i hi => hi

/-- The buffer holds the body if and only if the overlay spells it. -/
theorem Delivery.slice_response_iff (d : Delivery) (stack : Mem)
    (h : d.body.length < responseSize) :
    (response d.chunks stack).val.slice 0 responseSize =
        d.body ++ List.replicate (responseSize - d.body.length) 0 ↔ Harmless d.chunks := by
  rw [val_response, Mem.slice_eq_padded_iff _ (Nat.le_of_lt h)]
  exact overlay_eq_flatten_iff d.nonempty (fun p hp => Mem.bzero_of_lt stack hp) (Nat.le_of_lt h)

/-- **Exactly which deliveries are reassembled.** -/
theorem reassembled_iff_intact (d : Delivery) : d.Reassembled ↔ d.Intact := by
  constructor
  · intro h
    obtain ⟨hin, hbody⟩ := h fun _ => 0
    exact ⟨(within_response _ _).mp hin, fun hlt => (d.slice_response_iff _ hlt).mp (hbody hlt)⟩
  · rintro ⟨hlen, hharm⟩ stack
    exact ⟨(within_response _ _).mpr hlen, fun hlt => (d.slice_response_iff _ hlt).mpr (hharm hlt)⟩

/-- The empty dictionary `de`, a byte at a time. -/
def byteByByte : Delivery := ⟨[[100], [101]], by decide⟩

theorem byteByByte_not_reassembled : ¬ byteByByte.Reassembled := by
  intro h
  have hbody := (h fun _ => 0).2 (by decide)
  exact absurd ((byteByByte.slice_response_iff _ (by decide)).mp hbody) (by decide)

end TrackerConnector
end TorrentClient
