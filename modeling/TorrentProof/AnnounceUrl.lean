import Mathlib
import TorrentProof.CText
import TorrentProof.Url

/-! # The announce URL

`TrackerConnector::encode` puts a `?` and seven parameters behind the announce URL of the
metafile.  The hash and the id are escaped by libcurl, so they come out of the query as they
went in, whatever their bytes.  But a URL with a query of its own gets a second `?`, which
is no separator any more: the first of the parameters is lost in the last one of the URL
(`announces_iff`).
-/
namespace TorrentClient
open CText Decimal Url
namespace TrackerConnector

/-- `curl_easy_escape` returns its input with every byte percent-encoded that is not a letter,
a digit or one of `-._~`. -/
def Escapes (curl_easy_escape : List UInt8 → List UInt8) : Prop :=
  ∀ s, curl_easy_escape s = percentEncode s

section Encode
variable (curl_easy_escape : List UInt8 → List UInt8) (url : List UInt8)
  (info_hash peer_id : Vector UInt8 20) (port : Int32)

/-- `TrackerConnector::encode(info_hash, peer_id, port)`. -/
def encode : List UInt8 :=
  let hash_encoded := curl_easy_escape info_hash.toList
  let peer_encoded := curl_easy_escape peer_id.toList
  let port_str := renderInt port.toInt
  url ++ ascii "?" ++
    ascii "info_hash=" ++ hash_encoded ++ ascii "&" ++
    ascii "peer_id=" ++ peer_encoded ++ ascii "&" ++
    ascii "port=" ++ port_str ++ ascii "&" ++
    ascii "uploaded=0" ++ ascii "&" ++
    ascii "downloaded=0" ++ ascii "&" ++
    ascii "left=0" ++ ascii "&" ++
    ascii "compact=0"

/-- What a request tells the tracker. -/
def announcement (port_str : List UInt8) : List (List UInt8 × List UInt8) :=
  [(ascii "info_hash", info_hash.toList), (ascii "peer_id", peer_id.toList),
    (ascii "port", port_str), (ascii "uploaded", ascii "0"), (ascii "downloaded", ascii "0"),
    (ascii "left", ascii "0"), (ascii "compact", ascii "0")]

/-- **The announce URL is right**: its parameters are those of the URL it was made from, and
behind them the hash, the id, the port and the rest, each once. -/
def Announces : Prop :=
  ∃ port_str, valueInt port_str = port.toInt ∧
    parameters (encode curl_easy_escape url info_hash peer_id port) =
      parameters url ++ announcement info_hash peer_id port_str

/-- The parameters as `encode` writes them. -/
def written : List (List UInt8 × List UInt8) :=
  [(ascii "info_hash", curl_easy_escape info_hash.toList),
    (ascii "peer_id", curl_easy_escape peer_id.toList), (ascii "port", renderInt port.toInt),
    (ascii "uploaded", ascii "0"), (ascii "downloaded", ascii "0"), (ascii "left", ascii "0"),
    (ascii "compact", ascii "0")]

/-- They are joined as in a query. -/
theorem encode_eq : encode curl_easy_escape url info_hash peer_id port =
    url ++ 63 :: [38].intercalate
      ((written curl_easy_escape info_hash peer_id port).map field) := by
  have hq : ascii "?" = [63] := rfl
  have hamp : ascii "&" = [38] := rfl
  have h₁ : ascii "info_hash=" = ascii "info_hash" ++ [61] := rfl
  have h₂ : ascii "peer_id=" = ascii "peer_id" ++ [61] := rfl
  have h₃ : ascii "port=" = ascii "port" ++ [61] := rfl
  have h₄ : ascii "uploaded=0" = ascii "uploaded" ++ 61 :: ascii "0" := rfl
  have h₅ : ascii "downloaded=0" = ascii "downloaded" ++ 61 :: ascii "0" := rfl
  have h₆ : ascii "left=0" = ascii "left" ++ 61 :: ascii "0" := rfl
  have h₇ : ascii "compact=0" = ascii "compact" ++ 61 :: ascii "0" := rfl
  simp [encode, written, field, List.intercalate_cons_cons, hq, hamp, h₁, h₂, h₃, h₄, h₅, h₆, h₇]

end Encode

/-! ## Reading it back -/

section Parse
variable {curl_easy_escape : List UInt8 → List UInt8} {url : List UInt8}
  {info_hash peer_id : Vector UInt8 20} {port : Int32}

theorem not_mem_renderInt {b : UInt8} (h : isDigit b = false) (h45 : b ≠ 45) (i : Int) :
    b ∉ renderInt i := by
  intro hmem
  rcases isDigit_or_minus_of_mem hmem with hb | rfl
  · simp [hb] at h
  · exact h45 rfl

theorem written_ne_nil : written curl_easy_escape info_hash peer_id port ≠ [] :=
  List.cons_ne_nil _ _

section Escaped
variable (hesc : Escapes curl_easy_escape)
include hesc

/-- No parameter has a separator in it. -/
theorem not_mem_written :
    ∀ f ∈ written curl_easy_escape info_hash peer_id port, 61 ∉ f.1 ∧ 38 ∉ f.1 ∧ 38 ∉ f.2 := by
  have hamp : ∀ s, 38 ∉ curl_easy_escape s := by
    intro s
    rw [hesc]
    exact not_mem_percentEncode rfl (by decide) s
  have hport : 38 ∉ renderInt port.toInt := not_mem_renderInt rfl (by decide) _
  simp only [written, List.forall_mem_cons, List.not_mem_nil, false_imp_iff, implies_true,
    and_true, hamp, hport, not_false_iff]
  decide

theorem splitOn_written :
    ([38].intercalate ((written curl_easy_escape info_hash peer_id port).map field)).splitOn 38 =
      (written curl_easy_escape info_hash peer_id port).map field := by
  apply splitOn_intercalate_field written_ne_nil
  intro f hf
  exact (not_mem_written hesc f hf).2

/-- They say what the tracker is to be told. -/
theorem decode_written :
    (written curl_easy_escape info_hash peer_id port).map
        (fun f => (percentDecode f.1, percentDecode f.2)) =
      announcement info_hash peer_id (renderInt port.toInt) := by
  have hport : percentDecode (renderInt port.toInt) = renderInt port.toInt :=
    percentDecode_of_not_mem (not_mem_renderInt rfl (by decide) _)
  simp only [written, announcement, List.map_cons, List.map_nil, hesc info_hash.toList,
    hesc peer_id.toList, percentDecode_percentEncode, hport]
  rfl

/-- The query that is added has the seven parameters. -/
theorem params_written :
    params ([38].intercalate ((written curl_easy_escape info_hash peer_id port).map field)) =
      announcement info_hash peer_id (renderInt port.toInt) := by
  rw [params_intercalate written_ne_nil (not_mem_written hesc), decode_written hesc]

/-- A URL without a query gets the one that is added. -/
theorem announces_of_not_mem (h : 63 ∉ url) :
    Announces curl_easy_escape url info_hash peer_id port := by
  refine ⟨renderInt port.toInt, valueInt_renderInt _, ?_⟩
  rw [parameters, encode_eq, query_append h, params_written hesc, parameters, query_of_not_mem h]
  rfl

/-- A second `?` is part of the first name. -/
theorem params_question_ne (port_str : List UInt8) :
    params (63 :: [38].intercalate ((written curl_easy_escape info_hash peer_id port).map field)) ≠
      announcement info_hash peer_id port_str := by
  intro h
  rw [params, if_neg (List.cons_ne_nil _ _), List.splitOn_cons_eq_if_modifyHead, if_neg (by decide),
    splitOn_written hesc] at h
  have hhead : param (field (63 :: ascii "info_hash", curl_easy_escape info_hash.toList)) =
      (ascii "info_hash", info_hash.toList) := (List.cons.inj h).1
  have hname : 61 ∉ 63 :: ascii "info_hash" := by decide
  rw [param_field hname] at hhead
  have hne : percentDecode (63 :: ascii "info_hash") ≠ ascii "info_hash" := by decide
  exact hne (congrArg Prod.fst hhead)

/-- The parameters that are added are separated six times. -/
theorem count_written :
    ([38].intercalate
      ((written curl_easy_escape info_hash peer_id port).map field)).count 38 = 6 := by
  have hlength : _ = ((written curl_easy_escape info_hash peer_id port).map field).length :=
    congrArg List.length (splitOn_written hesc)
  rw [length_splitOn, List.length_map] at hlength
  exact Nat.succ.inj hlength

/-- In a URL with a query the first parameter is lost. -/
theorem not_announces_of_mem (h : 63 ∈ url) :
    ¬ Announces curl_easy_escape url info_hash peer_id port := by
  rintro ⟨port_str, -, heq⟩
  rw [parameters, encode_eq, query_append_of_mem h, parameters] at heq
  by_cases hq : query url = []
  · rw [hq] at heq
    exact params_question_ne hesc port_str heq
  · have hlength := congrArg List.length heq
    have hseven : (announcement info_hash peer_id port_str).length = 7 := rfl
    rw [length_params (by simp), List.length_append, length_params hq, hseven, List.count_append,
      List.count_cons, count_written hesc] at hlength
    simp at hlength

/-- **Exactly when the announce URL is right**: when it has no query of its own. -/
theorem announces_iff : Announces curl_easy_escape url info_hash peer_id port ↔ 63 ∉ url := by
  constructor
  · intro h hmem
    exact not_announces_of_mem hesc hmem h
  · intro h
    exact announces_of_not_mem hesc h

end Escaped

end Parse

/-- A URL without a query, and ids of which no byte stands for itself. -/
theorem announces_plain : Announces percentEncode (ascii "http://tracker/announce")
    (Vector.replicate 20 38) (Vector.replicate 20 61) 6881 :=
  (announces_iff fun _ => rfl).mpr (by decide)

/-- A URL with a passkey. -/
theorem not_announces_passkey : ¬ Announces percentEncode
    (ascii "http://tracker/announce?passkey=1") (Vector.replicate 20 0) (Vector.replicate 20 0)
    6881 :=
  not_announces_of_mem (fun _ => rfl) (by decide)

end TrackerConnector
end TorrentClient
