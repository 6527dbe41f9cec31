import Mathlib
import TorrentProof.BItem
import TorrentProof.Fuelled
import TorrentProof.Numerals

/-! # The decoder of `cpp-bencoding`

`Decoder::decode` reads an item from a stream, by functions that take off it what they expect
and throw where it is not there.  The stream is what is left of its bytes.  It is at its end
when there is none, and then a byte that is got is `-1`.
-/
namespace TorrentClient.bencoding
open CText Decimal Fallible Fuelled Keyed Numerals

/-- How a call ends that does not return. -/
inductive Thrown where
  | DecodingError (what : List UInt8)
  /-- what `std::string` throws for a length above its `max_size()` -/
  | length_error
  /-- a variable is read that was not set -/
  | indeterminate
  deriving DecidableEq

/-! ## `Utils` -/

/-- `readUpTo(stream, readData, sentinel)`: what it returns, `readData` and `stream`. -/
def readUpTo (stream : List UInt8) (sentinel : UInt8) : Bool × List UInt8 × List UInt8 :=
  let rest := stream.dropWhile (· != sentinel)
  (!rest.isEmpty, stream.takeWhile (· != sentinel), rest)

/-- `readUntil(stream, readData, last)`: what it returns, `readData` and `stream`. -/
def readUntil (stream : List UInt8) (last : UInt8) : Bool × List UInt8 × List UInt8 :=
  match stream.dropWhile (· != last) with
  | [] => (false, stream, [])
  | c :: rest => (true, stream.takeWhile (· != last) ++ [c], rest)

/-- An `int64_t` that is extracted from a stream. -/
def toInt64 (n : Int) : Option Int64 :=
  if -2 ^ 63 ≤ n ∧ n < 2 ^ 63 then some (Int64.ofInt n) else none

/-- A `size_t` that is extracted from a stream: a minus sign is taken modulo `2 ^ 64`. -/
def toSize (n : Int) : Option Nat :=
  if n.natAbs < 2 ^ 64 then some (n % 2 ^ 64).toNat else none

/-- `strToNum(str, num)`: `num`, if it returns `true`. -/
def strToNum {N : Type} (extract : Int → Option N) (str : List UInt8) : Option N :=
  let text := signOf (str.dropWhile isSpace)
  if text.2.takeWhile isDigit = [] then none
  -- `stream.eof()`
  else if text.2.dropWhile isDigit = [] then extract (text.1 * value text.2)
  else none

namespace Decoder

/-! ## Strings and integers -/

/-- `readExpectedChar(input, expected_char)`. -/
def readExpectedChar (input : List UInt8) (expected_char : UInt8) :
    Except Thrown (List UInt8) :=
  if input.head? = some expected_char then pure input.tail
  else throw (.DecodingError (ascii "expected '" ++ [expected_char] ++ ascii "', got '" ++
    [input.headD 255] ++ ascii "'"))

/-- `readEncodedInteger(input)`. -/
def readEncodedInteger (input : List UInt8) : Except Thrown (List UInt8 × List UInt8) :=
  match readUntil input 101 with
  | (true, encodedInteger, input) => pure (encodedInteger, input)
  | (false, encodedInteger, _) =>
    throw (.DecodingError (ascii "error during the decoding of an integer near '" ++
      encodedInteger ++ ascii "'"))

/-- `match[1]`, if the regular expression `i([-+]?(0|[1-9][0-9]*))e` matches. -/
def integerRegex : List UInt8 → Option (List UInt8)
  | 105 :: text =>
    let number := text.dropLast
    let digits := (signOf number).2
    if text.getLast? = some 101 ∧ digits ≠ [] ∧ digits.all isDigit = true ∧
      (digits = [48] ∨ digits.head? ≠ some 48) then some number else none
  | _ => none

/-- `decodeEncodedInteger(encodedInteger)`. -/
def decodeEncodedInteger (encodedInteger : List UInt8) : Except Thrown Int64 :=
  match integerRegex encodedInteger with
  | none =>
    throw (.DecodingError (ascii "encountered an encoded integer of invalid format: '" ++
      encodedInteger ++ ascii "'"))
  | some number =>
    match strToNum toInt64 number with
    -- `integerValue` is not set, and what `strToNum` returns is not looked at
    | none => throw .indeterminate
    | some integerValue => pure integerValue

/-- `decodeInteger(input)`. -/
def decodeInteger (input : List UInt8) : Except Thrown (BItem × List UInt8) := do
  let (encodedInteger, input) ← readEncodedInteger input
  let integerValue ← decodeEncodedInteger encodedInteger
  pure (.BInteger integerValue, input)

/-- `readStringLength(input)`. -/
def readStringLength (input : List UInt8) : Except Thrown (Nat × List UInt8) :=
  match readUpTo input 58 with
  | (true, stringLengthInASCII, input) =>
    match strToNum toSize stringLengthInASCII with
    | none =>
      throw (.DecodingError (ascii "invalid string length: '" ++ stringLengthInASCII ++
        ascii "'"))
    | some stringLength => pure (stringLength, input)
  | (false, stringLengthInASCII, _) =>
    throw (.DecodingError (ascii "error during the decoding of a string near '" ++
      stringLengthInASCII ++ ascii "'"))

/-- `readStringOfGivenLength(input, length)`, where `max_size` is that of `std::string`. -/
def readStringOfGivenLength (max_size : UInt64) (input : List UInt8) (length : Nat) :
    Except Thrown (List UInt8 × List UInt8) :=
  if max_size.toNat < length then throw .length_error
  else if input.length < length then
    throw (.DecodingError (ascii "expected a string containing " ++ render length ++
      ascii " characters, but read only " ++ render input.length ++ ascii " characters"))
  else pure (input.take length, input.drop length)

/-- `decodeString(input)`. -/
def decodeString (max_size : UInt64) (input : List UInt8) :
    Except Thrown (BItem × List UInt8) := do
  let (stringLength, input) ← readStringLength input
  let input ← readExpectedChar input 58
  let (str, input) ← readStringOfGivenLength max_size input stringLength
  pure (.BString str, input)

/-! ## Lists and dictionaries -/

section Loops
variable (decode : List UInt8 → Except (Stop Thrown) (BItem × List UInt8))

/-- `decodeListItemsIntoList(input)`, at most so many rounds of its loop. -/
def decodeListItemsIntoList : Nat → List UInt8 → List BItem →
    Except (Stop Thrown) (List BItem × List UInt8)
  | 0, _, _ => .error .fuel
  | rounds + 1, input, bList =>
    if input.head? = some 101 then pure (bList, input)
    else do
      let (item, input) ← decode input
      decodeListItemsIntoList rounds input (bList ++ [item])

/-- `decodeDictionaryKey(input)`. -/
def decodeDictionaryKey (input : List UInt8) :
    Except (Stop Thrown) (List UInt8 × List UInt8) := do
  match ← decode input with
  | (.BString key, input) => pure (key, input)
  | _ =>
    throw (.err (.DecodingError (ascii "found a dictionary key that is not a bencoded string")))

/-- `decodeDictionaryItemsIntoDictionary(input)`, at most so many rounds of its loop. -/
def decodeDictionaryItemsIntoDictionary : Nat → List UInt8 → List (List UInt8 × BItem) →
    Except (Stop Thrown) (List (List UInt8 × BItem) × List UInt8)
  | 0, _, _ => .error .fuel
  | rounds + 1, input, bDictionary =>
    if input.head? = some 101 then pure (bDictionary, input)
    else do
      let (key, input) ← decodeDictionaryKey decode input
      let (value, input) ← decode input
      decodeDictionaryItemsIntoDictionary rounds input (assign key value bDictionary)

/-- `decodeList(input)`. -/
def decodeList (rounds : Nat) (input : List UInt8) :
    Except (Stop Thrown) (BItem × List UInt8) := do
  let input ← lift (readExpectedChar input 108)
  let (bList, input) ← decodeListItemsIntoList decode rounds input []
  let input ← lift (readExpectedChar input 101)
  pure (.BList bList, input)

/-- `decodeDictionary(input)`. -/
def decodeDictionary (rounds : Nat) (input : List UInt8) :
    Except (Stop Thrown) (BItem × List UInt8) := do
  let input ← lift (readExpectedChar input 100)
  let (bDictionary, input) ← decodeDictionaryItemsIntoDictionary decode rounds input []
  let input ← lift (readExpectedChar input 101)
  pure (.BDictionary bDictionary, input)

end Loops

/-- `decode(std::istream &input)`, nested less than `fuel` deep. -/
def decodeStream (max_size : UInt64) : Nat → List UInt8 →
    Except (Stop Thrown) (BItem × List UInt8)
  | 0, _ => .error .fuel
  | fuel + 1, input =>
    let c := input.headD 255
    if c = 100 then decodeDictionary (decodeStream max_size fuel) fuel input
    else if c = 105 then lift (decodeInteger input)
    else if c = 108 then decodeList (decodeStream max_size fuel) fuel input
    else if isDigit c then lift (decodeString max_size input)
    else throw (.err (.DecodingError (ascii "unexpected character: '" ++ [c] ++ ascii "'")))

/-- `validateInputDoesNotContainUndecodedCharacters(input)`. -/
def validateInput (input : List UInt8) : Except Thrown Unit :=
  if input = [] then pure ()
  else throw (.DecodingError (ascii "input contains undecoded characters"))

end Decoder

end TorrentClient.bencoding
