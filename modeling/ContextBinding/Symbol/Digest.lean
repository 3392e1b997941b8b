/-!
# Name digests

The 64-bit digest of a text under which names are entered into the look-up tables of a program. It
reads the UTF-8 bytes in stripes of four words, then in words, half words and single bytes, and
mixes the result until every input bit reaches every output bit.
-/

namespace ContextBinding.Symbol

/-- The bytes of a text. -/
def utf8Bytes (s : String) : List UInt8 := s.toList.flatMap String.utf8EncodeChar

/-- Rotate a word to the left by less than its width. -/
def rotateLeft (w : UInt64) (amount : UInt64) : UInt64 :=
  (w <<< amount) ||| (w >>> (64 - amount))

def prime1 : UInt64 := 0x9E3779B185EBCA87
def prime2 : UInt64 := 0xC2B2AE3D27D4EB4F
def prime3 : UInt64 := 0x165667B19E3779F9
def prime4 : UInt64 := 0x85EBCA77C2B2AE63
def prime5 : UInt64 := 0x27D4EB2F165667C5

/-- The number that bytes spell, the least significant one first. -/
def littleEndian : List UInt8 → UInt64
  | [] => 0
  | b :: rest => b.toUInt64 ||| (littleEndian rest <<< 8)

/-- Take one word into a lane. -/
def mixLane (lane word : UInt64) : UInt64 :=
  rotateLeft (lane + word * prime2) 31 * prime1

/-- Fold a finished lane into the result. -/
def mergeLane (result lane : UInt64) : UInt64 :=
  (result ^^^ mixLane 0 lane) * prime1 + prime4

/-- The four lanes that whole stripes of thirty-two bytes are read into. -/
structure Lanes where
  first : UInt64
  second : UInt64
  third : UInt64
  fourth : UInt64
  deriving DecidableEq, Repr

namespace Lanes

def start : Lanes := ⟨prime1 + prime2, prime2, 0, 0 - prime1⟩

/-- Take one stripe. -/
def take (lanes : Lanes) (stripe : List UInt8) : Lanes :=
  { first := mixLane lanes.first (littleEndian (stripe.take 8))
    second := mixLane lanes.second (littleEndian ((stripe.drop 8).take 8))
    third := mixLane lanes.third (littleEndian ((stripe.drop 16).take 8))
    fourth := mixLane lanes.fourth (littleEndian ((stripe.drop 24).take 8)) }

/-- Take `count` stripes. -/
def takeStripes (lanes : Lanes) : Nat → List UInt8 → Lanes
  | 0, _ => lanes
  | count + 1, bytes => takeStripes (lanes.take (bytes.take 32)) count (bytes.drop 32)

/-- Combine the lanes. -/
def finish (lanes : Lanes) : UInt64 :=
  let sum := rotateLeft lanes.first 1 + rotateLeft lanes.second 7 + rotateLeft lanes.third 12
    + rotateLeft lanes.fourth 18
  [lanes.first, lanes.second, lanes.third, lanes.fourth].foldl mergeLane sum

end Lanes

/-- Read `count` whole words into the result. -/
def mixWords (result : UInt64) : Nat → List UInt8 → UInt64
  | 0, _ => result
  | count + 1, bytes =>
    let word := mixLane 0 (littleEndian (bytes.take 8))
    mixWords (rotateLeft (result ^^^ word) 27 * prime1 + prime4) count (bytes.drop 8)

/-- Read a half word into the result. -/
def mixHalfWord (result : UInt64) (bytes : List UInt8) : UInt64 :=
  rotateLeft (result ^^^ (littleEndian bytes * prime1)) 23 * prime2 + prime3

/-- Read single bytes into the result. -/
def mixBytes (result : UInt64) (bytes : List UInt8) : UInt64 :=
  bytes.foldl (fun h b => rotateLeft (h ^^^ (b.toUInt64 * prime5)) 11 * prime1) result

/-- Spread every bit over the whole word. -/
def avalanche (h : UInt64) : UInt64 :=
  let h := (h ^^^ (h >>> 33)) * prime2
  let h := (h ^^^ (h >>> 29)) * prime3
  h ^^^ (h >>> 32)

/-- Digest of a byte list. -/
def digestBytes (bytes : List UInt8) : UInt64 :=
  let size := bytes.length
  let start :=
    if size < 32 then prime5 else (Lanes.start.takeStripes (size / 32) bytes).finish
  let rest := bytes.drop (size / 32 * 32)
  let result := mixWords (start + UInt64.ofNat size) (rest.length / 8) rest
  let rest := rest.drop (rest.length / 8 * 8)
  if rest.length < 4 then avalanche (mixBytes result rest)
  else avalanche (mixBytes (mixHalfWord result (rest.take 4)) (rest.drop 4))

/-- Digest of a text. -/
def digest (s : String) : UInt64 := digestBytes (utf8Bytes s)

end ContextBinding.Symbol
