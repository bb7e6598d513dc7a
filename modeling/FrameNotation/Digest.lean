import FrameNotation.Mishap

namespace FrameNotation.Sha256

-- The first thirty-two bits of the fractional parts of the cube roots of the first 64 primes.
def roundConstants : Array UInt32 := #[
  0x428a2f98, 0x71374491, 0xb5c0fbcf, 0xe9b5dba5, 0x3956c25b, 0x59f111f1, 0x923f82a4, 0xab1c5ed5,
  0xd807aa98, 0x12835b01, 0x243185be, 0x550c7dc3, 0x72be5d74, 0x80deb1fe, 0x9bdc06a7, 0xc19bf174,
  0xe49b69c1, 0xefbe4786, 0x0fc19dc6, 0x240ca1cc, 0x2de92c6f, 0x4a7484aa, 0x5cb0a9dc, 0x76f988da,
  0x983e5152, 0xa831c66d, 0xb00327c8, 0xbf597fc7, 0xc6e00bf3, 0xd5a79147, 0x06ca6351, 0x14292967,
  0x27b70a85, 0x2e1b2138, 0x4d2c6dfc, 0x53380d13, 0x650a7354, 0x766a0abb, 0x81c2c92e, 0x92722c85,
  0xa2bfe8a1, 0xa81a664b, 0xc24b8b70, 0xc76c51a3, 0xd192e819, 0xd6990624, 0xf40e3585, 0x106aa070,
  0x19a4c116, 0x1e376c08, 0x2748774c, 0x34b0bcb5, 0x391c0cb3, 0x4ed8aa4a, 0x5b9cca4f, 0x682e6ff3,
  0x748f82ee, 0x78a5636f, 0x84c87814, 0x8cc70208, 0x90befffa, 0xa4506ceb, 0xbef9a3f7, 0xc67178f2]

-- The eight words that a digest is made of.
structure State where
  a : UInt32
  b : UInt32
  c : UInt32
  d : UInt32
  e : UInt32
  f : UInt32
  g : UInt32
  h : UInt32

def initial : State where
  a := 0x6a09e667
  b := 0xbb67ae85
  c := 0x3c6ef372
  d := 0xa54ff53a
  e := 0x510e527f
  f := 0x9b05688c
  g := 0x1f83d9ab
  h := 0x5be0cd19

def rotate (x n : UInt32) : UInt32 := (x >>> n) ||| (x <<< (32 - n))

-- The four mixing functions: two of the schedule, two of the rounds.
def mixLow (x : UInt32) : UInt32 := rotate x 7 ^^^ rotate x 18 ^^^ (x >>> 3)
def mixHigh (x : UInt32) : UInt32 := rotate x 17 ^^^ rotate x 19 ^^^ (x >>> 10)
def stirLow (x : UInt32) : UInt32 := rotate x 2 ^^^ rotate x 13 ^^^ rotate x 22
def stirHigh (x : UInt32) : UInt32 := rotate x 6 ^^^ rotate x 11 ^^^ rotate x 25

def round (s : State) (constant word : UInt32) : State :=
  let choice := (s.e &&& s.f) ^^^ ((~~~s.e) &&& s.g)
  let majority := (s.a &&& s.b) ^^^ (s.a &&& s.c) ^^^ (s.b &&& s.c)
  let first := s.h + stirHigh s.e + choice + constant + word
  let second := stirLow s.a + majority
  { a := first + second, b := s.a, c := s.b, d := s.c,
    e := s.d + first, f := s.e, g := s.f, h := s.g }

-- The sixteen words of a block, and forty-eight more that are mixed from them.
def schedule (block : Array UInt32) : Array UInt32 :=
  (List.range 48).foldl (fun words i =>
    words.push (mixHigh (words.getD (i + 14) 0) + words.getD (i + 9) 0
      + mixLow (words.getD (i + 1) 0) + words.getD i 0)) block

def absorb (s : State) (block : Array UInt32) : State :=
  let words := schedule block
  let t := (List.range 64).foldl (fun t i =>
    round t (roundConstants.getD i 0) (words.getD i 0)) s
  { a := s.a + t.a, b := s.b + t.b, c := s.c + t.c, d := s.d + t.d,
    e := s.e + t.e, f := s.f + t.f, g := s.g + t.g, h := s.h + t.h }

def wordOf (a b c d : UInt8) : UInt32 :=
  (a.toUInt32 <<< 24) ||| (b.toUInt32 <<< 16) ||| (c.toUInt32 <<< 8) ||| d.toUInt32

def words : List UInt8 → List UInt32
  | a :: b :: c :: d :: rest => wordOf a b c d :: words rest
  | _ => []

-- A one bit, zeros, and the length in bits, so that whole blocks result.
def padded (bytes : List UInt8) : List UInt8 :=
  let length := bytes.length
  let zeros := (119 - length % 64) % 64
  let bits := length * 8
  let lengthBytes : List UInt8 := (List.range 8).map fun i => (bits >>> (8 * (7 - i))).toUInt8
  bytes ++ 0x80 :: List.replicate zeros 0 ++ lengthBytes

def absorbAll (s : State) (words : List UInt32) : Nat → State
  | 0 => s
  | blocks + 1 => absorbAll (absorb s (words.take 16).toArray) (words.drop 16) blocks

def hexByte (byte : UInt8) : List CodePoint :=
  [char (Nat.digitChar (byte.toNat / 16)), char (Nat.digitChar (byte.toNat % 16))]

def hexWord (word : UInt32) : List CodePoint :=
  [(word >>> 24).toUInt8, (word >>> 16).toUInt8, (word >>> 8).toUInt8, word.toUInt8].flatMap hexByte

-- The digest of a message, in 64 hexadecimal digits.
def hexDigest (bytes : List UInt8) : List CodePoint :=
  let message := words (padded bytes)
  let s := absorbAll initial message (message.length / 16)
  [s.a, s.b, s.c, s.d, s.e, s.f, s.g, s.h].flatMap hexWord

end FrameNotation.Sha256

namespace FrameNotation

-- A text in UTF-8. Surrogates have no place in it: the first run of them is what cannot be encoded.
def Str.utf8 (text : Str) : Except Mishap (List UInt8) :=
  let front := text.toList.takeWhile (!·.isSurrogate)
  match text.toList.dropWhile (!·.isSurrogate) with
  | [] => .ok (String.ofList (text.toList.filterMap CodePoint.char?)).toUTF8.toList
  | rest => .error (.unencodable (.ofList (rest.takeWhile CodePoint.isSurrogate)) front.length)

def contentHashLength : Int := 16

-- The first digits of the digest of a text. A negative length leaves out that many at the end.
def contentHashOf (length : Int) (text : Str) : Except Mishap Str :=
  text.utf8.map fun bytes =>
    let digits := Sha256.hexDigest bytes
    let kept := if length < 0 then digits.length - length.natAbs else length.natAbs
    .ofList (digits.take kept)

def contentHash (text : Str) : Except Mishap Str := contentHashOf contentHashLength text

end FrameNotation
