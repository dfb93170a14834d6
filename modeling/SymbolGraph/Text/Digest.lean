/-!
# Text — SHA-256

The 256-bit secure hash of a sequence of bytes, written in hexadecimal.  The message is padded to
whole blocks of 64 bytes; each block drives 64 rounds, one per round constant, over a window of
sixteen words that slides along the message schedule.
-/

namespace SymbolGraph.Digest

/-- The eight working words. -/
structure Working where
  a : UInt32
  b : UInt32
  c : UInt32
  d : UInt32
  e : UInt32
  f : UInt32
  g : UInt32
  h : UInt32

/-- The first 32 bits of the fractional parts of the square roots of the first eight primes. -/
def initial : Working :=
  { a := 0x6a09e667, b := 0xbb67ae85, c := 0x3c6ef372, d := 0xa54ff53a
    e := 0x510e527f, f := 0x9b05688c, g := 0x1f83d9ab, h := 0x5be0cd19 }

/-- The first 32 bits of the fractional parts of the cube roots of the first 64 primes. -/
def roundConstants : List UInt32 :=
  [0x428a2f98, 0x71374491, 0xb5c0fbcf, 0xe9b5dba5, 0x3956c25b, 0x59f111f1, 0x923f82a4, 0xab1c5ed5,
   0xd807aa98, 0x12835b01, 0x243185be, 0x550c7dc3, 0x72be5d74, 0x80deb1fe, 0x9bdc06a7, 0xc19bf174,
   0xe49b69c1, 0xefbe4786, 0x0fc19dc6, 0x240ca1cc, 0x2de92c6f, 0x4a7484aa, 0x5cb0a9dc, 0x76f988da,
   0x983e5152, 0xa831c66d, 0xb00327c8, 0xbf597fc7, 0xc6e00bf3, 0xd5a79147, 0x06ca6351, 0x14292967,
   0x27b70a85, 0x2e1b2138, 0x4d2c6dfc, 0x53380d13, 0x650a7354, 0x766a0abb, 0x81c2c92e, 0x92722c85,
   0xa2bfe8a1, 0xa81a664b, 0xc24b8b70, 0xc76c51a3, 0xd192e819, 0xd6990624, 0xf40e3585, 0x106aa070,
   0x19a4c116, 0x1e376c08, 0x2748774c, 0x34b0bcb5, 0x391c0cb3, 0x4ed8aa4a, 0x5b9cca4f, 0x682e6ff3,
   0x748f82ee, 0x78a5636f, 0x84c87814, 0x8cc70208, 0x90befffa, 0xa4506ceb, 0xbef9a3f7, 0xc67178f2]

/-- The word rotated right by `n` bits. -/
def rotated (x n : UInt32) : UInt32 := (x >>> n) ||| (x <<< (32 - n))

/-- The word that follows a window of sixteen words of the message schedule. -/
def scheduled (window : List UInt32) : UInt32 :=
  let x := window.getD 1 0
  let y := window.getD 14 0
  window.getD 0 0 + (rotated x 7 ^^^ rotated x 18 ^^^ (x >>> 3))
    + window.getD 9 0 + (rotated y 17 ^^^ rotated y 19 ^^^ (y >>> 10))

/-- One round on the working words, with its constant and its word of the schedule. -/
def Working.round (s : Working) (constant word : UInt32) : Working :=
  let mixed := rotated s.e 6 ^^^ rotated s.e 11 ^^^ rotated s.e 25
  let choice := (s.e &&& s.f) ^^^ ((s.e ^^^ 0xffffffff) &&& s.g)
  let first := s.h + mixed + choice + constant + word
  let spread := rotated s.a 2 ^^^ rotated s.a 13 ^^^ rotated s.a 22
  let majority := (s.a &&& s.b) ^^^ (s.a &&& s.c) ^^^ (s.b &&& s.c)
  { a := first + (spread + majority), b := s.a, c := s.b, d := s.c
    e := s.d + first, f := s.e, g := s.f, h := s.g }

/-- All rounds of one block. -/
def rounds : List UInt32 → Working → List UInt32 → Working
  | [],                    s, _      => s
  | constant :: constants, s, window =>
      rounds constants (s.round constant (window.getD 0 0)) (window.drop 1 ++ [scheduled window])

/-- The words after one more block of sixteen words. -/
def Working.compress (s : Working) (block : List UInt32) : Working :=
  let r := rounds roundConstants s block
  { a := s.a + r.a, b := s.b + r.b, c := s.c + r.c, d := s.d + r.d
    e := s.e + r.e, f := s.f + r.f, g := s.g + r.g, h := s.h + r.h }

/-- The bytes of `n`, most significant first, in `width` places. -/
def bigEndian : (width n : Nat) → List UInt8
  | 0,         _ => []
  | width + 1, n => bigEndian width (n / 256) ++ [UInt8.ofNat (n % 256)]

/-- The message with a one bit, zeros and its length in bits, in whole blocks. -/
def padded (message : List UInt8) : List UInt8 :=
  let zeros := (119 - message.length % 64) % 64
  message ++ 0x80 :: (List.replicate zeros 0 ++ bigEndian 8 (8 * message.length))

/-- The words that groups of four bytes spell, most significant byte first. -/
def words : List UInt8 → List UInt32
  | p :: q :: r :: s :: rest =>
      ((p.toUInt32 <<< 24) ||| (q.toUInt32 <<< 16) ||| (r.toUInt32 <<< 8) ||| s.toUInt32)
        :: words rest
  | _ => []

/-- The working words after `count` blocks of the given words. -/
def blocks : (count : Nat) → Working → List UInt32 → Working
  | 0,         s, _  => s
  | count + 1, s, ws => blocks count (s.compress (ws.take 16)) (ws.drop 16)

/-- The eight hexadecimal digits of a word. -/
def hexWord (w : UInt32) : List Char :=
  [28, 24, 20, 16, 12, 8, 4, 0].map fun (shift : UInt32) =>
    Nat.digitChar ((w >>> shift) &&& 0xf).toNat

/-- The hexadecimal digits of the working words. -/
def Working.hex (s : Working) : List Char :=
  [s.a, s.b, s.c, s.d, s.e, s.f, s.g, s.h].flatMap hexWord

/-- The SHA-256 of a message in hexadecimal. -/
def sha256 (message : List UInt8) : String :=
  let text := padded message
  String.ofList (blocks (text.length / 64) initial (words text)).hex

end SymbolGraph.Digest
