import EnvManifest.Text.Utf8

/-!
# SHA-256

Two documents are compared by the SHA-256 digest of their minimal texts. The
message is padded to blocks of sixty-four octets with its length in bits at the
end; each block is expanded to a schedule of sixty-four words, and sixty-four
rounds mix them into a state of eight words. Words are `UInt32`, whose addition
wraps as the standard asks.
-/

namespace EnvManifest

namespace Sha256

/-! ### Words -/

/-- A word turned right by `n` bits. -/
def turn (x : UInt32) (n : UInt32) : UInt32 :=
  (x >>> n) ||| (x <<< (32 - n))

/-- The word of four octets, the most significant first. -/
def word (a b c d : UInt8) : UInt32 :=
  (a.toUInt32 <<< 24) ||| (b.toUInt32 <<< 16) ||| (c.toUInt32 <<< 8) ||| d.toUInt32

/-- The words of a block of octets. -/
def words : Octets → List UInt32
  | a :: b :: c :: d :: rest => word a b c d :: words rest
  | _ => []

/-- The first thirty-two bits of the fractional parts of the cube roots of the
first sixty-four primes. -/
def roundWords : List UInt32 :=
  [0x428a2f98, 0x71374491, 0xb5c0fbcf, 0xe9b5dba5, 0x3956c25b, 0x59f111f1, 0x923f82a4, 0xab1c5ed5,
   0xd807aa98, 0x12835b01, 0x243185be, 0x550c7dc3, 0x72be5d74, 0x80deb1fe, 0x9bdc06a7, 0xc19bf174,
   0xe49b69c1, 0xefbe4786, 0x0fc19dc6, 0x240ca1cc, 0x2de92c6f, 0x4a7484aa, 0x5cb0a9dc, 0x76f988da,
   0x983e5152, 0xa831c66d, 0xb00327c8, 0xbf597fc7, 0xc6e00bf3, 0xd5a79147, 0x06ca6351, 0x14292967,
   0x27b70a85, 0x2e1b2138, 0x4d2c6dfc, 0x53380d13, 0x650a7354, 0x766a0abb, 0x81c2c92e, 0x92722c85,
   0xa2bfe8a1, 0xa81a664b, 0xc24b8b70, 0xc76c51a3, 0xd192e819, 0xd6990624, 0xf40e3585, 0x106aa070,
   0x19a4c116, 0x1e376c08, 0x2748774c, 0x34b0bcb5, 0x391c0cb3, 0x4ed8aa4a, 0x5b9cca4f, 0x682e6ff3,
   0x748f82ee, 0x78a5636f, 0x84c87814, 0x8cc70208, 0x90befffa, 0xa4506ceb, 0xbef9a3f7, 0xc67178f2]

/-! ### Padding -/

/-- A number as eight octets, the most significant first. -/
def octetsOfLength (n : Nat) : Octets :=
  [56, 48, 40, 32, 24, 16, 8, 0].map fun shift => (n >>> shift).toUInt8

/-- The message with a set bit, zeros up to eight octets below a multiple of
sixty-four, and its length in bits. -/
def padded (message : Octets) : Octets :=
  let zeros := (119 - message.length % 64) % 64
  message ++ 0x80 :: List.replicate zeros 0 ++ octetsOfLength (8 * message.length)

/-- A padded message is a whole number of blocks. -/
theorem length_padded (message : Octets) : (padded message).length % 64 = 0 := by
  simp only [padded, octetsOfLength, List.length_append, List.length_cons,
    List.length_replicate, List.length_map, List.length_nil]
  omega

/-! ### The rounds -/

/-- The schedule of a block, newest word first, `n` words longer than what is
there. -/
def extend : Nat → List UInt32 → List UInt32
  | 0, newest => newest
  | n + 1, newest =>
    let w2 := newest.getD 1 0
    let w7 := newest.getD 6 0
    let w15 := newest.getD 14 0
    let w16 := newest.getD 15 0
    let s0 := turn w15 7 ^^^ turn w15 18 ^^^ (w15 >>> 3)
    let s1 := turn w2 17 ^^^ turn w2 19 ^^^ (w2 >>> 10)
    extend n ((w16 + s0 + w7 + s1) :: newest)

/-- The sixty-four words that a block contributes. -/
def schedule (block : List UInt32) : List UInt32 :=
  (extend 48 block.reverse).reverse

/-- The eight words that the rounds work on. -/
structure State where
  a : UInt32
  b : UInt32
  c : UInt32
  d : UInt32
  e : UInt32
  f : UInt32
  g : UInt32
  h : UInt32
deriving DecidableEq

/-- The first thirty-two bits of the fractional parts of the square roots of the
first eight primes. -/
def State.start : State :=
  ⟨0x6a09e667, 0xbb67ae85, 0x3c6ef372, 0xa54ff53a, 0x510e527f, 0x9b05688c, 0x1f83d9ab, 0x5be0cd19⟩

/-- The words of a state in order. -/
def State.toList (s : State) : List UInt32 :=
  [s.a, s.b, s.c, s.d, s.e, s.f, s.g, s.h]

/-- Word by word addition. -/
def State.add (s t : State) : State :=
  ⟨s.a + t.a, s.b + t.b, s.c + t.c, s.d + t.d, s.e + t.e, s.f + t.f, s.g + t.g, s.h + t.h⟩

/-- One round, with its constant `k` and schedule word `w`. -/
def State.round (s : State) (k w : UInt32) : State :=
  let sum1 := turn s.e 6 ^^^ turn s.e 11 ^^^ turn s.e 25
  let choice := (s.e &&& s.f) ^^^ (~~~s.e &&& s.g)
  let t1 := s.h + sum1 + choice + k + w
  let sum0 := turn s.a 2 ^^^ turn s.a 13 ^^^ turn s.a 22
  let majority := (s.a &&& s.b) ^^^ (s.a &&& s.c) ^^^ (s.b &&& s.c)
  ⟨t1 + sum0 + majority, s.a, s.b, s.c, s.d + t1, s.e, s.f, s.g⟩

/-- The state after a block. -/
def State.absorb (s : State) (block : List UInt32) : State :=
  s.add ((roundWords.zip (schedule block)).foldl (fun t kw => t.round kw.1 kw.2) s)

/-- The state after a message of whole blocks, sixteen words each. -/
def absorbAll : Nat → List UInt32 → State → State
  | 0, _, s => s
  | n + 1, message, s => absorbAll n (message.drop 16) (s.absorb (message.take 16))

/-- The eight words of the digest of a message. -/
def digest (message : Octets) : List UInt32 :=
  let ws := words (padded message)
  (absorbAll (ws.length / 16) ws State.start).toList

/-! ### The digest in hexadecimal -/

/-- The eight hexadecimal digits of a word. -/
def hexWord (w : UInt32) : Text :=
  [28, 24, 20, 16, 12, 8, 4, 0].map fun shift => Nat.digitChar ((w.toNat >>> shift) % 16)

/-- The digest of a message as sixty-four lowercase hexadecimal digits. -/
def hex (message : Octets) : Text :=
  (digest message).flatMap hexWord

theorem length_hex (message : Octets) : (hex message).length = 64 := by
  simp [hex, digest, State.toList, hexWord]

example : hex [] =
    "e3b0c44298fc1c149afbf4c8996fb92427ae41e4649b934ca495991b7852b855".toList := by
  decide +kernel

end Sha256

end EnvManifest
