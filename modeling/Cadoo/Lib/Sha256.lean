import Cadoo.Lib.Sha1

/-! SHA-256 over byte strings, padded as SHA-1 pads, and the keyed code made of it. -/
namespace Sha256
open Bytes

structure State where
  a : UInt32
  b : UInt32
  c : UInt32
  d : UInt32
  e : UInt32
  f : UInt32
  g : UInt32
  h : UInt32
  deriving DecidableEq, Repr

def initial : State :=
  ⟨0x6a09e667,0xbb67ae85,0x3c6ef372,0xa54ff53a,0x510e527f,0x9b05688c,0x1f83d9ab,0x5be0cd19⟩

/-- The constants of the sixty-four rounds. -/
def constants : List UInt32 :=
  [0x428a2f98,0x71374491,0xb5c0fbcf,0xe9b5dba5,0x3956c25b,0x59f111f1,0x923f82a4,0xab1c5ed5,
    0xd807aa98,0x12835b01,0x243185be,0x550c7dc3,0x72be5d74,0x80deb1fe,0x9bdc06a7,0xc19bf174,
    0xe49b69c1,0xefbe4786,0x0fc19dc6,0x240ca1cc,0x2de92c6f,0x4a7484aa,0x5cb0a9dc,0x76f988da,
    0x983e5152,0xa831c66d,0xb00327c8,0xbf597fc7,0xc6e00bf3,0xd5a79147,0x06ca6351,0x14292967,
    0x27b70a85,0x2e1b2138,0x4d2c6dfc,0x53380d13,0x650a7354,0x766a0abb,0x81c2c92e,0x92722c85,
    0xa2bfe8a1,0xa81a664b,0xc24b8b70,0xc76c51a3,0xd192e819,0xd6990624,0xf40e3585,0x106aa070,
    0x19a4c116,0x1e376c08,0x2748774c,0x34b0bcb5,0x391c0cb3,0x4ed8aa4a,0x5b9cca4f,0x682e6ff3,
    0x748f82ee,0x78a5636f,0x84c87814,0x8cc70208,0x90befffa,0xa4506ceb,0xbef9a3f7,0xc67178f2]

def rotr (x n : UInt32) : UInt32 := (x >>> n) ||| (x <<< (32-n))

def round (k w : UInt32) (s : State) : State :=
  let t1 := s.h + (rotr s.e 6 ^^^ rotr s.e 11 ^^^ rotr s.e 25) + ((s.e &&& s.f) ^^^ (~~~s.e &&& s.g)) + k + w
  let t2 := (rotr s.a 2 ^^^ rotr s.a 13 ^^^ rotr s.a 22) + ((s.a &&& s.b) ^^^ (s.a &&& s.c) ^^^ (s.b &&& s.c))
  ⟨t1+t2,s.a,s.b,s.c,s.d+t1,s.e,s.f,s.g⟩

/-- A round for each constant; the window holds the sixteen schedule words from that round on. -/
def rounds : List UInt32 → List UInt32 → State → State
  | k :: ks, w :: rest, s =>
    let x := rest.getD 0 0
    let y := rest.getD 13 0
    let next := (rotr y 17 ^^^ rotr y 19 ^^^ (y >>> 10)) + rest.getD 8 0 +
      (rotr x 7 ^^^ rotr x 18 ^^^ (x >>> 3)) + w
    rounds ks (rest ++ [next]) (round k w s)
  | _, _, s => s

def compress (h : State) (block : List UInt32) : State :=
  let s := rounds constants block h
  ⟨h.a+s.a,h.b+s.b,h.c+s.c,h.d+s.d,h.e+s.e,h.f+s.f,h.g+s.g,h.h+s.h⟩

/-- Absorb the given number of sixteen-word blocks. -/
def absorb : ℕ → List UInt32 → State → State
  | 0, _, h => h
  | n+1, ws, h => absorb n (ws.drop 16) (compress h (ws.take 16))

def sum (msg : Bytes) : Bytes :=
  let padded := Sha1.pad msg
  let s := absorb (padded.length/64) (Sha1.words padded) initial
  [s.a,s.b,s.c,s.d,s.e,s.f,s.g,s.h].flatMap Sha1.bigEndian32

/-- A key as long as a block: a longer one is hashed first. -/
def blockKey (key : Bytes) : Bytes :=
  let key := if 64 < key.length then sum key else key
  key ++ List.replicate (64-key.length) 0

def hmac (key msg : Bytes) : Bytes :=
  let key := blockKey key
  sum (key.map (· ^^^ 0x5c) ++ sum (key.map (· ^^^ 0x36) ++ msg))

@[simp] lemma sum_length (msg : Bytes) : (sum msg).length = 32 := rfl

example : Sha1.hex (sum (lit "abc")) =
    lit "ba7816bf8f01cfea414140de5dae2223b00361a396177a9cb410ff61f20015ad" := by decide +kernel

example : Sha1.hex (hmac (lit "Jefe") (lit "what do ya want for nothing?")) =
    lit "5bdcc146bf60754e6a042426089575c75a003f089d2739839dec58b964ec3843" := by decide +kernel

end Sha256
