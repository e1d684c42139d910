import Cadoo.Lib.Bytes

/-! SHA-1 over byte strings, with the lower-case hexadecimal form digests are printed in. -/
namespace Sha1
open Bytes

structure State where
  a : UInt32
  b : UInt32
  c : UInt32
  d : UInt32
  e : UInt32
  deriving DecidableEq, Repr

def initial : State := ⟨0x67452301,0xEFCDAB89,0x98BADCFE,0x10325476,0xC3D2E1F0⟩

def rotl (x n : UInt32) : UInt32 := (x <<< n) ||| (x >>> (32-n))

/-- The mixing function and the constant of round `t`. -/
def mixing (t : ℕ) (s : State) : UInt32 × UInt32 :=
  if t < 20 then ((s.b &&& s.c) ||| (~~~s.b &&& s.d),0x5A827999)
  else if t < 40 then (s.b ^^^ s.c ^^^ s.d,0x6ED9EBA1)
  else if t < 60 then ((s.b &&& s.c) ||| (s.b &&& s.d) ||| (s.c &&& s.d),0x8F1BBCDC)
  else (s.b ^^^ s.c ^^^ s.d,0xCA62C1D6)

def round (t : ℕ) (w : UInt32) (s : State) : State :=
  let m := mixing t s
  ⟨rotl s.a 5 + m.1 + s.e + m.2 + w,s.a,rotl s.b 30,s.c,s.d⟩

/-- The remaining rounds from round `t` on; the window holds the sixteen schedule words from `t`. -/
def rounds : ℕ → ℕ → List UInt32 → State → State
  | 0, _, _, s => s
  | _+1, _, [], s => s
  | k+1, t, w :: rest, s =>
    let next := rotl (rest.getD 12 0 ^^^ rest.getD 7 0 ^^^ rest.getD 1 0 ^^^ w) 1
    rounds k (t+1) (rest ++ [next]) (round t w s)

def compress (h : State) (block : List UInt32) : State :=
  let s := rounds 80 0 block h
  ⟨h.a+s.a,h.b+s.b,h.c+s.c,h.d+s.d,h.e+s.e⟩

/-- Absorb the given number of sixteen-word blocks. -/
def absorb : ℕ → List UInt32 → State → State
  | 0, _, h => h
  | n+1, ws, h => absorb n (ws.drop 16) (compress h (ws.take 16))

def words : Bytes → List UInt32
  | a :: b :: c :: d :: rest =>
    ((a.toUInt32 <<< 24) ||| (b.toUInt32 <<< 16) ||| (c.toUInt32 <<< 8) ||| d.toUInt32) :: words rest
  | _ => []

def bigEndian32 (x : UInt32) : Bytes :=
  [(x >>> 24).toUInt8,(x >>> 16).toUInt8,(x >>> 8).toUInt8,x.toUInt8]

def bigEndian64 (n : ℕ) : Bytes := (List.range 8).map fun i => UInt8.ofNat (n >>> (8*(7-i)))

/-- The message, the bit 1, zeros up to a block boundary less eight bytes, and the bit length. -/
def pad (msg : Bytes) : Bytes :=
  msg ++ 0x80 :: List.replicate ((119 - msg.length % 64) % 64) 0 ++ bigEndian64 (8*msg.length)

def sum (msg : Bytes) : Bytes :=
  let padded := pad msg
  let s := absorb (padded.length/64) (words padded) initial
  bigEndian32 s.a ++ bigEndian32 s.b ++ bigEndian32 s.c ++ bigEndian32 s.d ++ bigEndian32 s.e

def hexDigit (n : UInt8) : UInt8 := if n < 10 then 48+n else 87+n

def hex (s : Bytes) : Bytes := s.flatMap fun b : UInt8 => [hexDigit (b >>> 4),hexDigit (b &&& 15)]

def isHexDigit (b : UInt8) : Bool := (48 ≤ b && b ≤ 57) || (97 ≤ b && b ≤ 102)

@[simp] lemma sum_length (msg : Bytes) : (sum msg).length = 20 := rfl

@[simp] lemma hex_length (s : Bytes) : (hex s).length = 2*s.length := by
  induction s with
  | nil => rfl
  | cons b s ih =>
    simp only [hex,List.flatMap_cons,List.length_append,List.length_cons,List.length_nil] at ih ⊢
    omega

/-- A printed digest consists of hexadecimal digits only. -/
theorem isHexDigit_of_mem_hex {s : Bytes} {x : UInt8} (h : x ∈ hex s) : isHexDigit x = true := by
  have hall : ∀ b : UInt8, isHexDigit (hexDigit (b >>> 4)) = true ∧ isHexDigit (hexDigit (b &&& 15)) = true :=
    forall_byte (by decide +kernel)
  obtain ⟨b,-,hb⟩ := List.mem_flatMap.mp h
  rcases List.mem_cons.mp hb with rfl | hb
  · exact (hall b).1
  · rw [List.mem_singleton.mp hb]
    exact (hall b).2

example : hex (sum (lit "abc")) = lit "a9993e364706816aba3e25717850c26c9cd0d89d" := by decide +kernel

end Sha1
