import Cadoo.Lib.Utf8

/-! `path.Match`: a shell pattern against the whole of a name. A pattern is read first, and only a malformed one is
an error; it is then matched from star to star, each time at the first place that fits. -/
namespace Glob
open Bytes Utf8

/-- What a pattern asks for at one place; a class lists ranges of runes. -/
inductive Item where
  | byte (b : UInt8)
  | any
  | oneOf (negated : Bool) (ranges : List (Char × Char))

/-- The items up to the next star, and whether one comes before them. -/
structure Chunk where
  star : Bool
  items : List Item

def slash : UInt8 := 47

/-- The rune at the front, and what comes after it. -/
def nextRune (s : Bytes) : Char × Bytes :=
  match decodeRune s with
  | some c => (c,s.drop c.utf8Size)
  | none => (runeError,s.tail)

section Reading

/-- A rune of a class, maybe escaped, which something must follow. -/
def getEsc (p : Bytes) : Option (Char × Bytes) :=
  if p = [] ∨ p.head? = some 45 ∨ p.head? = some 93 then none
  else
    let t := if p.head? = some 92 then p.tail else p
    if decodeRune t = none ∨ (nextRune t).2 = [] then none else some (nextRune t)

/-- The ranges of a class up to its bracket; there is at least one. -/
def ranges : ℕ → List (Char × Char) → Bytes → Option (List (Char × Char) × Bytes)
  | 0, _, _ => none
  | k+1, rs, p =>
    if p.head? = some 93 ∧ rs ≠ [] then some (rs,p.tail)
    else do
      let (lo,rest) ← getEsc p
      let (hi,rest) ← if rest.head? = some 45 then getEsc rest.tail else some (lo,rest)
      ranges k (rs ++ [(lo,hi)]) rest

def oneItem : Bytes → Option (Item × Bytes)
  | [] => none
  | b :: p =>
    if b = 91 then
      let negated := decide (p.head? = some 94)
      let p := if negated then p.tail else p
      (ranges (p.length+1) [] p).map fun r => (.oneOf negated r.1,r.2)
    else if b = 63 then some (.any,p)
    else if b = 92 then p.head?.map fun c => (.byte c,p.tail)
    else some (.byte b,p)

/-- The chunks of a pattern, read with the chunk begun so far. -/
def chunksFrom : ℕ → Chunk → Bytes → Option (List Chunk)
  | 0, _, _ => none
  | _+1, c, [] => some [c]
  | k+1, c, b :: p =>
    if b = 42 then
      if c.items = [] then chunksFrom k ⟨true,[]⟩ p else (chunksFrom k ⟨true,[]⟩ p).map (c :: ·)
    else do
      let (i,rest) ← oneItem (b :: p)
      chunksFrom k ⟨c.star,c.items ++ [i]⟩ rest

def parse (pattern : Bytes) : Option (List Chunk) :=
  if pattern = [] then some [] else chunksFrom (pattern.length+1) ⟨false,[]⟩ pattern

end Reading

/-- What is left of a name after the items of a chunk. -/
def matchItems : List Item → Bytes → Option Bytes
  | [], s => some s
  | _ :: _, [] => none
  | .byte b :: is, c :: s => if b = c then matchItems is s else none
  | .any :: is, c :: s => if c = slash then none else matchItems is (nextRune (c :: s)).2
  | .oneOf negated rs :: is, c :: s =>
    let r := (nextRune (c :: s)).1
    if (rs.any fun p => p.1 ≤ r && r ≤ p.2) = negated then none else matchItems is (nextRune (c :: s)).2

/-- The places that a star can reach, other than the first. -/
def skips : Bytes → List Bytes
  | [] => []
  | b :: s => if b = slash then [] else s :: skips s

def matchChunks : List Chunk → Bytes → Bool
  | [], s => s = []
  | c :: cs, s =>
    if c.star = true ∧ c.items = [] then slash ∉ s
    else
      let places := s :: if c.star then skips s else []
      match places.findSome? fun t => (matchItems c.items t).filter fun rest => rest = [] || !cs.isEmpty with
      | some rest => matchChunks cs rest
      | none => false

/-- `none` stands for the error of a malformed pattern. -/
def Match (pattern name : Bytes) : Option Bool := (parse pattern).map fun cs => matchChunks cs name

/-- A pattern that is read without an error, whatever it is then matched against. -/
def Valid (pattern : Bytes) : Prop := (parse pattern).isSome

instance : DecidablePred Valid := fun _ => inferInstanceAs (Decidable (_ = true))

lemma Valid.match_eq {pattern : Bytes} (h : Valid pattern) (name : Bytes) :
    Match pattern name = some (decide (Match pattern name = some true)) := by
  obtain ⟨cs,hcs⟩ := Option.isSome_iff_exists.mp h
  rw [Match,hcs]
  simp

example : Match (lit "v[0-9]*.?") (lit "v1.2.3") = some true := rfl
example : Match (lit "v[") (lit "v1") = none := rfl

end Glob
