import Cadoo.Lib.JsonGrammar
import Cadoo.Lib.Sorted

/-! The committed specification turned from YAML nodes into JSON for the reference page. Nodes are numbered,
so that an alias can point anywhere; the YAML library and the encoding of floating-point numbers are
parameters. -/
namespace ApiDocs
open Bytes

inductive Kind where
  | document | sequence | mapping | scalar | alias | other
  deriving DecidableEq

structure Node where
  kind : Kind
  style : ℕ := 0
  tag : Bytes := []
  value : Bytes := []
  content : List ℕ := []
  target : ℕ := 0
  deriving DecidableEq

/-- The nodes by their numbers. -/
abbrev Graph := ℕ → Node

/-- What is asked of the libraries; `F` are the floating-point numbers. -/
structure Library (F : Type) where
  unmarshal : Bytes → Except Bytes (Graph × ℕ)
  shortTag : Node → Bytes
  decodeInt : Node → Except Bytes ℤ
  decodeFloat : Node → Except Bytes F
  isInf : F → Bool
  isNaN : F → Bool
  marshalFloat : F → Except Bytes Bytes

inductive EncodeError where
  | unmarshal (err : Bytes)
  | depth
  | marshal (value err : Bytes)
  deriving DecidableEq

def maxNodeDepth : ℕ := 1000

variable {F : Type} (Y : Library F)

def marshalFloat (n : Node) (fv : F) : Except EncodeError Bytes :=
  match Y.marshalFloat fv with
  | .error err => .error (.marshal n.value err)
  | .ok enc => .ok enc

/-- An integer beyond 64 bits is taken for a floating-point number, and for a string at last. -/
def scalarToJSON (n : Node) : Except EncodeError Bytes :=
  let tag := Y.shortTag n
  if tag = lit "!!bool" then .ok (if n.value = lit "true" then lit "true" else lit "false")
  else if tag = lit "!!null" then .ok (lit "null")
  else if tag = lit "!!int" then
    match Y.decodeInt n with
    | .ok iv => .ok (intDecimal iv)
    | .error _ =>
      match Y.decodeFloat n with
      | .error _ => .ok (Json.quote n.value)
      | .ok fv => marshalFloat Y n fv
  else if tag = lit "!!float" then
    match Y.decodeFloat n with
    | .error _ => .ok (Json.quote n.value)
    | .ok fv => if Y.isInf fv || Y.isNaN fv then .ok (Json.quote n.value) else marshalFloat Y n fv
  else .ok (Json.quote n.value)

/-- Every item written, with a comma before each but the first. -/
def writeItems {α : Type} (item : α → Except EncodeError Bytes) :
    ℕ → List α → Except EncodeError Bytes
  | _, [] => .ok []
  | i, x :: xs =>
    match item x with
    | .error err => .error err
    | .ok s =>
      match writeItems item (i+1) xs with
      | .error err => .error err
      | .ok rest => .ok ((if i > 0 then [44] else []) ++ s ++ rest)

/-- Keys and values stand next to each other; of a key only the text is used. -/
def pairsOf (g : Graph) : List ℕ → List (Bytes × ℕ)
  | k :: v :: rest => ((g k).value,v) :: pairsOf g rest
  | _ => []

/-- Each pair in turn is moved back past the greater keys. The pairs so far stand last first. -/
def sortPairs (pairs : List (Bytes × ℕ)) : List (Bytes × ℕ) :=
  (pairs.foldl (fun sorted p => sorted.orderedInsert (fun a b => less a.1 b.1 = false) p) []).reverse

def mappingToJSON (g : Graph) (nodeToJSON : ℕ → Except EncodeError Bytes) (n : Node) :
    Except EncodeError Bytes :=
  (writeItems (fun p => (nodeToJSON p.2).map fun s => Json.quote p.1 ++ 58 :: s) 0
    (sortPairs (pairsOf g n.content))).map fun s => 123 :: (s ++ [125])

def sequenceToJSON (nodeToJSON : ℕ → Except EncodeError Bytes) (n : Node) :
    Except EncodeError Bytes :=
  (writeItems nodeToJSON 0 n.content).map fun s => 91 :: (s ++ [93])

/-- A node with so many levels of nesting left. -/
def encode (g : Graph) : ℕ → ℕ → Except EncodeError Bytes
  | 0, _ => .error .depth
  | left+1, n =>
    match (g n).kind with
    | .alias => encode g left (g n).target
    | .mapping => mappingToJSON g (encode g left) (g n)
    | .sequence => sequenceToJSON (encode g left) (g n)
    | .scalar => scalarToJSON Y (g n)
    | _ => .ok (lit "null")

/-- A node at a depth; nodes deeper than the limit are refused. -/
def nodeToJSON (g : Graph) (n depth : ℕ) : Except EncodeError Bytes :=
  encode Y g (maxNodeDepth+1-depth) n

/-- What a document node stands around. -/
def unwrap (g : Graph) (root : ℕ) : ℕ :=
  if (g root).kind = .document then (g root).content.headD root else root

def yamlToJSON (specBytes : Bytes) : Except EncodeError Bytes :=
  match Y.unmarshal specBytes with
  | .error err => .error (.unmarshal err)
  | .ok (g,root) => nodeToJSON Y g (unwrap g root) 0

section Items
variable {α : Type} {item : α → Except EncodeError Bytes}

lemma writeItems_later {xs : List α} {parts : List Bytes}
    (h : List.Forall₂ (fun x s => item x = .ok s) xs parts) (i : ℕ) :
    writeItems item (i+1) xs = .ok (parts.flatMap (44 :: ·)) := by
  induction h generalizing i with
  | nil => rfl
  | cons hx _ ih =>
    simp only [writeItems,hx,ih]
    simp

/-- Items that are all written stand with commas between them. -/
lemma writeItems_ok {xs : List α} {parts : List Bytes}
    (h : List.Forall₂ (fun x s => item x = .ok s) xs parts) :
    writeItems item 0 xs = .ok (Json.commaSep parts) := by
  cases h with
  | nil => rfl
  | cons hx hxs =>
    simp only [writeItems,hx,writeItems_later hxs]
    rw [Json.commaSep_eq_flatMap]
    rfl

end Items

section Sorting

instance : Std.Total fun a b : Bytes × ℕ => less a.1 b.1 = false :=
  ⟨fun a b => (Std.Total.total b.1 a.1 : NotAfter b.1 a.1 ∨ NotAfter a.1 b.1)⟩

instance : IsTrans (Bytes × ℕ) fun a b => less a.1 b.1 = false :=
  ⟨fun _ _ _ hab hbc => (IsTrans.trans _ _ _ hbc hab : NotAfter _ _)⟩

lemma sortPairs_eq (pairs : List (Bytes × ℕ)) : sortPairs pairs =
    (pairs.reverse.insertionSort fun a b => less a.1 b.1 = false).reverse := by
  rw [sortPairs,List.foldl_eq_foldr_reverse]
  rfl

lemma sortPairs_perm (pairs : List (Bytes × ℕ)) : (sortPairs pairs).Perm pairs := by
  rw [sortPairs_eq]
  exact (List.reverse_perm _).trans ((List.perm_insertionSort _ _).trans (List.reverse_perm _))

lemma sortPairs_sorted (pairs : List (Bytes × ℕ)) :
    ((sortPairs pairs).map Prod.fst).Pairwise NotAfter := by
  rw [sortPairs_eq,List.pairwise_map,List.pairwise_reverse]
  exact List.pairwise_insertionSort (fun a b : Bytes × ℕ => less a.1 b.1 = false) _

end Sorting

end ApiDocs
