import Mathlib.Data.Prod.Lex
import Cadoo.ApiDocs.Document

/-! The specification within the script element of the reference page: nothing that is written for it means anything
in HTML, and a document that is nested too deep, or around itself, is refused. -/
namespace ApiDocs
open Bytes Utf8

/-- No byte begins a tag or an entity, or ends a tag. -/
def Harmless (s : Bytes) : Prop := ∀ b ∈ s, b ≠ 60 ∧ b ≠ 62 ∧ b ≠ 38

section Bytes
variable {s t : Bytes}

lemma harmless_append : Harmless (s ++ t) ↔ Harmless s ∧ Harmless t := List.forall_mem_append

lemma harmless_cons {b : UInt8} : Harmless (b :: s) ↔ (b ≠ 60 ∧ b ≠ 62 ∧ b ≠ 38) ∧ Harmless s :=
  List.forall_mem_cons

/-- What holds of a byte and of none of the three makes it harmless. -/
lemma harmless_of {P : UInt8 → Prop} {b : UInt8} (h : P b) (hnone : ¬ P 60 ∧ ¬ P 62 ∧ ¬ P 38) :
    b ≠ 60 ∧ b ≠ 62 ∧ b ≠ 38 := by
  refine ⟨?_,?_,?_⟩
  · rintro rfl
    exact hnone.1 h
  · rintro rfl
    exact hnone.2.1 h
  · rintro rfl
    exact hnone.2.2 h

lemma harmless_digit {b : UInt8} (h : isDecimal b = true ∨ b = 45) : b ≠ 60 ∧ b ≠ 62 ∧ b ≠ 38 :=
  @harmless_of (fun b => isDecimal b = true ∨ b = 45) b h (by decide)

lemma harmless_intDecimal (i : ℤ) : Harmless (intDecimal i) := by
  cases i with
  | ofNat n => exact fun b hb => harmless_digit (.inl (isDecimal_of_mem_natDecimal hb))
  | negSucc n =>
    rw [intDecimal,harmless_append]
    refine ⟨fun b hb => harmless_digit (.inr ?_),fun b hb => harmless_digit (.inl (isDecimal_of_mem_natDecimal hb))⟩
    have hlit : lit "-" = [45] := by decide
    rw [hlit] at hb
    exact List.mem_singleton.mp hb

lemma harmless_hexDigit (n : ℕ) : Json.hexDigit (n % 16) ≠ 60 ∧ Json.hexDigit (n % 16) ≠ 62 ∧
    Json.hexDigit (n % 16) ≠ 38 := by
  have hall : ∀ i : Fin 16, Json.hexDigit i ≠ 60 ∧ Json.hexDigit i ≠ 62 ∧ Json.hexDigit i ≠ 38 := by decide
  exact hall ⟨n % 16,Nat.mod_lt n (by decide)⟩

lemma harmless_unitEscape (n : ℕ) : Harmless (Json.unitEscape n) := by
  rw [Json.unitEscape]
  simp only [harmless_cons]
  exact ⟨by decide,by decide,harmless_hexDigit _,harmless_hexDigit _,harmless_hexDigit _,harmless_hexDigit _,
    List.forall_mem_nil _⟩

lemma harmless_shortEscape {c : Char} {e : UInt8} (h : Json.shortEscape c = some e) : e ≠ 60 ∧ e ≠ 62 ∧ e ≠ 38 := by
  unfold Json.shortEscape at h
  split_ifs at h <;> · obtain rfl := Option.some.inj h; decide

/-- A rune that is not escaped is none that means something in HTML. -/
lemma harmless_rune {c : Char} (h : Json.mustEscape c = false) : Harmless (String.utf8EncodeChar c) := by
  have hc : c.toNat ≠ 60 ∧ c.toNat ≠ 62 ∧ c.toNat ≠ 38 := by
    simp only [Json.mustEscape,Bool.or_eq_false_iff,decide_eq_false_iff_not,List.mem_cons,not_or] at h
    exact ⟨h.2.1,h.2.2.1,h.2.2.2.1⟩
  intro b hb
  by_cases hlow : c.toNat < 128
  · exact @harmless_of (fun b => b.toNat = c.toNat) b (Json.ascii_byte hlow hb) ⟨Ne.symm hc.1,Ne.symm hc.2.1,Ne.symm hc.2.2⟩
  · exact @harmless_of (fun b => 128 ≤ b) b (Utf8.high_of_mem_encodeChar (by omega) hb) (by decide)

lemma harmless_quote (s : Bytes) : Harmless (Json.quote s) := by
  rw [Json.quote,harmless_cons,harmless_append]
  refine ⟨by decide,fun b hb => ?_,List.forall_mem_singleton.mpr (by decide)⟩
  obtain ⟨p,-,hb⟩ := List.mem_flatMap.mp hb
  rw [Json.escape] at hb
  split at hb
  · next e he =>
    exact harmless_cons.mpr ⟨by decide,List.forall_mem_singleton.mpr (harmless_shortEscape he)⟩ b hb
  · split at hb
    · exact harmless_unitEscape _ b hb
    · next hm =>
      split at hb
      · next heq =>
        rw [heq] at hb
        exact harmless_rune (by simpa using hm) b hb
      · exact harmless_unitEscape _ b hb

end Bytes

section Encoding
variable {F : Type} {Y : Library F}

lemma harmless_marshalFloat (h : ∀ x out, Y.marshalFloat x = .ok out → Harmless out) {n : Node} {x : F} {out : Bytes}
    (hout : marshalFloat Y n x = .ok out) : Harmless out := by
  rw [marshalFloat] at hout
  split at hout
  · cases hout
  · next enc henc =>
    obtain rfl := Except.ok.inj hout
    exact h x enc henc

lemma harmless_scalar (h : ∀ x out, Y.marshalFloat x = .ok out → Harmless out) {n : Node} {out : Bytes}
    (hout : scalarToJSON Y n = .ok out) : Harmless out := by
  have hwords : Harmless (lit "true") ∧ Harmless (lit "false") ∧ Harmless (lit "null") :=
    ⟨forall_of_all (by decide),forall_of_all (by decide),forall_of_all (by decide)⟩
  have hquote : ∀ {out}, (.ok (Json.quote n.value) : Except EncodeError Bytes) = .ok out → Harmless out := by
    rintro out hout
    obtain rfl := Except.ok.inj hout
    exact harmless_quote n.value
  rw [scalarToJSON] at hout
  split at hout
  · obtain rfl := Except.ok.inj hout
    split
    · exact hwords.1
    · exact hwords.2.1
  split at hout
  · obtain rfl := Except.ok.inj hout
    exact hwords.2.2
  split at hout
  · split at hout
    · obtain rfl := Except.ok.inj hout
      exact harmless_intDecimal _
    · split at hout
      · exact hquote hout
      · exact harmless_marshalFloat h hout
  split at hout
  · split at hout
    · exact hquote hout
    · split at hout
      · exact hquote hout
      · exact harmless_marshalFloat h hout
  · exact hquote hout

section Items
variable {α : Type} {item : α → Except EncodeError Bytes}

lemma harmless_items {xs : List α} (h : ∀ x ∈ xs, ∀ s, item x = .ok s → Harmless s) {i : ℕ} {out : Bytes}
    (hout : writeItems item i xs = .ok out) : Harmless out := by
  induction xs generalizing i out with
  | nil =>
    obtain rfl := Except.ok.inj hout
    exact List.forall_mem_nil _
  | cons x xs ih =>
    obtain ⟨hx,hxs⟩ := List.forall_mem_cons.mp h
    rw [writeItems] at hout
    split at hout
    · cases hout
    · next s hs =>
      split at hout
      · cases hout
      · next rest hrest =>
        obtain rfl := Except.ok.inj hout
        rw [harmless_append,harmless_append]
        refine ⟨⟨?_,hx s hs⟩,ih hxs hrest⟩
        split
        · exact List.forall_mem_singleton.mpr (by decide)
        · exact List.forall_mem_nil _

/-- An item that cannot be written leaves nothing written. -/
lemma items_error {xs : List α} {x : α} (hx : x ∈ xs) {err : EncodeError} (h : item x = .error err) (i : ℕ) :
    ∃ err', writeItems item i xs = .error err' := by
  induction xs generalizing i with
  | nil => cases hx
  | cons y ys ih =>
    rw [writeItems]
    split
    · next err' _ => exact ⟨err',rfl⟩
    · next s hs =>
      rcases List.mem_cons.mp hx with rfl | hx
      · cases h.symm.trans hs
      · obtain ⟨err',herr'⟩ := ih hx (i+1)
        rw [herr']
        exact ⟨err',rfl⟩

end Items

variable (g : Graph)

lemma ok_of_map {r : Except EncodeError Bytes} {f : Bytes → Bytes} {out : Bytes} (h : r.map f = .ok out) :
    ∃ s, r = .ok s ∧ out = f s := by
  cases r with
  | error err => cases h
  | ok s => exact ⟨s,rfl,(Except.ok.inj h).symm⟩

/-- Whatever is written of a node is harmless. -/
lemma harmless_encode (h : ∀ x out, Y.marshalFloat x = .ok out → Harmless out) {left n : ℕ} {out : Bytes}
    (hout : encode Y g left n = .ok out) : Harmless out := by
  induction left generalizing n out with
  | zero => cases hout
  | succ left ih =>
    rw [encode] at hout
    split at hout
    · exact ih hout
    · obtain ⟨s,hs,rfl⟩ := ok_of_map hout
      rw [harmless_cons,harmless_append]
      refine ⟨by decide,harmless_items (fun p _ t ht => ?_) hs,List.forall_mem_singleton.mpr (by decide)⟩
      obtain ⟨v,hv,rfl⟩ := ok_of_map ht
      exact harmless_append.mpr ⟨harmless_quote _,harmless_cons.mpr ⟨by decide,ih hv⟩⟩
    · obtain ⟨s,hs,rfl⟩ := ok_of_map hout
      rw [harmless_cons,harmless_append]
      exact ⟨by decide,harmless_items (fun _ _ t ht => ih ht) hs,List.forall_mem_singleton.mpr (by decide)⟩
    · exact harmless_scalar h hout
    · obtain rfl := Except.ok.inj hout
      exact forall_of_all (by decide)

/-- A node that is so many steps away, from one to its elements, its values or what it is an alias of. -/
def Away : ℕ → ℕ → ℕ → Prop
  | 0, n, m => n = m
  | k+1, n, m => ∃ x, Child g n x ∧ Away k x m

/-- A node in reach is part of a circle. -/
def Cyclic (n : ℕ) : Prop := ∃ m, Relation.ReflTransGen (Child g) n m ∧ Relation.TransGen (Child g) m m

/-- What is not written for a child is not written for its parent. -/
lemma encode_child {left n x : ℕ} (h : Child g n x) {err : EncodeError} (hx : encode Y g left x = .error err) :
    ∃ err', encode Y g (left+1) n = .error err' := by
  rw [Child] at h
  rw [encode]
  split at h
  · next hk =>
    rw [hk]
    exact ⟨err,by rw [← h]; exact hx⟩
  · next hk =>
    rw [hk]
    obtain ⟨err',herr'⟩ := items_error h hx 0
    exact ⟨err',by rw [sequenceToJSON,herr']; rfl⟩
  · next hk =>
    rw [hk]
    obtain ⟨p,hp,rfl⟩ := List.mem_map.mp h
    obtain ⟨err',herr'⟩ := @items_error _ (fun p : Bytes × ℕ => (encode Y g left p.2).map fun s =>
      Json.quote p.1 ++ 58 :: s) _ p ((sortPairs_perm _).mem_iff.mpr hp) err (by rw [hx]; rfl) 0
    exact ⟨err',by rw [mappingToJSON,herr']; rfl⟩
  · cases h

lemma encode_away {k n m left : ℕ} (hleft : left ≤ k) (h : Away g k n m) : ∃ err, encode Y g left n = .error err := by
  induction left generalizing k n with
  | zero => exact ⟨_,rfl⟩
  | succ left ih =>
    obtain ⟨k,rfl⟩ := Nat.exists_eq_add_of_lt hleft
    obtain ⟨x,hchild,hx⟩ := h
    obtain ⟨err,herr⟩ := ih (by omega) hx
    exact encode_child g hchild herr

/-- From a circle one can go as far as one likes. -/
lemma away_of_cyclic {n : ℕ} (h : Cyclic g n) (k : ℕ) : ∃ m, Away g k n m := by
  induction k generalizing n with
  | zero => exact ⟨n,rfl⟩
  | succ k ih =>
    obtain ⟨m,hm,hcircle⟩ := h
    have hnext : ∃ x, Child g n x ∧ Cyclic g x := by
      rcases hm.cases_head with rfl | ⟨x,hchild,hx⟩
      · obtain ⟨x,hchild,hx⟩ := Relation.TransGen.head'_iff.mp hcircle
        exact ⟨x,hchild,n,hx,hcircle⟩
      · exact ⟨x,hchild,m,hx,hcircle⟩
    obtain ⟨x,hchild,hx⟩ := hnext
    obtain ⟨m',hm'⟩ := ih hx
    exact ⟨m',x,hchild,hm'⟩

/-- The recursion of the code: a node at a depth within the limit is written from nodes one level deeper. -/
lemma nodeToJSON_eq (n depth : ℕ) : nodeToJSON Y g n depth =
    if maxNodeDepth < depth then .error .depth
    else
      match (g n).kind with
      | .alias => nodeToJSON Y g (g n).target (depth+1)
      | .mapping => mappingToJSON g (fun v => nodeToJSON Y g v (depth+1)) (g n)
      | .sequence => sequenceToJSON (fun v => nodeToJSON Y g v (depth+1)) (g n)
      | .scalar => scalarToJSON Y (g n)
      | _ => .ok (lit "null") := by
  split
  · next h =>
    rw [nodeToJSON,Nat.sub_eq_zero_of_le h]
    rfl
  · next h =>
    have hleft : maxNodeDepth+1-depth = (maxNodeDepth+1-(depth+1))+1 := by omega
    rw [nodeToJSON,hleft]
    rfl

/-- The calls that a call makes: at a depth within the limit, those for the children one level deeper. -/
def Calls (b a : ℕ × ℕ) : Prop := a.2 ≤ maxNodeDepth ∧ Child g a.1 b.1 ∧ b.2 = a.2+1

/-- No chain of calls goes on for ever. -/
lemma calls_wellFounded : WellFounded (Calls g) := by
  refine Subrelation.wf (fun {b a} h => ?_) (measure fun a : ℕ × ℕ => maxNodeDepth+1-a.2).wf
  obtain ⟨hdepth,-,hb⟩ := h
  change maxNodeDepth+1-b.2 < maxNodeDepth+1-a.2
  omega

/-- Writing ends, what is written is harmless, and a chain that is too long or a circle is an error. -/
theorem nodeToJSON_inline (h : ∀ x out, Y.marshalFloat x = .ok out → Harmless out) (root : ℕ) :
    WellFounded (Calls g) ∧
    (∀ out, nodeToJSON Y g root 0 = .ok out → Harmless out) ∧
    ((∃ k m, maxNodeDepth < k ∧ Away g k root m) ∨ Cyclic g root → ∃ err, nodeToJSON Y g root 0 = .error err) := by
  refine ⟨calls_wellFounded g,fun out => harmless_encode g h,?_⟩
  rintro (⟨k,m,hk,haway⟩ | hcyclic)
  · exact encode_away g hk haway
  · obtain ⟨m,haway⟩ := away_of_cyclic g hcyclic (maxNodeDepth+1)
    exact encode_away g (Nat.le_refl _) haway

def pageStart : Bytes := lit "<!DOCTYPE html>
<html>
  <head>
    <title>API Reference</title>
    <meta charset=\"utf-8\"/>
    <meta name=\"viewport\" content=\"width=device-width, initial-scale=1\">
    <style>body\x7bmargin:0;padding:0;\x7d</style>
  </head>
  <body>
    <div id=\"redoc-container\"></div>
    <script>"

def pageMiddle : Bytes := lit "</script>
    <script>Redoc.init("

def pageEnd : Bytes := lit ",\x7b\x7d,document.getElementById('redoc-container'))</script>
  </body>
</html>"

variable (Y) in
def buildRedocHTML (specBytes bundle : Bytes) : Except EncodeError Bytes :=
  match yamlToJSON Y specBytes with
  | .error err => .error err
  | .ok specJSON => .ok (pageStart ++ bundle ++ pageMiddle ++ specJSON ++ pageEnd)

/-- The specification stands within its element of the page, and nothing in it ends that element. -/
theorem buildRedocHTML_inline (h : ∀ x out, Y.marshalFloat x = .ok out → Harmless out) {spec bundle page : Bytes}
    (hpage : buildRedocHTML Y spec bundle = .ok page) : ∃ specJSON, yamlToJSON Y spec = .ok specJSON ∧
      page = pageStart ++ bundle ++ pageMiddle ++ specJSON ++ pageEnd ∧ Harmless specJSON := by
  rw [buildRedocHTML] at hpage
  split at hpage
  · cases hpage
  · next specJSON hjson =>
    obtain rfl := Except.ok.inj hpage
    refine ⟨specJSON,hjson,rfl,?_⟩
    rw [yamlToJSON] at hjson
    split at hjson
    · cases hjson
    · exact harmless_encode _ h hjson

end Encoding

section Example

/-- Whole numbers stand for the floating-point ones. -/
def wholeLibrary : Library ℤ where
  unmarshal _ := .error []
  shortTag n := n.tag
  decodeInt n := match ParseInt n.value with
    | some i => .ok i
    | none => .error []
  decodeFloat n := match readInt n.value with
    | some (i,[]) => .ok i
    | _ => .error []
  isInf _ := false
  isNaN _ := false
  marshalFloat i := .ok (intDecimal i)

/-- A mapping whose key would end the element, with a number beyond 64 bits, and a sequence that holds itself. -/
def scriptGraph : Graph := fun n =>
  [{ kind := .mapping, content := [1,2] },{ kind := .scalar, tag := lit "!!str", value := lit "</script>" },
    { kind := .scalar, tag := lit "!!int", value := lit "9223372036854775808" },{ kind := .sequence, content := [4] },
    { kind := .alias, target := 3 }].getD n { kind := .other }

theorem scriptGraph_inline :
    (∃ out, nodeToJSON wholeLibrary scriptGraph 0 0 = .ok out ∧ Harmless out) ∧
      ∃ err, nodeToJSON wholeLibrary scriptGraph 3 0 = .error err := by
  have hfloat : ∀ x out, wholeLibrary.marshalFloat x = .ok out → Harmless out := by
    intro x out hout
    obtain rfl := Except.ok.inj hout
    exact harmless_intDecimal x
  refine ⟨⟨_,rfl,(nodeToJSON_inline scriptGraph hfloat 0).2.1 _ rfl⟩,?_⟩
  refine (nodeToJSON_inline scriptGraph hfloat 3).2.2 (.inr ⟨3,.refl,?_⟩)
  have hdown : Child scriptGraph 3 4 := List.mem_singleton.mpr rfl
  have hup : Child scriptGraph 4 3 := rfl
  exact .head hdown (.single hup)

end Example

end ApiDocs
