import Cadoo.Lib.Bytes

/-! The unpadded URL-safe base64 alphabet of RFC 4648, in the non-strict reading of Go's
`base64.RawURLEncoding`: line breaks are passed over and unused trailing bits are not checked. -/
namespace Base64
open Bytes

/-- The character for a six-bit group. -/
def digit (n : ℕ) : UInt8 :=
  if n < 26 then UInt8.ofNat (65+n)
  else if n < 52 then UInt8.ofNat (71+n)
  else if n < 62 then UInt8.ofNat (n-4)
  else if n = 62 then 45 else 95

def value (b : UInt8) : Option ℕ :=
  if 65 ≤ b ∧ b ≤ 90 then some (b.toNat-65)
  else if 97 ≤ b ∧ b ≤ 122 then some (b.toNat-71)
  else if 48 ≤ b ∧ b ≤ 57 then some (b.toNat+4)
  else if b = 45 then some 62
  else if b = 95 then some 63
  else none

def encode : Bytes → Bytes
  | a :: b :: c :: rest =>
    digit (a.toNat/4) :: digit (a.toNat%4*16 + b.toNat/16) ::
      digit (b.toNat%16*4 + c.toNat/64) :: digit (c.toNat%64) :: encode rest
  | [a,b] => [digit (a.toNat/4),digit (a.toNat%4*16 + b.toNat/16),digit (b.toNat%16*4)]
  | [a] => [digit (a.toNat/4),digit (a.toNat%4*16)]
  | [] => []

/-- The bytes of six-bit groups, four at a time; one group left over is an error. -/
def pack : List ℕ → Option Bytes
  | p :: q :: r :: s :: rest =>
    (pack rest).map fun out => UInt8.ofNat (p*4 + q/16) :: UInt8.ofNat (q%16*16 + r/4) ::
      UInt8.ofNat (r%4*64 + s) :: out
  | [p,q,r] => some [UInt8.ofNat (p*4 + q/16),UInt8.ofNat (q%16*16 + r/4)]
  | [p,q] => some [UInt8.ofNat (p*4 + q/16)]
  | [_] => none
  | [] => some []

def decode (s : Bytes) : Option Bytes :=
  ((s.filter fun b => b ≠ 10 && b ≠ 13).mapM value).bind pack

lemma value_digit (n : ℕ) (h : n < 64) : value (digit n) = some n := by
  have hn : ∀ n : Fin 64, value (digit n) = some n.val := by decide
  exact hn ⟨n,h⟩

/-- The alphabet has no white space. -/
lemma digit_printable (n : ℕ) : 32 < digit n := by
  by_cases h : n < 64
  · have hn : ∀ n : Fin 64, 32 < digit n := by decide
    exact hn ⟨n,h⟩
  · rw [digit,if_neg (by omega),if_neg (by omega),if_neg (by omega),if_neg (by omega)]
    decide

/-- The six-bit groups that `encode` prints. -/
def groups : Bytes → List ℕ
  | a :: b :: c :: rest =>
    a.toNat/4 :: (a.toNat%4*16 + b.toNat/16) :: (b.toNat%16*4 + c.toNat/64) :: c.toNat%64 :: groups rest
  | [a,b] => [a.toNat/4,a.toNat%4*16 + b.toNat/16,b.toNat%16*4]
  | [a] => [a.toNat/4,a.toNat%4*16]
  | [] => []

lemma encode_eq_map (s : Bytes) : encode s = (groups s).map digit := by
  induction s using encode.induct with
  | case1 a b c rest ih => simp [encode,groups,ih]
  | case2 a b => rfl
  | case3 a => rfl
  | case4 => rfl

lemma groups_lt (s : Bytes) : ∀ n ∈ groups s, n < 64 := by
  induction s using encode.induct with
  | case1 a b c rest ih =>
    have ha := a.toNat_lt
    have hb := b.toNat_lt
    have hc := c.toNat_lt
    simp only [groups,List.forall_mem_cons]
    exact ⟨by omega,by omega,by omega,by omega,ih⟩
  | case2 a b =>
    have ha := a.toNat_lt
    have hb := b.toNat_lt
    simp only [groups,List.forall_mem_cons]
    exact ⟨by omega,by omega,by omega,by simp⟩
  | case3 a =>
    have ha := a.toNat_lt
    simp only [groups,List.forall_mem_cons]
    exact ⟨by omega,by omega,by simp⟩
  | case4 => simp [groups]

lemma ofNat_eq (a : UInt8) (n : ℕ) (h : n = a.toNat) : UInt8.ofNat n = a := by
  rw [h,UInt8.ofNat_toNat]

lemma pack_groups (s : Bytes) : pack (groups s) = some s := by
  induction s using encode.induct with
  | case1 a b c rest ih =>
    have ha := a.toNat_lt
    have hb := b.toNat_lt
    have hc := c.toNat_lt
    simp only [groups,pack,ih,Option.map_some]
    rw [ofNat_eq a _ (by omega),ofNat_eq b _ (by omega),ofNat_eq c _ (by omega)]
  | case2 a b =>
    have ha := a.toNat_lt
    have hb := b.toNat_lt
    simp only [groups,pack]
    rw [ofNat_eq a _ (by omega),ofNat_eq b _ (by omega)]
  | case3 a =>
    have ha := a.toNat_lt
    simp only [groups,pack]
    rw [ofNat_eq a _ (by omega)]
  | case4 => rfl

lemma mapM_value_digit (ns : List ℕ) (h : ∀ n ∈ ns, n < 64) :
    (ns.map digit).mapM value = some ns := by
  induction ns with
  | nil => rfl
  | cons n ns ih =>
    rw [List.map_cons,List.mapM_cons,value_digit n (h n (by simp)),ih fun m hm => h m (by simp [hm])]
    rfl

theorem encode_printable {s : Bytes} {b : UInt8} (h : b ∈ encode s) : 32 < b := by
  rw [encode_eq_map] at h
  obtain ⟨n,-,rfl⟩ := List.mem_map.mp h
  exact digit_printable n

lemma encode_ne_nil {s : Bytes} (h : s ≠ []) : encode s ≠ [] := by
  cases s using encode.fun_cases with
  | case1 => simp [encode]
  | case2 => simp [encode]
  | case3 => simp [encode]
  | case4 => exact absurd rfl h

/-- Every byte string is read back from its encoding. -/
theorem decode_encode (s : Bytes) : decode (encode s) = some s := by
  have hf : (encode s).filter (fun b => b ≠ 10 && b ≠ 13) = encode s := by
    apply List.filter_eq_self.mpr
    intro b hb
    have h := UInt8.lt_iff_toNat_lt.mp (encode_printable hb)
    simp only [Bool.and_eq_true,decide_eq_true_eq,ne_eq]
    constructor <;> rintro rfl <;> simp at h
  rw [decode,hf,encode_eq_map,mapM_value_digit _ (groups_lt s)]
  exact pack_groups s

end Base64
