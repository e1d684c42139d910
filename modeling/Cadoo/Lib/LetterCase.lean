import Cadoo.Lib.Utf8

/-! Letters put in upper or lower case, and words at the front of a text. ASCII letters keep their byte length;
other runes may change theirs, or become ASCII. -/
namespace Utf8
open Bytes

def upperByte (b : UInt8) : UInt8 := if 97 ≤ b && b ≤ 122 then b-32 else b

def upperAscii (c : Char) : Char := if isLower c then Char.ofNat (c.toNat-32) else c

/-- `unicode.ToUpper`, with a table for the runes beyond ASCII. -/
def upperRune (up : Char → Char) (c : Char) : Char := if isAscii c then upperAscii c else up c

/-- `strings.ToUpper`: bytewise on ASCII text, else rune by rune, which replaces invalid bytes. -/
def toUpper (up : Char → Char) (s : Bytes) : Bytes :=
  if s.all (· < 128) then s.map upperByte else encode ((runes s).map (upperRune up))

/-- A text with its first rune in upper case. -/
def capitalized (up : Char → Char) (s : Bytes) : Bytes :=
  match runes s with
  | [] => []
  | c :: cs => encode (upperRune up c :: cs)

/-- A word in small letters begins a text, whatever the case of the ASCII letters there. -/
def BeginsWith (s p : Bytes) : Prop := (s.take p.length).map lowerByte = p

instance (s p : Bytes) : Decidable (BeginsWith s p) := inferInstanceAs (Decidable (_ = _))

section Ascii
variable {b : UInt8} (hb : b < 128)
include hb

lemma encode_lowerRune (U : Tables) :
    String.utf8EncodeChar (lowerRune U (Char.ofNat b.toNat)) = [lowerByte b] := by
  have hall : ∀ d : UInt8, d < 128 → isAscii (Char.ofNat d.toNat) = true ∧
      String.utf8EncodeChar (lowerAscii (Char.ofNat d.toNat)) = [lowerByte d] := forall_ascii (by decide)
  obtain ⟨hascii,hlower⟩ := hall b hb
  rw [lowerRune,if_pos hascii,hlower]

lemma encode_upperRune (up : Char → Char) :
    String.utf8EncodeChar (upperRune up (Char.ofNat b.toNat)) = [upperByte b] := by
  have hall : ∀ d : UInt8, d < 128 → isAscii (Char.ofNat d.toNat) = true ∧
      String.utf8EncodeChar (upperAscii (Char.ofNat d.toNat)) = [upperByte d] := forall_ascii (by decide)
  obtain ⟨hascii,hupper⟩ := hall b hb
  rw [upperRune,if_pos hascii,hupper]

lemma toLower_cons (U : Tables) (t : Bytes) : toLower U (b :: t) = lowerByte b :: toLower U t := by
  rw [toLower,toLower,List.all_cons,decide_eq_true hb,Bool.true_and]
  split
  · rfl
  · rw [runes,chunks_ascii_cons hb,List.map_cons,List.map_cons,encode_cons,encode_lowerRune hb]
    rfl

lemma toUpper_singleton (up : Char → Char) : toUpper up [b] = [upperByte b] := by
  rw [toUpper,List.all_cons,decide_eq_true hb]
  rfl

lemma capitalized_cons (up : Char → Char) {t : Bytes} (ht : valid t = true) :
    capitalized up (b :: t) = upperByte b :: t := by
  rw [capitalized,runes,chunks_ascii_cons hb,List.map_cons]
  change encode (_ :: runes t) = _
  rw [encode_cons,encode_upperRune hb,encode_runes ht]
  rfl

end Ascii

lemma upperByte_lt {b : UInt8} (h : b < 128) : upperByte b < 128 := by
  have hall : ∀ d : UInt8, d < 128 → upperByte d < 128 := forall_ascii (by decide)
  exact hall b h

/-- Upper-casing repairs as lower-casing does. -/
@[simp] theorem valid_toUpper (up : Char → Char) (s : Bytes) : valid (toUpper up s) = true := by
  rw [toUpper]
  split
  · next h =>
    refine valid_of_ascii _ fun b hb => ?_
    obtain ⟨a,ha,rfl⟩ := List.mem_map.mp hb
    exact upperByte_lt (of_decide_eq_true (List.all_eq_true.mp h a ha))
  · exact valid_encode _

/-- A byte put in upper case is at most one rune. -/
lemma length_toUpper_singleton (up : Char → Char) (b : UInt8) : (toUpper up [b]).length ≤ 4 := by
  rw [toUpper]
  split
  · exact Nat.le_of_ble_eq_true rfl
  · have hone : (runes [b]).length ≤ 1 := by
      rw [runes,chunks,chunksFrom]
      split
      · simp [chunksFrom]
      · simp [chunksFrom]
    cases hr : runes [b] with
    | nil => exact Nat.zero_le _
    | cons c cs =>
      rw [hr,List.length_cons] at hone
      rw [List.eq_nil_of_length_eq_zero (by omega : cs.length = 0),List.map_cons,List.map_nil,encode,
        List.flatMap_singleton,String.length_utf8EncodeChar]
      exact Char.utf8Size_le_four _

lemma lt_of_lowerByte_lt {b : UInt8} (h : lowerByte b < 128) : b < 128 := by
  rw [lowerByte] at h
  split at h
  · next hletter =>
    rw [Bool.and_eq_true,decide_eq_true_eq,decide_eq_true_eq] at hletter
    exact UInt8.lt_of_le_of_lt hletter.2 (by decide)
  · exact h

section Words
variable {U : Tables} {s p : Bytes} (hp : ∀ b ∈ p, b < 128)
include hp

lemma toLower_append (U : Tables) (t : Bytes) : toLower U (p ++ t) = p.map lowerByte ++ toLower U t := by
  induction p with
  | nil => rfl
  | cons b p ih =>
    obtain ⟨hb,hp⟩ := List.forall_mem_cons.mp hp
    rw [List.cons_append,toLower_cons hb,ih hp]
    rfl

/-- The part of a text that a word matches is ASCII. -/
lemma ascii_of_beginsWith (h : BeginsWith s p) : ∀ b ∈ s.take p.length, b < 128 := fun _ hb =>
  lt_of_lowerByte_lt (hp _ (h ▸ List.mem_map_of_mem hb))

lemma prefix_toLower (h : BeginsWith s p) : p <+: toLower U s := by
  have happend := toLower_append (ascii_of_beginsWith hp h) U (s.drop p.length)
  rw [List.take_append_drop,h] at happend
  exact ⟨_,happend.symm⟩

lemma valid_behind (h : BeginsWith s p) (hs : valid s = true) : valid (s.drop p.length) = true := by
  rwa [← List.take_append_drop p.length s,valid_append_left (valid_of_ascii _ (ascii_of_beginsWith hp h))] at hs

/-- A rune is needed for each letter of an ASCII word. -/
lemma length_le_of_prefix_encode {cs : List Char} (h : p <+: encode cs) : p.length ≤ cs.length := by
  induction p generalizing cs with
  | nil => exact Nat.zero_le _
  | cons b p ih =>
    obtain ⟨hb,hp⟩ := List.forall_mem_cons.mp hp
    cases cs with
    | nil => exact absurd (List.prefix_nil.mp h) (List.cons_ne_nil b p)
    | cons c cs =>
      obtain ⟨d,t,hd⟩ := List.exists_cons_of_length_pos (length_encodeChar_pos c)
      rw [encode_cons,hd,List.cons_append,List.cons_prefix_cons] at h
      obtain ⟨rfl,h⟩ := h
      have hc := eq_of_mem_encodeChar hb (hd ▸ List.mem_cons_self)
      rw [hc,← encode_ascii b hb] at hd
      obtain rfl := (List.cons.inj hd).2.symm
      exact Nat.succ_le_succ (ih hp h)

end Words

lemma length_chunks_le (s : Bytes) : (chunks s).length ≤ s.length := by
  suffices h : ∀ k, (chunksFrom k s).length ≤ s.length from h 0
  intro k
  induction s generalizing k with
  | nil => simp [chunksFrom]
  | cons b s ih =>
    cases k with
    | succ k => exact (ih k).trans (Nat.le_succ _)
    | zero =>
      rw [chunksFrom]
      split
      · exact Nat.succ_le_succ (ih _)
      · exact Nat.succ_le_succ (ih _)

/-- A word found at the front of a lower-cased text is no longer than the text itself. -/
theorem length_le_of_prefix_toLower {U : Tables} {s p : Bytes} (hp : ∀ b ∈ p, b < 128) (h : p <+: toLower U s) :
    p.length ≤ s.length := by
  rw [toLower] at h
  split at h
  · exact h.length_le.trans (List.length_map _).le
  · have hle := length_le_of_prefix_encode hp h
    rw [List.length_map,runes,List.length_map] at hle
    exact hle.trans (length_chunks_le s)

/-- A first byte is a rune of its own just when what follows it is valid text. -/
theorem valid_tail_iff {b : UInt8} {t : Bytes} (h : valid (b :: t) = true) : valid t = true ↔ b < 128 := by
  constructor
  · intro ht
    have hone : valid [b] = true := (valid_take h 1).mpr ((valid_drop h 1).mp ht)
    have henc := encode_runes hone
    by_contra hb
    have hlength := congrArg List.length henc
    cases hr : runes [b] with
    | nil =>
      rw [hr] at hlength
      exact absurd (hlength : 0 = 1) Nat.zero_ne_one
    | cons c cs =>
      rw [hr,encode_cons,List.length_append,String.length_utf8EncodeChar,List.length_singleton] at hlength
      have hpos := c.utf8Size_pos
      have hsize : c.utf8Size = 1 := by omega
      have hc : c.toNat < 128 := Nat.lt_succ_of_le (UInt32.le_iff_toNat_le.mp (Char.utf8Size_eq_one_iff.mp hsize))
      rw [hr,encode_cons,encodeChar_of_ascii hc] at henc
      apply hb
      rw [← (List.cons.inj henc).1,UInt8.lt_iff_toNat_lt,UInt8.toNat_ofNat',Nat.mod_eq_of_lt (by omega)]
      exact hc
  · intro hb
    have hone : valid [b] = true := valid_of_ascii _ (List.forall_mem_singleton.mpr hb)
    exact valid_append_left hone t ▸ h

end Utf8
