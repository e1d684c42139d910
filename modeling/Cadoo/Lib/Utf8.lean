import Cadoo.Lib.Bytes

/-! Runes of a byte string as Go decodes them, and the operations of Go's `strings` and `unicode`
packages that see runes. A byte that starts no valid UTF-8 sequence is one rune of its own, U+FFFD.
What a rune's case and class are beyond ASCII is left to a table. -/
namespace Utf8
open Bytes

/-- The rune reported for a byte that starts no valid sequence. -/
def runeError : Char := Char.ofNat 0xFFFD

/-- The rune at the front of a string, when a valid sequence starts there. -/
def decodeRune (s : Bytes) : Option Char := (s.take 4).toByteArray.utf8DecodeChar? 0

/-- The runes of a string with the bytes each was read from; the first argument counts the bytes
of the current rune that are still to be passed over. -/
def chunksFrom : ℕ → Bytes → List (Char × Bytes)
  | _, [] => []
  | k+1, _ :: s => chunksFrom k s
  | 0, b :: s =>
    match decodeRune (b :: s) with
    | some c => (c,String.utf8EncodeChar c) :: chunksFrom (c.utf8Size-1) s
    | none => (runeError,[b]) :: chunksFrom 0 s

def chunks (s : Bytes) : List (Char × Bytes) := chunksFrom 0 s
def runes (s : Bytes) : List Char := (chunks s).map Prod.fst
def encode (cs : List Char) : Bytes := cs.flatMap String.utf8EncodeChar

/-- `utf8.ValidString`: every rune was read from its own encoding. -/
def valid (s : Bytes) : Bool := (chunks s).all fun p => p.2 == String.utf8EncodeChar p.1

/-- Case and class of the runes beyond ASCII, as the `unicode` package tabulates them. -/
structure Tables where
  lower : Char → Char
  letter : Char → Bool
  digit : Char → Bool
  lower_ne_nul : ∀ c, 128 ≤ c.toNat → lower c ≠ Char.ofNat 0

/-- The tables of a text without letters beyond ASCII. -/
def Tables.plain : Tables where
  lower := id
  letter _ := false
  digit _ := false
  lower_ne_nul c h := by
    rintro rfl
    exact absurd h (by decide)

def isAscii (c : Char) : Bool := c.toNat < 128
def isLower (c : Char) : Bool := 'a' ≤ c && c ≤ 'z'
def isUpper (c : Char) : Bool := 'A' ≤ c && c ≤ 'Z'

def lowerAscii (c : Char) : Char := if isUpper c then Char.ofNat (c.toNat+32) else c
def lowerRune (U : Tables) (c : Char) : Char := if isAscii c then lowerAscii c else U.lower c
def isLetter (U : Tables) (c : Char) : Bool :=
  if isAscii c then isLower c || isUpper c else U.letter c
def isDigit (U : Tables) (c : Char) : Bool :=
  if isAscii c then '0' ≤ c && c ≤ '9' else U.digit c

/-- `unicode.IsSpace`. -/
def isSpace (c : Char) : Bool :=
  (9 ≤ c.toNat && c.toNat ≤ 13) || c.toNat ∈ [0x20,0x85,0xA0,0x1680] ||
    (0x2000 ≤ c.toNat && c.toNat ≤ 0x200A) || c.toNat ∈ [0x2028,0x2029,0x202F,0x205F,0x3000]

def lowerByte (b : UInt8) : UInt8 := if 65 ≤ b && b ≤ 90 then b+32 else b

/-- `strings.ToLower`: bytewise on ASCII text, else rune by rune, which replaces invalid bytes. -/
def toLower (U : Tables) (s : Bytes) : Bytes :=
  if s.all (· < 128) then s.map lowerByte else encode ((runes s).map (lowerRune U))

/-- `strings.TrimSpace`. -/
def trimSpace (s : Bytes) : Bytes :=
  (((chunks s).dropWhile fun p => isSpace p.1).rdropWhile fun p => isSpace p.1).flatMap Prod.snd

/-- `strings.FieldsFunc`: the non-empty pieces between separator runes. -/
def fieldsFunc (sep : Char → Bool) (s : Bytes) : List Bytes :=
  (((chunks s).splitOnP fun p => sep p.1).map fun piece => piece.flatMap Prod.snd).filter (· ≠ [])

/-- `strings.Fields`. -/
def fields (s : Bytes) : List Bytes := fieldsFunc isSpace s

lemma encode_cons (c : Char) (cs : List Char) : encode (c :: cs) = String.utf8EncodeChar c ++ encode cs :=
  List.flatMap_cons

lemma length_encodeChar_pos (c : Char) : 0 < (String.utf8EncodeChar c).length := by
  rw [String.length_utf8EncodeChar]
  exact c.utf8Size_pos

lemma decodeRune_append (c : Char) (s : Bytes) :
    decodeRune (String.utf8EncodeChar c ++ s) = some c := by
  have hl : (String.utf8EncodeChar c).length ≤ 4 := by
    rw [String.length_utf8EncodeChar]
    exact c.utf8Size_le_four
  rw [decodeRune,List.take_append,List.take_of_length_le hl,List.toByteArray_append]
  exact ByteArray.utf8DecodeChar?_utf8EncodeChar_append

lemma chunksFrom_skip (t s : Bytes) : chunksFrom t.length (t ++ s) = chunksFrom 0 s := by
  induction t with
  | nil => rfl
  | cons b t ih => exact ih

/-- Encoded runes are read back one by one, whatever follows them. -/
theorem chunks_encode_append (c : Char) (s : Bytes) :
    chunks (String.utf8EncodeChar c ++ s) = (c,String.utf8EncodeChar c) :: chunks s := by
  have hl := String.length_utf8EncodeChar c
  have hp := c.utf8Size_pos
  have hd := decodeRune_append c s
  cases he : String.utf8EncodeChar c with
  | nil => simp [he] at hl; omega
  | cons b t =>
    rw [he] at hd hl
    rw [List.cons_append] at hd ⊢
    have ht : t.length = c.utf8Size-1 := by simp at hl; omega
    rw [chunks,chunksFrom,hd]
    simp only [he,← ht,chunksFrom_skip]
    rfl

theorem chunks_encode (cs : List Char) :
    chunks (encode cs) = cs.map fun c => (c,String.utf8EncodeChar c) := by
  induction cs with
  | nil => rfl
  | cons c cs ih =>
    rw [encode_cons,chunks_encode_append,ih]
    rfl

/-- Text put together from encoded runes is valid UTF-8. -/
@[simp] theorem valid_encode (cs : List Char) : valid (encode cs) = true := by
  simp [valid,chunks_encode]

lemma encode_ascii (b : UInt8) (h : b < 128) :
    [b] = String.utf8EncodeChar (Char.ofNat b.toNat) := by
  have hall : ∀ d : UInt8, d < 128 → [d] = String.utf8EncodeChar (Char.ofNat d.toNat) :=
    forall_ascii (by decide)
  exact hall b h

lemma chunks_ascii_cons {b : UInt8} (h : b < 128) (t : Bytes) :
    chunks (b :: t) = (Char.ofNat b.toNat,[b]) :: chunks t := by
  have hc := chunks_encode_append (Char.ofNat b.toNat) t
  rwa [← encode_ascii b h,List.singleton_append] at hc

/-- ASCII text is read byte by byte. -/
lemma chunks_ascii_append {s : Bytes} (h : ∀ b ∈ s, b < 128) (t : Bytes) :
    chunks (s ++ t) = (s.map fun b => (Char.ofNat b.toNat,[b])) ++ chunks t := by
  induction s with
  | nil => rfl
  | cons b s ih =>
    rw [List.cons_append,chunks_ascii_cons (h b List.mem_cons_self),
      ih fun x hx => h x (List.mem_cons_of_mem b hx)]
    rfl

section Fields

lemma isSpace_ascii {b : UInt8} (h : 32 < b) (h' : b < 128) : isSpace (Char.ofNat b.toNat) = false := by
  have hall : ∀ d : UInt8, d < 128 → 32 < d → isSpace (Char.ofNat d.toNat) = false :=
    forall_ascii (by decide)
  exact hall b h' h

lemma fields_space (t : Bytes) : fields (32 :: t) = fields t := by
  rw [fields,fieldsFunc,chunks_ascii_cons (by decide) t,List.splitOnP_cons_eq_if_modifyHead]
  rfl

/-- A word of visible ASCII letters is one field. -/
lemma fields_word {w : Bytes} (hw : w ≠ []) (h : ∀ b ∈ w, 32 < b ∧ b < 128) (t : Bytes) :
    fields (w ++ 32 :: t) = w :: fields t := by
  have hc : chunks (w ++ 32 :: t) =
      (w.map fun b => (Char.ofNat b.toNat,[b])) ++ (Char.ofNat 32,[32]) :: chunks t := by
    rw [chunks_ascii_append (fun b hb => (h b hb).2),chunks_ascii_cons (by decide) t]
    rfl
  have hvisible : ∀ p ∈ w.map (fun b => (Char.ofNat b.toNat,[b])), isSpace p.1 = false := by
    intro p hp
    obtain ⟨b,hb,rfl⟩ := List.mem_map.mp hp
    exact isSpace_ascii (h b hb).1 (h b hb).2
  have hflat : (w.map fun b => (Char.ofNat b.toNat,[b])).flatMap Prod.snd = w := by
    rw [List.flatMap_map]
    exact List.flatMap_singleton' w
  rw [fields,fieldsFunc,hc,List.splitOnP_append_cons_of_forall_mem hvisible _ (by decide),
    List.map_cons,hflat,List.filter_cons_of_pos (by simpa using hw)]
  rfl

end Fields

lemma valid_of_ascii (s : Bytes) (h : ∀ b ∈ s, b < 128) : valid s = true := by
  have hs : s = encode (s.map fun b => Char.ofNat b.toNat) := by
    induction s with
    | nil => rfl
    | cons b s ih =>
      have hb := encode_ascii b (h b (by simp))
      have ht := ih fun x hx => h x (by simp [hx])
      rw [List.map_cons,encode,List.flatMap_cons,← hb,← encode,← ht]
      rfl
  rw [hs]
  exact valid_encode _

lemma lowerByte_lt (b : UInt8) (h : b < 128) : lowerByte b < 128 := by
  have hall : ∀ d : UInt8, d < 128 → lowerByte d < 128 := forall_ascii (by decide)
  exact hall b h

/-- Lower-casing repairs: its result is valid UTF-8 whatever the input was. -/
@[simp] theorem valid_toLower (U : Tables) (s : Bytes) : valid (toLower U s) = true := by
  unfold toLower
  split
  · next h =>
    apply valid_of_ascii
    intro b hb
    obtain ⟨a,ha,rfl⟩ := List.mem_map.mp hb
    exact lowerByte_lt a (by simpa using List.all_eq_true.mp h a ha)
  · exact valid_encode _

lemma mem_chunksFrom {k : ℕ} {s : Bytes} {p : Char × Bytes} (h : p ∈ chunksFrom k s) :
    p.1 = runeError ∨ p.2 = String.utf8EncodeChar p.1 := by
  induction s generalizing k with
  | nil => cases k <;> simp [chunksFrom] at h
  | cons b s ih =>
    cases k with
    | succ k => exact ih h
    | zero =>
      rw [chunksFrom] at h
      split at h
      · rcases List.mem_cons.mp h with rfl | h
        · exact .inr rfl
        · exact ih h
      · rcases List.mem_cons.mp h with rfl | h
        · exact .inl rfl
        · exact ih h

lemma decodeRune_eq_some {s : Bytes} {c : Char} (h : decodeRune s = some c) :
    String.utf8EncodeChar c <+: s := by
  obtain ⟨t,ht⟩ := ByteArray.exists_of_utf8DecodeChar?_eq_some h
  have hl := congrArg (fun a : ByteArray => a.data.toList) ht
  refine List.IsPrefix.trans ⟨t.data.toList,?_⟩ (List.take_prefix 4 s)
  simpa using hl.symm

lemma flatMap_chunksFrom (k : ℕ) (s : Bytes) : (chunksFrom k s).flatMap Prod.snd = s.drop k := by
  induction s generalizing k with
  | nil => cases k <;> rfl
  | cons b s ih =>
    cases k with
    | succ k => exact ih k
    | zero =>
      rw [chunksFrom]
      split
      · next c hc =>
        obtain ⟨t,ht⟩ := decodeRune_eq_some hc
        have hl := String.length_utf8EncodeChar c
        have hp := c.utf8Size_pos
        rw [List.flatMap_cons,ih]
        cases he : String.utf8EncodeChar c with
        | nil => simp [he] at hl; omega
        | cons d u =>
          rw [he] at ht hl
          obtain ⟨rfl,rfl⟩ := List.cons_eq_cons.mp ht
          have hu : c.utf8Size-1 = u.length := by simp at hl; omega
          simp [hu]
      · rw [List.flatMap_cons,ih]
        rfl

/-- The chunks of a string put together again give the string. -/
@[simp] theorem flatMap_chunks (s : Bytes) : (chunks s).flatMap Prod.snd = s :=
  flatMap_chunksFrom 0 s

/-- Valid text is its runes encoded. -/
theorem encode_runes {s : Bytes} (h : valid s = true) : encode (runes s) = s := by
  have hall : ∀ p ∈ chunks s, String.utf8EncodeChar p.1 = p.2 := by
    intro p hp
    exact (beq_iff_eq.mp (List.all_eq_true.mp h p hp)).symm
  calc encode (runes s) = (chunks s).flatMap fun p => String.utf8EncodeChar p.1 := by
        rw [encode,runes,List.flatMap_map]
    _ = (chunks s).flatMap Prod.snd := List.flatMap_congr hall
    _ = s := flatMap_chunks s

lemma valid_append {s t : Bytes} (hs : valid s = true) (ht : valid t = true) :
    valid (s ++ t) = true := by
  rw [← encode_runes hs,← encode_runes ht,encode,encode,← List.flatMap_append,← encode]
  exact valid_encode _

lemma mem_trimSpace {s : Bytes} {x : UInt8} (h : x ∈ trimSpace s) : x ∈ s := by
  obtain ⟨p,hp,hx⟩ := List.mem_flatMap.mp h
  have hc : p ∈ chunks s :=
    (List.dropWhile_sublist _).subset ((List.rdropWhile_prefix _ _).subset hp)
  rw [← flatMap_chunks s]
  exact List.mem_flatMap.mpr ⟨p,hc,hx⟩

lemma trimSpace_isInfix (s : Bytes) : trimSpace s <:+: s := by
  have hmid : ((chunks s).dropWhile fun p => isSpace p.1).rdropWhile (fun p => isSpace p.1) <:+:
      chunks s := (List.rdropWhile_prefix _ _).isInfix.trans (List.dropWhile_suffix _).isInfix
  obtain ⟨front,back,h⟩ := hmid
  refine ⟨front.flatMap Prod.snd,back.flatMap Prod.snd,?_⟩
  rw [trimSpace,← List.flatMap_append,← List.flatMap_append,h,flatMap_chunks]

lemma encodeChar_of_ascii {c : Char} (h : c.toNat < 128) :
    String.utf8EncodeChar c = [UInt8.ofNat c.toNat] := by
  rw [String.utf8EncodeChar,if_pos (by change c.toNat ≤ 127; omega)]
  rfl

/-- A rune beyond ASCII has no ASCII byte. -/
lemma high_of_mem_encodeChar {c : Char} (h : 128 ≤ c.toNat) {b : UInt8}
    (hb : b ∈ String.utf8EncodeChar c) :
    128 ≤ b := by
  have hbyte : ∀ n : ℕ, b = UInt8.ofNat n → 128 ≤ n % 256 → 128 ≤ b := by
    rintro n rfl hn
    rw [UInt8.le_iff_toNat_le,UInt8.toNat_ofNat']
    exact hn
  have hv : 128 ≤ c.val.toNat := h
  rw [String.utf8EncodeChar] at hb
  split at hb
  · omega
  · split at hb
    · simp only [List.mem_cons,List.not_mem_nil,or_false] at hb
      rcases hb with hb | hb
      · exact hbyte _ hb (by omega)
      · exact hbyte _ hb (by omega)
    · split at hb
      · simp only [List.mem_cons,List.not_mem_nil,or_false] at hb
        rcases hb with hb | hb | hb
        · exact hbyte _ hb (by omega)
        · exact hbyte _ hb (by omega)
        · exact hbyte _ hb (by omega)
      · simp only [List.mem_cons,List.not_mem_nil,or_false] at hb
        rcases hb with hb | hb | hb | hb
        · exact hbyte _ hb (by omega)
        · exact hbyte _ hb (by omega)
        · exact hbyte _ hb (by omega)
        · exact hbyte _ hb (by omega)

/-- A blank rune is read from blanks of ASCII or from bytes beyond it. -/
lemma blank_of_space {s : Bytes} {p : Char × Bytes} (hp : p ∈ chunks s) (h : isSpace p.1 = true) {b : UInt8}
    (hb : b ∈ p.2) : b ≤ 32 ∨ 128 ≤ b := by
  rcases mem_chunksFrom hp with herr | henc
  · rw [herr] at h
    exact absurd h (by decide)
  · rw [henc] at hb
    by_cases hlow : p.1.toNat < 128
    · left
      have hle : p.1.toNat ≤ 32 := by
        simp [isSpace] at h
        omega
      rw [encodeChar_of_ascii hlow,List.mem_singleton] at hb
      rw [hb,UInt8.le_iff_toNat_le,UInt8.toNat_ofNat']
      change p.1.toNat % 256 ≤ 32
      omega
    · exact .inr (high_of_mem_encodeChar (by omega) hb)

/-- Trimming takes blanks off both ends and nothing else. -/
theorem trimSpace_split (s : Bytes) : ∃ front back, s = front ++ (trimSpace s ++ back) ∧
    ∀ b ∈ front ++ back, b ≤ 32 ∨ 128 ≤ b := by
  let sp : Char × Bytes → Bool := fun p => isSpace p.1
  refine ⟨((chunks s).takeWhile sp).flatMap Prod.snd,(((chunks s).dropWhile sp).rtakeWhile sp).flatMap Prod.snd,?_,?_⟩
  · rw [trimSpace,← List.flatMap_append,← List.flatMap_append,List.rdropWhile_append_rtakeWhile,
      List.takeWhile_append_dropWhile,flatMap_chunks]
  · intro b hb
    rw [← List.flatMap_append] at hb
    obtain ⟨p,hp,hb⟩ := List.mem_flatMap.mp hb
    rcases List.mem_append.mp hp with hp | hp
    · exact blank_of_space ((List.takeWhile_sublist sp).subset hp) (List.mem_takeWhile_imp (p := sp) hp) hb
    · have hmem : p ∈ chunks s := (List.dropWhile_sublist sp).subset ((List.rtakeWhile_suffix sp _).subset hp)
      exact blank_of_space hmem (List.mem_rtakeWhile_imp (p := sp) hp) hb

/-- A text of visible ASCII letters has nothing to trim. -/
lemma trimSpace_visible {s : Bytes} (h : ∀ b ∈ s, 32 < b ∧ b < 128) : trimSpace s = s := by
  obtain ⟨front,back,hs,hblank⟩ := trimSpace_split s
  have hnone : ∀ b ∈ front ++ back, b ∉ s := by
    intro b hb hmem
    obtain ⟨hlow,hhigh⟩ := h b hmem
    rcases hblank b hb with hle | hle
    · exact absurd (UInt8.lt_of_lt_of_le hlow hle) (UInt8.lt_irrefl _)
    · exact absurd (UInt8.lt_of_lt_of_le hhigh hle) (UInt8.lt_irrefl _)
  have hfront : front = [] := List.eq_nil_iff_forall_not_mem.mpr fun b hb =>
    hnone b (List.mem_append_left _ hb) (by rw [hs]; exact List.mem_append_left _ hb)
  have hback : back = [] := List.eq_nil_iff_forall_not_mem.mpr fun b hb =>
    hnone b (List.mem_append_right _ hb) (by
      rw [hs]
      exact List.mem_append_right _ (List.mem_append_right _ hb))
  rw [hfront,hback,List.nil_append,List.append_nil] at hs
  exact hs.symm

/-- Visible ASCII letters at the front of a text that begins with one stay there when it is trimmed. -/
lemma prefix_trimSpace {p s : Bytes} (hp : ∀ b ∈ p, 32 < b ∧ b < 128) (hs : ∀ b ∈ s.head?, 32 < b ∧ b < 128) :
    p <+: trimSpace s ↔ p <+: s := by
  obtain ⟨front,back,heq,hblank⟩ := trimSpace_split s
  have hvisible : ∀ b : UInt8, 32 < b ∧ b < 128 → ¬ (b ≤ 32 ∨ 128 ≤ b) := by
    rintro b ⟨hlow,hhigh⟩ (hle | hle)
    · exact absurd (UInt8.lt_of_lt_of_le hlow hle) (UInt8.lt_irrefl _)
    · exact absurd (UInt8.lt_of_lt_of_le hhigh hle) (UInt8.lt_irrefl _)
  have hfront : front = [] := by
    cases front with
    | nil => rfl
    | cons b front => exact absurd (hblank b (by simp)) (hvisible b (hs b (by rw [heq]; rfl)))
  rw [hfront,List.nil_append] at heq
  have htrim : trimSpace s <+: s := ⟨back,heq.symm⟩
  refine ⟨fun h => h.trans htrim,fun h => ?_⟩
  rcases List.prefix_or_prefix_of_prefix h htrim with hpre | ⟨q,hq⟩
  · exact hpre
  · have hback : q <+: back := by
      refine (List.prefix_append_right_inj (trimSpace s)).mp ?_
      rw [hq,← heq]
      exact h
    have hnil : q = [] := List.eq_nil_iff_forall_not_mem.mpr fun b hb =>
      hvisible b (hp b (by rw [← hq]; exact List.mem_append_right _ hb))
        (hblank b (List.mem_append_right _ (hback.subset hb)))
    rw [← hq,hnil,List.append_nil]

/-- An ASCII byte stands in the encoding of its own rune only. -/
lemma eq_of_mem_encodeChar {c : Char} {b : UInt8} (hb : b < 128) (h : b ∈ String.utf8EncodeChar c) :
    c = Char.ofNat b.toNat := by
  have hlt : b.toNat < 128 := UInt8.lt_iff_toNat_lt.mp hb
  by_cases hc : c.toNat < 128
  · rw [encodeChar_of_ascii hc,List.mem_singleton] at h
    have hn : b.toNat = c.toNat % 256 := by rw [h,UInt8.toNat_ofNat']
    rw [← Char.ofNat_toNat c,hn,Nat.mod_eq_of_lt (by omega)]
  · have hhigh := UInt8.le_iff_toNat_le.mp (high_of_mem_encodeChar (by omega) h)
    have h128 : UInt8.toNat 128 = 128 := rfl
    omega

/-- An ASCII byte is read as a rune of its own. -/
lemma rune_of_mem_chunk {k : ℕ} {s : Bytes} {p : Char × Bytes} (h : p ∈ chunksFrom k s) {b : UInt8} (hb : b < 128)
    (hmem : b ∈ p.2) : p.1 = Char.ofNat b.toNat := by
  induction s generalizing k with
  | nil => cases k <;> simp [chunksFrom] at h
  | cons a s ih =>
    cases k with
    | succ k => exact ih h
    | zero =>
      rw [chunksFrom] at h
      split at h
      · rcases List.mem_cons.mp h with rfl | h
        · exact eq_of_mem_encodeChar hb hmem
        · exact ih h
      · next hnone =>
        rcases List.mem_cons.mp h with rfl | h
        · obtain rfl := List.mem_singleton.mp hmem
          have hsome := decodeRune_append (Char.ofNat b.toNat) s
          rw [← encode_ascii b hb,List.singleton_append,hnone] at hsome
          exact absurd hsome nofun
        · exact ih h

lemma chunk_ne_nil {k : ℕ} {s : Bytes} {p : Char × Bytes} (h : p ∈ chunksFrom k s) : p.2 ≠ [] := by
  induction s generalizing k with
  | nil => cases k <;> simp [chunksFrom] at h
  | cons a s ih =>
    cases k with
    | succ k => exact ih h
    | zero =>
      rw [chunksFrom] at h
      split at h
      · rcases List.mem_cons.mp h with rfl | h
        · exact List.ne_nil_of_length_pos (length_encodeChar_pos _)
        · exact ih h
      · rcases List.mem_cons.mp h with rfl | h
        · exact List.cons_ne_nil _ _
        · exact ih h

/-- Trimmed text does not begin with a blank. -/
lemma head_trimSpace {s : Bytes} {b : UInt8} (h : (trimSpace s).head? = some b) (hb : b < 128) :
    isSpace (Char.ofNat b.toNat) = false := by
  rw [trimSpace] at h
  generalize hl : ((chunks s).dropWhile fun p => isSpace p.1).rdropWhile (fun p => isSpace p.1) = l at h
  cases l with
  | nil => simp at h
  | cons p l =>
    have hpre : p :: l <+: (chunks s).dropWhile fun p => isSpace p.1 := by
      rw [← hl]
      exact List.rdropWhile_prefix _ _
    have hp : p ∈ chunks s := (List.dropWhile_sublist _).subset (hpre.subset (by simp))
    have hhead : ((chunks s).dropWhile fun p => isSpace p.1).head? = some p := by
      obtain ⟨t,ht⟩ := hpre
      rw [← ht]
      rfl
    have hnot : isSpace p.1 = false := by
      have := List.head?_dropWhile_not (fun p : Char × Bytes => isSpace p.1) (chunks s)
      simpa [hhead] using this
    have hmem : b ∈ p.2 := by
      rw [List.flatMap_cons,List.head?_append_of_ne_nil _ (chunk_ne_nil hp)] at h
      exact List.mem_of_head? h
    rw [← rune_of_mem_chunk hp hb hmem]
    exact hnot

/-- Trimmed text does not end with a blank. -/
lemma last_trimSpace {s : Bytes} {b : UInt8} (h : (trimSpace s).getLast? = some b) (hb : b < 128) :
    isSpace (Char.ofNat b.toNat) = false := by
  rw [trimSpace] at h
  generalize hl : ((chunks s).dropWhile fun p => isSpace p.1).rdropWhile (fun p => isSpace p.1) = l at h
  induction l using List.reverseRecOn with
  | nil => simp at h
  | append_singleton l p _ =>
    have hp : p ∈ chunks s := by
      refine (List.dropWhile_sublist fun p : Char × Bytes => isSpace p.1).subset ?_
      refine (List.rdropWhile_prefix (fun p : Char × Bytes => isSpace p.1) _).subset ?_
      rw [hl]
      simp
    have hnot : isSpace p.1 = false := by
      have hne : ((chunks s).dropWhile fun p => isSpace p.1).rdropWhile (fun p => isSpace p.1) ≠ [] := by
        simp [hl]
      have := List.rdropWhile_last_not (fun p : Char × Bytes => isSpace p.1) _ hne
      simpa [hl] using this
    have hmem : b ∈ p.2 := by
      rw [List.flatMap_append,List.flatMap_singleton,List.getLast?_append_of_ne_nil _ (chunk_ne_nil hp)] at h
      exact List.mem_of_getLast? h
    rw [← rune_of_mem_chunk hp hb hmem]
    exact hnot

lemma trimSpace_head?_ne (s : Bytes) : (trimSpace s).head? ≠ some newline := fun h =>
  absurd (head_trimSpace h (by decide)) (by decide)

lemma trimSpace_getLast?_ne (s : Bytes) : (trimSpace s).getLast? ≠ some newline := fun h =>
  absurd (last_trimSpace h (by decide)) (by decide)

lemma lowerByte_ne_zero {b : UInt8} (hb : b < 128) (h0 : b ≠ 0) : lowerByte b ≠ 0 := by
  have hall : ∀ d : UInt8, d < 128 → d ≠ 0 → lowerByte d ≠ 0 := forall_ascii (by decide)
  exact hall b hb h0

lemma lowerRune_ne_nul (U : Tables) {c : Char} (h0 : c ≠ Char.ofNat 0) :
    lowerRune U c ≠ Char.ofNat 0 := by
  unfold lowerRune isAscii
  split
  · next h =>
    have hn : ∀ n : Fin 128, n ≠ 0 → lowerAscii (Char.ofNat n) ≠ Char.ofNat 0 := by decide
    have hc : c.toNat < 128 := by simpa using h
    have := hn ⟨c.toNat,hc⟩ fun he => h0 (by
      have hz : c.toNat = 0 := congrArg Fin.val he
      rw [← Char.ofNat_toNat c,hz])
    simpa using this
  · next h => exact U.lower_ne_nul c (by simpa using h)

/-- A text without zero bytes keeps none when put in lower case. -/
theorem zero_notMem_toLower (U : Tables) {s : Bytes} (h : (0 : UInt8) ∉ s) :
    (0 : UInt8) ∉ toLower U s := by
  unfold toLower
  split
  · next ha =>
    intro hm
    obtain ⟨b,hb,h0⟩ := List.mem_map.mp hm
    have hlt : b < 128 := by simpa using List.all_eq_true.mp ha b hb
    exact lowerByte_ne_zero hlt (fun he => h (he ▸ hb)) h0
  · intro hm
    obtain ⟨c',hc',h0⟩ := List.mem_flatMap.mp hm
    obtain ⟨c,hc,rfl⟩ := List.mem_map.mp hc'
    obtain ⟨p,hp,rfl⟩ := List.mem_map.mp hc
    have hne : p.1 ≠ Char.ofNat 0 := by
      intro he
      rcases mem_chunksFrom hp with hr | hr
      · rw [hr] at he
        exact absurd he (by decide)
      · apply h
        rw [← flatMap_chunks s]
        refine List.mem_flatMap.mpr ⟨p,hp,?_⟩
        rw [hr,he]
        decide
    exact lowerRune_ne_nul U hne (eq_of_mem_encodeChar (by decide) h0)

section Cut

/-- Valid text goes on being valid behind a rune. -/
lemma valid_rune_append (c : Char) (s : Bytes) : valid (String.utf8EncodeChar c ++ s) = valid s := by
  rw [valid,chunks_encode_append,List.all_cons,beq_self_eq_true,Bool.true_and]
  rfl

/-- A part of a rune is no valid text. -/
lemma valid_take_rune {c : Char} {n : ℕ} (hpos : 0 < n) (hn : n < (String.utf8EncodeChar c).length) :
    valid ((String.utf8EncodeChar c).take n) = false := by
  have hlength : ((String.utf8EncodeChar c).take n).length = n := List.length_take_of_le (Nat.le_of_lt hn)
  have hdecode : decodeRune ((String.utf8EncodeChar c).take n) = none := by
    cases hd : decodeRune ((String.utf8EncodeChar c).take n) with
    | none => rfl
    | some d =>
      have hpre := decodeRune_eq_some hd
      obtain ⟨rest,hrest⟩ := hpre.trans (List.take_prefix n _)
      have hd' := decodeRune_append d rest
      have hc := decodeRune_append c []
      rw [hrest] at hd'
      rw [List.append_nil,hd'] at hc
      obtain rfl := Option.some.inj hc
      have hle := hpre.length_le
      omega
  obtain ⟨b,t,ht⟩ := List.exists_cons_of_ne_nil (List.ne_nil_of_length_pos (by omega) :
    (String.utf8EncodeChar c).take n ≠ [])
  rw [ht] at hdecode ⊢
  rw [valid,chunks,chunksFrom,hdecode]
  have hne : ([b] == String.utf8EncodeChar runeError) = false := by
    rw [beq_eq_false_iff_ne]
    intro h
    have hlength : (String.utf8EncodeChar runeError).length = 3 := by decide
    rw [← h] at hlength
    exact absurd hlength (by simp)
  rw [List.all_cons,hne,Bool.false_and]

/-- Valid text can be cut wherever it ends or another rune begins, and nowhere else. -/
theorem valid_take {s : Bytes} (h : valid s = true) (n : ℕ) :
    valid (s.take n) = true ↔ ∀ b, s[n]? = some b → b.IsUTF8FirstByte := by
  rw [← encode_runes h]
  generalize runes s = cs
  induction cs generalizing n with
  | nil =>
    have hnil : encode [] = [] := rfl
    simp [hnil,valid,chunks,chunksFrom]
  | cons c cs ih =>
    rw [encode_cons]
    rcases Nat.lt_or_ge n (String.utf8EncodeChar c).length with hlt | hge
    · rw [List.take_append_of_le_length (Nat.le_of_lt hlt),List.getElem?_append_left hlt,List.getElem?_eq_getElem hlt]
      have hfirst : (∀ b, some (String.utf8EncodeChar c)[n] = some b → b.IsUTF8FirstByte) ↔ n = 0 := by
        rw [← @UInt8.isUTF8FirstByte_getElem_utf8EncodeChar c n hlt]
        exact ⟨fun h => h _ rfl,fun h b hb => Option.some.inj hb ▸ h⟩
      rw [hfirst]
      by_cases hn : n = 0
      · subst hn
        exact iff_of_true rfl rfl
      · rw [valid_take_rune (Nat.pos_of_ne_zero hn) hlt]
        exact iff_of_false Bool.false_ne_true hn
    · obtain ⟨m,rfl⟩ := Nat.exists_eq_add_of_le hge
      rw [List.take_length_add_append,List.getElem?_append_right hge,Nat.add_sub_cancel_left,valid_rune_append]
      exact ih m

/-- A rune begins at a position, or no byte is there. -/
def Boundary (s : Bytes) (n : ℕ) : Prop := ∀ b ∈ s[n]?, b.IsUTF8FirstByte

instance (s : Bytes) (n : ℕ) : Decidable (Boundary s n) := Option.decidableForallMem s[n]?

lemma valid_append_left {s : Bytes} (hs : valid s = true) (t : Bytes) : valid (s ++ t) = valid t := by
  rw [← encode_runes hs]
  generalize runes s = cs
  induction cs with
  | nil => rfl
  | cons c cs ih =>
    rw [encode_cons,List.append_assoc,valid_rune_append,ih]

/-- Valid text begins with the first byte of a rune. -/
lemma head_of_valid {b : UInt8} {t : Bytes} (h : valid (b :: t) = true) : b.IsUTF8FirstByte := by
  have henc := encode_runes h
  cases hr : runes (b :: t) with
  | nil =>
    rw [hr] at henc
    exact absurd henc (List.cons_ne_nil b t).symm
  | cons c cs =>
    have hpos := length_encodeChar_pos c
    rw [hr,encode_cons] at henc
    have hhead := congrArg (·[0]?) henc
    rw [List.getElem?_append_left hpos,List.getElem?_eq_getElem hpos] at hhead
    rw [← Option.some.inj hhead]
    exact (@UInt8.isUTF8FirstByte_getElem_utf8EncodeChar c 0 hpos).mpr rfl

theorem valid_drop {s : Bytes} (h : valid s = true) (n : ℕ) : valid (s.drop n) = true ↔ Boundary s n := by
  constructor
  · intro hdrop b hb
    have hhead : (s.drop n)[0]? = some b := by
      rw [List.getElem?_drop,Nat.add_zero]
      exact hb
    cases hd : s.drop n with
    | nil =>
      rw [hd] at hhead
      cases hhead
    | cons x t =>
      rw [hd] at hdrop hhead
      rw [← Option.some.inj hhead]
      exact head_of_valid hdrop
  · intro hn
    have htake : valid (s.take n) = true := (valid_take h n).mpr hn
    rwa [← List.take_append_drop n s,valid_append_left htake] at h

lemma boundary_drop (s : Bytes) (i n : ℕ) : Boundary (s.drop i) n ↔ Boundary s (i+n) := by
  rw [Boundary,List.getElem?_drop]
  rfl

/-- A part of a valid text is valid just when runes begin at both of its ends. -/
theorem valid_slice {s : Bytes} (h : valid s = true) {i n : ℕ} (hi : i < s.length) (hn : 0 < n) :
    valid ((s.drop i).take n) = true ↔ Boundary s i ∧ Boundary s (i+n) := by
  by_cases hb : Boundary s i
  · rw [and_iff_right hb,← boundary_drop]
    exact valid_take ((valid_drop h i).mpr hb) n
  · refine iff_of_false (fun hslice => hb fun b hget => ?_) fun hboth => hb hboth.1
    obtain ⟨t,ht⟩ : ∃ t, (s.drop i).take n = b :: t := by
      obtain ⟨m,rfl⟩ := Nat.exists_eq_add_of_le' hn
      rw [List.drop_eq_getElem_cons hi,List.take_succ_cons]
      rw [Option.mem_def,List.getElem?_eq_getElem hi] at hget
      exact ⟨_,by rw [Option.some.inj hget]⟩
    rw [ht] at hslice
    exact head_of_valid hslice

lemma valid_trimSpace {s : Bytes} (h : valid s = true) : valid (trimSpace s) = true := by
  rw [trimSpace]
  generalize hl : ((chunks s).dropWhile fun p => isSpace p.1).rdropWhile (fun p => isSpace p.1) = l
  have hmem : ∀ p ∈ l, p.2 = String.utf8EncodeChar p.1 := by
    intro p hp
    rw [← hl] at hp
    exact beq_iff_eq.mp (List.all_eq_true.mp h p
      ((List.dropWhile_sublist _).subset ((List.rdropWhile_prefix _ _).subset hp)))
  rw [List.flatMap_congr hmem,← List.flatMap_map]
  exact valid_encode _

lemma ascii_first {b : UInt8} (h : b < 128) : b.IsUTF8FirstByte :=
  head_of_valid (valid_of_ascii [b] (List.forall_mem_singleton.mpr h))

/-- Both sides of an ASCII word in a valid text are valid. -/
lemma valid_around {u w v : Bytes} (hw : ∀ b ∈ w, b < 128) (hne : w ≠ []) (h : valid (u ++ w ++ v) = true) :
    valid u = true ∧ valid v = true := by
  obtain ⟨b,t,rfl⟩ := List.exists_cons_of_ne_nil hne
  have hu : valid u = true := by
    have htake := (valid_take h u.length).mpr fun c hget => by
      rw [List.append_assoc,List.getElem?_append_right (Nat.le_refl _),Nat.sub_self] at hget
      obtain rfl := Option.some.inj hget
      exact ascii_first (hw b List.mem_cons_self)
    rwa [List.append_assoc,List.take_left] at htake
  rw [List.append_assoc,valid_append_left hu,valid_append_left (valid_of_ascii _ hw)] at h
  exact ⟨hu,h⟩

/-- An ASCII word splits valid text into valid pieces. -/
lemma valid_splitN {s sep l : Bytes} {n : ℕ} (hsep : ∀ b ∈ sep, b < 128) (hne : sep ≠ []) (h : valid s = true)
    (hl : l ∈ splitN s sep n) : valid l = true := by
  induction s,n using splitN.induct sep with
  | case1 s => cases hl
  | case2 s =>
    obtain rfl := List.mem_singleton.mp hl
    exact h
  | case3 s n front rest hcut ih =>
    rw [splitN,hcut] at hl
    rw [eq_of_cut hcut] at h
    obtain ⟨hfront,hrest⟩ := valid_around hsep hne h
    rcases List.mem_cons.mp hl with rfl | hl
    · exact hfront
    · exact ih hrest hl
  | case4 s n hcut =>
    rw [splitN,hcut] at hl
    obtain rfl := List.mem_singleton.mp hl
    exact h

end Cut

end Utf8
