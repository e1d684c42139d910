import Mathlib.Data.List.Forall2
import Cadoo.Lib.Utf8

/-! JSON string literals: quoting as Go's `encoding/json` writes it, and reading back with every escape
of the grammar. Bytes that are no valid UTF-8 are written as U+FFFD. -/
namespace Json
open Bytes Utf8

def hexDigit (n : ℕ) : UInt8 := if n < 10 then UInt8.ofNat (48+n) else UInt8.ofNat (87+n)

def hexValue (b : UInt8) : Option ℕ :=
  if 48 ≤ b && b ≤ 57 then some (b.toNat-48)
  else if 97 ≤ b && b ≤ 102 then some (b.toNat-87)
  else if 65 ≤ b && b ≤ 70 then some (b.toNat-55)
  else none

/-- A code unit below 2^16 as an escape. -/
def unitEscape (n : ℕ) : Bytes :=
  [92,117,hexDigit (n/4096%16),hexDigit (n/256%16),hexDigit (n/16%16),hexDigit (n%16)]

def shortEscape (c : Char) : Option UInt8 :=
  if c = '"' then some 34
  else if c = '\\' then some 92
  else if c.toNat = 8 then some 98
  else if c.toNat = 12 then some 102
  else if c.toNat = 10 then some 110
  else if c.toNat = 13 then some 114
  else if c.toNat = 9 then some 116
  else none

/-- Control characters, the three that mean something in HTML, and the two line separators. -/
def mustEscape (c : Char) : Bool :=
  c.toNat < 32 || c.toNat ∈ [0x3C,0x3E,0x26,0x2028,0x2029]

/-- How a rune read from a string is written. -/
def escape (p : Char × Bytes) : Bytes :=
  match shortEscape p.1 with
  | some e => [92,e]
  | none =>
    if mustEscape p.1 then unitEscape p.1.toNat
    else if p.2 = String.utf8EncodeChar p.1 then p.2
    else unitEscape 0xFFFD

def quote (s : Bytes) : Bytes := 34 :: ((chunks s).flatMap escape ++ [34])

/-- A string with every invalid byte replaced. -/
def repair (s : Bytes) : Bytes := encode (runes s)

/-- A byte of a literal taken as it stands, or the code unit of an escape. -/
inductive Piece where
  | byte (b : UInt8)
  | unit (u : ℕ)

def shortValue (b : UInt8) : Option UInt8 :=
  if b = 34 || b = 92 || b = 47 then some b
  else if b = 98 then some 8
  else if b = 102 then some 12
  else if b = 110 then some 10
  else if b = 114 then some 13
  else if b = 116 then some 9
  else none

def unitValue (a b c d : UInt8) : Option ℕ :=
  match hexValue a,hexValue b,hexValue c,hexValue d with
  | some a, some b, some c, some d => some (4096*a+256*b+16*c+d)
  | _, _, _, _ => none

/-- The pieces of a literal up to its closing quote, and what follows. -/
def scan : Bytes → Option (List Piece × Bytes)
  | [] => none
  | b :: s =>
    if b = 34 then some ([],s)
    else if b = 92 then
      match s with
      | [] => none
      | e :: s =>
        if e = 117 then
          match s with
          | a :: b :: c :: d :: s =>
            match unitValue a b c d with
            | some u => (scan s).map fun r => (.unit u :: r.1,r.2)
            | none => none
          | _ => none
        else
          match shortValue e with
          | some v => (scan s).map fun r => (.byte v :: r.1,r.2)
          | none => none
    else if b < 32 then none
    else (scan s).map fun r => (.byte b :: r.1,r.2)

def isHigh (u : ℕ) : Bool := 0xD800 ≤ u && u < 0xDC00
def isLow (u : ℕ) : Bool := 0xDC00 ≤ u && u < 0xE000
def unitRune (u : ℕ) : Char := if isHigh u || isLow u then runeError else Char.ofNat u

/-- The text of a literal: surrogate pairs are one rune, a surrogate alone is U+FFFD. -/
def join : List Piece → Bytes
  | [] => []
  | .byte b :: ps => b :: join ps
  | .unit u :: .unit v :: ps =>
    if isHigh u && isLow v then
      String.utf8EncodeChar (Char.ofNat (0x10000+(u-0xD800)*0x400+(v-0xDC00))) ++ join ps
    else String.utf8EncodeChar (unitRune u) ++ join (.unit v :: ps)
  | .unit u :: ps => String.utf8EncodeChar (unitRune u) ++ join ps

/-- A literal after its opening quote. -/
def readQuoted (s : Bytes) : Option (Bytes × Bytes) :=
  match scan s with
  | some (ps,rest) => if valid (join ps) then some (join ps,rest) else none
  | none => none

/-- A part of a string literal. -/
inductive Symbol where
  | plain (b : UInt8)
  | short (e : UInt8)
  | unit (a b c d : UInt8)

namespace Symbol

def text : Symbol → Bytes
  | plain b => [b]
  | short e => [92,e]
  | unit a b c d => [92,117,a,b,c,d]

/-- What it stands for. Quotes, backslashes and control characters do not stand for themselves. -/
def piece : Symbol → Option Piece
  | plain b => if b = 34 ∨ b = 92 ∨ b < 32 then none else some (.byte b)
  | short e => (shortValue e).map .byte
  | unit a b c d => (unitValue a b c d).map .unit

end Symbol

/-- A string put together from symbols. -/
def Spells (ss : List Symbol) (s : Bytes) : Prop :=
  ∃ ps, List.Forall₂ (fun y p => y.piece = some p) ss ps ∧ join ps = s ∧ valid s = true

/-- The text of a string between its quotes. -/
def Literal (s t : Bytes) : Prop := ∃ ss, Spells ss s ∧ t = ss.flatMap Symbol.text

section Literals

/-- A symbol is one piece of a literal. -/
lemma scan_symbol {y : Symbol} {p : Piece} (h : y.piece = some p) (s : Bytes) :
    scan (y.text ++ s) = (scan s).map fun r => (p :: r.1,r.2) := by
  cases y with
  | plain b =>
    rw [Symbol.piece] at h
    split at h
    · exact absurd h (by simp)
    · next hb =>
      rw [not_or,not_or] at hb
      obtain rfl := Option.some.inj h
      rw [Symbol.text,List.singleton_append,scan.eq_def]
      simp only [hb.1,hb.2.1,hb.2.2,if_false]
  | short e =>
    obtain ⟨v,hv,rfl⟩ := Option.map_eq_some_iff.mp h
    have h117 : e ≠ 117 := by
      rintro rfl
      have hnone : shortValue 117 = none := rfl
      exact absurd (hnone.symm.trans hv) (by simp)
    have hne : (92 : UInt8) ≠ 34 := by decide
    rw [Symbol.text,List.cons_append,List.singleton_append,scan.eq_def]
    simp only [hne,h117,hv,if_false,if_true]
  | unit a b c d =>
    obtain ⟨u,hu,rfl⟩ := Option.map_eq_some_iff.mp h
    have hne : (92 : UInt8) ≠ 34 := by decide
    rw [Symbol.text]
    simp only [List.cons_append,List.nil_append]
    rw [scan.eq_def]
    simp only [hne,if_false,if_true,hu]

/-- A literal is read as the string it spells. -/
theorem readQuoted_literal {s t : Bytes} (h : Literal s t) (rest : Bytes) :
    readQuoted (t ++ 34 :: rest) = some (s,rest) := by
  obtain ⟨ss,⟨ps,hps,hjoin,hvalid⟩,rfl⟩ := h
  have hscan : scan (ss.flatMap Symbol.text ++ 34 :: rest) = some (ps,rest) := by
    clear hjoin
    induction hps with
    | nil =>
      rw [List.flatMap_nil,List.nil_append,scan.eq_def]
      simp only [if_true]
    | cons hy hps ih =>
      rw [List.flatMap_cons,List.append_assoc,scan_symbol hy,ih]
      rfl
  rw [readQuoted,hscan]
  simp only [hjoin,hvalid,if_true]

end Literals

lemma hexValue_hexDigit {n : ℕ} (h : n < 16) : hexValue (hexDigit n) = some n := by
  have : ∀ n : Fin 16, hexValue (hexDigit n) = some n.val := by decide
  exact this ⟨n,h⟩

/-- An escaped code unit is one symbol. -/
lemma unitEscape_symbol {n : ℕ} (h : n < 65536) : ∃ y : Symbol, y.text = unitEscape n ∧ y.piece = some (.unit n) := by
  have hsum : 4096*(n/4096%16)+256*(n/256%16)+16*(n/16%16)+n%16 = n := by omega
  refine ⟨.unit (hexDigit (n/4096%16)) (hexDigit (n/256%16)) (hexDigit (n/16%16)) (hexDigit (n%16)),rfl,?_⟩
  simp only [Symbol.piece,unitValue,hexValue_hexDigit (Nat.mod_lt _ (by omega : 0 < 16)),hsum]
  rfl

/-- Bytes that need no escape are one symbol each. -/
lemma plain_symbols {t : Bytes} (h : ∀ b ∈ t, b ≠ 34 ∧ b ≠ 92 ∧ ¬ b < 32) :
    (t.map Symbol.plain).flatMap Symbol.text = t ∧
      List.Forall₂ (fun y p => y.piece = some p) (t.map Symbol.plain) (t.map Piece.byte) := by
  induction t with
  | nil => exact ⟨rfl,.nil⟩
  | cons b t ih =>
    obtain ⟨htext,hpieces⟩ := ih fun c hc => h c (List.mem_cons_of_mem b hc)
    obtain ⟨h₁,h₂,h₃⟩ := h b List.mem_cons_self
    refine ⟨congrArg (List.cons b) htext,.cons ?_ hpieces⟩
    rw [Symbol.piece,if_neg (not_or.mpr ⟨h₁,not_or.mpr ⟨h₂,h₃⟩⟩)]

lemma join_bytes (t : Bytes) (ps : List Piece) : join (t.map .byte ++ ps) = t ++ join ps := by
  induction t with
  | nil => rfl
  | cons b t ih => simp [join,ih]

/-- A code unit that is no part of a pair is a rune of its own. -/
lemma join_apart {u : ℕ} {ps : List Piece} (h : ∀ v qs, ps = .unit v :: qs → (isHigh u && isLow v) = false) :
    join (.unit u :: ps) = String.utf8EncodeChar (unitRune u) ++ join ps := by
  cases ps with
  | nil => rfl
  | cons q ps =>
    cases q with
    | byte b => rfl
    | unit v => rw [join,h v ps rfl,if_neg Bool.false_ne_true]

lemma join_unit {u : ℕ} (h : isHigh u = false) (ps : List Piece) :
    join (.unit u :: ps) = String.utf8EncodeChar (unitRune u) ++ join ps :=
  join_apart fun v qs _ => by rw [h,Bool.false_and]

lemma unitRune_toNat (c : Char) : isHigh c.toNat = false ∧ unitRune c.toNat = c := by
  have hv : c.toNat < 0xD800 ∨ 0xDFFF < c.toNat ∧ c.toNat < 0x110000 := c.valid
  have h₁ : isHigh c.toNat = false := by
    simp only [isHigh,Bool.and_eq_false_iff,decide_eq_false_iff_not]
    omega
  have h₂ : isLow c.toNat = false := by
    simp only [isLow,Bool.and_eq_false_iff,decide_eq_false_iff_not]
    omega
  refine ⟨h₁,?_⟩
  rw [unitRune,h₁,h₂,Bool.or_self,if_neg Bool.false_ne_true,Char.ofNat_toNat]

/-- A control character as a byte, also where it is a code unit. -/
def asByte : Piece → Piece
  | .byte b => .byte b
  | .unit u => if u < 32 then .byte (UInt8.ofNat u) else .unit u

lemma unitRune_control {u : ℕ} (h : u < 32) : String.utf8EncodeChar (unitRune u) = [UInt8.ofNat u] := by
  have hall : ∀ u : Fin 32, String.utf8EncodeChar (unitRune u) = [UInt8.ofNat u] := by decide
  exact hall ⟨u,h⟩

/-- It makes no difference whether a control character is a byte or a code unit: it is no part of a pair. -/
lemma join_asByte (ps : List Piece) : join (ps.map asByte) = join ps := by
  have hunit : ∀ {u : ℕ} {ps : List Piece}, join (ps.map asByte) = join ps →
      (∀ v qs, ps = .unit v :: qs → (isHigh u && isLow v) = false) →
      join ((Piece.unit u :: ps).map asByte) = String.utf8EncodeChar (unitRune u) ++ join ps := by
    intro u ps ih hapart
    rw [List.map_cons,asByte]
    split
    · next hu => rw [join,ih,unitRune_control hu,List.singleton_append]
    · next hu =>
      rw [join_apart,ih]
      intro v qs hqs
      cases ps with
      | nil => exact absurd hqs (by simp)
      | cons q ps =>
        obtain ⟨hq,-⟩ := List.cons_eq_cons.mp hqs
        cases q with
        | byte b => exact absurd hq (by simp [asByte])
        | unit w =>
          rw [asByte] at hq
          split at hq
          · exact absurd hq (by simp)
          · obtain rfl := Piece.unit.inj hq
            exact hapart w ps rfl
  fun_induction join ps with
  | case1 => rfl
  | case2 b ps ih => rw [List.map_cons,asByte,join,ih]
  | case3 u v ps hpair ih =>
    rw [Bool.and_eq_true] at hpair
    have hu : ¬ u < 32 := by
      have := hpair.1
      simp only [isHigh,Bool.and_eq_true,decide_eq_true_iff] at this
      omega
    have hv : ¬ v < 32 := by
      have := hpair.2
      simp only [isLow,Bool.and_eq_true,decide_eq_true_iff] at this
      omega
    rw [List.map_cons,List.map_cons,asByte,asByte,if_neg hu,if_neg hv,join,hpair.1,hpair.2,Bool.and_true,if_pos rfl,ih]
  | case4 u v ps hpair ih =>
    refine hunit ih fun w qs hqs => ?_
    obtain ⟨hw,-⟩ := List.cons_eq_cons.mp hqs
    rw [← Piece.unit.inj hw]
    exact Bool.eq_false_iff.mpr hpair
  | case5 u ps hnone ih => exact hunit ih fun w qs hqs => absurd hqs (hnone w qs)

/-- A rune written with a short escape is a single byte, and the escape stands for it. -/
lemma shortEscape_spec {c : Char} {e : UInt8} (h : shortEscape c = some e) :
    ∃ b, String.utf8EncodeChar c = [b] ∧ e ≠ 117 ∧ shortValue e = some b := by
  have hlow : ∀ n : ℕ, c.toNat = n → c = Char.ofNat n := by
    rintro n rfl
    exact (Char.ofNat_toNat c).symm
  unfold shortEscape at h
  split at h
  · next hc => obtain rfl := Option.some.inj h; exact ⟨34,by rw [hc]; decide,by decide,rfl⟩
  split at h
  · next hc => obtain rfl := Option.some.inj h; exact ⟨92,by rw [hc]; decide,by decide,rfl⟩
  split at h
  · next hc => obtain rfl := Option.some.inj h; exact ⟨8,by rw [hlow _ hc]; decide,by decide,rfl⟩
  split at h
  · next hc => obtain rfl := Option.some.inj h; exact ⟨12,by rw [hlow _ hc]; decide,by decide,rfl⟩
  split at h
  · next hc => obtain rfl := Option.some.inj h; exact ⟨10,by rw [hlow _ hc]; decide,by decide,rfl⟩
  split at h
  · next hc => obtain rfl := Option.some.inj h; exact ⟨13,by rw [hlow _ hc]; decide,by decide,rfl⟩
  split at h
  · next hc => obtain rfl := Option.some.inj h; exact ⟨9,by rw [hlow _ hc]; decide,by decide,rfl⟩
  · simp at h

lemma ascii_byte {c : Char} (h : c.toNat < 128) {b : UInt8} (hb : b ∈ String.utf8EncodeChar c) :
    b.toNat = c.toNat := by
  rw [encodeChar_of_ascii h,List.mem_singleton] at hb
  rw [hb,UInt8.toNat_ofNat']
  omega

/-- A rune written as it is has no byte that ends a literal or needs an escape. -/
lemma plain_bytes {c : Char} (hs : shortEscape c = none) (hm : mustEscape c = false) {b : UInt8}
    (hb : b ∈ String.utf8EncodeChar c) : b ≠ 34 ∧ b ≠ 92 ∧ ¬ b < 32 := by
  by_cases hc : 128 ≤ c.toNat
  · have h := UInt8.le_iff_toNat_le.mp (high_of_mem_encodeChar hc hb)
    refine ⟨?_,?_,?_⟩
    · rintro rfl
      exact absurd h (by decide)
    · rintro rfl
      exact absurd h (by decide)
    · rw [UInt8.lt_iff_toNat_lt]
      change ¬ b.toNat < 32
      change 128 ≤ b.toNat at h
      omega
  · have hbc := ascii_byte (by omega) hb
    have hchar : ∀ n, b.toNat = n → c = Char.ofNat n := by
      rintro n rfl
      rw [hbc,Char.ofNat_toNat]
    refine ⟨?_,?_,?_⟩
    · rintro rfl
      rw [hchar 34 rfl] at hs
      exact absurd hs (by decide)
    · rintro rfl
      rw [hchar 92 rfl] at hs
      exact absurd hs (by decide)
    · rw [UInt8.lt_iff_toNat_lt]
      change ¬ b.toNat < 32
      rw [mustEscape,Bool.or_eq_false_iff,decide_eq_false_iff_not] at hm
      omega

/-- What is written for a rune are symbols that stand for it. -/
lemma escape_symbols {p : Char × Bytes} (hp : p.1 = runeError ∨ p.2 = String.utf8EncodeChar p.1) :
    ∃ ss ps, escape p = ss.flatMap Symbol.text ∧ List.Forall₂ (fun y p => Symbol.piece y = some p) ss ps ∧
      ∀ qs, join (ps ++ qs) = String.utf8EncodeChar p.1 ++ join qs := by
  unfold escape
  split
  · next e he =>
    obtain ⟨b,hb,-,hv⟩ := shortEscape_spec he
    refine ⟨[.short e],[.byte b],rfl,.cons ?_ .nil,fun qs => ?_⟩
    · rw [Symbol.piece,hv]
      rfl
    · rw [hb]
      rfl
  · next hs =>
    split
    · next hm =>
      have hn : p.1.toNat < 65536 := by
        simp only [mustEscape,Bool.or_eq_true,decide_eq_true_eq,List.mem_cons,List.not_mem_nil,
          or_false] at hm
        omega
      obtain ⟨h₁,h₂⟩ := unitRune_toNat p.1
      obtain ⟨y,htext,hpiece⟩ := unitEscape_symbol hn
      refine ⟨[y],[.unit p.1.toNat],?_,.cons hpiece .nil,fun qs => ?_⟩
      · rw [List.flatMap_singleton,htext]
      · rw [List.singleton_append,join_unit h₁,h₂]
    · next hm =>
      split
      · next he =>
        obtain ⟨htext,hpieces⟩ := plain_symbols (t := p.2) fun b hb => plain_bytes hs (by simpa using hm) (he ▸ hb)
        refine ⟨p.2.map .plain,p.2.map .byte,htext.symm,hpieces,fun qs => ?_⟩
        rw [join_bytes,he]
      · next he =>
        obtain ⟨y,htext,hpiece⟩ := unitEscape_symbol (n := 0xFFFD) (by omega)
        refine ⟨[y],[.unit 0xFFFD],?_,.cons hpiece .nil,fun qs => ?_⟩
        · rw [List.flatMap_singleton,htext]
        · rw [List.singleton_append,join_unit (by decide),hp.resolve_right he]
          rfl

/-- A quoted string is a literal of the string repaired. -/
theorem literal_quote (s : Bytes) : Literal (repair s) ((chunks s).flatMap escape) := by
  have hspell : ∀ l : List (Char × Bytes), (∀ p ∈ l, p.1 = runeError ∨ p.2 = String.utf8EncodeChar p.1) →
      ∃ ss ps, l.flatMap escape = ss.flatMap Symbol.text ∧
        List.Forall₂ (fun y p => Symbol.piece y = some p) ss ps ∧ join ps = encode (l.map Prod.fst) := by
    intro l hl
    induction l with
    | nil => exact ⟨[],[],rfl,.nil,rfl⟩
    | cons p l ih =>
      obtain ⟨ss,ps,htext,hpieces,hjoin⟩ := ih fun q hq => hl q (List.mem_cons_of_mem p hq)
      obtain ⟨ss',ps',htext',hpieces',hjoin'⟩ := escape_symbols (hl p List.mem_cons_self)
      refine ⟨ss' ++ ss,ps' ++ ps,?_,List.rel_append hpieces' hpieces,?_⟩
      · rw [List.flatMap_cons,List.flatMap_append,htext,htext']
      · rw [hjoin',hjoin]
        rfl
  obtain ⟨ss,ps,htext,hpieces,hjoin⟩ := hspell (chunks s) fun p hp => mem_chunksFrom hp
  exact ⟨ss,⟨ps,hpieces,hjoin,valid_encode (runes s)⟩,htext⟩

/-- Valid text needs no repair. -/
lemma repair_of_valid {s : Bytes} (h : valid s = true) : repair s = s := encode_runes h

example : quote (lit "a<b>\n\"é") = lit "\"a\\u003cb\\u003e\\n\\\"é\"" := by decide +kernel
example : readQuoted (lit "\\ud83d\\ude00\\/\" ,") = some (lit "😀/",lit " ,") := by decide +kernel

end Json
