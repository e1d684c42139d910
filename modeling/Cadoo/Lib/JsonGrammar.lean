import Cadoo.Lib.Json

/-! The grammar of JSON texts. How a string may be spelled between its quotes is left open, and every text of the
grammar with the strict spelling is read as the value it encodes. -/
namespace Json
open Bytes Utf8

def Digits (ds : Bytes) : Prop := ds ≠ [] ∧ ∀ b ∈ ds, isDecimal b = true

/-- One zero, or digits with another one in front. -/
inductive Whole : Bytes → Prop
  | zero : Whole [48]
  | digits {ds : Bytes} (h : Digits ds) (hfront : ds.head? ≠ some 48) : Whole ds

/-- The digits after a point, if there is one. -/
inductive Fraction : Bytes → Bytes → Prop
  | none : Fraction [] []
  | digits {ds : Bytes} (h : Digits ds) : Fraction (46 :: ds) ds

inductive Exponent : Bytes → ℤ → Prop
  | none : Exponent [] 0
  | plain {l : UInt8} {ds : Bytes} (hl : l = 101 ∨ l = 69) (h : Digits ds) : Exponent (l :: ds) (digitsValue ds)
  | plus {l : UInt8} {ds : Bytes} (hl : l = 101 ∨ l = 69) (h : Digits ds) : Exponent (l :: 43 :: ds) (digitsValue ds)
  | minus {l : UInt8} {ds : Bytes} (hl : l = 101 ∨ l = 69) (h : Digits ds) :
      Exponent (l :: 45 :: ds) (-(digitsValue ds : ℤ))

/-- A number of the grammar with its mantissa and its exponent. -/
inductive Numeral : Bytes → ℤ → ℤ → Prop
  | positive {w f ds x : Bytes} {e : ℤ} (hw : Whole w) (hf : Fraction f ds) (hx : Exponent x e) :
      Numeral (w ++ (f ++ x)) (digitsValue (w ++ ds)) (e-ds.length)
  | negative {w f ds x : Bytes} {e : ℤ} (hw : Whole w) (hf : Fraction f ds) (hx : Exponent x e) :
      Numeral (45 :: (w ++ (f ++ x))) (-(digitsValue (w ++ ds) : ℤ)) (e-ds.length)

/-- A value in a list, with the blanks around it. -/
structure Item where
  value : Json
  text : Bytes
  before : Bytes
  after : Bytes
  before_blank : ∀ b ∈ before, isBlank b = true
  after_blank : ∀ b ∈ after, isBlank b = true

/-- A member of an object: what is before the key, at the colon and after the value is blank. -/
structure Member extends Item where
  key : Bytes
  keyText : Bytes
  beforeColon : Bytes
  afterColon : Bytes
  beforeColon_blank : ∀ b ∈ beforeColon, isBlank b = true
  afterColon_blank : ∀ b ∈ afterColon, isBlank b = true

def Item.padded (i : Item) : Bytes := i.before ++ i.text ++ i.after

/-- Key and value of a member, without what is after them. -/
def Member.body (m : Member) : Bytes :=
  m.before ++ 34 :: (m.keyText ++ 34 :: (m.beforeColon ++ 58 :: (m.afterColon ++ m.text)))

def Member.padded (m : Member) : Bytes := m.body ++ m.after
def Member.member (m : Member) : Bytes × Json := (m.key,m.value)

/-- The texts of a value, when its strings are spelled by `L`. -/
inductive Encodes (L : Bytes → Bytes → Prop) : Json → Bytes → Prop
  | null : Encodes L null (lit "null")
  | bool (b : Bool) : Encodes L (bool b) (if b then lit "true" else lit "false")
  | num {t : Bytes} {m e : ℤ} (h : Numeral t m e) : Encodes L (num m e) t
  | str {s t : Bytes} (h : L s t) : Encodes L (str s) (34 :: (t ++ [34]))
  | emptyArr {ws : Bytes} (h : ∀ b ∈ ws, isBlank b = true) : Encodes L (arr []) (91 :: (ws ++ [93]))
  | arr {items : List Item} (hne : items ≠ []) (h : ∀ i ∈ items, Encodes L i.value i.text) :
      Encodes L (arr (items.map Item.value)) (91 :: (commaSep (items.map Item.padded) ++ [93]))
  | emptyObj {ws : Bytes} (h : ∀ b ∈ ws, isBlank b = true) : Encodes L (obj []) (123 :: (ws ++ [125]))
  | obj {members : List Member} (hne : members ≠ []) (hkey : ∀ m ∈ members, L m.key m.keyText)
      (h : ∀ m ∈ members, Encodes L m.value m.text) :
      Encodes L (obj (members.map Member.member)) (123 :: (commaSep (members.map Member.padded) ++ [125]))

section Numbers
variable {ds rest : Bytes}

lemma Digits.head {ds : Bytes} (h : Digits ds) : ∃ b t, ds = b :: t ∧ isDecimal b = true := by
  obtain ⟨b,t,rfl⟩ := List.exists_cons_of_ne_nil h.1
  exact ⟨b,t,rfl,h.2 b List.mem_cons_self⟩

lemma Digits.head?_ne (h : Digits ds) {c : UInt8} (hc : isDecimal c = false) (t : Bytes) :
    (ds ++ t).head? ≠ some c := by
  obtain ⟨b,u,rfl,hb⟩ := h.head
  rw [List.cons_append,List.head?_cons]
  rintro ⟨⟩
  rw [hb] at hc
  exact absurd hc (by decide)

lemma readInt_digits (h : Digits ds) (hrest : NoDigit rest) :
    readInt (ds ++ rest) = some ((digitsValue ds : ℤ),rest) := by
  have hspan := spanDigits_append h.2 hrest
  have h45 := h.head?_ne (c := 45) (by decide) rest
  obtain ⟨b,t,rfl,-⟩ := h.head
  rw [List.cons_append] at hspan h45 ⊢
  rw [readInt]
  · rw [hspan]
  · rintro s heq
    rw [heq] at h45
    exact h45 rfl

lemma readExponent_numeral {x : Bytes} {e : ℤ} (h : Exponent x e) (hrest : Ends rest) :
    readExponent (x ++ rest) = some (e,rest) := by
  obtain ⟨hd,-,h101,h69⟩ := hrest
  have hletter : ∀ {l : UInt8} {s : Bytes}, l = 101 ∨ l = 69 →
      ((l :: s).head? = some 101 ∨ (l :: s).head? = some 69) := by
    intro l s hl
    exact hl.imp (congrArg some) (congrArg some)
  cases h with
  | none => rw [List.nil_append,readExponent,if_neg (not_or.mpr ⟨h101,h69⟩)]
  | plain hl h =>
    rw [List.cons_append,readExponent,if_pos (hletter hl)]
    simp only [List.drop_succ_cons,List.drop_zero]
    rw [if_neg (h.head?_ne (by decide) rest),readInt_digits h hd]
  | plus hl h =>
    rw [List.cons_append,List.cons_append,readExponent,if_pos (hletter hl)]
    simp only [List.drop_succ_cons,List.drop_zero,List.head?_cons,if_true,spanDigits_append h.2 hd,h.1,if_false]
  | minus hl h =>
    obtain ⟨b,t,rfl,-⟩ := h.head
    rw [List.cons_append,List.cons_append,readExponent,if_pos (hletter hl)]
    simp only [List.drop_succ_cons,List.drop_zero,List.head?_cons]
    rw [if_neg (by decide),readInt,spanDigits_append h.2 hd]

lemma readFraction_numeral {f : Bytes} (h : Fraction f ds) (hrest : NoDigit rest) (hpoint : rest.head? ≠ some 46) :
    readFraction (f ++ rest) = some (ds,rest) := by
  cases h with
  | none => rw [List.nil_append,readFraction,if_neg hpoint]
  | digits h =>
    rw [List.cons_append,readFraction,List.head?_cons,if_pos rfl]
    simp only [List.drop_succ_cons,List.drop_zero,spanDigits_append h.2 hrest,h.1,if_false]

lemma whole_numeral {w : Bytes} (h : Whole w) (hrest : NoDigit rest) :
    (if (w ++ rest).head? = some 48 then ([48],(w ++ rest).drop 1) else spanDigits (w ++ rest)) = (w,rest) := by
  cases h with
  | zero => rfl
  | digits h hfront =>
    rw [if_neg,spanDigits_append h.2 hrest]
    rwa [List.head?_append_of_ne_nil _ h.1]

/-- What follows an exponent, or stands for it, is no further digit and no point. -/
lemma Exponent.front {x : Bytes} {e : ℤ} (h : Exponent x e) (hrest : Ends rest) :
    NoDigit (x ++ rest) ∧ (x ++ rest).head? ≠ some 46 := by
  have hletter : ∀ {l : UInt8} {s : Bytes}, l = 101 ∨ l = 69 →
      NoDigit (l :: s) ∧ (l :: s).head? ≠ some 46 := by
    rintro l s hl
    refine ⟨fun b hb => ?_,?_⟩
    · obtain rfl : l = b := Option.some.inj hb
      rcases hl with rfl | rfl <;> decide
    · rw [List.head?_cons]
      rcases hl with rfl | rfl <;> decide
  cases h with
  | none => exact ⟨hrest.1,hrest.2.1⟩
  | plain hl h => exact hletter hl
  | plus hl h => exact hletter hl
  | minus hl h => exact hletter hl

lemma Fraction.front {f : Bytes} (h : Fraction f ds) {t : Bytes} (ht : NoDigit t) : NoDigit (f ++ t) := by
  cases h with
  | none => exact ht
  | digits h =>
    intro b hb
    obtain rfl : 46 = b := Option.some.inj hb
    decide

lemma Whole.digits_of {w : Bytes} (h : Whole w) : Digits w := by
  cases h with
  | zero => exact ⟨List.cons_ne_nil 48 [],List.forall_mem_singleton.mpr rfl⟩
  | digits h _ => exact h

/-- A numeral is read as its mantissa and exponent. -/
theorem readNumber_numeral {t : Bytes} {m e : ℤ} (h : Numeral t m e) (hrest : Ends rest) :
    readNumber (t ++ rest) = some (num m e,rest) := by
  cases h with
  | positive hw hf hx =>
    obtain ⟨hd,hpoint⟩ := hx.front hrest
    rw [List.append_assoc,List.append_assoc,readNumber]
    simp only [if_neg (hw.digits_of.head?_ne (c := 45) (by decide) _),whole_numeral hw (hf.front hd),
      hw.digits_of.1,if_false,readFraction_numeral hf hd hpoint,readExponent_numeral hx hrest]
  | negative hw hf hx =>
    obtain ⟨hd,hpoint⟩ := hx.front hrest
    rw [List.cons_append,List.append_assoc,List.append_assoc,readNumber]
    simp only [List.head?_cons,if_true,List.drop_succ_cons,List.drop_zero,whole_numeral hw (hf.front hd),
      hw.digits_of.1,if_false,readFraction_numeral hf hd hpoint,readExponent_numeral hx hrest]

lemma Numeral.front {t : Bytes} {m e : ℤ} (h : Numeral t m e) :
    ∃ b u, t = b :: u ∧ (isDecimal b = true ∨ b = 45) := by
  cases h with
  | positive hw hf hx =>
    obtain ⟨b,u,rfl,hb⟩ := hw.digits_of.head
    exact ⟨b,_,rfl,.inl hb⟩
  | negative hw hf hx => exact ⟨45,_,rfl,.inr rfl⟩

/-- What a numeral is written with. -/
lemma Numeral.mem {t : Bytes} {m e : ℤ} (h : Numeral t m e) {b : UInt8} (hb : b ∈ t) :
    isDecimal b = true ∨ b ∈ [43,45,46,69,101] := by
  have hmantissa : ∀ {w f ds x : Bytes} {e : ℤ}, Whole w → Fraction f ds → Exponent x e → b ∈ w ++ (f ++ x) →
      isDecimal b = true ∨ b ∈ [43,45,46,69,101] := by
    intro w f ds x e hw hf hx hb
    rcases List.mem_append.mp hb with hb | hb
    · exact .inl (hw.digits_of.2 b hb)
    rcases List.mem_append.mp hb with hb | hb
    · cases hf with
      | none => exact absurd hb List.not_mem_nil
      | digits h => exact (List.mem_cons.mp hb).elim (fun hb => .inr (by simp [hb])) fun hb => .inl (h.2 b hb)
    · have hletter : ∀ {l : UInt8}, l = 101 ∨ l = 69 → b = l → b ∈ ([43,45,46,69,101] : Bytes) := by
        rintro l (rfl | rfl) rfl <;> decide
      cases hx with
      | none => exact absurd hb List.not_mem_nil
      | plain hl h => exact (List.mem_cons.mp hb).elim (fun hb => .inr (hletter hl hb)) fun hb => .inl (h.2 b hb)
      | plus hl h =>
        rcases List.mem_cons.mp hb with hb | hb
        · exact .inr (hletter hl hb)
        · exact (List.mem_cons.mp hb).elim (fun hb => .inr (by simp [hb])) fun hb => .inl (h.2 b hb)
      | minus hl h =>
        rcases List.mem_cons.mp hb with hb | hb
        · exact .inr (hletter hl hb)
        · exact (List.mem_cons.mp hb).elim (fun hb => .inr (by simp [hb])) fun hb => .inl (h.2 b hb)
  cases h with
  | positive hw hf hx => exact hmantissa hw hf hx hb
  | negative hw hf hx =>
    rcases List.mem_cons.mp hb with rfl | hb
    · exact .inr (by decide)
    · exact hmantissa hw hf hx hb

end Numbers

section Values
variable {L : Bytes → Bytes → Prop} {j : Json} {t : Bytes}

/-- A byte that begins a value is neither blank nor closes a list. -/
lemma numeral_byte {b : UInt8} (hb : isDecimal b = true ∨ b = 45) :
    isBlank b = false ∧ b ≠ 93 ∧ b ≠ 125 ∧ b ≠ 34 ∧ b ≠ 91 ∧ b ≠ 123 := by
  have hall : ∀ d : UInt8, isDecimal d = true ∨ d = 45 →
      isBlank d = false ∧ d ≠ 93 ∧ d ≠ 125 ∧ d ≠ 34 ∧ d ≠ 91 ∧ d ≠ 123 := forall_byte (by decide +kernel)
  exact hall b hb

lemma Encodes.front (h : Encodes L j t) : ∃ b u, t = b :: u ∧ isBlank b = false ∧ b ≠ 93 ∧ b ≠ 125 := by
  cases h with
  | null => exact ⟨110,lit "ull",rfl,by decide⟩
  | bool b =>
    cases b with
    | true => exact ⟨116,lit "rue",rfl,by decide⟩
    | false => exact ⟨102,lit "alse",rfl,by decide⟩
  | num h =>
    obtain ⟨b,u,rfl,hb⟩ := h.front
    obtain ⟨hblank,h93,h125,-⟩ := numeral_byte hb
    exact ⟨b,u,rfl,hblank,h93,h125⟩
  | str h => exact ⟨34,_,rfl,by decide⟩
  | emptyArr h => exact ⟨91,_,rfl,by decide⟩
  | arr hne h => exact ⟨91,_,rfl,by decide⟩
  | emptyObj h => exact ⟨123,_,rfl,by decide⟩
  | obj hne hkey h => exact ⟨123,_,rfl,by decide⟩

lemma skipBlank_append {ws : Bytes} (h : ∀ b ∈ ws, isBlank b = true) (s : Bytes) :
    skipBlank (ws ++ s) = skipBlank s := List.dropWhile_append_of_pos h

lemma readValue_blank {ws : Bytes} (h : ∀ b ∈ ws, isBlank b = true) (n : ℕ) (s : Bytes) :
    readValue n (ws ++ s) = readValue n s := by
  cases n with
  | zero => rfl
  | succ n => rw [readValue,readValue,skipBlank_append h]

lemma ends_nil : Ends [] := ⟨by simp [NoDigit],by simp,by simp,by simp⟩

/-- Blanks end a number. -/
lemma ends_blank {ws : Bytes} (h : ∀ b ∈ ws, isBlank b = true) {s : Bytes} (hs : Ends s) : Ends (ws ++ s) := by
  cases ws with
  | nil => exact hs
  | cons b ws =>
    have hb := h b List.mem_cons_self
    have hall : ∀ d : UInt8, isBlank d = true → isDecimal d = false ∧ d ≠ 46 ∧ d ≠ 101 ∧ d ≠ 69 :=
      forall_byte (by decide +kernel)
    obtain ⟨hd,h46,h101,h69⟩ := hall b hb
    refine ⟨fun d hd' => ?_,?_,?_,?_⟩
    · obtain rfl : b = d := Option.some.inj hd'
      exact hd
    · exact fun heq => h46 (Option.some.inj heq)
    · exact fun heq => h101 (Option.some.inj heq)
    · exact fun heq => h69 (Option.some.inj heq)

end Values

section Lists
variable {α β : Type} {close : UInt8} (item : Bytes → Option (α × Bytes)) (text after : β → Bytes) (value : β → α)

/-- A list with blanks after its items is read item by item. -/
lemma readSep_items (hclose : close = 93 ∨ close = 125) {xs : List β} (hne : xs ≠ [])
    (hafter : ∀ x ∈ xs, ∀ b ∈ after x, isBlank b = true)
    (hitem : ∀ x ∈ xs, ∀ r, Ends r → item (text x ++ r) = some (value x,r)) {n : ℕ} (hn : xs.length ≤ n)
    (rest : Bytes) :
    readSep close item n (commaSep (xs.map fun x => text x ++ after x) ++ close :: rest) =
      some (xs.map value,rest) := by
  induction xs generalizing n with
  | nil => exact absurd rfl hne
  | cons x xs ih =>
    obtain ⟨n,rfl⟩ : ∃ m, n = m+1 := ⟨n-1,by simp at hn; omega⟩
    have hx := hitem x List.mem_cons_self
    have hblanks := hafter x List.mem_cons_self
    cases xs with
    | nil =>
      have hblank : isBlank close = false := by rcases hclose with rfl | rfl <;> decide
      have h44 : close ≠ 44 := by rcases hclose with rfl | rfl <;> decide
      rw [List.map_singleton,commaSep_singleton,List.append_assoc,readSep,
        hx _ (ends_blank hblanks (ends_cons (.inr hclose) rest))]
      simp only [skipBlank_append hblanks,skipBlank_cons hblank,h44,if_false,if_true,List.map_singleton]
    | cons y ys =>
      have hrest := ih (by simp) (fun z hz => hafter z (List.mem_cons_of_mem x hz))
        (fun z hz => hitem z (List.mem_cons_of_mem x hz)) (n := n) (by simpa using hn)
      have hblank : isBlank 44 = false := by decide
      rw [List.map_cons,List.map_cons,commaSep_cons,List.append_assoc,List.append_assoc,List.cons_append,readSep,
        hx _ (ends_blank hblanks (ends_cons (.inl rfl) _))]
      simp only [skipBlank_append hblanks,skipBlank_cons hblank,if_true]
      rw [List.map_cons] at hrest
      rw [hrest]
      rfl

lemma readList_items (hclose : close = 93 ∨ close = 125) {xs : List β} (hne : xs ≠ [])
    (hfront : ∀ x ∈ xs, ∀ r, (skipBlank (text x ++ r)).head? ≠ some close)
    (hafter : ∀ x ∈ xs, ∀ b ∈ after x, isBlank b = true)
    (hitem : ∀ x ∈ xs, ∀ r, Ends r → item (text x ++ r) = some (value x,r)) {n : ℕ} (hn : xs.length ≤ n)
    (rest : Bytes) :
    readList close item n (commaSep (xs.map fun x => text x ++ after x) ++ close :: rest) =
      some (xs.map value,rest) := by
  rw [readList,if_neg,readSep_items item text after value hclose hne hafter hitem hn]
  obtain ⟨x,xs,rfl⟩ := List.exists_cons_of_ne_nil hne
  rw [List.map_cons,commaSep_eq_flatMap,List.append_assoc,List.append_assoc]
  exact hfront x List.mem_cons_self _

lemma readList_blank (hclose : close = 93 ∨ close = 125) {ws : Bytes} (h : ∀ b ∈ ws, isBlank b = true) (n : ℕ)
    (rest : Bytes) : readList close item n (ws ++ close :: rest) = some ([],rest) := by
  have hblank : isBlank close = false := by rcases hclose with rfl | rfl <;> decide
  rw [readList,skipBlank_append h,skipBlank_cons hblank,List.head?_cons,if_pos rfl]
  rfl

end Lists

lemma Item.padded_ne_nil {i : Item} (h : i.text ≠ []) : i.padded ≠ [] := by
  rw [Item.padded]
  simp [h]

lemma Member.padded_ne_nil (m : Member) : m.padded ≠ [] := by
  rw [Member.padded,Member.body]
  simp

lemma readMember_body {value : Bytes → Option (Json × Bytes)} {m : Member} (hkey : Literal m.key m.keyText) {r : Bytes}
    (h : value (m.afterColon ++ m.text ++ r) = some (m.value,r)) :
    readMember value (m.body ++ r) = some (m.member,r) := by
  have h34 : isBlank 34 = false := by decide
  have h58 : isBlank 58 = false := by decide
  have hs : m.body ++ r = m.before ++ 34 :: (m.keyText ++ 34 :: (m.beforeColon ++ 58 ::
      (m.afterColon ++ m.text ++ r))) := by
    simp [Member.body]
  rw [readMember,hs,skipBlank_append m.before_blank,skipBlank_cons h34]
  simp only [readQuoted_literal hkey,skipBlank_append m.beforeColon_blank,skipBlank_cons h58,h]
  rfl

/-- Every text of the grammar is read as the value it encodes. -/
theorem readValue_encodes {j : Json} {t : Bytes} (h : Encodes Literal j t) {n : ℕ} {rest : Bytes} (hn : t.length ≤ n)
    (hrest : Ends rest) : readValue n (t ++ rest) = some (j,rest) := by
  have hpos : ∀ {j : Json} {t : Bytes}, Encodes Literal j t → t ≠ [] := by
    intro j t h
    obtain ⟨b,u,rfl,-⟩ := h.front
    exact List.cons_ne_nil b u
  obtain ⟨n,rfl⟩ := Nat.exists_eq_add_of_lt ((List.length_pos_iff.mpr (hpos h)).trans_le hn)
  rw [Nat.zero_add] at hn ⊢
  induction h generalizing n rest with
  | null => rfl
  | bool b => cases b <;> rfl
  | num h =>
    obtain ⟨b,u,rfl,hb⟩ := h.front
    obtain ⟨hblank,-,-,h34,h91,h123⟩ := numeral_byte hb
    have hnum := readNumber_numeral h hrest
    rw [List.cons_append] at hnum ⊢
    rw [readValue]
    simp only [skipBlank_cons hblank,h34,h91,h123,if_false,readWord_none hb,hnum]
    rfl
  | str h =>
    have h34 : isBlank 34 = false := by decide
    rw [List.cons_append,List.append_assoc,List.singleton_append,readValue]
    simp only [skipBlank_cons h34,if_true,readQuoted_literal h]
    rfl
  | emptyArr h =>
    have hblank : isBlank 91 = false := by decide
    have hne : (91 : UInt8) ≠ 34 := by decide
    rw [List.cons_append,List.append_assoc,List.singleton_append,readValue]
    simp only [skipBlank_cons hblank,hne,if_false,if_true,readList_blank _ (.inl rfl) h]
    rfl
  | emptyObj h =>
    have hblank : isBlank 123 = false := by decide
    have hne : (123 : UInt8) ≠ 34 ∧ (123 : UInt8) ≠ 91 := by decide
    rw [List.cons_append,List.append_assoc,List.singleton_append,readValue]
    simp only [skipBlank_cons hblank,hne.1,hne.2,if_false,if_true,readList_blank _ (.inr rfl) h]
    rfl
  | @arr items hne h ih =>
    obtain ⟨hlen,hfit⟩ := items_fit (fun p hp => by
      obtain ⟨i,hi,rfl⟩ := List.mem_map.mp hp
      exact i.padded_ne_nil (hpos (h i hi))) hn
    have hitem : ∀ i ∈ items, ∀ r, Ends r → readValue n (i.before ++ i.text ++ r) = some (i.value,r) := by
      intro i hi r hr
      have hle := hfit _ (List.mem_map_of_mem hi)
      have hone := List.length_pos_iff.mpr (hpos (h i hi))
      rw [Item.padded,List.length_append,List.length_append] at hle
      obtain ⟨n,rfl⟩ : ∃ k, n = k+1 := ⟨n-1,by omega⟩
      rw [List.append_assoc,readValue_blank i.before_blank]
      exact ih i hi hr n (by omega)
    have hlist := readList_items (readValue n) (fun i : Item => i.before ++ i.text) Item.after Item.value (.inl rfl) hne
      (fun i hi r => by
        obtain ⟨b,u,hb,hblank,h93,-⟩ := (h i hi).front
        rw [List.append_assoc,skipBlank_append i.before_blank,hb,List.cons_append,skipBlank_cons hblank,List.head?_cons]
        exact fun heq => h93 (Option.some.inj heq))
      (fun i _ => i.after_blank) hitem (by simpa using hlen) rest
    have hblank : isBlank 91 = false := by decide
    have hne' : (91 : UInt8) ≠ 34 := by decide
    rw [List.cons_append,List.append_assoc,List.singleton_append,readValue]
    simp only [skipBlank_cons hblank,hne',if_false,if_true]
    change Option.map (fun r => (Json.arr r.1,r.2)) (readList 93 (readValue n) n
      (commaSep (items.map fun i => i.before ++ i.text ++ i.after) ++ 93 :: rest)) = _
    rw [hlist]
    rfl
  | @obj members hne hkey h ih =>
    obtain ⟨hlen,hfit⟩ := items_fit (fun p hp => by
      obtain ⟨m,hm,rfl⟩ := List.mem_map.mp hp
      exact m.padded_ne_nil) hn
    have hitem : ∀ m ∈ members, ∀ r, Ends r → readMember (readValue n) (m.body ++ r) = some (m.member,r) := by
      intro m hm r hr
      have hle := hfit _ (List.mem_map_of_mem hm)
      simp only [Member.padded,Member.body,List.length_append,List.length_cons] at hle
      obtain ⟨n,rfl⟩ : ∃ k, n = k+1 := ⟨n-1,by omega⟩
      refine readMember_body (hkey m hm) ?_
      rw [List.append_assoc,readValue_blank m.afterColon_blank]
      exact ih m hm hr n (by omega)
    have hlist := readList_items (readMember (readValue n)) Member.body (fun m => m.after) Member.member (.inr rfl) hne
      (fun m _ r => by
        rw [Member.body,List.append_assoc,skipBlank_append m.before_blank,List.cons_append,
          skipBlank_cons (by decide),List.head?_cons]
        decide)
      (fun m _ => m.after_blank) hitem (by simpa using hlen) rest
    have hblank : isBlank 123 = false := by decide
    have hne' : (123 : UInt8) ≠ 34 ∧ (123 : UInt8) ≠ 91 := by decide
    rw [List.cons_append,List.append_assoc,List.singleton_append,readValue]
    simp only [skipBlank_cons hblank,hne'.1,hne'.2,if_false,if_true]
    change Option.map (fun r => (Json.obj r.1,r.2)) (readList 125 (readMember (readValue n)) n
      (commaSep (members.map fun m => m.body ++ m.after) ++ 125 :: rest)) = _
    rw [hlist]
    rfl

/-- Parsing is right on every text of the grammar, with blanks around it. -/
theorem parse_encodes {j : Json} {t : Bytes} (h : Encodes Literal j t) {ws ws' : Bytes}
    (hws : ∀ b ∈ ws, isBlank b = true) (hws' : ∀ b ∈ ws', isBlank b = true) : parse (ws ++ t ++ ws') = some j := by
  have hlen : t.length ≤ (ws ++ t ++ ws').length := by
    rw [List.length_append,List.length_append]
    omega
  have hends : Ends ws' := by
    rw [← List.append_nil ws']
    exact ends_blank hws' ends_nil
  have hread : readValue (ws ++ t ++ ws').length (ws ++ t ++ ws') = some (j,ws') := by
    rw [List.append_assoc,readValue_blank hws,← List.append_assoc ws]
    exact readValue_encodes h hlen hends
  have hblank : skipBlank ws' = [] := by
    rw [← List.append_nil ws',skipBlank_append hws']
    rfl
  rw [parse,hread]
  dsimp only
  rw [if_pos hblank]

section Print

lemma digits_natDecimal (n : ℕ) : Digits (natDecimal n) :=
  ⟨natDecimal_ne_nil n,fun _ => isDecimal_of_mem_natDecimal⟩

lemma whole_natDecimal (n : ℕ) : Whole (natDecimal n) := by
  by_cases h : (natDecimal n).head? = some 48
  · rw [natDecimal_head h]
    exact .zero
  · exact .digits (digits_natDecimal n) h

/-- A printed number is a numeral of the grammar. -/
lemma numeral_print (m e : ℤ) : Numeral (printNumber m e) m e := by
  have hx : Exponent (if e = 0 then [] else 101 :: intDecimal e) e := by
    split
    · next he =>
      rw [he]
      exact .none
    · cases e with
      | ofNat k =>
        have h := Exponent.plain (.inl rfl) (digits_natDecimal k)
        rwa [digitsValue_natDecimal] at h
      | negSucc k =>
        have h := Exponent.minus (.inl rfl) (digits_natDecimal (k+1))
        rwa [digitsValue_natDecimal] at h
  cases m with
  | ofNat n =>
    have h := Numeral.positive (whole_natDecimal n) .none hx
    rw [List.append_nil,digitsValue_natDecimal,List.length_nil,Int.natCast_zero,Int.sub_zero] at h
    exact h
  | negSucc n =>
    have h := Numeral.negative (whole_natDecimal (n+1)) .none hx
    rw [List.append_nil,digitsValue_natDecimal,List.length_nil,Int.natCast_zero,Int.sub_zero] at h
    exact h

lemma blank_nil : ∀ b ∈ ([] : Bytes), isBlank b = true := by simp

def printedItem (j : Json) : Item := ⟨repaired j,print j,[],[],blank_nil,blank_nil⟩

def printedMember (m : Bytes × Json) : Member :=
  ⟨printedItem m.2,repair m.1,(chunks m.1).flatMap escape,[],[],blank_nil,blank_nil⟩

lemma padded_printedItem (j : Json) : (printedItem j).padded = print j := List.append_nil (print j)

lemma padded_printedMember (m : Bytes × Json) : (printedMember m).padded = printMember m := by
  simp [Member.padded,Member.body,printedMember,printedItem,printMember,quote]

/-- A printed document is a text of the grammar. -/
theorem encodes_print (j : Json) : Encodes Literal (repaired j) (print j) := by
  induction j with
  | null => exact .null
  | bool b => exact .bool b
  | num m e => exact .num (numeral_print m e)
  | str s => exact .str (literal_quote s)
  | arr xs ih =>
    by_cases hne : xs = []
    · rw [hne]
      exact Encodes.emptyArr blank_nil
    · have h := @Encodes.arr Literal (xs.map printedItem) (by simpa using hne) fun i hi => by
        obtain ⟨x,hx,rfl⟩ := List.mem_map.mp hi
        exact ih x hx
      rw [List.map_map,List.map_map] at h
      rw [repaired,repairedAll_eq_map,print,printAll_eq_map,← List.map_congr_left fun x _ => padded_printedItem x]
      exact h
  | obj ms ih =>
    by_cases hne : ms = []
    · rw [hne]
      exact Encodes.emptyObj blank_nil
    · have h := @Encodes.obj Literal (ms.map printedMember) (by simpa using hne)
        (fun i hi => by
          obtain ⟨m,-,rfl⟩ := List.mem_map.mp hi
          exact literal_quote m.1)
        fun i hi => by
          obtain ⟨m,hm,rfl⟩ := List.mem_map.mp hi
          exact ih m hm
      rw [List.map_map,List.map_map] at h
      rw [repaired,repairedMembers_eq_map,print,printMembers_eq_map,
        ← List.map_congr_left fun m _ => padded_printedMember m]
      exact h

/-- Parsing undoes printing, up to the repair of invalid strings. -/
theorem parse_print (j : Json) : parse (print j) = some (repaired j) := by
  have h := parse_encodes (encodes_print j) blank_nil blank_nil
  rwa [List.nil_append,List.append_nil] at h

end Print

end Json
