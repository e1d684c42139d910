import Cadoo.Lib.JsonGrammar
import Cadoo.Vcs.Types

/-! The object a model answers with, read out of the text around it. Control characters that stand raw inside of string
literals are escaped before the text is decoded. -/
namespace Tools
open Bytes Json Vcs

/-- How a control character is escaped. -/
def controlEscape (c : UInt8) : Bytes :=
  if c = 9 then lit "\\t"
  else if c = 10 then lit "\\n"
  else if c = 13 then lit "\\r"
  else if c = 12 then lit "\\f"
  else if c = 8 then lit "\\b"
  else unitEscape c.toNat

/-- The loop over the bytes: whether it is in a string, and there behind a backslash. -/
def escapeFrom : Bool → Bool → Bytes → Bytes
  | _, _, [] => []
  | true, true, c :: s => c :: escapeFrom true false s
  | true, false, c :: s =>
    if c = 92 then c :: escapeFrom true true s
    else if c = 34 then c :: escapeFrom false false s
    else if c < 32 then controlEscape c ++ escapeFrom true false s
    else c :: escapeFrom true false s
  | false, escaped, c :: s => c :: escapeFrom (c == 34) escaped s

def escapeControlCharsInStrings (s : Bytes) : Bytes := escapeFrom false false s

def indexByte (s : Bytes) (b : UInt8) : Option ℕ := s.findIdx? (· == b)
def lastIndexByte (s : Bytes) (b : UInt8) : Option ℕ := (indexByte s.reverse b).map fun k => s.length-1-k

/-- The text from the first opening to the last closing brace is decoded. -/
def ExtractJSON {α : Type} (unmarshal : Bytes → Except Err α) (s : Bytes) : Except Err α :=
  match indexByte s 123,lastIndexByte s 125 with
  | some start,some last =>
    if last ≤ start then .error (lit "no JSON object found")
    else
      let obj := escapeControlCharsInStrings ((s.take (last+1)).drop start)
      match unmarshal obj with
      | .error err => .error (lit "parse json: " ++ err)
      | .ok v => .ok v
  | _,_ => .error (lit "no JSON object found")

/-- The control character an escape stands for. -/
def control : Symbol → Option UInt8
  | .plain _ => none
  | .short e => (shortValue e).filter (· < 32)
  | .unit a b c d => ((unitValue a b c d).filter (· < 32)).map UInt8.ofNat

/-- A symbol as it stands, or the control character itself instead of its escape. -/
def Written (y : Symbol) (t : Bytes) : Prop := t = y.text ∨ ∃ c, control y = some c ∧ t = [c]

/-- The text of a string literal, some of its escaped control characters written raw. -/
def LooseLiteral (s t : Bytes) : Prop := ∃ ss ts, Spells ss s ∧ List.Forall₂ Written ss ts ∧ t = ts.flatten

section Symbols

lemma hexValue_plain {a : UInt8} {v : ℕ} (h : hexValue a = some v) : a ≠ 34 ∧ a ≠ 92 ∧ ¬ a < 32 := by
  have hall : ∀ d, (hexValue d).isSome = true → d ≠ 34 ∧ d ≠ 92 ∧ ¬ d < 32 := forall_byte (by decide +kernel)
  exact hall a (by rw [h]; rfl)

lemma escapeFrom_plain {b : UInt8} (hb : b ≠ 34 ∧ b ≠ 92 ∧ ¬ b < 32) (s : Bytes) :
    escapeFrom true false (b :: s) = b :: escapeFrom true false s := by
  rw [escapeFrom,if_neg hb.2.1,if_neg hb.1,if_neg hb.2.2]

/-- Behind a symbol the loop is in the string again, and the symbol is left as it is. -/
lemma escapeFrom_symbol {y : Symbol} {p : Piece} (h : y.piece = some p) (s : Bytes) :
    escapeFrom true false (y.text ++ s) = y.text ++ escapeFrom true false s := by
  cases y with
  | plain b =>
    rw [Symbol.piece] at h
    split at h
    · exact absurd h (by simp)
    · next hb =>
      rw [not_or,not_or] at hb
      exact escapeFrom_plain hb s
  | short e => rfl
  | unit a b c d =>
    obtain ⟨u,hu,-⟩ := Option.map_eq_some_iff.mp h
    rw [unitValue] at hu
    split at hu
    · next ha hb hc hd =>
      change 92 :: 117 :: escapeFrom true false (a :: b :: c :: d :: s) = _
      rw [escapeFrom_plain (hexValue_plain ha),escapeFrom_plain (hexValue_plain hb),
        escapeFrom_plain (hexValue_plain hc),escapeFrom_plain (hexValue_plain hd)]
      rfl
    · exact absurd hu (by simp)

lemma escapeFrom_control {c : UInt8} (hc : c < 32) (s : Bytes) :
    escapeFrom true false (c :: s) = controlEscape c ++ escapeFrom true false s := by
  have hne : c ≠ 92 ∧ c ≠ 34 := by
    constructor
    · rintro rfl
      exact absurd hc (by decide)
    · rintro rfl
      exact absurd hc (by decide)
  rw [escapeFrom,if_neg hne.1,if_neg hne.2,if_pos hc]

/-- The escape written for a control character is a symbol of the grammar that stands for it. -/
lemma controlEscape_symbol {c : UInt8} (hc : c < 32) :
    ∃ y p, Symbol.text y = controlEscape c ∧ y.piece = some p ∧ asByte p = .byte c := by
  have hshort : ∀ e v, shortValue e = some v → ∃ y p, Symbol.text y = [92,e] ∧ y.piece = some p ∧ asByte p = .byte v := by
    intro e v hv
    refine ⟨.short e,.byte v,rfl,?_,rfl⟩
    rw [Symbol.piece,hv]
    rfl
  unfold controlEscape
  split
  · next h => exact h ▸ hshort 116 9 rfl
  split
  · next h => exact h ▸ hshort 110 10 rfl
  split
  · next h => exact h ▸ hshort 114 13 rfl
  split
  · next h => exact h ▸ hshort 102 12 rfl
  split
  · next h => exact h ▸ hshort 98 8 rfl
  · obtain ⟨y,htext,hpiece⟩ := unitEscape_symbol (n := c.toNat) (c.toNat_lt.trans (by omega))
    refine ⟨y,_,htext,hpiece,?_⟩
    have hlt : c.toNat < 32 := UInt8.lt_iff_toNat_lt.mp hc
    rw [asByte,if_pos hlt,UInt8.ofNat_toNat]

lemma asByte_control {y : Symbol} {p : Piece} (hp : y.piece = some p) {c : UInt8} (hc : control y = some c) :
    c < 32 ∧ asByte p = .byte c := by
  cases y with
  | plain b => exact absurd hc (by simp [control])
  | short e =>
    obtain ⟨v,hv,rfl⟩ := Option.map_eq_some_iff.mp hp
    obtain ⟨hvc,hlt⟩ := Option.filter_eq_some_iff.mp hc
    obtain rfl := Option.some.inj (hv.symm.trans hvc)
    exact ⟨by simpa using hlt,rfl⟩
  | unit a b c d =>
    obtain ⟨u,hu,rfl⟩ := Option.map_eq_some_iff.mp hp
    obtain ⟨v,hv,rfl⟩ := Option.map_eq_some_iff.mp hc
    obtain ⟨huv,hlt⟩ := Option.filter_eq_some_iff.mp hv
    obtain rfl := Option.some.inj (hu.symm.trans huv)
    have hlt : u < 32 := by simpa using hlt
    refine ⟨?_,?_⟩
    · rw [UInt8.lt_iff_toNat_lt,UInt8.toNat_ofNat_of_lt' (by change u < 256; omega)]
      exact hlt
    · rw [asByte,if_pos hlt]

/-- A symbol written as it may be is made a symbol that stands for the same. -/
lemma escapeFrom_written {y : Symbol} {p : Piece} (hp : y.piece = some p) {t : Bytes} (ht : Written y t) :
    ∃ y' p', Symbol.piece y' = some p' ∧ asByte p' = asByte p ∧
      ∀ s, escapeFrom true false (t ++ s) = y'.text ++ escapeFrom true false s := by
  rcases ht with rfl | ⟨c,hc,rfl⟩
  · exact ⟨y,p,hp,rfl,escapeFrom_symbol hp⟩
  · obtain ⟨hlt,hbyte⟩ := asByte_control hp hc
    obtain ⟨y',p',htext,hpiece,hbyte'⟩ := controlEscape_symbol hlt
    refine ⟨y',p',hpiece,hbyte'.trans hbyte.symm,fun s => ?_⟩
    rw [List.singleton_append,escapeFrom_control hlt,htext]

end Symbols

section Literals

/-- In a string, up to its closing quote, the loop makes one text of another. -/
def Inside (t u : Bytes) : Prop :=
  ∀ rest, escapeFrom true false (t ++ 34 :: rest) = u ++ 34 :: escapeFrom false false rest

/-- A literal is left as it is. -/
lemma inside_literal {s t : Bytes} (h : Literal s t) : Inside t t := by
  obtain ⟨ss,⟨ps,hps,-,-⟩,rfl⟩ := h
  intro rest
  induction hps with
  | nil => rfl
  | cons hy hps ih => rw [List.flatMap_cons,List.append_assoc,escapeFrom_symbol hy,ih,List.append_assoc]

/-- A loose literal is made a literal of the same string. -/
lemma inside_loose {s t : Bytes} (h : LooseLiteral s t) : ∃ u, Literal s u ∧ Inside t u := by
  obtain ⟨ss,ts,⟨ps,hps,hjoin,hvalid⟩,hts,rfl⟩ := h
  have hsame : ∃ ss' ps', List.Forall₂ (fun y p => Symbol.piece y = some p) ss' ps' ∧
      ps'.map asByte = ps.map asByte ∧ Inside ts.flatten (ss'.flatMap Symbol.text) := by
    clear hjoin hvalid
    induction hps generalizing ts with
    | nil =>
      cases hts
      exact ⟨[],[],.nil,rfl,fun rest => rfl⟩
    | cons hy hps ih =>
      cases hts with
      | cons ht hts =>
        obtain ⟨ss',ps',hpieces,hbytes,hinside⟩ := ih _ hts
        obtain ⟨y',p',hpiece,hbyte,hwritten⟩ := escapeFrom_written hy ht
        refine ⟨y' :: ss',p' :: ps',.cons hpiece hpieces,?_,fun rest => ?_⟩
        · rw [List.map_cons,List.map_cons,hbyte,hbytes]
        · rw [List.flatten_cons,List.append_assoc,hwritten,hinside,List.flatMap_cons,List.append_assoc]
  obtain ⟨ss',ps',hpieces,hbytes,hinside⟩ := hsame
  refine ⟨_,⟨ss',⟨ps',hpieces,?_,hvalid⟩,rfl⟩,hinside⟩
  rw [← join_asByte,hbytes,join_asByte,hjoin]

end Literals

section Texts

/-- Outside of strings, the loop makes one text of another and is outside again. -/
def Rewrites (t u : Bytes) : Prop := ∀ rest, escapeFrom false false (t ++ rest) = u ++ escapeFrom false false rest

lemma Rewrites.append {t u t' u' : Bytes} (h : Rewrites t u) (h' : Rewrites t' u') :
    Rewrites (t ++ t') (u ++ u') := by
  intro rest
  rw [List.append_assoc,h,h',List.append_assoc]

lemma rewrites_plain {t : Bytes} (h : 34 ∉ t) : Rewrites t t := by
  intro rest
  induction t with
  | nil => rfl
  | cons b t ih =>
    have hb : (b == 34) = false := beq_eq_false_iff_ne.mpr fun hb => h (List.mem_cons.mpr (.inl hb.symm))
    rw [List.cons_append,escapeFrom,hb,ih fun hm => h (List.mem_cons_of_mem b hm)]
    rfl

lemma Inside.rewrites {t u : Bytes} (h : Inside t u) : Rewrites (34 :: (t ++ [34])) (34 :: (u ++ [34])) := by
  intro rest
  rw [List.cons_append,List.append_assoc,List.singleton_append]
  change 34 :: escapeFrom true false (t ++ 34 :: rest) = _
  rw [h,List.cons_append,List.append_assoc,List.singleton_append]

lemma rewrites_commaSep {β : Type} {f g : β → Bytes} {xs : List β} (h : ∀ x ∈ xs, Rewrites (f x) (g x)) :
    Rewrites (commaSep (xs.map f)) (commaSep (xs.map g)) := by
  induction xs with
  | nil => exact fun rest => rfl
  | cons x xs ih =>
    have hx := h x List.mem_cons_self
    have ih := ih fun y hy => h y (List.mem_cons_of_mem x hy)
    cases xs with
    | nil =>
      rw [List.map_singleton,List.map_singleton,commaSep_singleton,commaSep_singleton]
      exact hx
    | cons y ys =>
      have hcomma := hx.append ((rewrites_plain (t := [44]) (by decide)).append ih)
      rw [List.map_cons,List.map_cons,List.map_cons,List.map_cons,commaSep_cons,commaSep_cons]
      exact hcomma

lemma rewrites_blank {ws : Bytes} (h : ∀ b ∈ ws, isBlank b = true) : Rewrites ws ws :=
  rewrites_plain fun h34 => absurd (h 34 h34) (by decide)

lemma rewrites_bracket {l r : UInt8} (hl : l ≠ 34) (hr : r ≠ 34) {t u : Bytes} (h : Rewrites t u) :
    Rewrites (l :: (t ++ [r])) (l :: (u ++ [r])) :=
  (rewrites_plain (t := [l]) (by simpa using hl.symm)).append
    (h.append (rewrites_plain (by simpa using hr.symm)))

lemma rewrites_numeral {t : Bytes} {m e : ℤ} (h : Numeral t m e) : Rewrites t t := by
  refine rewrites_plain fun h34 => ?_
  rcases h.mem h34 with hd | hm
  · exact absurd hd (by decide)
  · exact absurd hm (by decide)

lemma rewrites_item (i : Item) {u : Bytes} (h : Rewrites i.text u) :
    Rewrites i.padded (Item.padded { i with text := u }) :=
  ((rewrites_blank i.before_blank).append h).append (rewrites_blank i.after_blank)

lemma rewrites_member (m : Member) {k u : Bytes} (hk : Inside m.keyText k) (hu : Rewrites m.text u) :
    Rewrites m.padded (Member.padded { m with keyText := k, text := u }) := by
  have hcolon := (rewrites_blank m.beforeColon_blank).append ((rewrites_plain (t := [58]) (by decide)).append
    ((rewrites_blank m.afterColon_blank).append hu))
  have hbody := ((rewrites_blank m.before_blank).append (hk.rewrites.append hcolon)).append
    (rewrites_blank m.after_blank)
  simpa [Member.padded,Member.body] using hbody

/-- A loose text of a value is made a text of the grammar of the same value. -/
theorem rewrites_loose {j : Json} {t : Bytes} (h : Encodes LooseLiteral j t) :
    ∃ u, Encodes Literal j u ∧ Rewrites t u := by
  induction h with
  | null => exact ⟨_,.null,rewrites_plain (by decide)⟩
  | bool b => exact ⟨_,.bool b,rewrites_plain (by cases b <;> decide)⟩
  | num h => exact ⟨_,.num h,rewrites_numeral h⟩
  | str h =>
    obtain ⟨u,hu,hinside⟩ := inside_loose h
    exact ⟨_,.str hu,hinside.rewrites⟩
  | emptyArr h => exact ⟨_,.emptyArr h,rewrites_bracket (by decide) (by decide) (rewrites_blank h)⟩
  | @arr items hne h ih =>
    choose! u hu hrewrites using ih
    have henc := @Encodes.arr Literal (items.map fun i => { i with text := u i }) (by simpa using hne)
      fun i' hi' => by
        obtain ⟨i,hi,rfl⟩ := List.mem_map.mp hi'
        exact hu i hi
    rw [List.map_map,List.map_map] at henc
    exact ⟨_,henc,rewrites_bracket (by decide) (by decide)
      (rewrites_commaSep fun i hi => rewrites_item i (hrewrites i hi))⟩
  | emptyObj h => exact ⟨_,.emptyObj h,rewrites_bracket (by decide) (by decide) (rewrites_blank h)⟩
  | @obj members hne hkey h ih =>
    choose! u hu hrewrites using ih
    choose! k hk hinside using fun m hm => inside_loose (hkey m hm)
    have henc := @Encodes.obj Literal
      (members.map fun m => { m with keyText := k m, text := u m }) (by simpa using hne)
      (fun m' hm' => by
        obtain ⟨m,hm,rfl⟩ := List.mem_map.mp hm'
        exact hk m hm)
      fun m' hm' => by
        obtain ⟨m,hm,rfl⟩ := List.mem_map.mp hm'
        exact hu m hm
    rw [List.map_map,List.map_map] at henc
    exact ⟨_,henc,rewrites_bracket (by decide) (by decide)
      (rewrites_commaSep fun m hm => rewrites_member m (hinside m hm) (hrewrites m hm))⟩

/-- A text of the grammar is left as it is. -/
theorem rewrites_encodes {j : Json} {t : Bytes} (h : Encodes Literal j t) : Rewrites t t := by
  induction h with
  | null => exact rewrites_plain (by decide)
  | bool b => exact rewrites_plain (by cases b <;> decide)
  | num h => exact rewrites_numeral h
  | str h => exact (inside_literal h).rewrites
  | emptyArr h => exact rewrites_bracket (by decide) (by decide) (rewrites_blank h)
  | arr hne h ih =>
    exact rewrites_bracket (by decide) (by decide) (rewrites_commaSep fun i hi => rewrites_item i (ih i hi))
  | emptyObj h => exact rewrites_bracket (by decide) (by decide) (rewrites_blank h)
  | obj hne hkey h ih =>
    exact rewrites_bracket (by decide) (by decide)
      (rewrites_commaSep fun m hm => rewrites_member m (inside_literal (hkey m hm)) (ih m hm))

end Texts

section Extract

lemma indexByte_append {u : Bytes} {b : UInt8} (h : b ∉ u) (v : Bytes) : indexByte (u ++ b :: v) b = some u.length := by
  rw [indexByte]
  induction u with
  | nil => rw [List.nil_append,List.findIdx?_cons,beq_self_eq_true,if_pos rfl,List.length_nil]
  | cons c u ih =>
    have hc : (c == b) = false := beq_eq_false_iff_ne.mpr fun hc => h (List.mem_cons.mpr (.inl hc.symm))
    rw [List.cons_append,List.findIdx?_cons,hc,if_neg Bool.false_ne_true,ih fun hm => h (List.mem_cons_of_mem c hm)]
    rfl

lemma lastIndexByte_append {v : Bytes} {b : UInt8} (h : b ∉ v) (u : Bytes) :
    lastIndexByte (u ++ b :: v) b = some u.length := by
  have hrev : (u ++ b :: v).reverse = v.reverse ++ b :: u.reverse := by simp
  rw [lastIndexByte,hrev,indexByte_append (by simpa using h),Option.map_some]
  simp only [List.length_append,List.length_cons,List.length_reverse,Option.some.injEq]
  omega

/-- The object is found between texts without braces. -/
lemma ExtractJSON_wrapped {α : Type} (unmarshal : Bytes → Except Err α) {front back : Bytes} (hfront : 123 ∉ front)
    (hback : 125 ∉ back) (m : Bytes) :
    ExtractJSON unmarshal (front ++ 123 :: (m ++ [125]) ++ back) =
      (unmarshal (escapeControlCharsInStrings (123 :: (m ++ [125])))).mapError (lit "parse json: " ++ ·) := by
  have hstart : indexByte (front ++ 123 :: (m ++ [125]) ++ back) 123 = some front.length := by
    rw [List.append_assoc,List.cons_append]
    exact indexByte_append hfront _
  have hlast : lastIndexByte (front ++ 123 :: (m ++ [125]) ++ back) 125 = some (front ++ 123 :: m).length := by
    have hsplit : front ++ 123 :: (m ++ [125]) ++ back = (front ++ 123 :: m) ++ 125 :: back := by simp
    rw [hsplit]
    exact lastIndexByte_append hback _
  have hslice : ((front ++ 123 :: (m ++ [125]) ++ back).take ((front ++ 123 :: m).length+1)).drop front.length =
      123 :: (m ++ [125]) := by
    have hlen : (front ++ 123 :: m).length+1 = (front ++ 123 :: (m ++ [125])).length := by
      simp only [List.length_append,List.length_cons,List.length_nil]
      omega
    rw [hlen,List.take_left,List.drop_left]
  have hlt : ¬ (front ++ 123 :: m).length ≤ front.length := by
    rw [List.length_append,List.length_cons]
    omega
  rw [ExtractJSON,hstart,hlast]
  dsimp only
  rw [if_neg hlt,hslice]
  cases unmarshal (escapeControlCharsInStrings (123 :: (m ++ [125]))) <;> rfl

lemma obj_braces {L : Bytes → Bytes → Prop} {ms : List (Bytes × Json)} {t : Bytes} (h : Encodes L (.obj ms) t) :
    ∃ m, t = 123 :: (m ++ [125]) := by
  cases h with
  | emptyObj h => exact ⟨_,rfl⟩
  | obj hne hkey h => exact ⟨_,rfl⟩

lemma Rewrites.escape {t u : Bytes} (h : Rewrites t u) : escapeControlCharsInStrings t = u := by
  have hnil := h []
  rwa [List.append_nil,escapeFrom,List.append_nil] at hnil

/-- A text without braces. -/
def Braceless (s : Bytes) : Prop := 123 ∉ s ∧ 125 ∉ s

instance (s : Bytes) : Decidable (Braceless s) := inferInstanceAs (Decidable (_ ∧ _))

/-- The object a model answers with is decoded also where it writes control characters raw into its strings, whatever
text without braces is around it, and valid JSON is not changed before it is decoded. -/
theorem ExtractJSON_loose {α : Type} (unmarshal : Bytes → Except Err α) :
    (∀ ms v, (∀ t, Encodes Literal (.obj ms) t → unmarshal t = .ok v) →
      ∀ t front back, Encodes LooseLiteral (.obj ms) t → Braceless front → Braceless back →
        ExtractJSON unmarshal (front ++ t ++ back) = .ok v) ∧
    (∀ ms t front back, Encodes Literal (.obj ms) t → Braceless front → Braceless back →
      ExtractJSON unmarshal (front ++ t ++ back) = (unmarshal t).mapError (lit "parse json: " ++ ·)) ∧
    ∀ j t ws ws', Encodes Literal j t → (∀ b ∈ ws, isBlank b = true) → (∀ b ∈ ws', isBlank b = true) →
      escapeControlCharsInStrings (ws ++ t ++ ws') = ws ++ t ++ ws' := by
  refine ⟨?_,?_,?_⟩
  · intro ms v hdecode t front back ht hfront hback
    obtain ⟨u,hu,hrewrites⟩ := rewrites_loose ht
    obtain ⟨m,rfl⟩ := obj_braces ht
    rw [ExtractJSON_wrapped unmarshal hfront.1 hback.2,hrewrites.escape,hdecode u hu]
    rfl
  · intro ms t front back ht hfront hback
    have hsame := (rewrites_encodes ht).escape
    obtain ⟨m,rfl⟩ := obj_braces ht
    rw [ExtractJSON_wrapped unmarshal hfront.1 hback.2,hsame]
  · intro j t ws ws' ht hws hws'
    exact (((rewrites_blank hws).append (rewrites_encodes ht)).append (rewrites_blank hws')).escape

end Extract

section Examples

/-- The decoder of a whole document. -/
def decode (t : Bytes) : Except Err Json :=
  match parse t with
  | some j => .ok j
  | none => .error (lit "invalid JSON")

lemma decode_encodes {j : Json} {t : Bytes} (h : Encodes Literal j t) : decode t = .ok j := by
  have hparse := parse_encodes h blank_nil blank_nil
  rw [List.nil_append,List.append_nil] at hparse
  rw [decode,hparse]

def tabbed : Json := .obj [(lit "v",.str (lit "a\tb"))]

/-- The member with a raw tab in its string. -/
def tabbedMember : Member :=
  ⟨⟨.str (lit "a\tb"),34 :: (lit "a\tb" ++ [34]),[],[],blank_nil,blank_nil⟩,lit "v",lit "v",[],[],blank_nil,blank_nil⟩

lemma tabbed_loose : Encodes LooseLiteral tabbed (lit "\x7b\"v\":\"a\tb\"\x7d") := by
  have hkey : LooseLiteral (lit "v") (lit "v") :=
    ⟨[.plain 118],[[118]],⟨[.byte 118],.cons rfl .nil,rfl,by decide +kernel⟩,.cons (.inl rfl) .nil,rfl⟩
  have hvalue : LooseLiteral (lit "a\tb") (lit "a\tb") :=
    ⟨[.plain 97,.short 116,.plain 98],[[97],[9],[98]],
      ⟨[.byte 97,.byte 9,.byte 98],.cons rfl (.cons rfl (.cons rfl .nil)),rfl,by decide +kernel⟩,
      .cons (.inl rfl) (.cons (.inr ⟨9,rfl,rfl⟩) (.cons (.inl rfl) .nil)),rfl⟩
  have henc := @Encodes.obj LooseLiteral [tabbedMember] (by simp)
    (fun m hm => (List.mem_singleton.mp hm) ▸ hkey) fun m hm => (List.mem_singleton.mp hm) ▸ .str hvalue
  have htext : lit "\x7b\"v\":\"a\tb\"\x7d" = 123 :: (commaSep ([tabbedMember].map Member.padded) ++ [125]) := by
    decide +kernel
  rw [htext]
  exact henc

theorem raw_tab_decoded : ExtractJSON decode (lit "Here it is:\n" ++ lit "\x7b\"v\":\"a\tb\"\x7d" ++ lit "\nDone.") =
    .ok tabbed :=
  (ExtractJSON_loose decode).1 _ _ (fun _ h => decode_encodes h) _ _ _ tabbed_loose (by decide) (by decide)

end Examples

end Tools
