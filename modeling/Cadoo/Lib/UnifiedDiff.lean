import Mathlib.Data.List.Pairwise
import Cadoo.Lib.Decimal

/-! Unified diffs: lines of any kind before the first hunk, then hunks whose headers match their bodies. A
value carries its well-formedness, and what a reader makes of its text is what it makes of its lines. -/
namespace UnifiedDiff
open Bytes

/-- The text of a line. -/
abbrev Text := {t : Bytes // newline ∉ t}

/-- A blank line is a context line without text whose mark has been left out. -/
inductive Line where
  | context (t : Text)
  | blank
  | added (t : Text)
  | removed (t : Text)
  | noNewline (t : Text)

namespace Line

def render : Line → Bytes
  | context t => 32 :: t
  | blank => []
  | added t => 43 :: t
  | removed t => 45 :: t
  | noNewline t => 92 :: t

def inOld : Line → Bool
  | context _ => true
  | blank => true
  | removed _ => true
  | _ => false

def inNew : Line → Bool
  | context _ => true
  | blank => true
  | added _ => true
  | _ => false

lemma newline_notMem_render (l : Line) : newline ∉ l.render := by
  have hfront : newline ≠ 32 ∧ newline ≠ 43 ∧ newline ≠ 45 ∧ newline ≠ 92 := by decide
  cases l with
  | context t => exact List.not_mem_cons_of_ne_of_not_mem hfront.1 t.2
  | blank => exact List.not_mem_nil
  | added t => exact List.not_mem_cons_of_ne_of_not_mem hfront.2.1 t.2
  | removed t => exact List.not_mem_cons_of_ne_of_not_mem hfront.2.2.1 t.2
  | noNewline t => exact List.not_mem_cons_of_ne_of_not_mem hfront.2.2.2 t.2

end Line

/-- The first line and the number of lines, which may be left out when it is one. -/
structure Range where
  start : ℕ
  count : Option ℕ := none

namespace Range
variable (r : Range)

def size : ℕ := r.count.getD 1

def render : Bytes :=
  natDecimal r.start ++ match r.count with
    | some n => 44 :: natDecimal n
    | none => []

/-- Only digits and commas stand in a range. -/
lemma mem_render {b : UInt8} (h : b ∈ r.render) : isDecimal b = true ∨ b = 44 := by
  rw [render,List.mem_append] at h
  rcases h with h | h
  · exact .inl (isDecimal_of_mem_natDecimal h)
  · split at h
    · rcases List.mem_cons.mp h with rfl | h
      · exact .inr rfl
      · exact .inl (isDecimal_of_mem_natDecimal h)
    · simp at h

lemma notMem_render {b : UInt8} (h : isDecimal b = false) (hb : b ≠ 44) : b ∉ r.render := fun hm =>
  (r.mem_render hm).elim (fun hd => by simp [h] at hd) hb

end Range

/-- Line numbers are positive machine integers. -/
structure Hunk where
  old : Range
  new : Range
  heading : Text
  body : List Line
  old_size : body.countP Line.inOld = old.size
  new_size : body.countP Line.inNew = new.size
  old_pos : 0 < old.size → 0 < old.start
  new_pos : 0 < new.size → 0 < new.start
  old_fits : old.start + old.size < 9223372036854775808
  new_fits : new.start + new.size < 9223372036854775808

namespace Hunk
variable (h : Hunk)

/-- `@@ -1,2 +3,4 @@` and the heading. -/
def header : Bytes :=
  lit "@@ -" ++ h.old.render ++ lit " +" ++ h.new.render ++ lit " @@" ++ h.heading

def lines : List Bytes := h.header :: h.body.map Line.render

lemma newline_notMem_header : newline ∉ h.header := by
  have hold := h.old.notMem_render (b := newline) (by decide) (by decide)
  have hnew := h.new.notMem_render (b := newline) (by decide) (by decide)
  have hlit : newline ∉ lit "@@ -" ∧ newline ∉ lit " +" ∧ newline ∉ lit " @@" := by decide
  simp only [header,List.mem_append,not_or]
  exact ⟨⟨⟨⟨⟨hlit.1,hold⟩,hlit.2.1⟩,hnew⟩,hlit.2.2⟩,h.heading.2⟩

end Hunk

/-- The numbers of the added lines among lines that start at a number of the new file. -/
def addedFrom : ℕ → List Line → List ℕ
  | _, [] => []
  | n, .context _ :: ls => addedFrom (n+1) ls
  | n, .blank :: ls => addedFrom (n+1) ls
  | n, .added _ :: ls => n :: addedFrom (n+1) ls
  | n, .removed _ :: ls => addedFrom n ls
  | n, .noNewline _ :: ls => addedFrom n ls

structure Patch where
  preamble : List Text := []
  hunks : List Hunk
  finalNewline : Bool := false
  preamble_plain : ∀ l ∈ preamble, hasPrefix l (lit "@@") = false
  increasing : hunks.Pairwise fun h k => h.new.start + h.new.size ≤ k.new.start

lemma no_preamble_plain : ∀ l ∈ ([] : List Text), hasPrefix l (lit "@@") = false :=
  List.forall_mem_nil _

namespace Patch
variable (p : Patch)

def lines : List Bytes :=
  p.preamble.map Subtype.val ++ p.hunks.flatMap Hunk.lines ++ if p.finalNewline then [[]] else []

def render : Bytes := [newline].intercalate p.lines

/-- The numbers of the added lines in the new file. -/
def added : List ℕ := p.hunks.flatMap fun h => addedFrom h.new.start h.body

lemma newline_notMem_lines : ∀ l ∈ p.lines, newline ∉ l := by
  intro l hl
  rw [lines,List.mem_append,List.mem_append,List.mem_map,List.mem_flatMap] at hl
  rcases hl with (⟨t,-,rfl⟩ | ⟨h,-,hl⟩) | hl
  · exact t.2
  · rcases List.mem_cons.mp hl with rfl | hl
    · exact h.newline_notMem_header
    · obtain ⟨k,-,rfl⟩ := List.mem_map.mp hl
      exact k.newline_notMem_render
  · split at hl
    · obtain rfl := List.mem_singleton.mp hl
      exact List.not_mem_nil
    · simp at hl

/-- The text is read back as its lines; no line at all is one empty line. -/
lemma splitOn_render : p.render.splitOn newline = if p.lines = [] then [[]] else p.lines := by
  split
  · next h =>
    rw [render,h]
    rfl
  · next h => rw [render,List.splitOn_intercalate newline p.newline_notMem_lines h]

/-- A reader that makes nothing of a lone empty text reads the lines of the patch. -/
lemma read_render {R : Type} (read : List Bytes → R) (h : read [[]] = read []) :
    read (p.render.splitOn newline) = read p.lines := by
  rw [p.splitOn_render]
  split
  · next hnil => rw [hnil,h]
  · rfl

lemma preamble_no_header : ∀ l ∈ p.preamble.map Subtype.val, hasPrefix l (lit "@@") = false := by
  intro l hl
  obtain ⟨t,ht,rfl⟩ := List.mem_map.mp hl
  exact p.preamble_plain t ht

end Patch

lemma le_of_mem_addedFrom {ls : List Line} {n m : ℕ} (h : m ∈ addedFrom n ls) :
    n ≤ m ∧ m < n + ls.countP Line.inNew := by
  induction ls generalizing n with
  | nil => simp [addedFrom] at h
  | cons l ls ih =>
    cases l with
    | context _ | blank =>
      rw [addedFrom] at h
      rw [List.countP_cons_of_pos rfl]
      have := ih h
      omega
    | added t =>
      rw [List.countP_cons_of_pos rfl]
      rcases List.mem_cons.mp h with rfl | h
      · omega
      · have := ih h
        omega
    | removed t => exact ih h
    | noNewline t => exact ih h

lemma addedFrom_increasing (ls : List Line) (n : ℕ) : (addedFrom n ls).Pairwise (· < ·) := by
  induction ls generalizing n with
  | nil => exact List.Pairwise.nil
  | cons l ls ih =>
    cases l with
    | context t => exact ih (n+1)
    | blank => exact ih (n+1)
    | added t => exact List.pairwise_cons.mpr ⟨fun m hm => (le_of_mem_addedFrom hm).1,ih (n+1)⟩
    | removed t => exact ih n
    | noNewline t => exact ih n

/-- The added lines come in order. -/
lemma Patch.added_increasing (p : Patch) : p.added.Pairwise (· < ·) := by
  refine List.pairwise_flatMap.mpr ⟨fun h _ => addedFrom_increasing h.body h.new.start,?_⟩
  refine p.increasing.imp fun {h k} hhk n hn m hm => ?_
  have hle := (le_of_mem_addedFrom hn).2
  have hge := (le_of_mem_addedFrom hm).1
  rw [h.new_size] at hle
  omega

/-- Added lines are numbered from one on. -/
lemma Patch.pos_of_mem_added {p : Patch} {n : ℕ} (h : n ∈ p.added) : 0 < n := by
  obtain ⟨k,-,hn⟩ := List.mem_flatMap.mp h
  have hle := le_of_mem_addedFrom hn
  have hpos := k.new_pos
  rw [k.new_size] at hle
  omega

/-- The lines of the new file among lines that start at two numbers: their numbers, and the old ones of lines
that both files have. -/
def sides : ℕ → ℕ → List Line → List (ℕ × Option ℕ)
  | _, _, [] => []
  | n, o, .context _ :: ls => (n,some o) :: sides (n+1) (o+1) ls
  | n, o, .blank :: ls => (n,some o) :: sides (n+1) (o+1) ls
  | n, o, .added _ :: ls => (n,none) :: sides (n+1) o ls
  | n, o, .removed _ :: ls => sides n (o+1) ls
  | n, o, .noNewline _ :: ls => sides n o ls

/-- The lines of the new file that a patch shows. -/
def Patch.newSide (p : Patch) : List (ℕ × Option ℕ) :=
  p.hunks.flatMap fun h => sides h.new.start h.old.start h.body

lemma mem_sides_none {ls : List Line} {n o m : ℕ} : (m,none) ∈ sides n o ls ↔ m ∈ addedFrom n ls := by
  induction ls generalizing n o with
  | nil => simp [sides,addedFrom]
  | cons l ls ih => cases l <;> simp [sides,addedFrom,ih]

lemma mem_sides {ls : List Line} {n o m : ℕ} :
    (∃ x, (m,x) ∈ sides n o ls) ↔ n ≤ m ∧ m < n + ls.countP Line.inNew := by
  have hcons : ∀ {n : ℕ} {y : Option ℕ} {es : List (ℕ × Option ℕ)},
      (∃ x, (m,x) ∈ (n,y) :: es) ↔ m = n ∨ ∃ x, (m,x) ∈ es := by
    intro n y es
    simp [exists_or]
  induction ls generalizing n o with
  | nil => simp [sides]
  | cons l ls ih =>
    cases l with
    | context _ | blank | added _ =>
      rw [sides,hcons,or_congr Iff.rfl ih,List.countP_cons_of_pos rfl]
      omega
    | removed t => exact ih
    | noNewline t => exact ih

lemma Patch.mem_newSide_none {p : Patch} {m : ℕ} : (m,none) ∈ p.newSide ↔ m ∈ p.added := by
  simp only [newSide,added,List.mem_flatMap,mem_sides_none]

/-- The numbers of the new side are those of the hunks. -/
lemma Patch.mem_newSide {p : Patch} {m : ℕ} :
    (∃ x, (m,x) ∈ p.newSide) ↔ ∃ h ∈ p.hunks, h.new.start ≤ m ∧ m < h.new.start + h.new.size := by
  constructor
  · rintro ⟨x,hx⟩
    obtain ⟨h,hh,hx⟩ := List.mem_flatMap.mp hx
    refine ⟨h,hh,?_⟩
    rw [← h.new_size]
    exact mem_sides.mp ⟨x,hx⟩
  · rintro ⟨h,hh,hm⟩
    rw [← h.new_size] at hm
    obtain ⟨x,hx⟩ := (mem_sides (o := h.old.start)).mpr hm
    exact ⟨x,List.mem_flatMap.mpr ⟨h,hh,hx⟩⟩

lemma Patch.pos_of_mem_newSide {p : Patch} {e : ℕ × Option ℕ} (he : e ∈ p.newSide) : 0 < e.1 := by
  obtain ⟨h,-,hm⟩ := p.mem_newSide.mp ⟨e.2,he⟩
  have hpos := h.new_pos (by omega)
  omega

/-- A number belongs to one hunk only. -/
lemma Patch.hunk_unique {p : Patch} {h k : Hunk} (hh : h ∈ p.hunks) (hk : k ∈ p.hunks) {m : ℕ}
    (hm : h.new.start ≤ m ∧ m < h.new.start + h.new.size) (hm' : k.new.start ≤ m ∧ m < k.new.start + k.new.size) :
    h = k := by
  by_contra hne
  let R : Hunk → Hunk → Prop := fun h k => ∀ m, h.new.start ≤ m → m < h.new.start + h.new.size →
    ¬ (k.new.start ≤ m ∧ m < k.new.start + k.new.size)
  have hsymm : Std.Symm R := ⟨fun h k hR m hm₁ hm₂ hk => hR m hk.1 hk.2 ⟨hm₁,hm₂⟩⟩
  have hpairs : p.hunks.Pairwise R := p.increasing.imp fun {h k} hhk m hm₁ hm₂ hk => by omega
  exact hpairs.forall hh hk hne m hm.1 hm.2 hm'

end UnifiedDiff
