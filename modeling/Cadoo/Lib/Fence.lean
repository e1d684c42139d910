import Cadoo.Lib.Bytes

/-! Fenced code blocks, by the rule of CommonMark on the lines of a text. A line ends at a line feed or a carriage
return. Fences inside of quotes and lists are not looked for. -/
namespace Fence
open Bytes

def ends (b : UInt8) : Bool := b == newline || b == 13
def lines (s : Bytes) : List Bytes := s.splitOnP ends

def OneLine (s : Bytes) : Prop := ∀ b ∈ s, ends b = false

instance (s : Bytes) : Decidable (OneLine s) := List.decidableBAll (fun b => ends b = false) s

def backtick : UInt8 := 96
def tilde : UInt8 := 126

def blank (b : UInt8) : Bool := b == space || b == 9

/-- How often a letter is repeated at the front. -/
def run (b : UInt8) (s : Bytes) : ℕ := (s.takeWhile (· == b)).length

lemma run_self (b : UInt8) (s : Bytes) : run b (b :: s) = run b s + 1 := by
  rw [run,List.takeWhile_cons_of_pos (by simp)]
  rfl

lemma run_other {a b : UInt8} (h : b ≠ a) (s : Bytes) : run a (b :: s) = 0 := by
  rw [run,List.takeWhile_cons_of_neg (by simpa using h)]
  rfl

/-- The line that opens a block. -/
structure Opening where
  mark : UInt8
  length : ℕ
  indent : ℕ := 0
  info : Bytes := []
  deriving DecidableEq

/-- At most three spaces, three marks or more, and the info string; it has no backtick after backticks. -/
def opening (line : Bytes) : Option Opening :=
  let indent := run space line
  match line.drop indent with
  | [] => none
  | mark :: rest =>
    let length := run mark (mark :: rest)
    let info := (mark :: rest).drop length
    if indent ≤ 3 ∧ 3 ≤ length ∧ (mark = backtick ∧ backtick ∉ info ∨ mark = tilde) then
      some ⟨mark,length,indent,(info.dropWhile blank).rdropWhile blank⟩
    else none

/-- At most three spaces, at least as many marks as the block was opened with, and blanks. -/
def closes (mark : UInt8) (length : ℕ) (line : Bytes) : Bool :=
  let indent := run space line
  let s := line.drop indent
  indent ≤ 3 && length ≤ run mark s && (s.drop (run mark s)).all blank

/-- The indentation of the opening line taken off. -/
def unindent (indent : ℕ) (line : Bytes) : Bytes := line.drop (min indent (run space line))

/-- A line closes nothing when without one space in front of it it does not. -/
lemma closes_space {mark : UInt8} {length : ℕ} {line : Bytes} (h : closes mark length line = false) :
    closes mark length (space :: line) = false := by
  rw [closes,run_self,List.drop_succ_cons]
  rw [closes] at h
  by_contra htrue
  rw [Bool.not_eq_false,Bool.and_eq_true,Bool.and_eq_true,decide_eq_true_iff] at htrue
  obtain ⟨⟨hindent,hlen⟩,hrest⟩ := htrue
  rw [decide_eq_true (show run space line ≤ 3 by omega),hlen,hrest] at h
  exact absurd h (by decide)

structure Block where
  info : Bytes
  content : List Bytes
  deriving DecidableEq

/-- The text of a block, every line ended. -/
def Block.text (b : Block) : Bytes := b.content.flatMap (· ++ [newline])

/-- The blocks among some lines, with the block that is open and its lines so far. A block that nothing closes goes
on to the end. -/
def read : Option (Opening × List Bytes) → List Bytes → List Block
  | none, [] => []
  | some (o,content), [] => [⟨o.info,content⟩]
  | none, line :: ls =>
    match opening line with
    | some o => read (some (o,[])) ls
    | none => read none ls
  | some (o,content), line :: ls =>
    if closes o.mark o.length line then ⟨o.info,content⟩ :: read none ls
    else read (some (o,content ++ [unindent o.indent line])) ls

def blocks (s : Bytes) : List Block := read none (lines s)

section Lines

lemma lines_end (s t : Bytes) {e : UInt8} (he : ends e = true) : lines (s ++ e :: t) = lines s ++ lines t :=
  List.splitOnP_append_cons s t he

lemma lines_append (s t : Bytes) : lines (s ++ newline :: t) = lines s ++ lines t := lines_end s t rfl

lemma OneLine.append {s t : Bytes} (hs : OneLine s) (ht : OneLine t) : OneLine (s ++ t) :=
  List.forall_mem_append.mpr ⟨hs,ht⟩

lemma lines_of_oneLine {s : Bytes} (h : OneLine s) : lines s = [s] := List.splitOnP_eq_singleton h

/-- Without carriage returns the lines put together again give the text and a last line feed. -/
lemma text_lines {s : Bytes} (h : 13 ∉ s) : (lines s).flatMap (· ++ [newline]) = s ++ [newline] := by
  have hfeed : ∀ b ∈ s, ends b = (b == newline) := by
    intro b hb
    have hne : b ≠ 13 := fun heq => h (heq ▸ hb)
    rw [ends,beq_eq_false_iff_ne.mpr hne,Bool.or_false]
  induction s with
  | nil => rfl
  | cons b s ih =>
    have hs := ih (fun hm => h (List.mem_cons_of_mem b hm)) fun c hc => hfeed c (List.mem_cons_of_mem b hc)
    rw [lines] at hs ⊢
    rw [List.splitOnP_cons_eq_if_modifyHead,hfeed b List.mem_cons_self]
    split
    · next hb =>
      rw [List.flatMap_cons,hs,beq_iff_eq.mp hb]
      rfl
    · obtain ⟨l,ls,hl⟩ := List.exists_cons_of_ne_nil (List.splitOnP_ne_nil ends s)
      rw [hl,List.flatMap_cons] at hs
      rw [hl,List.modifyHead_cons,List.flatMap_cons]
      exact congrArg (List.cons b) hs

end Lines

/-- A list has no element with a property, or a first one. -/
lemma first_of {α : Type} (p : α → Bool) (l : List α) : (∀ x ∈ l, p x = false) ∨
    ∃ u e v, l = u ++ e :: v ∧ (∀ x ∈ u, p x = false) ∧ p e = true := by
  induction l with
  | nil => exact .inl (by simp)
  | cons b l ih =>
    by_cases hb : p b = true
    · exact .inr ⟨[],b,l,rfl,by simp,hb⟩
    · have hb := Bool.eq_false_iff.mpr hb
      rcases ih with h | ⟨u,e,v,rfl,hu,he⟩
      · exact .inl (List.forall_mem_cons.mpr ⟨hb,h⟩)
      · exact .inr ⟨b :: u,e,v,rfl,List.forall_mem_cons.mpr ⟨hb,hu⟩,he⟩

section Read
variable {ls : List Bytes} {o : Opening}

/-- Lines that open nothing are passed over. -/
lemma read_outside (h : ∀ l ∈ ls, opening l = none) (rest : List Bytes) : read none (ls ++ rest) = read none rest := by
  induction ls with
  | nil => rfl
  | cons l ls ih =>
    rw [List.cons_append,read,h l List.mem_cons_self]
    exact ih fun k hk => h k (List.mem_cons_of_mem l hk)

/-- Lines that do not close the block are its content. -/
lemma read_inside (h : ∀ l ∈ ls, closes o.mark o.length l = false) (hindent : o.indent = 0) (content rest : List Bytes) :
    read (some (o,content)) (ls ++ rest) = read (some (o,content ++ ls)) rest := by
  induction ls generalizing content with
  | nil => rw [List.nil_append,List.append_nil]
  | cons l ls ih =>
    have hl : unindent o.indent l = l := by
      rw [unindent,hindent,Nat.zero_min,List.drop_zero]
    rw [List.cons_append,read,if_neg (Bool.eq_false_iff.mp (h l List.mem_cons_self)),hl,
      ih fun k hk => h k (List.mem_cons_of_mem l hk)]
    simp

/-- A block ends at the first line that closes it. -/
theorem read_closed (h : ∀ l ∈ ls, closes o.mark o.length l = false) (hindent : o.indent = 0) {last : Bytes}
    (hlast : closes o.mark o.length last = true) (rest : List Bytes) :
    read (some (o,[])) (ls ++ last :: rest) = ⟨o.info,ls⟩ :: read none rest := by
  rw [read_inside h hindent,List.nil_append,read,if_pos hlast]

lemma read_opening {first : Bytes} (h : opening first = some o) (rest : List Bytes) :
    read none (first :: rest) = read (some (o,[])) rest := by
  rw [read,h]

/-- A text put between two fences is read back exactly when none of its lines closes the block. Otherwise the block
ends before the line that does. -/
theorem read_exact_iff {front : List Bytes} (hfront : ∀ l ∈ front, opening l = none) {first last : Bytes}
    (hfirst : opening first = some o) (hindent : o.indent = 0) (hlast : closes o.mark o.length last = true)
    {s : Bytes} (hs : 13 ∉ s) :
    ((read none (front ++ first :: (lines s ++ [last]))).filter fun b => b.info == o.info).map Block.text =
        [s ++ [newline]] ↔
      ∀ l ∈ lines s, closes o.mark o.length l = false := by
  rw [read_outside hfront,read_opening hfirst]
  have hkeep : ∀ content rest, List.filter (fun b : Block => b.info == o.info) (⟨o.info,content⟩ :: rest) =
      ⟨o.info,content⟩ :: rest.filter fun b => b.info == o.info :=
    fun content rest => List.filter_cons_of_pos (beq_self_eq_true o.info)
  rcases first_of (closes o.mark o.length) (lines s) with hopen | ⟨pre,l,post,hls,hpre,hl⟩
  · refine iff_of_true ?_ hopen
    rw [read_closed hopen hindent hlast,read,hkeep]
    exact congrArg (fun t => [t]) (text_lines hs)
  · refine iff_of_false ?_ ?_
    · intro h
      rw [hls,List.append_assoc,List.cons_append,read_closed hpre hindent hl,hkeep,List.map_cons] at h
      have hshort := congrArg List.length ((List.cons_eq_cons.mp h).1.trans (text_lines hs).symm)
      rw [hls,Block.text,List.flatMap_append,List.length_append,List.flatMap_cons,List.length_append,
        List.length_append] at hshort
      simp at hshort
    · intro h
      have hfalse := h l (by rw [hls]; simp)
      rw [hl] at hfalse
      exact absurd hfalse (by decide)

end Read

/-- A line that begins with another letter opens no block. -/
lemma opening_other {b : UInt8} {line : Bytes} (hline : line.head? = some b)
    (h : b ≠ space ∧ b ≠ backtick ∧ b ≠ tilde) : opening line = none := by
  obtain ⟨s,rfl⟩ : ∃ s, line = b :: s := List.head?_eq_some_iff.mp hline
  simp only [opening,run_other h.1,List.drop_zero]
  rw [if_neg]
  rintro ⟨-,-,⟨hb,-⟩ | hb⟩
  · exact h.2.1 hb
  · exact h.2.2 hb

end Fence
