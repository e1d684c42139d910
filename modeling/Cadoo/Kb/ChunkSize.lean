import Cadoo.Kb.Chunk

/-! The size of the chunks. An overlap keeps them near the size asked for; without one every flushed chunk is
repeated whole in the next, and the bound holds only where few paragraphs stand together. -/
namespace Kb
open Bytes Utf8

/-- Paragraphs with a blank line between any two. -/
def join (paras : List Bytes) : Bytes := (lit "\n\n").intercalate paras

/-- The paragraphs between overlong ones, joined. -/
def runs (size : ℕ) (paras : List Bytes) : List Bytes := (paras.splitOnP fun p => size < p.length).map join

/-- No chunk is longer than a number of bytes. -/
def Within (bound : ℕ) (chunks : List Bytes) : Prop := ∀ c ∈ chunks, c.length ≤ bound

instance (bound : ℕ) (chunks : List Bytes) : Decidable (Within bound chunks) :=
  inferInstanceAs (Decidable (∀ c ∈ chunks, c.length ≤ bound))

section Within
variable {bound : ℕ} {chunks others : List Bytes} {c : Bytes}

lemma within_append : Within bound (chunks ++ others) ↔ Within bound chunks ∧ Within bound others :=
  List.forall_mem_append

lemma within_singleton : Within bound [c] ↔ c.length ≤ bound := List.forall_mem_singleton

/-- An empty chunk is never too long. -/
lemma within_flush : Within bound (if c ≠ [] then chunks ++ [c] else chunks) ↔
    Within bound chunks ∧ c.length ≤ bound := by
  split
  · rw [within_append,within_singleton]
  · next hc =>
    obtain rfl := not_not.mp hc
    exact (and_iff_left (Nat.zero_le bound)).symm

end Within

section Overlap
variable {fuel size overlap : ℕ}

lemma length_tailString_le {s : Bytes} {n : ℕ} (hn : 0 < n) : (tailString s n).length ≤ n := by
  rw [tailString]
  split
  · omega
  · rw [List.length_drop]
    omega

/-- With an overlap no chunk gets longer than one, a blank line and a paragraph. -/
lemma chunkEach_within (hoverlap : 0 < overlap) {pieces out chunks : List Bytes} {cur : Bytes}
    (hrun : chunkEach fuel size overlap pieces out cur = some chunks) (hout : Within (size+overlap+2) out)
    (hcur : cur.length ≤ size+overlap+2) : Within (size+overlap+2) chunks := by
  induction pieces generalizing out cur with
  | nil =>
    obtain rfl := Option.some.inj hrun
    exact within_flush.mpr ⟨hout,hcur⟩
  | cons p pieces ih =>
    rw [chunkEach] at hrun
    dsimp only at hrun
    split at hrun
    · exact ih hrun hout hcur
    · split at hrun
      · split at hrun
        · cases hrun
        · next windows hwindows =>
          refine ih hrun (within_append.mpr ⟨within_flush.mpr ⟨hout,hcur⟩,fun w hw => ?_⟩) (Nat.zero_le _)
          have hle := length_of_mem_windowsFrom hwindows hw
          omega
      · next hshort =>
        by_cases hflush : size < cur.length+2+(trimSpace p).length ∧ cur ≠ []
        · rw [if_pos hflush,if_pos hflush,if_pos (tailString_ne_nil overlap hflush.2)] at hrun
          refine ih hrun (within_append.mpr ⟨hout,within_singleton.mpr hcur⟩) ?_
          have htail := length_tailString_le (s := cur) hoverlap
          have hgap : (lit "\n\n").length = 2 := by decide
          rw [List.length_append,List.length_append,hgap]
          omega
        · rw [if_neg hflush,if_neg hflush] at hrun
          refine ih hrun hout ?_
          have hgap : (lit "\n\n").length = 2 := by decide
          split
          · next hne =>
            have hfits := (not_and.mp hflush).mt (not_not.mpr hne)
            rw [List.length_append,List.length_append,hgap]
            omega
          · next hnil =>
            obtain rfl := not_not.mp hnil
            rw [List.nil_append]
            omega

end Overlap

section Join

lemma join_concat {g : List Bytes} (hg : g ≠ []) (p : Bytes) : join (g ++ [p]) = join g ++ lit "\n\n" ++ p := by
  induction g with
  | nil => exact absurd rfl hg
  | cons x g ih =>
    cases g with
    | nil =>
      rw [join,join,List.singleton_append,List.intercalate_cons_cons,List.intercalate_singleton,
        List.intercalate_singleton]
    | cons y g =>
      have hrest := ih (List.cons_ne_nil y g)
      rw [join] at hrest ⊢
      rw [List.cons_append,List.cons_append,List.intercalate_cons_cons,← List.cons_append,hrest,join,join,
        List.intercalate_cons_cons]
      simp only [List.append_assoc]

/-- Joined paragraphs go on where the first of them end. -/
lemma join_front (g h : List Bytes) : join g <+: join (g ++ h) := by
  induction h using List.reverseRecOn with
  | nil => rw [List.append_nil]
  | append_singleton h p ih =>
    rw [← List.append_assoc]
    by_cases hg : g ++ h = []
    · obtain ⟨rfl,rfl⟩ := List.append_eq_nil_iff.mp hg
      exact List.nil_prefix
    · rw [join_concat hg,List.append_assoc]
      exact ih.trans (List.prefix_append _ _)

lemma join_eq_nil {g : List Bytes} (hg : ∀ p ∈ g, p ≠ []) : join g = [] ↔ g = [] := by
  cases g with
  | nil => exact iff_of_true rfl rfl
  | cons p g =>
    refine iff_of_false (fun hnil => ?_) (List.cons_ne_nil p g)
    have hpre := join_front [p] g
    rw [join,List.intercalate_singleton,List.singleton_append,hnil] at hpre
    exact hg p List.mem_cons_self (List.prefix_nil.mp hpre)

/-- The runs when some paragraphs of the first one have been read already. -/
def runsFrom (size : ℕ) (g paras : List Bytes) : List Bytes :=
  ((paras.splitOnP fun p => size < p.length).modifyHead (g ++ ·)).map join

lemma runsFrom_nil (size : ℕ) (g : List Bytes) : runsFrom size g [] = [join g] := by
  rw [runsFrom,List.splitOnP_nil,List.modifyHead_cons,List.append_nil]
  rfl

lemma runsFrom_nil_left (size : ℕ) (paras : List Bytes) : runsFrom size [] paras = runs size paras := by
  rw [runsFrom,runs]
  cases paras.splitOnP fun p => decide (size < p.length) with
  | nil => rfl
  | cons h t => rfl

lemma runsFrom_long {size : ℕ} {p : Bytes} (hp : size < p.length) (g paras : List Bytes) :
    runsFrom size g (p :: paras) = join g :: runsFrom size [] paras := by
  rw [runsFrom_nil_left,runsFrom,List.splitOnP_cons_eq_if_modifyHead,if_pos (decide_eq_true hp),List.modifyHead_cons,
    List.append_nil]
  rfl

lemma runsFrom_short {size : ℕ} {p : Bytes} (hp : ¬ size < p.length) (g paras : List Bytes) :
    runsFrom size g (p :: paras) = runsFrom size (g ++ [p]) paras := by
  have hcomp : ∀ l : List (List Bytes), (l.modifyHead (List.cons p)).modifyHead (g ++ ·) =
      l.modifyHead (g ++ [p] ++ ·) := by
    intro l
    cases l with
    | nil => rfl
    | cons h t => simp
  rw [runsFrom,List.splitOnP_cons_eq_if_modifyHead,if_neg (by simpa using hp),hcomp]
  rfl

/-- The first run begins with what has been read of it. -/
lemma runsFrom_front (size : ℕ) (g paras : List Bytes) : ∃ r rest, runsFrom size g paras = r :: rest ∧ join g <+: r := by
  obtain ⟨h,t,ht⟩ := List.exists_cons_of_ne_nil (List.splitOnP_ne_nil (fun p => decide (size < p.length)) paras)
  refine ⟨join (g ++ h),t.map join,?_,join_front g h⟩
  rw [runsFrom,ht]
  rfl

end Join

section NoOverlap
variable {fuel size : ℕ}

/-- Without an overlap the chunk being filled holds all of its run, and the chunks are short just when the runs
are. -/
lemma chunkEach_within_iff {bound : ℕ} (hbound : size ≤ bound) {pieces out chunks g : List Bytes}
    (hg : ∀ p ∈ g, p ≠ []) (hrun : chunkEach fuel size 0 pieces out (join g) = some chunks) :
    Within bound chunks ↔ Within bound out ∧ Within bound (runsFrom size g (paragraphs pieces)) := by
  induction pieces generalizing out g with
  | nil =>
    obtain rfl := Option.some.inj hrun
    have hnil : paragraphs [] = [] := rfl
    rw [within_flush,hnil,runsFrom_nil,within_singleton]
  | cons p pieces ih =>
    rw [paragraphs_cons]
    rw [chunkEach] at hrun
    dsimp only at hrun
    split at hrun
    · next hblank =>
      rw [if_pos hblank]
      exact ih hg hrun
    · next hblank =>
      rw [if_neg hblank]
      generalize trimSpace p = p at hrun hblank
      split at hrun
      · next hlong =>
        split at hrun
        · cases hrun
        · next windows hwindows =>
          have hwithin : Within bound windows := fun w hw =>
            (length_of_mem_windowsFrom hwindows hw).trans hbound
          have hlater := ih (g := []) (List.forall_mem_nil _) hrun
          rw [within_append,within_flush,and_iff_left hwithin] at hlater
          rw [hlater,runsFrom_long hlong,Within.eq_def _ (join g :: _),List.forall_mem_cons,and_assoc]
          rfl
      · next hshort =>
        have htail : tailString (join g) 0 = join g := if_pos (.inl rfl)
        have hcur : (if join g ≠ [] then join g ++ lit "\n\n" else join g) ++ p = join (g ++ [p]) := by
          split
          · next hne => exact (join_concat (fun hnil => hne ((join_eq_nil hg).mpr hnil)) p).symm
          · next hnil =>
            obtain rfl := (join_eq_nil hg).mp (not_not.mp hnil)
            exact List.intercalate_singleton.symm
        have hg' : ∀ q ∈ g ++ [p], q ≠ [] :=
          List.forall_mem_append.mpr ⟨hg,List.forall_mem_singleton.mpr hblank⟩
        rw [htail,ite_self,hcur] at hrun
        rw [runsFrom_short hshort,ih hg' hrun]
        split
        · -- the flushed chunk is a part of the run
          rw [within_append,within_singleton,and_assoc]
          refine and_congr_right fun _ => and_iff_right_of_imp fun hruns => ?_
          obtain ⟨r,rest,hr,hpre⟩ := runsFrom_front size (g ++ [p]) (paragraphs pieces)
          have hle := hruns r (hr ▸ List.mem_cons_self)
          exact ((join_front g [p]).trans hpre).length_le.trans hle
        · exact Iff.rfl

end NoOverlap

/-- The overlap asked for leaves something to repeat, or the document is one chunk, or no run of paragraphs between
overlong ones is longer than a chunk and a blank line. -/
def Bounded (size overlap : ℕ) (body : Bytes) : Prop :=
  0 < overlap ∨ body.length ≤ size ∨ Within (size+2) (runs size (paragraphs (split body (lit "\n\n"))))

/-- The chunks stay near the size asked for just when there is an overlap or no run of paragraphs is too long. -/
theorem Chunk_within_iff (body : Bytes) (size overlap : ℤ) : ∃ chunks,
    (∀ fuel, body.length < fuel → Chunk fuel body size overlap = some chunks) ∧
      (Within (effectiveSize size + effectiveOverlap (effectiveSize size) overlap + 2) chunks ↔
        Bounded (effectiveSize size) (effectiveOverlap (effectiveSize size) overlap) (trimSpace body)) := by
  obtain ⟨chunks,hrun⟩ := Chunk_ends body size overlap
  refine ⟨chunks,hrun,?_⟩
  have hchunks := hrun (body.length+1) (Nat.lt_succ_self _)
  rw [Chunk] at hchunks
  generalize effectiveOverlap (effectiveSize size) overlap = overlap at hchunks ⊢
  generalize effectiveSize size = size at hchunks ⊢
  generalize trimSpace body = body at hchunks ⊢
  split at hchunks
  · next hshort =>
    refine iff_of_true ?_ (.inr (.inl hshort))
    obtain rfl := Option.some.inj hchunks
    split
    · exact List.forall_mem_nil _
    · exact within_singleton.mpr (by omega)
  · next hlong =>
    rcases Nat.eq_zero_or_pos overlap with rfl | hoverlap
    · have hruns : runs size (paragraphs (split body (lit "\n\n"))) =
          runsFrom size [] (paragraphs (split body (lit "\n\n"))) := (runsFrom_nil_left size _).symm
      rw [Bounded,or_iff_right (Nat.lt_irrefl 0),or_iff_right hlong,hruns,Nat.add_zero,
        chunkEach_within_iff (Nat.le_add_right size 2) (List.forall_mem_nil _) hchunks]
      exact and_iff_right (List.forall_mem_nil _)
    · exact iff_of_true (chunkEach_within hoverlap hchunks (List.forall_mem_nil _) (Nat.zero_le _)) (.inl hoverlap)

/-- Without an overlap a chunk holds everything before it: one of size 10 has 22 bytes. -/
theorem chunks_grow :
    let chunks := [lit "aaaa\n\nbbbb",lit "aaaa\n\nbbbb\n\ncccc",lit "aaaa\n\nbbbb\n\ncccc\n\ndddd"]
    Chunk 30 (lit "aaaa\n\nbbbb\n\ncccc\n\ndddd") 10 0 = some chunks ∧
      ¬ Within (effectiveSize 10 + effectiveOverlap (effectiveSize 10) 0 + 2) chunks := by
  decide +kernel

end Kb
