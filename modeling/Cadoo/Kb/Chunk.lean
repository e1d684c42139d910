import Cadoo.Lib.Utf8

/-! Splitting a document into overlapping chunks for the search index. No paragraph is lost: it stands in one
chunk, or makes up a run of chunks when it is longer than one. -/
namespace Kb
open Bytes Utf8

def DefaultChunkSize : ℕ := 800

/-- The loop of `charWindows` from a position on; `none` stands for a loop that has not ended. -/
def windowsFrom (s : Bytes) (size step : ℕ) : ℕ → ℕ → Option (List Bytes)
  | 0, _ => none
  | fuel+1, i =>
    if s.length ≤ i then some []
    else
      let stop := if s.length < i+size then s.length else i+size
      let window := (s.take stop).drop i
      if stop = s.length then some [window]
      else (windowsFrom s size step fuel (i+step)).map (window :: ·)

/-- An overlong paragraph in overlapping windows. -/
def charWindows (fuel : ℕ) (s : Bytes) (size overlap : ℕ) : Option (List Bytes) :=
  let step := size-overlap
  let step := if step < 1 then size else step
  windowsFrom s size step fuel 0

def tailString (s : Bytes) (n : ℕ) : Bytes := if n = 0 ∨ s.length ≤ n then s else s.drop (s.length-n)

/-- The loop over the pieces of a document: the chunks so far, and the one being filled. -/
def chunkEach (fuel size overlap : ℕ) : List Bytes → List Bytes → Bytes → Option (List Bytes)
  | [], out, cur => some (if cur ≠ [] then out ++ [cur] else out)
  | p :: paras, out, cur =>
    let p := trimSpace p
    if p = [] then chunkEach fuel size overlap paras out cur
    else if size < p.length then
      let out := if cur ≠ [] then out ++ [cur] else out
      match charWindows fuel p size overlap with
      | none => none
      | some windows => chunkEach fuel size overlap paras (out ++ windows) []
    else
      let flush := size < cur.length+2+p.length ∧ cur ≠ []
      let out := if flush then out ++ [cur] else out
      let cur := if flush then tailString cur overlap else cur
      chunkEach fuel size overlap paras out ((if cur ≠ [] then cur ++ lit "\n\n" else cur) ++ p)

def effectiveSize (size : ℤ) : ℕ := if size ≤ 0 then DefaultChunkSize else size.toNat

def effectiveOverlap (size : ℕ) (overlap : ℤ) : ℕ :=
  let overlap := if overlap < 0 then 0 else overlap.toNat
  if size ≤ overlap then size/4 else overlap

def Chunk (fuel : ℕ) (body : Bytes) (size overlap : ℤ) : Option (List Bytes) :=
  let size := effectiveSize size
  let overlap := effectiveOverlap size overlap
  let body := trimSpace body
  if body.length ≤ size then some (if body = [] then [] else [body])
  else chunkEach fuel size overlap (split body (lit "\n\n")) [] []

/-- The pieces of a document that are not blank, trimmed. -/
def paragraphs (pieces : List Bytes) : List Bytes := (pieces.map trimSpace).filter (· ≠ [])

/-- Paragraphs found in chunks from a position on, in order: one in a chunk, or an overlong one in a run of
chunks of which all but the first begin with what they share with the one before. -/
inductive Found (size overlap : ℕ) (chunks : List Bytes) : ℕ → List Bytes → Prop
  | nil (k) : Found size overlap chunks k []
  | short {k i p c paras} (hk : k ≤ i) (hc : chunks[i]? = some c) (hp : p.length ≤ size) (hin : p <:+: c)
      (rest : Found size overlap chunks i paras) : Found size overlap chunks k (p :: paras)
  | long {k before first others after p paras} (hk : k ≤ before.length)
      (hc : chunks = before ++ first :: others ++ after) (hp : size < p.length)
      (hwhole : p = first ++ others.flatMap (List.drop overlap))
      (rest : Found size overlap chunks (before.length+others.length+1) paras) :
      Found size overlap chunks k (p :: paras)

lemma Found.from_earlier {size overlap k k' : ℕ} {chunks paras : List Bytes} (h : Found size overlap chunks k' paras)
    (hk : k ≤ k') : Found size overlap chunks k paras := by
  cases h with
  | nil => exact .nil k
  | short hi hc hp hin rest => exact .short (hk.trans hi) hc hp hin rest
  | long hi hc hp hwhole rest => exact .long (hk.trans hi) hc hp hwhole rest

section Windows
variable {s : Bytes} {size overlap : ℕ}

/-- One round of the loop: a window, and the next ones unless it reaches the end. -/
lemma windowsFrom_succ {step fuel i : ℕ} (hi : i < s.length) : windowsFrom s size step (fuel+1) i =
    if s.length ≤ i+size then some [(s.drop i).take size]
    else (windowsFrom s size step fuel (i+step)).map ((s.drop i).take size :: ·) := by
  rw [windowsFrom,if_neg (Nat.not_le_of_lt hi)]
  by_cases hlast : s.length < i+size
  · have hrest : (s.drop i).take size = s.drop i := by
      rw [List.take_of_length_le]
      rw [List.length_drop]
      omega
    rw [if_pos hlast,if_pos rfl,if_pos (by omega),List.take_length,hrest]
  · have hwindow : (s.take (i+size)).drop i = (s.drop i).take size := by
      rw [List.drop_take,Nat.add_sub_cancel_left]
    simp only [if_neg hlast,hwindow]
    exact if_congr (by omega) rfl rfl

/-- The windows from a position on: the first of them, and what the others add, are what follows the position. -/
lemma windowsFrom_eq (hoverlap : overlap < size) {fuel i : ℕ} (hi : i < s.length) (hfuel : s.length < fuel+i) :
    ∃ others, windowsFrom s size (size-overlap) fuel i = some ((s.drop i).take size :: others) ∧
      s.drop i = (s.drop i).take size ++ others.flatMap (List.drop overlap) := by
  induction fuel generalizing i with
  | zero => omega
  | succ fuel ih =>
    rw [windowsFrom_succ hi]
    by_cases hlast : s.length ≤ i+size
    · have hrest : (s.drop i).take size = s.drop i := by
        rw [List.take_of_length_le]
        rw [List.length_drop]
        omega
      rw [if_pos hlast,hrest]
      exact ⟨[],rfl,(List.append_nil _).symm⟩
    · obtain ⟨others,hothers,hwhole⟩ := ih (i := i+(size-overlap)) (by omega) (by omega)
      rw [if_neg hlast,hothers]
      refine ⟨_,rfl,?_⟩
      -- the next window starts with the last bytes of this one
      have hshared : overlap ≤ ((s.drop (i+(size-overlap))).take size).length := by
        rw [List.length_take,List.length_drop]
        omega
      have hnext : (s.drop i).drop size = (s.drop (i+(size-overlap))).drop overlap := by
        rw [List.drop_drop,List.drop_drop]
        congr 1
        omega
      rw [List.flatMap_cons,← List.drop_append_of_le_length hshared,← hwhole,← hnext,List.take_append_drop]

lemma charWindows_eq (hoverlap : overlap < size) (hs : s ≠ []) {fuel : ℕ} (hfuel : s.length < fuel) :
    ∃ others, charWindows fuel s size overlap = some (s.take size :: others) ∧
      s = s.take size ++ others.flatMap (List.drop overlap) := by
  have hstep : ¬ size-overlap < 1 := by omega
  rw [charWindows]
  simp only [if_neg hstep]
  exact windowsFrom_eq hoverlap (i := 0) (List.length_pos_of_ne_nil hs) hfuel

/-- A window is no longer than asked for. -/
lemma length_of_mem_windowsFrom {step fuel i : ℕ} {windows : List Bytes}
    (h : windowsFrom s size step fuel i = some windows) {w : Bytes} (hw : w ∈ windows) : w.length ≤ size := by
  induction fuel generalizing i windows with
  | zero => cases h
  | succ fuel ih =>
    by_cases hi : i < s.length
    · have hlength : ((s.drop i).take size).length ≤ size := List.length_take_le size _
      rw [windowsFrom_succ hi] at h
      split at h
      · obtain rfl := Option.some.inj h
        obtain rfl := List.mem_singleton.mp hw
        exact hlength
      · obtain ⟨rest,hrest,rfl⟩ := Option.map_eq_some_iff.mp h
        rcases List.mem_cons.mp hw with rfl | hw
        · exact hlength
        · exact ih hrest hw
    · rw [windowsFrom,if_pos (Nat.le_of_not_lt hi)] at h
      obtain rfl := Option.some.inj h
      cases hw

/-- With more rounds allowed a loop that has ended ends alike. -/
lemma windowsFrom_mono {step fuel fuel' i : ℕ} {windows : List Bytes}
    (h : windowsFrom s size step fuel i = some windows) (hfuel : fuel ≤ fuel') :
    windowsFrom s size step fuel' i = some windows := by
  induction fuel generalizing fuel' i windows with
  | zero => cases h
  | succ fuel ih =>
    obtain ⟨fuel',rfl⟩ := Nat.exists_eq_add_of_le' (Nat.le_of_add_left_le hfuel : 1 ≤ fuel')
    by_cases hi : i < s.length
    · rw [windowsFrom_succ hi] at h ⊢
      by_cases hlast : s.length ≤ i+size
      · rw [if_pos hlast] at h ⊢
        exact h
      · rw [if_neg hlast] at h ⊢
        obtain ⟨rest,hrest,rfl⟩ := Option.map_eq_some_iff.mp h
        rw [ih hrest (Nat.le_of_succ_le_succ hfuel)]
        rfl
    · rw [windowsFrom,if_pos (Nat.le_of_not_lt hi)] at h ⊢
      exact h

end Windows

lemma tailString_ne_nil {s : Bytes} (n : ℕ) (hs : s ≠ []) : tailString s n ≠ [] := by
  rw [tailString]
  split
  · exact hs
  · next h =>
    refine List.ne_nil_of_length_pos ?_
    rw [List.length_drop]
    omega

section Loop
variable {fuel size overlap : ℕ}

lemma paragraphs_cons (p : Bytes) (pieces : List Bytes) : paragraphs (p :: pieces) =
    if trimSpace p = [] then paragraphs pieces else trimSpace p :: paragraphs pieces := by
  rw [paragraphs,List.map_cons,List.filter_cons]
  by_cases h : trimSpace p = []
  · simp [h,paragraphs]
  · simp [h,paragraphs]

/-- The chunks end up behind those made before, the one being filled first, and the paragraphs are found there. -/
lemma chunkEach_found (hoverlap : overlap < size) (pieces out : List Bytes) (cur : Bytes)
    (hfuel : ∀ p ∈ paragraphs pieces, p.length < fuel) :
    ∃ chunks rest, chunkEach fuel size overlap pieces out cur = some chunks ∧ chunks = out ++ rest ∧
      (cur ≠ [] → ∃ c cs, rest = c :: cs ∧ cur <+: c) ∧
      Found size overlap chunks out.length (paragraphs pieces) := by
  induction pieces generalizing out cur with
  | nil =>
    refine ⟨_,if cur ≠ [] then [cur] else [],rfl,?_,fun hcur => ⟨cur,[],if_pos hcur,List.prefix_rfl⟩,.nil _⟩
    split
    · rfl
    · exact (List.append_nil out).symm
  | cons p pieces ih =>
    rw [paragraphs_cons] at hfuel ⊢
    rw [chunkEach]
    dsimp only
    by_cases hblank : trimSpace p = []
    · rw [if_pos hblank] at hfuel ⊢
      rw [if_pos hblank]
      exact ih out cur hfuel
    · rw [if_neg hblank] at hfuel ⊢
      rw [if_neg hblank]
      generalize trimSpace p = p at hblank hfuel
      have hfuel' : ∀ q ∈ paragraphs pieces, q.length < fuel := fun q hq => hfuel q (List.mem_cons_of_mem p hq)
      by_cases hlong : size < p.length
      · obtain ⟨others,hwindows,hwhole⟩ := charWindows_eq hoverlap hblank (hfuel p List.mem_cons_self)
        rw [if_pos hlong,hwindows]
        dsimp only
        obtain ⟨chunks,rest,hrun,hchunks,-,hfound⟩ :=
          ih ((if cur ≠ [] then out ++ [cur] else out) ++ p.take size :: others) [] hfuel'
        refine ⟨chunks,(if cur ≠ [] then [cur] else []) ++ p.take size :: others ++ rest,hrun,?_,?_,?_⟩
        · rw [hchunks]
          split <;> simp
        · intro hcur
          rw [if_pos hcur]
          exact ⟨cur,p.take size :: others ++ rest,rfl,List.prefix_rfl⟩
        · rw [List.length_append,List.length_cons] at hfound
          refine .long ?_ hchunks hlong hwhole hfound
          split <;> simp
      · have hlong' : p.length ≤ size := Nat.le_of_not_lt hlong
        rw [if_neg hlong]
        -- the paragraph is added to the chunk being filled, and stays in it
        have hfill : ∀ (out' : List Bytes) {cur' : Bytes}, p <:+ cur' → ∃ chunks c cs,
            chunkEach fuel size overlap pieces out' cur' = some chunks ∧ chunks = out' ++ c :: cs ∧ cur' <+: c ∧
              Found size overlap chunks out'.length (p :: paragraphs pieces) := by
          intro out' cur' hp
          have hcur' : cur' ≠ [] := by
            rintro rfl
            exact hblank (List.suffix_nil.mp hp)
          obtain ⟨chunks,rest,hrun,hchunks,hfirst,hfound⟩ := ih out' cur' hfuel'
          obtain ⟨c,cs,rfl,hc⟩ := hfirst hcur'
          refine ⟨chunks,c,cs,hrun,hchunks,hc,?_⟩
          refine .short (Nat.le_refl _) ?_ hlong' (hp.isInfix.trans hc.isInfix) hfound
          rw [hchunks,List.getElem?_append_right (Nat.le_refl _),Nat.sub_self]
          rfl
        by_cases hflush : size < cur.length+2+p.length ∧ cur ≠ []
        · rw [if_pos hflush,if_pos hflush,if_pos (tailString_ne_nil overlap hflush.2)]
          obtain ⟨chunks,c,cs,hrun,hchunks,-,hfound⟩ := hfill (out ++ [cur]) (List.suffix_append _ p)
          refine ⟨chunks,cur :: c :: cs,hrun,?_,fun _ => ⟨cur,c :: cs,rfl,List.prefix_rfl⟩,?_⟩
          · rw [hchunks,List.append_assoc]
            rfl
          · rw [List.length_append] at hfound
            exact hfound.from_earlier (Nat.le_add_right _ _)
        · rw [if_neg hflush,if_neg hflush]
          obtain ⟨chunks,c,cs,hrun,hchunks,hc,hfound⟩ := hfill out (List.suffix_append _ p)
          refine ⟨chunks,c :: cs,hrun,hchunks,fun hcur => ⟨c,cs,rfl,?_⟩,hfound⟩
          rw [if_pos hcur,List.append_assoc] at hc
          exact (List.prefix_append cur _).trans hc

lemma chunkEach_mono {fuel' : ℕ} {pieces out chunks : List Bytes} {cur : Bytes}
    (h : chunkEach fuel size overlap pieces out cur = some chunks) (hfuel : fuel ≤ fuel') :
    chunkEach fuel' size overlap pieces out cur = some chunks := by
  induction pieces generalizing out cur with
  | nil => exact h
  | cons p pieces ih =>
    rw [chunkEach] at h ⊢
    dsimp only at h ⊢
    split at h
    · next hblank =>
      rw [if_pos hblank]
      exact ih h
    · next hblank =>
      rw [if_neg hblank]
      split at h
      · next hlong =>
        rw [if_pos hlong]
        cases hwindows : charWindows fuel (trimSpace p) size overlap with
        | none =>
          rw [hwindows] at h
          cases h
        | some windows =>
          have hmore : charWindows fuel' (trimSpace p) size overlap = some windows := windowsFrom_mono hwindows hfuel
          rw [hwindows] at h
          rw [hmore]
          exact ih h
      · next hlong =>
        rw [if_neg hlong]
        exact ih h

end Loop

lemma effectiveSize_pos (size : ℤ) : 0 < effectiveSize size := by
  rw [effectiveSize]
  split
  · decide
  · omega

/-- The overlap is made smaller than a chunk. -/
lemma effectiveOverlap_lt {size : ℕ} (hsize : 0 < size) (overlap : ℤ) : effectiveOverlap size overlap < size := by
  have hcut : ∀ n : ℕ, (if size ≤ n then size/4 else n) < size := by
    intro n
    split
    · omega
    · omega
  exact hcut _

lemma length_trimSpace_le (s : Bytes) : (trimSpace s).length ≤ s.length := (trimSpace_isInfix s).length_le

lemma infix_of_mem_paragraphs {body p : Bytes} (h : p ∈ paragraphs (split body (lit "\n\n"))) : p <:+: body := by
  obtain ⟨hp,-⟩ := List.mem_filter.mp h
  obtain ⟨piece,hpiece,rfl⟩ := List.mem_map.mp hp
  exact (trimSpace_isInfix piece).trans (infix_of_mem_splitN hpiece)

/-- Paragraphs of a short document all stand in its only chunk. -/
lemma found_whole {size overlap : ℕ} {body : Bytes} {paras : List Bytes} (hbody : body.length ≤ size)
    (h : ∀ p ∈ paras, p <:+: body) : Found size overlap [body] 0 paras := by
  induction paras with
  | nil => exact .nil 0
  | cons p paras ih =>
    have hp := h p List.mem_cons_self
    exact .short (Nat.le_refl 0) rfl (hp.length_le.trans hbody) hp (ih fun q hq => h q (List.mem_cons_of_mem p hq))

lemma length_of_mem_paragraphs {body p : Bytes} (h : p ∈ paragraphs (split (trimSpace body) (lit "\n\n"))) :
    p.length < body.length+1 :=
  Nat.lt_succ_of_le ((infix_of_mem_paragraphs h).length_le.trans (length_trimSpace_le body))

/-- Chunking ends. -/
lemma Chunk_ends (body : Bytes) (size overlap : ℤ) : ∃ chunks, ∀ fuel, body.length < fuel →
    Chunk fuel body size overlap = some chunks := by
  have hoverlap := effectiveOverlap_lt (effectiveSize_pos size) overlap
  by_cases hshort : (trimSpace body).length ≤ effectiveSize size
  · exact ⟨_,fun fuel _ => if_pos hshort⟩
  · obtain ⟨chunks,rest,hrun,-,-,-⟩ := chunkEach_found hoverlap _ [] [] fun p => length_of_mem_paragraphs
    refine ⟨chunks,fun fuel hlt => ?_⟩
    rw [Chunk,if_neg hshort]
    exact chunkEach_mono hrun hlt

/-- Chunking ends, and every paragraph of the document is found in the chunks. -/
theorem Chunk_found (body : Bytes) (size overlap : ℤ) : ∃ chunks,
    (∀ fuel, body.length < fuel → Chunk fuel body size overlap = some chunks) ∧
      Found (effectiveSize size) (effectiveOverlap (effectiveSize size) overlap) chunks 0
        (paragraphs (split (trimSpace body) (lit "\n\n"))) := by
  have hoverlap := effectiveOverlap_lt (effectiveSize_pos size) overlap
  obtain ⟨chunks,hends⟩ := Chunk_ends body size overlap
  refine ⟨chunks,hends,?_⟩
  have hchunks := hends (body.length+1) (Nat.lt_succ_self _)
  rw [Chunk] at hchunks
  split at hchunks
  · next hshort =>
    obtain rfl := Option.some.inj hchunks
    split
    · next hnil =>
      rw [hnil]
      exact .nil 0
    · exact found_whole hshort fun p => infix_of_mem_paragraphs
  · obtain ⟨whole,rest,hrun,-,-,hfound⟩ := chunkEach_found hoverlap _ [] [] fun p => length_of_mem_paragraphs
    obtain rfl := Option.some.inj (hrun.symm.trans hchunks)
    exact hfound

end Kb
