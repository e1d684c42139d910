import Cadoo.Kb.ChunkSize

/-! The chunks as text. Windows and overlaps are cut by bytes, at places that only depend on how long the paragraphs
are, and every chunk is valid UTF-8 just when a rune begins at each of them. -/
namespace Kb
open Bytes Utf8

/-- The cuts in an overlong paragraph: the end of a window, and the beginning of the next. -/
def windowCuts (size overlap len : ℕ) : List ℕ :=
  ((List.range len).filter fun k => k*(size-overlap)+size < len).flatMap fun k =>
    [k*(size-overlap)+size,(k+1)*(size-overlap)]

/-- How much of a flushed chunk the next one repeats. -/
def kept (overlap n : ℕ) : ℕ := if overlap = 0 ∨ n ≤ overlap then n else overlap

/-- The cuts by the lengths of the paragraphs, where the first of them begins, and how much waits in front of it. -/
def cuts (size overlap : ℕ) : ℕ → ℕ → List ℕ → List ℕ
  | _, _, [] => []
  | start, n, len :: lens =>
    if size < len then (windowCuts size overlap len).map (start + ·) ++ cuts size overlap (start+len+2) 0 lens
    else if size < n+2+len ∧ n ≠ 0 then
      (if kept overlap n < n then [start-2-overlap] else []) ++
        cuts size overlap (start+len+2) (kept overlap n+2+len) lens
    else cuts size overlap (start+len+2) ((if n ≠ 0 then n+2 else 0)+len) lens

/-- Paragraphs with a blank line after each. -/
def laidOut (paras : List Bytes) : Bytes := paras.flatMap (· ++ lit "\n\n")

def Valid (chunks : List Bytes) : Prop := ∀ c ∈ chunks, valid c = true

instance (chunks : List Bytes) : Decidable (Valid chunks) := List.decidableBAll (fun c => valid c = true) chunks

/-- Nothing is cut, or a rune begins at every cut. -/
def CutAtRunes (size overlap : ℕ) (body : Bytes) : Prop :=
  body.length ≤ size ∨
    ∀ i ∈ cuts size overlap 0 0 ((paragraphs (split body (lit "\n\n"))).map List.length),
      Boundary (laidOut (paragraphs (split body (lit "\n\n")))) i

instance (size overlap : ℕ) (body : Bytes) : Decidable (CutAtRunes size overlap body) :=
  inferInstanceAs (Decidable (_ ∨ _))

section Valid
variable {chunks others : List Bytes} {c : Bytes}

lemma valid_chunks_append : Valid (chunks ++ others) ↔ Valid chunks ∧ Valid others := List.forall_mem_append

lemma valid_chunks_flush (hc : valid c = true) : Valid (if c ≠ [] then chunks ++ [c] else chunks) ↔ Valid chunks := by
  split
  · rw [valid_chunks_append]
    exact and_iff_left (List.forall_mem_singleton.mpr hc)
  · exact Iff.rfl

end Valid

section Windows
variable {s : Bytes} {size overlap : ℕ}

lemma window_succ (i d k : ℕ) : i+(k+1)*d = i+d+k*d := by
  rw [Nat.add_mul,Nat.one_mul,Nat.add_comm (k*d),Nat.add_assoc]

/-- The windows from a position on are valid when runes begin there and at the cuts after it. -/
lemma windowsFrom_valid_iff (hs : valid s = true) (hoverlap : overlap < size) {fuel i : ℕ} {windows : List Bytes}
    (hi : i < s.length) (h : windowsFrom s size (size-overlap) fuel i = some windows) :
    Valid windows ↔ Boundary s i ∧ ∀ k, i+k*(size-overlap)+size < s.length →
      Boundary s (i+k*(size-overlap)+size) ∧ Boundary s (i+(k+1)*(size-overlap)) := by
  have hwindow : valid ((s.drop i).take size) = true ↔ Boundary s i ∧ Boundary s (i+size) :=
    valid_slice hs hi (by omega)
  induction fuel generalizing i windows with
  | zero => cases h
  | succ fuel ih =>
    rw [windowsFrom_succ hi] at h
    split at h
    · next hlast =>
      obtain rfl := Option.some.inj h
      have hend : Boundary s (i+size) := by
        rw [Boundary,List.getElem?_eq_none hlast]
        exact fun b hb => by cases hb
      rw [Valid,List.forall_mem_singleton,hwindow,and_iff_left hend]
      exact (and_iff_left fun k hk => by omega).symm
    · next hmore =>
      obtain ⟨rest,hrest,rfl⟩ := Option.map_eq_some_iff.mp h
      have hnext : i+(size-overlap) < s.length := by omega
      rw [Valid,List.forall_mem_cons,hwindow]
      refine (and_congr_right' (ih hnext hrest (valid_slice hs hnext (by omega)))).trans ?_
      rw [and_assoc]
      refine and_congr_right fun _ => ?_
      constructor
      · rintro ⟨hend,hbegin,hcuts⟩ k hk
        cases k with
        | zero =>
          rw [Nat.zero_mul,Nat.add_zero,Nat.zero_add,Nat.one_mul]
          exact ⟨hend,hbegin⟩
        | succ k =>
          rw [window_succ] at hk ⊢
          rw [window_succ]
          exact hcuts k hk
      · intro h
        have hfirst := h 0 (by omega)
        rw [Nat.zero_mul,Nat.add_zero,Nat.zero_add,Nat.one_mul] at hfirst
        refine ⟨hfirst.1,hfirst.2,fun k hk => ?_⟩
        rw [← window_succ] at hk ⊢
        rw [← window_succ]
        exact h (k+1) hk

/-- An overlong paragraph is cut into valid windows when a rune begins at each of its cuts. -/
lemma charWindows_valid_iff (hs : valid s = true) (hne : s ≠ []) (hoverlap : overlap < size) {fuel : ℕ}
    {windows : List Bytes} (h : charWindows fuel s size overlap = some windows) :
    Valid windows ↔ ∀ i ∈ windowCuts size overlap s.length, Boundary s i := by
  have hstep : ¬ size-overlap < 1 := by omega
  rw [charWindows] at h
  simp only [if_neg hstep] at h
  have hstart : Boundary s 0 := by
    rw [← valid_drop hs]
    exact hs
  rw [windowsFrom_valid_iff hs hoverlap (List.length_pos_of_ne_nil hne) h,and_iff_right hstart,windowCuts]
  simp only [Nat.zero_add,List.forall_mem_flatMap,List.mem_filter,List.mem_range,decide_eq_true_eq,
    List.forall_mem_cons,and_imp,List.not_mem_nil,false_imp_iff,implies_true,and_true]
  refine forall_congr' fun k => ⟨fun hk _ => hk,fun hk hlt => hk ?_ hlt⟩
  have hle : k*1 ≤ k*(size-overlap) := Nat.mul_le_mul_left k (by omega)
  omega

lemma windowCuts_lt {len i : ℕ} (hoverlap : overlap < size) (h : i ∈ windowCuts size overlap len) : i < len := by
  rw [windowCuts,List.mem_flatMap] at h
  obtain ⟨k,hk,hi⟩ := h
  have hlt : k*(size-overlap)+size < len := by simpa using (List.mem_filter.mp hk).2
  have hnext := window_succ 0 (size-overlap) k
  simp only [List.mem_cons,List.not_mem_nil,or_false] at hi
  omega

end Windows

section Loop
variable {fuel size overlap : ℕ}

lemma length_tailString (s : Bytes) (n : ℕ) : (tailString s n).length = kept n s.length := by
  rw [tailString,kept]
  split
  · rfl
  · rw [List.length_drop]
    omega

/-- The chunk being filled stays in front of a later chunk. -/
lemma chunkEach_keeps (hoverlap : overlap < size) {pieces out chunks : List Bytes} {cur : Bytes} (hcur : cur ≠ [])
    (hfuel : ∀ p ∈ paragraphs pieces, p.length < fuel)
    (hrun : chunkEach fuel size overlap pieces out cur = some chunks) : ∃ c ∈ chunks, cur <+: c := by
  obtain ⟨chunks',rest,hrun',hchunks,hfirst,-⟩ := chunkEach_found hoverlap pieces out cur hfuel
  obtain rfl := Option.some.inj (hrun.symm.trans hrun')
  obtain ⟨c,cs,rfl,hpre⟩ := hfirst hcur
  exact ⟨c,by rw [hchunks]; exact List.mem_append_right out List.mem_cons_self,hpre⟩

lemma boundary_append {front s more : Bytes} {i : ℕ} (hi : i < s.length) :
    Boundary (front ++ s ++ more) (front.length+i) ↔ Boundary s i := by
  rw [Boundary,List.append_assoc,List.getElem?_append_right (Nat.le_add_right _ _),Nat.add_sub_cancel_left,
    List.getElem?_append_left hi]
  rfl

lemma laidOut_cons (p : Bytes) (paras : List Bytes) : laidOut (p :: paras) = p ++ lit "\n\n" ++ laidOut paras :=
  List.flatMap_cons

lemma valid_gap : valid (lit "\n\n") = true := by decide +kernel

lemma valid_paragraphs {body : Bytes} (h : valid body = true) : Valid (paragraphs (split body (lit "\n\n"))) := by
  intro p hp
  obtain ⟨piece,hpiece,rfl⟩ := List.mem_map.mp (List.mem_of_mem_filter hp)
  exact valid_trimSpace (valid_splitN (forall_of_all (by decide)) (by decide) h hpiece)

/-- What is repeated of a chunk is valid when a rune begins at the cut. -/
lemma tailString_valid_iff {cur : Bytes} (hcur : valid cur = true) (before more : Bytes) :
    valid (tailString cur overlap) = true ↔ (kept overlap cur.length < cur.length →
      Boundary (before ++ cur ++ lit "\n\n" ++ more) ((before ++ cur ++ lit "\n\n").length-2-overlap)) := by
  by_cases hcut : overlap = 0 ∨ cur.length ≤ overlap
  · rw [tailString,if_pos hcut,kept,if_pos hcut]
    exact iff_of_true hcur fun h => absurd h (Nat.lt_irrefl _)
  · have hlt : overlap < cur.length := by omega
    have hplace : (before ++ cur ++ lit "\n\n").length-2-overlap = before.length+(cur.length-overlap) := by
      have hgap : (lit "\n\n").length = 2 := by decide
      rw [List.length_append,List.length_append,hgap]
      omega
    rw [tailString,if_neg hcut,kept,if_neg hcut,hplace,List.append_assoc _ _ more,boundary_append (by omega),
      valid_drop hcur]
    exact ⟨fun h _ => h,fun h => h hlt⟩

lemma tailString_suffix (s : Bytes) (n : ℕ) : tailString s n <:+ s := by
  rw [tailString]
  split
  · exact List.suffix_rfl
  · exact List.drop_suffix _ s

/-- What waits to be a chunk stands at the end of the text so far, also with a paragraph more. -/
lemma fill_front {cur front : Bytes} (hfront : cur ≠ [] → ∃ before, front = before ++ cur ++ lit "\n\n") (p : Bytes) :
    ∃ before, front ++ p = before ++ ((if cur ≠ [] then cur ++ lit "\n\n" else cur) ++ p) := by
  split
  · next hne =>
    obtain ⟨before,rfl⟩ := hfront hne
    exact ⟨before,by simp only [List.append_assoc]⟩
  · next hnil =>
    rw [not_not.mp hnil]
    exact ⟨front,rfl⟩

lemma length_fill (cur p : Bytes) : ((if cur ≠ [] then cur ++ lit "\n\n" else cur) ++ p).length =
    (if cur.length ≠ 0 then cur.length+2 else 0)+p.length := by
  cases cur with
  | nil => exact (Nat.zero_add _).symm
  | cons b cur =>
    have hlen : (b :: cur).length ≠ 0 := Nat.succ_ne_zero _
    rw [if_pos (List.cons_ne_nil b cur),if_pos hlen,List.length_append,List.length_append]
    rfl

/-- A chunk that begins with a repeated part shows whether that is valid. -/
lemma tailString_of_prefix {cur c : Bytes} (hcur : valid cur = true) (hne : cur ≠ []) (hpre : tailString cur overlap <+: c)
    (hc : valid c = true) : valid (tailString cur overlap) = true := by
  obtain ⟨b,t,ht⟩ := List.exists_cons_of_ne_nil (tailString_ne_nil overlap hne)
  rw [ht] at hpre
  obtain ⟨rest,rfl⟩ := hpre
  have hfirst : b.IsUTF8FirstByte := head_of_valid hc
  rw [tailString] at ht ⊢
  split
  · exact hcur
  · next hcut =>
    rw [if_neg hcut] at ht
    rw [valid_drop hcur]
    intro x hx
    have hhead : (cur.drop (cur.length-overlap))[0]? = some x := by
      rw [List.getElem?_drop,Nat.add_zero]
      exact hx
    rw [ht] at hhead
    rwa [← Option.some.inj hhead]

/-- The chunks made from here on are valid when a rune begins at every cut from here on. -/
lemma chunkEach_valid_iff (hoverlap : overlap < size) {pieces out chunks : List Bytes} {cur front text : Bytes}
    (htext : text = front ++ laidOut (paragraphs pieces))
    (hfront : cur ≠ [] → ∃ before, front = before ++ cur ++ lit "\n\n") (hcur : valid cur = true)
    (hparas : Valid (paragraphs pieces)) (hfuel : ∀ p ∈ paragraphs pieces, p.length < fuel)
    (hrun : chunkEach fuel size overlap pieces out cur = some chunks) :
    Valid chunks ↔ Valid out ∧
      ∀ i ∈ cuts size overlap front.length cur.length ((paragraphs pieces).map List.length), Boundary text i := by
  induction pieces generalizing out cur front with
  | nil =>
    obtain rfl := Option.some.inj hrun
    rw [valid_chunks_flush hcur]
    exact (and_iff_left (List.forall_mem_nil _)).symm
  | cons p pieces ih =>
    rw [paragraphs_cons] at htext hparas hfuel ⊢
    rw [chunkEach] at hrun
    dsimp only at hrun
    split at hrun
    · next hblank =>
      rw [if_pos hblank] at htext hparas hfuel ⊢
      exact ih htext hfront hcur hparas hfuel hrun
    · next hblank =>
      rw [if_neg hblank] at htext hparas hfuel ⊢
      generalize trimSpace p = p at hrun hblank htext hparas hfuel
      obtain ⟨hp,hparas⟩ := List.forall_mem_cons.mp hparas
      obtain ⟨hpfuel,hfuel⟩ := List.forall_mem_cons.mp hfuel
      have hgap : (lit "\n\n").length = 2 := by decide
      have hnext : text = (front ++ p ++ lit "\n\n") ++ laidOut (paragraphs pieces) := by
        rw [htext,laidOut_cons]
        simp only [List.append_assoc]
      have hstart : (front ++ p ++ lit "\n\n").length = front.length+p.length+2 := by
        rw [List.length_append,List.length_append,hgap]
      rw [List.map_cons,cuts]
      split at hrun
      · next hlong =>
        rw [if_pos hlong,List.forall_mem_append]
        cases hwindows : charWindows fuel p size overlap with
        | none =>
          rw [hwindows] at hrun
          cases hrun
        | some windows =>
          rw [hwindows] at hrun
          have hcuts : (∀ i ∈ (windowCuts size overlap p.length).map (front.length + ·), Boundary text i) ↔
              ∀ i ∈ windowCuts size overlap p.length, Boundary p i := by
            rw [List.forall_mem_map]
            refine forall₂_congr fun i hi => ?_
            rw [htext,laidOut_cons,List.append_assoc p,← List.append_assoc front,
              boundary_append (windowCuts_lt hoverlap hi)]
          have hlater := ih hnext (fun h => absurd rfl h) rfl hparas hfuel hrun
          rw [valid_chunks_append,valid_chunks_flush hcur,charWindows_valid_iff hp hblank hoverlap hwindows,hstart,
            and_assoc] at hlater
          rw [hcuts]
          exact hlater
      · next hshort =>
        rw [if_neg hshort]
        have hflush : (size < cur.length+2+p.length ∧ cur ≠ []) ↔ size < cur.length+2+p.length ∧ cur.length ≠ 0 := by
          rw [ne_eq,ne_eq,List.length_eq_zero_iff]
        by_cases hfull : size < cur.length+2+p.length ∧ cur ≠ []
        · rw [if_pos hfull,if_pos hfull,if_pos (tailString_ne_nil overlap hfull.2)] at hrun
          rw [if_pos (hflush.mp hfull),List.forall_mem_append]
          obtain ⟨before,hbefore⟩ := hfront hfull.2
          have hhere : (∀ i ∈ (if kept overlap cur.length < cur.length then [front.length-2-overlap] else []),
              Boundary text i) ↔ valid (tailString cur overlap) = true := by
            rw [tailString_valid_iff hcur before (laidOut (p :: paragraphs pieces)),← hbefore,← htext]
            split
            · next hcut => rw [List.forall_mem_singleton,forall_prop_of_true hcut]
            · next hwhole => exact iff_of_true (List.forall_mem_nil _) fun hcut => absurd hcut hwhole
          rw [hhere]
          by_cases htail : valid (tailString cur overlap) = true
          · obtain ⟨part,hpart⟩ := tailString_suffix cur overlap
            have hfront' : front ++ p ++ lit "\n\n" = (before ++ part) ++
                (tailString cur overlap ++ lit "\n\n" ++ p) ++ lit "\n\n" := by
              rw [hbefore]
              nth_rewrite 1 [← hpart]
              simp only [List.append_assoc]
            have hlater := ih hnext (fun _ => ⟨_,hfront'⟩) (valid_append (valid_append htail valid_gap) hp) hparas
              hfuel hrun
            rw [hstart,List.length_append,List.length_append,length_tailString,hgap,valid_chunks_append] at hlater
            have hone : Valid [cur] := List.forall_mem_singleton.mpr hcur
            rw [hlater,and_iff_right htail,and_iff_left hone]
          · refine iff_of_false (fun hchunks => htail ?_) fun h => htail h.2.1
            obtain ⟨c,hc,hpre⟩ := chunkEach_keeps hoverlap (by simp [hblank]) hfuel hrun
            rw [List.append_assoc] at hpre
            exact tailString_of_prefix hcur hfull.2 ((List.prefix_append _ _).trans hpre) (hchunks c hc)
        · rw [if_neg hfull,if_neg hfull] at hrun
          rw [if_neg (mt hflush.mpr hfull)]
          obtain ⟨before,hbefore⟩ := fill_front hfront p
          have hfront' : front ++ p ++ lit "\n\n" =
              before ++ ((if cur ≠ [] then cur ++ lit "\n\n" else cur) ++ p) ++ lit "\n\n" := by
            rw [hbefore]
          have hvalid : valid ((if cur ≠ [] then cur ++ lit "\n\n" else cur) ++ p) = true := by
            refine valid_append ?_ hp
            split
            · exact valid_append hcur valid_gap
            · exact hcur
          have hlater := ih hnext (fun _ => ⟨before,hfront'⟩) hvalid hparas hfuel hrun
          rw [hstart,length_fill] at hlater
          exact hlater

end Loop

/-- The chunks of a valid document are valid just when it is not cut or a rune begins at every cut. -/
theorem Chunk_valid_iff {body : Bytes} (h : valid body = true) (size overlap : ℤ) : ∃ chunks,
    (∀ fuel, body.length < fuel → Chunk fuel body size overlap = some chunks) ∧
      (Valid chunks ↔
        CutAtRunes (effectiveSize size) (effectiveOverlap (effectiveSize size) overlap) (trimSpace body)) := by
  obtain ⟨chunks,hrun⟩ := Chunk_ends body size overlap
  refine ⟨chunks,hrun,?_⟩
  have hchunks := hrun (body.length+1) (Nat.lt_succ_self _)
  have hoverlap := effectiveOverlap_lt (effectiveSize_pos size) overlap
  have hbody := valid_trimSpace h
  have hlength := length_trimSpace_le body
  rw [Chunk] at hchunks
  generalize effectiveOverlap (effectiveSize size) overlap = overlap at hchunks hoverlap ⊢
  generalize effectiveSize size = size at hchunks hoverlap ⊢
  generalize trimSpace body = body' at hchunks hbody hlength ⊢
  split at hchunks
  · next hshort =>
    refine iff_of_true ?_ (.inl hshort)
    obtain rfl := Option.some.inj hchunks
    split
    · exact List.forall_mem_nil _
    · exact List.forall_mem_singleton.mpr hbody
  · next hlong =>
    have hfuel : ∀ p ∈ paragraphs (split body' (lit "\n\n")), p.length < body.length+1 := fun p hp =>
      Nat.lt_succ_of_le ((infix_of_mem_paragraphs hp).length_le.trans hlength)
    rw [CutAtRunes,or_iff_right hlong]
    have htext : laidOut (paragraphs (split body' (lit "\n\n"))) =
        [] ++ laidOut (paragraphs (split body' (lit "\n\n"))) := rfl
    rw [chunkEach_valid_iff hoverlap htext (fun h => absurd rfl h) rfl (valid_paragraphs hbody) hfuel hchunks]
    exact and_iff_right (List.forall_mem_nil _)

section Example

/-- A document of Latin letters beyond ASCII, two bytes each, behind one letter of a single byte. -/
def accented (n : ℕ) : Bytes := lit "a" ++ (List.replicate n (lit "é")).flatten

/-- A window of 800 bytes ends within a letter. -/
theorem letter_cut : valid (accented 400) = true ∧
    let chunks := [(accented 400).take 800,(accented 400).drop 720]
    Chunk 802 (accented 400) 800 80 = some chunks ∧ ¬ Valid chunks := by
  decide +kernel

theorem ascii_whole : ∃ chunks,
    (∀ fuel, 13 < fuel → Chunk fuel (lit "one\n\ntwo\n\nsix") 8 3 = some chunks) ∧ Valid chunks := by
  obtain ⟨chunks,hrun,hvalid⟩ := @Chunk_valid_iff (lit "one\n\ntwo\n\nsix") (by decide +kernel) 8 3
  exact ⟨chunks,fun fuel hfuel => hrun fuel (lt_of_eq_of_lt (by decide +kernel) hfuel),
    hvalid.mpr (by decide +kernel)⟩

end Example

end Kb
