import Mathlib.Data.List.Perm.Subperm
import Cadoo.Tools.DiffAnchor
import Cadoo.Vcs.DiffIndex

/-! Which diffs the GitLab index gets right, and that it agrees there with the lines a finding may be placed
on. -/
namespace GitLab
open Bytes Utf8 Vcs UnifiedDiff

section Lines
variable (newPath oldPath : Bytes)

/-- Added lines that look like a file header. -/
def headed : Line → Bool
  | .added t => hasPrefix t (lit "++")
  | _ => false

/-- Removed lines that look like a file header. -/
def dashed : Line → Bool
  | .removed t => hasPrefix t (lit "--")
  | _ => false

/-- Lines that both files have. -/
def shared (l : Line) : Bool := l.inOld && l.inNew

/-- The anchor that a line of the new file should have. -/
def trueAnchor (e : ℕ × Option ℕ) : DiffAnchor := ⟨newPath,oldPath,e.1,(e.2.getD 0 : ℕ),e.2.isSome⟩

lemma lineAnchor_of_headed {n o : ℤ} {t : Text} (h : headed (.added t) = false) :
    lineAnchor newPath oldPath n o (.added t) = some ⟨newPath,oldPath,n,0,false⟩ ∧ numbered (.added t) = true := by
  rw [headed] at h
  rw [lineAnchor,numbered,h]
  exact ⟨rfl,rfl⟩

/-- Without header-like lines in the way, each line gets its own anchor. -/
lemma walked_eq {ls : List Line} {n o : ℕ} {o' : ℤ} (hadded : ∀ l ∈ ls, headed l = false)
    (hremoved : ls.Pairwise fun l l' => dashed l = true → shared l' = false)
    (hold : o' = o ∨ ∀ l ∈ ls, shared l = false) :
    walked newPath oldPath n o' ls = (sides n o ls).map (trueAnchor newPath oldPath) := by
  induction ls generalizing n o o' with
  | nil => rfl
  | cons l ls ih =>
    have hadded' : ∀ l ∈ ls, headed l = false := fun k hk => hadded k (List.mem_cons_of_mem l hk)
    obtain ⟨hdash,hremoved'⟩ := List.pairwise_cons.mp hremoved
    cases l with
    | context _ | blank =>
      obtain rfl := hold.resolve_right fun h => nomatch (h _ List.mem_cons_self : true = false)
      exact congrArg (List.cons _) (ih hadded' hremoved' (.inl rfl))
    | added t =>
      obtain ⟨hanchor,hnum⟩ := lineAnchor_of_headed newPath oldPath (n := n) (o := o')
        (hadded _ List.mem_cons_self)
      rw [walked,hanchor,hnum]
      refine congrArg (List.cons _) (ih hadded' hremoved' ?_)
      refine hold.imp (fun h => ?_) fun h k hk => h k (List.mem_cons_of_mem _ hk)
      exact (Int.add_zero o').trans h
    | removed t =>
      refine ih hadded' hremoved' ?_
      cases hd : hasPrefix t.val (lit "--") with
      | true => exact .inr fun k hk => hdash k hk hd
      | false =>
        refine hold.imp (fun h => ?_) fun h k hk => h k (List.mem_cons_of_mem _ hk)
        rw [counted,hd,h]
        rfl
    | noNewline t =>
      refine ih hadded' hremoved' ?_
      refine hold.imp (fun h => ?_) fun h k hk => h k (List.mem_cons_of_mem _ hk)
      exact (Int.add_zero o').trans h

/-- Where the old numbers are right, no line of both files comes after a removed line that looks like a header. -/
lemma pairwise_of_old_right {ls : List Line} {n o : ℕ} {q : ℤ} (hadded : ∀ l ∈ ls, headed l = false)
    (hle : q ≤ o) (hright : ∀ a ∈ walked newPath oldPath n q ls, ∀ e ∈ sides n o ls, a.newLine = e.1 →
      a.oldLine = (e.2.getD 0 : ℕ)) :
    (ls.Pairwise fun l l' => dashed l = true → shared l' = false) ∧
      (q < o → ∀ l ∈ ls, shared l = false) := by
  induction ls generalizing n o q with
  | nil => exact ⟨List.Pairwise.nil,fun _ l hl => nomatch hl⟩
  | cons l ls ih =>
    have hadded' : ∀ l ∈ ls, headed l = false := fun k hk => hadded k (List.mem_cons_of_mem l hk)
    have htail : ∀ a ∈ walked newPath oldPath (n + (numbered l).toNat) (q + (counted l).toNat) ls,
        a ∈ walked newPath oldPath n q (l :: ls) := fun a ha => List.mem_append_right _ ha
    cases l with
    | context _ | blank =>
      have hfirst : q = o := hright _ List.mem_cons_self _ List.mem_cons_self rfl
      obtain ⟨hpairs,-⟩ := ih (n := n+1) (o := o+1) (q := q+1) hadded' (by omega) fun a ha e he =>
        hright a (htail a ha) e (List.mem_cons_of_mem _ he)
      exact ⟨List.pairwise_cons.mpr ⟨fun k hk h => (nomatch h),hpairs⟩,fun hlt => by omega⟩
    | added t =>
      obtain ⟨-,hnum⟩ := lineAnchor_of_headed newPath oldPath (n := n) (o := q) (hadded _ List.mem_cons_self)
      rw [hnum] at htail
      obtain ⟨hpairs,hshared⟩ := ih (n := n+1) (o := o) (q := q + (0 : ℕ)) hadded' (by omega) fun a ha e he =>
        hright a (htail a ha) e (List.mem_cons_of_mem _ he)
      refine ⟨List.pairwise_cons.mpr ⟨fun k hk h => (nomatch h),hpairs⟩,fun hlt k hk => ?_⟩
      rcases List.mem_cons.mp hk with rfl | hk
      · rfl
      · exact hshared (by omega) k hk
    | removed t =>
      cases hd : hasPrefix t.val (lit "--") with
      | true =>
        have hcount : counted (.removed t) = false := congrArg not hd
        rw [hcount] at htail
        obtain ⟨hpairs,hshared⟩ := ih (n := n) (o := o+1) (q := q + (0 : ℕ)) hadded' (by omega) fun a ha e he =>
          hright a (htail a ha) e he
        have hrest := hshared (by omega)
        refine ⟨List.pairwise_cons.mpr ⟨fun k hk _ => hrest k hk,hpairs⟩,fun _ k hk => ?_⟩
        rcases List.mem_cons.mp hk with rfl | hk
        · rfl
        · exact hrest k hk
      | false =>
        have hcount : counted (.removed t) = true := congrArg not hd
        rw [hcount] at htail
        obtain ⟨hpairs,hshared⟩ := ih (n := n) (o := o+1) (q := q + (1 : ℕ)) hadded' (by omega) fun a ha e he =>
          hright a (htail a ha) e he
        refine ⟨List.pairwise_cons.mpr ⟨fun k hk h => ?_,hpairs⟩,fun hlt k hk => ?_⟩
        · rw [dashed,hd] at h
          cases h
        · rcases List.mem_cons.mp hk with rfl | hk
          · rfl
          · exact hshared (by omega) k hk
    | noNewline t =>
      obtain ⟨hpairs,hshared⟩ := ih (n := n) (o := o) (q := q + (0 : ℕ)) hadded' (by omega) fun a ha e he =>
        hright a (htail a ha) e he
      refine ⟨List.pairwise_cons.mpr ⟨fun k hk h => (nomatch h),hpairs⟩,fun hlt k hk => ?_⟩
      rcases List.mem_cons.mp hk with rfl | hk
      · rfl
      · exact hshared (by omega) k hk

/-- Anchors of added lines and added lines that look like headers make up the added lines. -/
lemma length_walked_added (ls : List Line) (n o : ℤ) (k : ℕ) :
    ((walked newPath oldPath n o ls).filter fun a => !a.context).length + ls.countP headed =
      (addedFrom k ls).length := by
  induction ls generalizing n o k with
  | nil => rfl
  | cons l ls ih =>
    rw [walked,List.filter_append,List.length_append]
    cases l with
    | context t => simpa [lineAnchor,addedFrom,headed] using ih _ _ _
    | blank => simpa [lineAnchor,addedFrom,headed] using ih _ _ _
    | added t =>
      have := ih (n + (numbered (.added t)).toNat) (o + (counted (.added t)).toNat) (k+1)
      cases hd : hasPrefix t.val (lit "++") with
      | true | false =>
        simp only [lineAnchor,hd,addedFrom,headed,List.countP_cons,List.length_cons]
        simp
        omega
    | removed t => simpa [lineAnchor,addedFrom,headed] using ih _ _ _
    | noNewline t => simpa [lineAnchor,addedFrom,headed] using ih _ _ _

lemma walked_increasing (ls : List Line) (n o : ℤ) :
    (walked newPath oldPath n o ls).Pairwise fun a b => a.newLine < b.newLine := by
  induction ls generalizing n o with
  | nil => exact List.Pairwise.nil
  | cons l ls ih =>
    refine List.pairwise_append.mpr ⟨?_,ih _ _,fun a ha b hb => ?_⟩
    · cases lineAnchor newPath oldPath n o l with
      | none => exact List.Pairwise.nil
      | some a => exact List.pairwise_singleton _ _
    · obtain ⟨hge,-⟩ := (mem_walked newPath oldPath).mp ⟨b,hb,rfl⟩
      have ha := Option.mem_toList.mp ha
      have hnum := isSome_lineAnchor newPath oldPath n o l
      rw [Option.mem_def.mp ha] at hnum
      have hone : (((numbered l).toNat : ℕ) : ℤ) = 1 := by
        rw [← hnum]
        rfl
      rw [newLine_of_lineAnchor newPath oldPath ha]
      omega

/-- A hunk without added lines that look like a header has its numbers in reach. -/
lemma reach_of_not_headed {ls : List Line} (h : ∀ l ∈ ls, headed l = false) :
    reach ls = ls.countP Line.inNew := reach_eq fun t ht => h (.added t) ht

lemma reach_le (ls : List Line) : reach ls ≤ ls.countP Line.inNew := by
  refine List.countP_mono_left fun l _ hl => ?_
  cases l with
  | context t => rfl
  | blank => rfl
  | added t => rfl
  | removed t => cases hl
  | noNewline t => cases hl

/-- The anchors of a patch are put in order. -/
lemma patchAnchors_increasing (p : Patch) :
    (patchAnchors newPath oldPath p).Pairwise fun a b => a.newLine < b.newLine := by
  have hreach : ∀ {h : Hunk} {a : DiffAnchor}, a ∈ hunkAnchors newPath oldPath h →
      h.new.start ≤ a.newLine ∧ a.newLine < h.new.start + reach h.body ∧ reach h.body ≤ h.new.size := by
    intro h a ha
    obtain ⟨hge,hlt⟩ := (mem_walked newPath oldPath).mp ⟨a,ha,rfl⟩
    exact ⟨hge,hlt,h.new_size ▸ reach_le h.body⟩
  refine List.pairwise_append.mpr ⟨?_,?_,fun a ha b hb => ?_⟩
  · refine List.pairwise_flatMap.mpr ⟨fun h _ => walked_increasing newPath oldPath h.body _ _,?_⟩
    refine p.increasing.imp fun {h k} hhk a ha b hb => ?_
    obtain ⟨-,hlt,hle⟩ := hreach ha
    obtain ⟨hge,-⟩ := hreach hb
    omega
  · split
    · cases p.hunks.getLast? with
      | none => exact List.Pairwise.nil
      | some h => exact List.pairwise_singleton _ _
    · exact List.Pairwise.nil
  · obtain ⟨h,hh,ha⟩ := List.mem_flatMap.mp ha
    obtain ⟨-,hlt,hle⟩ := hreach ha
    split at hb
    · rcases List.eq_nil_or_concat p.hunks with hnil | ⟨hs,k,hhunks⟩
      · rw [hnil] at hh
        cases hh
      · have hincreasing := p.increasing
        rw [List.concat_eq_append] at hhunks
        rw [hhunks] at hh hb hincreasing
        obtain rfl : b = lastAnchor newPath oldPath k := by simpa using hb
        change a.newLine < k.new.start + reach k.body
        rcases List.mem_append.mp hh with hh | hh
        · have hbefore := (List.pairwise_append.mp hincreasing).2.2 h hh k List.mem_cons_self
          omega
        · obtain rfl := List.mem_singleton.mp hh
          exact hlt
    · cases hb

end Lines

section Put

/-- Anchors put in order under numbers not taken yet all stay. -/
lemma lookup_putAll {as : List DiffAnchor} (h : as.Pairwise fun a b => a.newLine < b.newLine)
    {lines : GoMap ℤ DiffAnchor} (hnone : ∀ n, AList.lookup n lines = none) (n : ℤ) (a : DiffAnchor) :
    AList.lookup n (putAll lines as) = some a ↔ a ∈ as ∧ a.newLine = n := by
  induction as using List.reverseRecOn with
  | nil =>
    rw [putAll,List.foldl_nil,hnone]
    simp
  | append_singleton as b ih =>
    obtain ⟨has,-,hlt⟩ := List.pairwise_append.mp h
    have hput : putAll lines (as ++ [b]) = (putAll lines as).insert b.newLine b := List.foldl_append
    rw [hput,List.mem_append,List.mem_singleton]
    by_cases hn : n = b.newLine
    · subst hn
      rw [AList.lookup_insert]
      constructor
      · rintro ⟨⟩
        exact ⟨.inr rfl,rfl⟩
      · rintro ⟨ha | rfl,hn⟩
        · exact absurd hn (Int.ne_of_lt (hlt a ha b List.mem_cons_self))
        · rfl
    · rw [AList.lookup_insert_ne hn,ih has]
      refine and_congr_left fun ha => (or_iff_left ?_).symm
      rintro rfl
      exact hn ha.symm

/-- A file under a name of its own has just its own anchors. -/
theorem lookup_indexDiffs_eq {ds : List FileDiff} (hnodup : (ds.map FileDiff.path).Nodup) {d : FileDiff}
    (hd : d ∈ ds) {n : ℤ} (hn : 0 < n) (a : DiffAnchor) :
    lookup (indexDiffs (ds.map fun d => some d.mergeRequestDiff)) d.path n = some a ↔
      a ∈ d.anchors ∧ a.newLine = n := by
  have hlookup : ∀ idx, lookup idx d.path n = found idx d.path n := fun idx => by
    rw [lookup,if_neg (by rintro (h | h); exacts [d.path_ne_nil h,by omega])]
    rfl
  rw [hlookup]
  induction ds using List.reverseRecOn with
  | nil => cases hd
  | append_singleton ds e ih =>
    rw [List.map_append] at hnodup
    obtain ⟨hds,-,hne⟩ := List.nodup_append.mp hnodup
    have hfold : indexDiffs ((ds ++ [e]).map fun d => some d.mergeRequestDiff) =
        indexDiff (indexDiffs (ds.map fun d => some d.mergeRequestDiff)) (some e.mergeRequestDiff) := by
      rw [indexDiffs,List.map_append,List.foldl_append]
      rfl
    rw [hfold,found_indexDiff]
    rcases List.mem_append.mp hd with hd | hd
    · rw [if_neg (hne d.path (List.mem_map_of_mem hd) e.path List.mem_cons_self)]
      exact ih hds hd
    · obtain rfl := List.mem_singleton.mp hd
      rw [if_pos rfl]
      refine lookup_putAll (patchAnchors_increasing _ _ d.patch) (fun m => ?_) n a
      rw [lookup_get,← Option.not_isSome_iff_eq_none,(indexDiffs_found ds).1]
      rintro ⟨d',hd',hpath,-⟩
      exact hne d'.path (List.mem_map_of_mem hd') d.path List.mem_cons_self hpath.symm

end Put

section Exact
open Tools

/-- The index of the diffs of a merge request. -/
abbrev index (ds : List FileDiff) : DiffIndex := indexDiffs (ds.map fun d => some d.mergeRequestDiff)

/-- The index has exactly the lines of the new files, each under the old line it has, and its added lines are
those that a finding may be placed on. -/
structure Exact (ds : List FileDiff) : Prop where
  only : ∀ file n, (lookup (index ds) file n).isSome → ∃ d ∈ ds, file = d.path ∧ ∃ e ∈ d.patch.newSide, n = (e.1 : ℤ)
  each : ∀ d ∈ ds, ∀ e ∈ d.patch.newSide, ∃ a, lookup (index ds) d.path e.1 = some a ∧
    a.context = e.2.isSome ∧ a.oldLine = (e.2.getD 0 : ℕ)
  agrees : ∀ d ∈ ds, ∀ n, 1 ≤ n → ((∃ a, lookup (index ds) d.path n = some a ∧ a.context = false) ↔
    InChangedLines (changedLineRanges d.patch.render) n = true)

/-- No added line looks like a file header, no line of both files comes after a removed one that does, and a last
newline comes only after a hunk at line 0, which is that of a deleted file. -/
structure Plain (p : Patch) : Prop where
  added : ∀ h ∈ p.hunks, ∀ l ∈ h.body, headed l = false
  removed : ∀ h ∈ p.hunks, h.body.Pairwise fun l l' => dashed l = true → shared l' = false
  last : p.finalNewline = true → ∀ h, p.hunks.getLast? = some h → h.new.start = 0

section Plain
variable {p : Patch} (hp : Plain p) (newPath oldPath : Bytes)
include hp

lemma Plain.hunkAnchors_eq {h : Hunk} (hh : h ∈ p.hunks) : hunkAnchors newPath oldPath h =
    (sides h.new.start h.old.start h.body).map (trueAnchor newPath oldPath) :=
  walked_eq newPath oldPath (hp.added h hh) (hp.removed h hh) (.inl rfl)

/-- A plain patch has the anchors of its new side, as far as they are not at line 0. -/
lemma Plain.mem_patchAnchors {a : DiffAnchor} (ha : 0 < a.newLine) : a ∈ patchAnchors newPath oldPath p ↔
    ∃ e ∈ p.newSide, a = trueAnchor newPath oldPath e := by
  have hlast : a ∉ if p.finalNewline then (p.hunks.getLast?.map (lastAnchor newPath oldPath)).toList else [] := by
    intro hmem
    split at hmem
    · next hfinal =>
      cases hh : p.hunks.getLast? with
      | none =>
        rw [hh] at hmem
        cases hmem
      | some h =>
        rw [hh] at hmem
        obtain rfl : a = lastAnchor newPath oldPath h := by simpa using hmem
        have hzero := hp.last hfinal h hh
        have hsize := h.new_pos
        have hle := reach_le h.body
        rw [h.new_size] at hle
        change 0 < (h.new.start : ℤ) + reach h.body at ha
        omega
    · cases hmem
  rw [patchAnchors,List.mem_append,or_iff_left hlast,List.mem_flatMap]
  constructor
  · rintro ⟨h,hh,ha⟩
    rw [hp.hunkAnchors_eq newPath oldPath hh] at ha
    obtain ⟨e,he,rfl⟩ := List.mem_map.mp ha
    exact ⟨e,List.mem_flatMap.mpr ⟨h,hh,he⟩,rfl⟩
  · rintro ⟨e,he,rfl⟩
    obtain ⟨h,hh,he⟩ := List.mem_flatMap.mp he
    refine ⟨h,hh,?_⟩
    rw [hp.hunkAnchors_eq newPath oldPath hh]
    exact List.mem_map_of_mem he

end Plain

lemma pos_of_lookup {idx : DiffIndex} {file : Bytes} {n : ℤ} (h : (lookup idx file n).isSome) : 0 < n := by
  rw [lookup] at h
  split at h
  · cases h
  · next hneg => omega

lemma exact_of_plain {ds : List FileDiff} (hnodup : (ds.map FileDiff.path).Nodup)
    (hplain : ∀ d ∈ ds, Plain d.patch) : Exact ds := by
  have hlookup : ∀ d ∈ ds, ∀ n, 0 < n → ∀ a, lookup (index ds)
      d.path n = some a ↔ ∃ e ∈ d.patch.newSide, n = (e.1 : ℤ) ∧
        a = trueAnchor d.path (if d.oldPath = [] then d.path else d.oldPath) e := by
    intro d hd n hn a
    rw [lookup_indexDiffs_eq hnodup hd hn]
    constructor
    · rintro ⟨ha,rfl⟩
      obtain ⟨e,he,rfl⟩ := ((hplain d hd).mem_patchAnchors _ _ hn).mp ha
      exact ⟨e,he,rfl,rfl⟩
    · rintro ⟨e,he,rfl,rfl⟩
      exact ⟨((hplain d hd).mem_patchAnchors _ _ hn).mpr ⟨e,he,rfl⟩,rfl⟩
  refine ⟨fun file n h => ?_,fun d hd e he => ?_,fun d hd n hn => ?_⟩
  · have hn := pos_of_lookup h
    obtain ⟨d,hd,rfl,-⟩ := (lookup_indexDiffs ds file hn).1.mp h
    obtain ⟨a,ha⟩ := Option.isSome_iff_exists.mp h
    obtain ⟨e,he,hn,-⟩ := (hlookup d hd n hn a).mp ha
    exact ⟨d,hd,rfl,e,he,hn⟩
  · have hpos : 0 < (e.1 : ℤ) := by exact_mod_cast d.patch.pos_of_mem_newSide he
    exact ⟨_,(hlookup d hd e.1 hpos _).mpr ⟨e,he,rfl,rfl⟩,rfl,rfl⟩
  · rw [inChangedLines_render,or_iff_right (by omega)]
    constructor
    · rintro ⟨a,ha,hcontext⟩
      obtain ⟨⟨m,x⟩,he,rfl,rfl⟩ := (hlookup d hd n (by omega) a).mp ha
      obtain rfl : x = none := by simpa [trueAnchor] using hcontext
      exact ⟨m,d.patch.mem_newSide_none.mp he,rfl⟩
    · rintro ⟨m,hm,rfl⟩
      exact ⟨_,(hlookup d hd m (by omega) _).mpr ⟨(m,none),d.patch.mem_newSide_none.mpr hm,rfl,rfl⟩,rfl⟩

section Converse
variable {ds : List FileDiff} (hnodup : (ds.map FileDiff.path).Nodup) {d : FileDiff} (hd : d ∈ ds)
variable (hexact : Exact ds)
include hnodup hd hexact

/-- Each added line needs an anchor of its own, and one that looks like a header brings none. -/
lemma not_headed {h : Hunk} (hh : h ∈ d.patch.hunks) : ∀ l ∈ h.body, headed l = false := by
  let as := (hunkAnchors d.path (if d.oldPath = [] then d.path else d.oldPath) h).filter fun a => !a.context
  have hsubset : (addedFrom h.new.start h.body).map (Nat.cast : ℕ → ℤ) ⊆ as.map DiffAnchor.newLine := by
    intro n hn
    obtain ⟨m,hm,rfl⟩ := List.mem_map.mp hn
    have hadded : m ∈ d.patch.added := List.mem_flatMap.mpr ⟨h,hh,hm⟩
    have hpos := d.patch.pos_of_mem_added hadded
    obtain ⟨a,ha,hcontext⟩ := (hexact.agrees d hd m (by omega)).mpr
      ((inChangedLines_render d.patch m).mpr (.inr ⟨m,hadded,rfl⟩))
    obtain ⟨hmem,hline⟩ := (lookup_indexDiffs_eq hnodup hd (by omega) a).mp ha
    rcases List.mem_append.mp hmem with hmem | hmem
    · obtain ⟨k,hk,hmem⟩ := List.mem_flatMap.mp hmem
      have hreach := (mem_walked _ _).mp ⟨a,hmem,hline⟩
      have hle := reach_le k.body
      have hrange := le_of_mem_addedFrom hm
      rw [k.new_size] at hle
      rw [h.new_size] at hrange
      obtain rfl := d.patch.hunk_unique hh hk hrange (by omega)
      exact List.mem_map.mpr ⟨a,List.mem_filter.mpr ⟨hmem,by rw [hcontext]; rfl⟩,hline⟩
    · split at hmem
      · obtain ⟨k,-,rfl⟩ : ∃ k, d.patch.hunks.getLast? = some k ∧ lastAnchor _ _ k = a := by simpa using hmem
        cases hcontext
      · cases hmem
  have hnumbers : ((addedFrom h.new.start h.body).map (Nat.cast : ℕ → ℤ)).Nodup :=
    List.Nodup.map (fun _ _ => Int.ofNat.inj) ((addedFrom_increasing _ _).imp Nat.ne_of_lt)
  have hle := (hnumbers.subperm hsubset).length_le
  have hlength := length_walked_added d.path (if d.oldPath = [] then d.path else d.oldPath) h.body h.new.start
    h.old.start h.new.start
  rw [List.length_map,List.length_map,← hlength] at hle
  have hzero : h.body.countP headed = 0 := Nat.le_zero.mp (Nat.le_of_add_le_add_left hle)
  exact fun l hl => by simpa using List.countP_eq_zero.mp hzero l hl

lemma last_zero (hfinal : d.patch.finalNewline = true) {h : Hunk} (hh : d.patch.hunks.getLast? = some h) :
    h.new.start = 0 := by
  have hmem := List.mem_of_getLast? hh
  have hreach : reach h.body = h.new.size := by
    rw [reach_of_not_headed (not_headed hnodup hd hexact hmem),h.new_size]
  by_contra hstart
  have hpos : 0 < (h.new.start + reach h.body : ℤ) := by omega
  obtain ⟨d',hd',hpath,e,he,hn⟩ := hexact.only d.path (h.new.start + reach h.body) <| by
    rw [(lookup_indexDiffs ds d.path hpos).1]
    exact ⟨d,hd,rfl,.inr ⟨hfinal,h,hh,rfl⟩⟩
  obtain rfl := List.inj_on_of_nodup_map hnodup hd hd' hpath
  obtain ⟨k,hk,hrange⟩ := d.patch.mem_newSide.mp ⟨e.2,he⟩
  obtain ⟨hs,hhunks⟩ := List.getLast?_eq_some_iff.mp hh
  have hincreasing := d.patch.increasing
  rw [hhunks] at hk hincreasing
  rcases List.mem_append.mp hk with hk | hk
  · have hbefore := (List.pairwise_append.mp hincreasing).2.2 k hk h List.mem_cons_self
    omega
  · obtain rfl := List.mem_singleton.mp hk
    omega

lemma plain_of_exact : Plain d.patch where
  added h hh := not_headed hnodup hd hexact hh
  removed h hh := by
    refine (pairwise_of_old_right d.path (if d.oldPath = [] then d.path else d.oldPath) (n := h.new.start)
      (not_headed hnodup hd hexact hh) (Int.le_refl h.old.start) fun a ha e he hline => ?_).1
    have hside : e ∈ d.patch.newSide := List.mem_flatMap.mpr ⟨h,hh,he⟩
    have hpos := d.patch.pos_of_mem_newSide hside
    obtain ⟨b,hb,-,hold⟩ := hexact.each d hd e hside
    have hlookup := (lookup_indexDiffs_eq hnodup hd (n := e.1) (by omega) a).mpr
      ⟨List.mem_append_left _ (List.mem_flatMap.mpr ⟨h,hh,ha⟩),hline⟩
    obtain rfl := Option.some.inj (hlookup.symm.trans hb)
    exact hold
  last hfinal h hh := last_zero hnodup hd hexact hfinal hh

end Converse

/-- The index of diffs of distinct files is exact just when all of them are plain. -/
theorem indexDiffs_exact_iff (ds : List FileDiff) (hnodup : (ds.map FileDiff.path).Nodup) :
    Exact ds ↔ ∀ d ∈ ds, Plain d.patch :=
  ⟨fun h _ hd => plain_of_exact hnodup hd h,exact_of_plain hnodup⟩

/-- A line put before the last one, in a diff with or without a last newline. -/
def putBefore (t : Text) (ends : Bool) : FileDiff where
  newPath := lit "loop.c"
  oldPath := lit "loop.c"
  named := .inl (by decide)
  patch := {
    hunks := [{
      old := { start := 7 }
      new := { start := 7, count := some 2 }
      heading := ⟨lit " main",by decide⟩
      body := [.added t,.context ⟨lit "\x7d",by decide⟩]
      old_size := rfl
      new_size := rfl
      old_pos := by decide
      new_pos := by decide
      old_fits := by decide
      new_fits := by decide }]
    finalNewline := ends
    preamble_plain := no_preamble_plain
    increasing := List.pairwise_singleton _ _ }

/-- The line after `++i;` gets its number, and a last newline the number after the hunk. -/
theorem not_exact :
    (lookup (index [putBefore ⟨lit "++i;",by decide⟩ false]) (lit "loop.c") 7 =
        some ⟨lit "loop.c",lit "loop.c",7,7,true⟩ ∧ ¬ Exact [putBefore ⟨lit "++i;",by decide⟩ false]) ∧
      (lookup (index [putBefore ⟨lit "i++;",by decide⟩ true]) (lit "loop.c") 9 =
        some ⟨lit "loop.c",lit "loop.c",9,8,true⟩ ∧ ¬ Exact [putBefore ⟨lit "i++;",by decide⟩ true]) := by
  have hskipped : lookup (index [putBefore ⟨lit "++i;",by decide⟩ false]) (lit "loop.c") 7 =
      some ⟨lit "loop.c",lit "loop.c",7,7,true⟩ := by decide +kernel
  have hbeyond : lookup (index [putBefore ⟨lit "i++;",by decide⟩ true]) (lit "loop.c") 9 =
      some ⟨lit "loop.c",lit "loop.c",9,8,true⟩ := by decide +kernel
  refine ⟨⟨hskipped,fun h => ?_⟩,hbeyond,fun h => ?_⟩
  · obtain ⟨a,ha,hcontext,-⟩ := h.each _ List.mem_cons_self (7,none) List.mem_cons_self
    obtain rfl := Option.some.inj (hskipped.symm.trans ha)
    cases hcontext
  · obtain ⟨d,hd,-,e,he,hn⟩ := h.only (lit "loop.c") 9 (Option.isSome_of_eq_some hbeyond)
    obtain rfl := List.mem_singleton.mp hd
    have hside : ∀ e ∈ (putBefore ⟨lit "i++;",by decide⟩ true).patch.newSide, (9 : ℤ) ≠ e.1 := by decide
    exact hside e he hn

theorem putBefore_exact : Exact [putBefore ⟨lit "i++;",by decide⟩ false] := by
  refine (indexDiffs_exact_iff [putBefore ⟨lit "i++;",by decide⟩ false] (List.nodup_singleton _)).mpr fun d hd => ?_
  obtain rfl := List.mem_singleton.mp hd
  refine ⟨fun h hh => ?_,fun h hh => ?_,fun h => nomatch h⟩
  all_goals
    obtain rfl := List.mem_singleton.mp hh
    decide

end Exact

end GitLab
