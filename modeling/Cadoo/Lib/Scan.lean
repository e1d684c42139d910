import Cadoo.Lib.Pattern

/-! A text searched from left to right for matches that do not overlap, as engines of regular expressions find all of
them. What matches at a place may depend on the symbol before it. Where no match can begin within another, all
matches are found. -/
namespace Scan
variable {α : Type} (front : Option α → List α → Option ℕ)

/-- The matches from here on; the next `skip` symbols belong to one that has been found. -/
def findAll : Option α → ℕ → List α → List (List α)
  | _,_,[] => []
  | _,skip+1,a :: s => findAll (some a) skip s
  | prev,0,a :: s =>
    match front prev (a :: s) with
    | some (n+1) => (a :: s).take (n+1) :: findAll (some a) n s
    | _ => findAll (some a) 0 s

/-- The match that begins here. -/
def here (prev : Option α) (s : List α) : List (List α) :=
  match front prev s with
  | some (n+1) => [s.take (n+1)]
  | _ => []

/-- The matches at all places, overlapping or not. -/
def everywhere : Option α → List α → List (List α)
  | _,[] => []
  | prev,a :: s => here front prev (a :: s) ++ everywhere (some a) s

/-- No match begins at the next places. -/
def Clear : Option α → ℕ → List α → Prop
  | _,0,_ => True
  | _,_+1,[] => True
  | prev,n+1,a :: s => here front prev (a :: s) = [] ∧ Clear (some a) n s

/-- No match begins within another. -/
def Apart : Prop := ∀ prev a s n, front prev (a :: s) = some (n+1) → Clear front (some a) n s

variable {front}

lemma findAll_skip {prev : Option α} {skip : ℕ} {s : List α} (hf : Apart front) (h : Clear front prev skip s) :
    findAll front prev skip s = everywhere front prev s := by
  induction s generalizing prev skip with
  | nil => cases skip <;> rfl
  | cons a s ih =>
    cases skip with
    | succ skip =>
      obtain ⟨hhere,hclear⟩ := h
      rw [findAll,everywhere,hhere,List.nil_append]
      exact ih hclear
    | zero =>
      rw [findAll,everywhere,here]
      split
      · next n hn => exact congrArg _ (ih (hf prev a s n hn))
      · exact ih trivial

/-- All matches are found. -/
theorem findAll_eq (hf : Apart front) (s : List α) : findAll front none 0 s = everywhere front none s :=
  findAll_skip hf trivial

/-- The symbol before what comes behind a text. -/
def before (prev : Option α) (pre : List α) : Option α := pre.getLast?.or prev

lemma before_cons (prev : Option α) (a : α) (pre : List α) : before prev (a :: pre) = before (some a) pre := by
  cases pre with
  | nil => rfl
  | cons b pre => simp [before,List.getLast?_cons]

variable (front) in
/-- A word that matches between two texts. -/
structure MatchAt (prev : Option α) (pre w post : List α) : Prop where
  ne : w ≠ []
  front : front (before prev pre) (w ++ post) = some w.length

lemma MatchAt.cons {prev : Option α} {a : α} {pre w post : List α} :
    MatchAt front prev (a :: pre) w post ↔ MatchAt front (some a) pre w post := by
  constructor
  · exact fun h => ⟨h.ne,before_cons prev a pre ▸ h.front⟩
  · exact fun h => ⟨h.ne,(before_cons prev a pre).symm ▸ h.front⟩

lemma MatchAt.here_eq {prev : Option α} {s w post : List α} (h : MatchAt front prev [] w post) (hs : s = w ++ post) :
    here front prev s = [w] := by
  obtain ⟨n,hn⟩ := Nat.exists_eq_add_one_of_ne_zero (fun h0 => h.ne (List.length_eq_zero_iff.mp h0))
  have hfront : front prev s = some (n+1) := by
    rw [hs,← hn]
    exact h.front
  rw [here,hfront]
  change [s.take (n+1)] = [w]
  rw [← hn,hs,List.take_left]

variable {prev : Option α} {s w : List α}

lemma mem_here (hlen : ∀ prev s n, front prev s = some n → n ≤ s.length) (h : w ∈ here front prev s) :
    ∃ post, s = w ++ post ∧ MatchAt front prev [] w post := by
  rw [here] at h
  split at h
  · next n hn =>
    obtain rfl := List.mem_singleton.mp h
    have hle := hlen _ _ _ hn
    have hw : (s.take (n+1)).length = n+1 := by
      rw [List.length_take]
      omega
    refine ⟨s.drop (n+1),(List.take_append_drop _ _).symm,fun hnil => ?_,?_⟩
    · rw [hnil] at hw
      cases hw
    · rw [List.take_append_drop,hw]
      exact hn
  · cases h

variable (front) in
lemma here_cases (prev : Option α) (s : List α) : here front prev s = [] ∨ ∃ v, here front prev s = [v] := by
  rw [here]
  split
  · exact .inr ⟨_,rfl⟩
  · exact .inl rfl

/-- A match, with those that begin before it. -/
theorem everywhere_split (hlen : ∀ prev s n, front prev s = some n → n ≤ s.length) {l r : List (List α)}
    (h : everywhere front prev s = l ++ w :: r) : ∃ pre post, s = pre ++ (w ++ post) ∧ MatchAt front prev pre w post ∧
      ∀ pre' v post', s = pre' ++ (v ++ post') → MatchAt front prev pre' v post' → pre'.length < pre.length → v ∈ l := by
  induction s generalizing prev l with
  | nil =>
    rw [everywhere] at h
    cases l <;> cases h
  | cons a s ih =>
    rw [everywhere] at h
    -- whatever is found later comes behind what is found here
    have later : ∀ {l' : List (List α)}, everywhere front (some a) s = l' ++ w :: r → l = here front prev (a :: s) ++ l' →
        ∃ pre post, a :: s = pre ++ (w ++ post) ∧ MatchAt front prev pre w post ∧
          ∀ pre' v post', a :: s = pre' ++ (v ++ post') → MatchAt front prev pre' v post' →
            pre'.length < pre.length → v ∈ l := by
      intro l' hl' hl
      obtain ⟨pre,post,hs,hmatch,hbefore⟩ := ih hl'
      refine ⟨a :: pre,post,congrArg (a :: ·) hs,MatchAt.cons.mpr hmatch,fun pre' v post' hs' hv hlt => ?_⟩
      rw [hl]
      cases pre' with
      | nil =>
        rw [hv.here_eq hs']
        exact List.mem_append_left _ (List.mem_singleton_self _)
      | cons b pre' =>
        rw [List.cons_append,List.cons.injEq] at hs'
        obtain ⟨rfl,hs'⟩ := hs'
        exact List.mem_append_right _
          (hbefore pre' v post' hs' (MatchAt.cons.mp hv) (Nat.lt_of_add_lt_add_right hlt))
    obtain hhere | ⟨v,hhere⟩ := here_cases front prev (a :: s)
    · rw [hhere,List.nil_append] at h
      exact later h (by rw [hhere,List.nil_append])
    · rw [hhere,List.singleton_append] at h
      cases l with
      | nil =>
        obtain ⟨rfl,-⟩ := List.cons.inj h
        obtain ⟨post,hs,hmatch⟩ := mem_here hlen (hhere ▸ List.mem_singleton_self v)
        exact ⟨[],post,hs,hmatch,fun _ _ _ _ _ hlt => absurd hlt (Nat.not_lt_zero _)⟩
      | cons u l =>
        obtain ⟨rfl,hrest⟩ := List.cons.inj h
        exact later hrest (by rw [hhere]; rfl)

/-- The matches are the words that match somewhere. -/
theorem mem_everywhere (hlen : ∀ prev s n, front prev s = some n → n ≤ s.length) :
    w ∈ everywhere front prev s ↔ ∃ pre post, s = pre ++ (w ++ post) ∧ MatchAt front prev pre w post := by
  constructor
  · intro h
    obtain ⟨l,r,hsplit⟩ := List.append_of_mem h
    obtain ⟨pre,post,hs,hmatch,-⟩ := everywhere_split hlen hsplit
    exact ⟨pre,post,hs,hmatch⟩
  · rintro ⟨pre,post,rfl,hmatch⟩
    induction pre generalizing prev with
    | nil =>
      obtain ⟨a,w',rfl⟩ := List.exists_cons_of_ne_nil hmatch.ne
      rw [List.nil_append,List.cons_append,everywhere]
      refine List.mem_append_left _ ?_
      change a :: w' ∈ here front prev (a :: w' ++ post)
      rw [hmatch.here_eq rfl]
      exact List.mem_singleton_self _
    | cons a pre ih =>
      rw [List.cons_append,everywhere]
      exact List.mem_append_right _ (ih (MatchAt.cons.mp hmatch))

/-- No match begins within a text where none begins right behind a symbol of it. -/
lemma clear_of_isChain {a : α} {w : List α} (h : (a :: w).IsChain fun a b => ∀ s, front (some a) (b :: s) = none)
    (post : List α) : Clear front (some a) w.length (w ++ post) := by
  induction w generalizing a with
  | nil => exact trivial
  | cons b w ih =>
    rw [List.isChain_cons_cons] at h
    refine ⟨?_,ih h.2⟩
    rw [here,h.1]

section Bounded
variable [DecidableEq α] (word : α → Bool) (first : α → Bool) (p : Pattern α)

/-- A word begins or ends between two symbols, either of which may be missing. -/
def boundary (a b : Option α) : Bool := a.any word != b.any word

/-- The length of the preferred match between two boundaries of words: a symbol of a class, and a pattern. -/
def bounded (prev : Option α) : List α → Option ℕ
  | [] => none
  | a :: s =>
    if first a && boundary word prev (some a) then
      ((p.found s).find? fun m => boundary word (before (some a) m.text) m.rest.head?).map fun m => m.text.length+1
    else none

/-- What such a match is. -/
structure Bounded (prev : Option α) (a : α) (w post : List α) : Prop where
  first : first a = true
  found : ∃ cs, p.Matches w cs
  begins : boundary word prev (some a) = true
  ends : boundary word (before (some a) w) post.head? = true

variable {word first p} {prev : Option α} {s : List α} {n : ℕ}

lemma Bounded.of_some (h : bounded word first p prev s = some n) :
    ∃ a w post, s = a :: w ++ post ∧ n = w.length+1 ∧ Bounded word first p prev a w post := by
  cases s with
  | nil => cases h
  | cons a s =>
    rw [bounded] at h
    split at h
    · next hfirst =>
      rw [Bool.and_eq_true] at hfirst
      obtain ⟨m,hm,rfl⟩ := Option.map_eq_some_iff.mp h
      obtain ⟨hs,hmatch⟩ := Pattern.mem_found.mp (List.mem_of_find?_eq_some hm)
      have hends := List.find?_some hm
      exact ⟨a,m.text,m.rest,congrArg (a :: ·) hs,rfl,hfirst.1,⟨_,hmatch⟩,hfirst.2,hends⟩
    · cases h

lemma bounded_le (prev : Option α) (s : List α) (n : ℕ) (h : bounded word first p prev s = some n) : n ≤ s.length := by
  obtain ⟨a,w,post,rfl,rfl,-⟩ := Bounded.of_some h
  rw [List.length_append,List.length_cons]
  omega

/-- A match that is the only one at its place is found. -/
lemma Bounded.some {a : α} {w post : List α} (h : Bounded word first p prev a w post)
    (hone : ∀ v rest, Bounded word first p prev a v rest → v ++ rest = w ++ post → v = w) :
    bounded word first p prev (a :: w ++ post) = some (w.length+1) := by
  obtain ⟨cs,hcs⟩ := h.found
  have hmem : ⟨w,cs,post⟩ ∈ p.found (w ++ post) := Pattern.mem_found.mpr ⟨rfl,hcs⟩
  rw [List.cons_append,bounded,h.first,h.begins,Bool.and_true,if_pos rfl]
  cases hfind : (p.found (w ++ post)).find? fun m => boundary word (before (Option.some a) m.text) m.rest.head? with
  | none =>
    have hends := List.find?_eq_none.mp hfind _ hmem
    exact absurd h.ends hends
  | some m =>
    obtain ⟨hs,hmatch⟩ := Pattern.mem_found.mp (List.mem_of_find?_eq_some hfind)
    have hends := List.find?_some hfind
    have hw := hone m.text m.rest ⟨h.first,⟨_,hmatch⟩,h.begins,hends⟩ hs.symm
    rw [Option.map_some,hw]

end Bounded
end Scan
