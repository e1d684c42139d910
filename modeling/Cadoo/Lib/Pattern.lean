import Mathlib.Data.List.DropRight
import Mathlib.Data.Nat.Notation
import Mathlib.Tactic.Lemma

/-! Search patterns as regular-expression engines run them: literals, greedy runs of one class of
symbols, captures and optional groups. The matcher lists every match at the front of a text in the
engine's order of preference; a search takes the first one at the leftmost place that has any. -/

inductive Pattern (α : Type) where
  | lit (t : List α)
  | run (least : ℕ) (cls : α → Bool)
  | capture (p : Pattern α)
  | opt (p : Pattern α)
  | seq (p q : Pattern α)

namespace Pattern
variable {α : Type}

/-- One match at the front of a text: what it covers, its captures and what is left. -/
structure Found (α : Type) where
  text : List α
  caps : List (Option (List α))
  rest : List α
  deriving DecidableEq

def Found.before (m : Found α) (w : List α) (cs : List (Option (List α))) : Found α :=
  ⟨w ++ m.text,cs ++ m.caps,m.rest⟩

def groups : Pattern α → ℕ
  | lit _ => 0
  | run _ _ => 0
  | capture p => p.groups+1
  | opt p => p.groups
  | seq p q => p.groups+q.groups

/-- The lengths a greedy run tries: from the longest down to the least one allowed. -/
def lengths (least most : ℕ) : List ℕ := (List.range (most+1)).reverse.filter (least ≤ ·)

/-- All matches at the front of a text, the preferred one first. -/
def found [DecidableEq α] : Pattern α → List α → List (Found α)
  | lit t, s => if t <+: s then [⟨t,[],s.drop t.length⟩] else []
  | run least cls, s =>
    (lengths least (s.takeWhile cls).length).map fun n => ⟨s.take n,[],s.drop n⟩
  | capture p, s => (p.found s).map fun m => { m with caps := some m.text :: m.caps }
  | opt p, s => p.found s ++ [⟨[],List.replicate p.groups none,s⟩]
  | seq p q, s => (p.found s).flatMap fun m => (q.found m.rest).map fun k => k.before m.text m.caps

/-- The leftmost match of a text, with what stands before it. -/
def search [DecidableEq α] (p : Pattern α) : List α → Option (List α × Found α)
  | [] => ((p.found []).head?).map fun m => ([],m)
  | a :: s =>
    match (p.found (a :: s)).head? with
    | some m => some ([],m)
    | none => (p.search s).map fun r => (a :: r.1,r.2)

/-- What a pattern means: the texts it matches and the captures it makes of them. -/
inductive Matches : Pattern α → List α → List (Option (List α)) → Prop
  | lit (t) : Matches (lit t) t []
  | run {least cls w} (hl : least ≤ w.length) (hc : ∀ a ∈ w, cls a = true) :
      Matches (run least cls) w []
  | capture {p w cs} (h : Matches p w cs) : Matches (capture p) w (some w :: cs)
  | skip (p) : Matches (opt p) [] (List.replicate p.groups none)
  | opt {p w cs} (h : Matches p w cs) : Matches (opt p) w cs
  | seq {p q w v cs ds} (hp : Matches p w cs) (hq : Matches q v ds) :
      Matches (seq p q) (w ++ v) (cs ++ ds)

section Inversion
variable {p q : Pattern α} {w : List α} {cs : List (Option (List α))}

lemma matches_lit_iff {t : List α} : Matches (lit t) w cs ↔ w = t ∧ cs = [] := by
  constructor
  · rintro ⟨⟩
    exact ⟨rfl,rfl⟩
  · rintro ⟨rfl,rfl⟩
    exact .lit w

lemma matches_run_iff {least : ℕ} {cls : α → Bool} :
    Matches (run least cls) w cs ↔ least ≤ w.length ∧ (∀ a ∈ w, cls a = true) ∧ cs = [] := by
  constructor
  · rintro ⟨⟩
    next hl hc => exact ⟨hl,hc,rfl⟩
  · rintro ⟨hl,hc,rfl⟩
    exact .run hl hc

lemma matches_capture_iff :
    Matches (capture p) w cs ↔ ∃ ds, cs = some w :: ds ∧ Matches p w ds := by
  constructor
  · rintro ⟨⟩
    next ds h => exact ⟨ds,rfl,h⟩
  · rintro ⟨ds,rfl,h⟩
    exact .capture h

lemma matches_opt_iff :
    Matches (opt p) w cs ↔ (w = [] ∧ cs = List.replicate p.groups none) ∨ Matches p w cs := by
  constructor
  · intro h
    cases h with
    | skip => exact .inl ⟨rfl,rfl⟩
    | opt h => exact .inr h
  · rintro (⟨rfl,rfl⟩ | h)
    · exact .skip p
    · exact .opt h

lemma matches_seq_iff : Matches (seq p q) w cs ↔ ∃ u v ds es, w = u ++ v ∧ cs = ds ++ es ∧
    Matches p u ds ∧ Matches q v es := by
  constructor
  · rintro ⟨⟩
    next hp hq => exact ⟨_,_,_,_,rfl,rfl,hp,hq⟩
  · rintro ⟨u,v,ds,es,rfl,rfl,hp,hq⟩
    exact .seq hp hq

/-- A literal in front is what the text begins with. -/
lemma matches_lit_seq_iff {t : List α} : Matches (seq (lit t) q) w cs ↔ ∃ v, w = t ++ v ∧ Matches q v cs := by
  rw [matches_seq_iff]
  constructor
  · rintro ⟨u,v,ds,es,rfl,rfl,hu,hv⟩
    obtain ⟨rfl,rfl⟩ := matches_lit_iff.mp hu
    exact ⟨v,rfl,hv⟩
  · rintro ⟨v,rfl,hv⟩
    exact ⟨t,v,[],cs,rfl,rfl,.lit t,hv⟩

lemma matches_run_seq_iff {least : ℕ} {cls : α → Bool} : Matches (seq (run least cls) q) w cs ↔
    ∃ u v, w = u ++ v ∧ least ≤ u.length ∧ (∀ a ∈ u, cls a = true) ∧ Matches q v cs := by
  rw [matches_seq_iff]
  constructor
  · rintro ⟨u,v,ds,es,rfl,rfl,hu,hv⟩
    obtain ⟨hl,hc,rfl⟩ := matches_run_iff.mp hu
    exact ⟨u,v,rfl,hl,hc,hv⟩
  · rintro ⟨u,v,rfl,hl,hc,hv⟩
    exact ⟨u,v,[],cs,rfl,rfl,.run hl hc,hv⟩

lemma matches_capture_run_seq_iff {least : ℕ} {cls : α → Bool} :
    Matches (seq (capture (run least cls)) q) w cs ↔ ∃ u v ds, w = u ++ v ∧ cs = some u :: ds ∧
      least ≤ u.length ∧ (∀ a ∈ u, cls a = true) ∧ Matches q v ds := by
  rw [matches_seq_iff]
  constructor
  · rintro ⟨u,v,ds,es,rfl,rfl,hu,hv⟩
    obtain ⟨_,rfl,hrun⟩ := matches_capture_iff.mp hu
    obtain ⟨hl,hc,rfl⟩ := matches_run_iff.mp hrun
    exact ⟨u,v,es,rfl,rfl,hl,hc,hv⟩
  · rintro ⟨u,v,ds,rfl,rfl,hl,hc,hv⟩
    exact ⟨u,v,[some u],ds,rfl,rfl,.capture (.run hl hc),hv⟩

end Inversion

/-- No match of the pattern starts with a symbol of the class. -/
def Rejects [DecidableEq α] (p : Pattern α) (cls : α → Bool) : Prop :=
  ∀ a s, cls a = true → p.found (a :: s) = []

lemma mem_lengths {least most n : ℕ} : n ∈ lengths least most ↔ n ≤ most ∧ least ≤ n := by
  rw [lengths,List.mem_filter,List.mem_reverse,List.mem_range,Nat.lt_succ_iff,decide_eq_true_eq]

lemma lengths_eq_cons {least most : ℕ} (h : least ≤ most) :
    ∃ ns, lengths least most = most :: ns ∧ ∀ n ∈ ns, n < most := by
  refine ⟨(List.range most).reverse.filter (least ≤ ·),?_,?_⟩
  · simp [lengths,List.range_succ,h]
  · intro n hn
    simp at hn
    exact hn.1

lemma lengths_eq_nil {least most : ℕ} (h : most < least) : lengths least most = [] := by
  rw [List.eq_nil_iff_forall_not_mem]
  intro n hn
  have := mem_lengths.mp hn
  omega

lemma takeWhile_append_stop {cls : α → Bool} {w s : List α} (hw : ∀ a ∈ w, cls a = true)
    (hs : ∀ a ∈ s.head?, cls a = false) : (w ++ s).takeWhile cls = w := by
  induction w with
  | nil =>
    cases s with
    | nil => rfl
    | cons b s => simp [hs b (by simp)]
  | cons a w ih => simp [hw a (by simp),ih fun b hb => hw b (by simp [hb])]

lemma take_all_of_le_takeWhile {cls : α → Bool} {s : List α} {n : ℕ}
    (h : n ≤ (s.takeWhile cls).length) : ∀ a ∈ s.take n, cls a = true := by
  intro a ha
  have hp : s.take n = (s.takeWhile cls).take n := by
    conv_lhs => rw [← List.takeWhile_append_dropWhile (p := cls) (l := s)]
    rw [List.take_append_of_le_length h]
  rw [hp] at ha
  exact List.mem_takeWhile_imp (List.mem_of_mem_take ha)

section Found
variable [DecidableEq α]

lemma found_lit_eq (t s : List α) :
    (lit t).found s = if t <+: s then [⟨t,[],s.drop t.length⟩] else [] := rfl

lemma found_run_eq (least : ℕ) (cls : α → Bool) (s : List α) : (run least cls).found s =
    (lengths least (s.takeWhile cls).length).map fun n => ⟨s.take n,[],s.drop n⟩ := rfl

lemma found_capture (p : Pattern α) (s : List α) :
    (capture p).found s = (p.found s).map fun m => { m with caps := some m.text :: m.caps } := rfl

lemma found_opt (p : Pattern α) (s : List α) :
    (opt p).found s = p.found s ++ [⟨[],List.replicate p.groups none,s⟩] := rfl

lemma found_seq (p q : Pattern α) (s : List α) : (seq p q).found s =
    (p.found s).flatMap fun m => (q.found m.rest).map fun k => k.before m.text m.caps := rfl

/-- The matcher finds exactly what the pattern means. -/
theorem mem_found {p : Pattern α} {s : List α} {m : Found α} :
    m ∈ p.found s ↔ s = m.text ++ m.rest ∧ Matches p m.text m.caps := by
  induction p generalizing s m with
  | lit t =>
    rw [found_lit_eq]
    constructor
    · intro h
      split at h
      · next hp =>
        simp only [List.mem_singleton] at h
        subst h
        obtain ⟨r,rfl⟩ := hp
        exact ⟨by simp,.lit t⟩
      · simp at h
    · rintro ⟨hs,hm⟩
      cases m
      cases hm
      simp at hs
      simp [hs]
  | run least cls =>
    rw [found_run_eq]
    simp only [List.mem_map,mem_lengths]
    constructor
    · rintro ⟨n,⟨hn,hl⟩,rfl⟩
      refine ⟨by simp,.run ?_ (take_all_of_le_takeWhile hn)⟩
      have := (s.takeWhile_prefix cls).length_le
      simp
      omega
    · rintro ⟨hs,hm⟩
      obtain ⟨w,cs,r⟩ := m
      cases hm with
      | run hl hc =>
      simp only at hs
      subst hs
      refine ⟨w.length,⟨?_,hl⟩,by simp⟩
      rw [List.takeWhile_append_of_pos hc]
      simp
  | capture p ih =>
    rw [found_capture]
    simp only [List.mem_map]
    constructor
    · rintro ⟨k,hk,rfl⟩
      obtain ⟨hs,hm⟩ := ih.mp hk
      exact ⟨hs,.capture hm⟩
    · rintro ⟨hs,hm⟩
      obtain ⟨w,cs,r⟩ := m
      change Matches (capture p) w cs at hm
      cases hm with
      | @capture _ _ ds h => exact ⟨⟨w,ds,r⟩,ih.mpr ⟨hs,h⟩,rfl⟩
  | opt p ih =>
    rw [found_opt]
    simp only [List.mem_append,List.mem_singleton]
    constructor
    · rintro (h | rfl)
      · obtain ⟨hs,hm⟩ := ih.mp h
        exact ⟨hs,.opt hm⟩
      · exact ⟨rfl,.skip p⟩
    · rintro ⟨hs,hm⟩
      obtain ⟨w,cs,r⟩ := m
      cases hm with
      | skip => exact .inr (by simpa using hs.symm)
      | opt h => exact .inl (ih.mpr ⟨hs,h⟩)
  | seq p q ihp ihq =>
    rw [found_seq]
    simp only [List.mem_flatMap,List.mem_map]
    constructor
    · rintro ⟨m₁,h₁,m₂,h₂,rfl⟩
      obtain ⟨hs,hm⟩ := ihp.mp h₁
      obtain ⟨hr,hk⟩ := ihq.mp h₂
      refine ⟨?_,.seq hm hk⟩
      rw [hs,hr]
      simp [Found.before]
    · rintro ⟨hs,hm⟩
      obtain ⟨w,cs,r⟩ := m
      cases hm with
      | @seq _ _ w v cs ds hp hq =>
        refine ⟨⟨w,cs,v ++ r⟩,ihp.mpr ⟨by simpa using hs,hp⟩,⟨v,ds,r⟩,ihq.mpr ⟨rfl,hq⟩,rfl⟩

lemma found_eq_nil_iff {p : Pattern α} {s : List α} :
    p.found s = [] ↔ ∀ w cs r, s = w ++ r → ¬ Matches p w cs := by
  rw [List.eq_nil_iff_forall_not_mem]
  constructor
  · intro h w cs r hs hm
    exact h ⟨w,cs,r⟩ (mem_found.mpr ⟨hs,hm⟩)
  · intro h m hm
    obtain ⟨hs,hk⟩ := mem_found.mp hm
    exact h _ _ _ hs hk

@[simp] lemma found_lit (t s : List α) : (lit t).found (t ++ s) = [⟨t,[],s⟩] := by
  simp [found_lit_eq]

/-- A literal in front is read off, and the rest of the pattern meets the rest of the text. -/
lemma found_lit_seq (t s : List α) (q : Pattern α) :
    (seq (lit t) q).found (t ++ s) = (q.found s).map fun m => m.before t [] := by
  simp [found_seq]

lemma found_lit_seq_eq_nil {t s : List α} (q : Pattern α) (h : ¬ t <+: s) :
    (seq (lit t) q).found s = [] := by
  rw [found_seq,found_lit_eq,if_neg h]
  rfl

/-- The first of a pattern's matches decides a sequence when the others lead nowhere. -/
lemma found_seq_of_head {p q : Pattern α} {s : List α} {m : Found α} {ms : List (Found α)}
    (hp : p.found s = m :: ms) (hq : ∀ k ∈ ms, q.found k.rest = []) :
    (seq p q).found s = (q.found m.rest).map fun k => k.before m.text m.caps := by
  have hnil : ms.flatMap (fun m => (q.found m.rest).map fun k => k.before m.text m.caps) = [] := by
    rw [List.flatMap_eq_nil_iff]
    intro k hk
    simp [hq k hk]
  rw [found_seq,hp,List.flatMap_cons,hnil,List.append_nil]

lemma head?_found_seq {p q : Pattern α} {s : List α} {m k : Found α} {ms : List (Found α)}
    (hp : p.found s = m :: ms) (hk : (q.found m.rest).head? = some k) :
    ((seq p q).found s).head? = some (k.before m.text m.caps) := by
  obtain ⟨ks,hks⟩ := List.head?_eq_some_iff.mp hk
  rw [found_seq,hp,List.flatMap_cons,hks]
  rfl

/-- A greedy run prefers the whole block of its class; every other choice leaves a symbol of the
class in front. -/
lemma found_run {least : ℕ} {cls : α → Bool} {w s : List α} (hw : ∀ a ∈ w, cls a = true)
    (hl : least ≤ w.length) (hs : ∀ a ∈ s.head?, cls a = false) :
    ∃ ms, (run least cls).found (w ++ s) = ⟨w,[],s⟩ :: ms ∧
      ∀ k ∈ ms, ∃ a t, cls a = true ∧ k.rest = a :: t := by
  obtain ⟨ns,hns,hlt⟩ := lengths_eq_cons hl
  refine ⟨ns.map fun n => ⟨(w ++ s).take n,[],(w ++ s).drop n⟩,?_,?_⟩
  · rw [found_run_eq,takeWhile_append_stop hw hs,hns]
    simp
  · intro k hk
    obtain ⟨n,hn,rfl⟩ := List.mem_map.mp hk
    have hn' := hlt n hn
    refine ⟨w[n],w.drop (n+1) ++ s,hw _ (List.getElem_mem hn'),?_⟩
    simp only
    rw [List.drop_append_of_le_length (by omega),List.drop_eq_getElem_cons hn',List.cons_append]

section Greedy
variable {least : ℕ} {cls : α → Bool} {q : Pattern α} {w s : List α}

/-- A greedy run before a pattern that rejects its class gives nothing back. -/
theorem found_run_seq (hq : q.Rejects cls) (hw : ∀ a ∈ w, cls a = true) (hl : least ≤ w.length)
    (hs : ∀ a ∈ s.head?, cls a = false) :
    (seq (run least cls) q).found (w ++ s) = (q.found s).map fun m => m.before w [] := by
  obtain ⟨ms,hms,hrest⟩ := found_run hw hl hs
  apply found_seq_of_head hms
  intro k hk
  obtain ⟨a,t,ha,ht⟩ := hrest k hk
  rw [ht]
  exact hq a t ha

theorem found_capture_run_seq (hq : q.Rejects cls) (hw : ∀ a ∈ w, cls a = true)
    (hl : least ≤ w.length) (hs : ∀ a ∈ s.head?, cls a = false) :
    (seq (capture (run least cls)) q).found (w ++ s) =
      (q.found s).map fun m => m.before w [some w] := by
  obtain ⟨ms,hms,hrest⟩ := found_run hw hl hs
  have hhead : (capture (run least cls)).found (w ++ s) =
      ⟨w,[some w],s⟩ :: ms.map fun m => { m with caps := some m.text :: m.caps } := by
    rw [found_capture,hms]
    rfl
  apply found_seq_of_head hhead
  intro k hk
  obtain ⟨m,hm,rfl⟩ := List.mem_map.mp hk
  obtain ⟨a,t,ha,ht⟩ := hrest m hm
  simp only [ht]
  exact hq a t ha

end Greedy

lemma rejects_lit {cls : α → Bool} {b : α} {t : List α} (h : cls b = false) :
    (lit (b :: t)).Rejects cls := by
  intro a s ha
  have hne : b ≠ a := by
    rintro rfl
    simp [h] at ha
  simp [found_lit_eq,hne]

lemma rejects_run {cls cls' : α → Bool} {least : ℕ} (hl : 0 < least)
    (h : ∀ a, cls a = true → cls' a = false) : (run least cls').Rejects cls := by
  intro a s ha
  rw [found_run_eq,List.takeWhile_cons_of_neg (by simp [h a ha]),lengths_eq_nil (by simpa using hl)]
  rfl

lemma rejects_seq {cls : α → Bool} {p q : Pattern α} (h : p.Rejects cls) :
    (seq p q).Rejects cls := by
  intro a s ha
  rw [found_seq,h a s ha]
  rfl

lemma rejects_opt_seq {cls : α → Bool} {p q : Pattern α} (hp : p.Rejects cls)
    (hq : q.Rejects cls) : (seq (opt p) q).Rejects cls := by
  intro a s ha
  simp [found_seq,found_opt,hp a s ha,hq a s ha]

end Found

section Search
variable [DecidableEq α] {p : Pattern α}

/-- A search fails exactly on the texts in which the pattern matches nowhere. -/
theorem search_eq_none_iff {s : List α} :
    p.search s = none ↔ ∀ u w v cs, s = u ++ (w ++ v) → ¬ Matches p w cs := by
  induction s with
  | nil =>
    rw [search,Option.map_eq_none_iff,List.head?_eq_none_iff,found_eq_nil_iff]
    constructor
    · intro h u w v cs hs
      exact h w cs v (by simp at hs; simp [hs])
    · intro h w cs r hs
      exact h [] w r cs hs
  | cons a s ih =>
    rw [search]
    cases hf : (p.found (a :: s)).head? with
    | some m =>
      simp only [reduceCtorEq,false_iff]
      intro h
      obtain ⟨hs,hm⟩ := mem_found.mp (List.mem_of_mem_head? hf)
      exact h [] _ _ _ hs hm
    | none =>
      rw [List.head?_eq_none_iff,found_eq_nil_iff] at hf
      simp only [Option.map_eq_none_iff,ih]
      constructor
      · intro h u w v cs hs
        cases u with
        | nil => exact hf w cs v hs
        | cons b u =>
          simp only [List.cons_append,List.cons.injEq] at hs
          exact h u w v cs hs.2
      · intro h u w v cs hs
        exact h (a :: u) w v cs (by simp [hs])

/-- What a search returns lies in the text, and nothing matches further left. -/
theorem search_eq_some {s u : List α} {m : Found α} (h : p.search s = some (u,m)) :
    s = u ++ (m.text ++ m.rest) ∧ Matches p m.text m.caps ∧
      ∀ u' w v cs, s = u' ++ (w ++ v) → Matches p w cs → u.length ≤ u'.length := by
  induction s generalizing u with
  | nil =>
    rw [search] at h
    simp only [Option.map_eq_some_iff,Prod.mk.injEq] at h
    obtain ⟨k,hk,rfl,rfl⟩ := h
    obtain ⟨hs,hm⟩ := mem_found.mp (List.mem_of_mem_head? hk)
    exact ⟨hs,hm,by simp⟩
  | cons a s ih =>
    rw [search] at h
    cases hf : (p.found (a :: s)).head? with
    | some k =>
      simp only [hf,Option.some.injEq,Prod.mk.injEq] at h
      obtain ⟨rfl,rfl⟩ := h
      obtain ⟨hs,hm⟩ := mem_found.mp (List.mem_of_mem_head? hf)
      exact ⟨hs,hm,by simp⟩
    | none =>
      simp only [hf,Option.map_eq_some_iff,Prod.mk.injEq] at h
      obtain ⟨⟨v,k⟩,hk,rfl,rfl⟩ := h
      obtain ⟨hs,hm,hleft⟩ := ih hk
      refine ⟨by simp [← hs],hm,?_⟩
      intro u' w v' cs hs' hw
      rw [List.head?_eq_none_iff,found_eq_nil_iff] at hf
      cases u' with
      | nil => exact absurd hw (hf w cs v' hs')
      | cons b u' =>
        simp only [List.cons_append,List.cons.injEq] at hs'
        have := hleft u' w v' cs hs'.2 hw
        simpa using this

/-- A search passes over a front part at none of whose places the pattern matches. -/
theorem search_append {u s : List α} {m : Found α}
    (hu : ∀ x y, u = x ++ y → y ≠ [] → p.found (y ++ s) = [])
    (hm : (p.found s).head? = some m) : p.search (u ++ s) = some (u,m) := by
  induction u with
  | nil => cases s <;> simp [search,hm]
  | cons a u ih =>
    have hf := hu [] (a :: u) rfl (by simp)
    rw [List.cons_append] at hf ⊢
    rw [search,hf]
    simp only [List.head?_nil]
    rw [ih fun x y hxy hy => hu (a :: x) y (by simp [hxy]) hy]
    rfl

end Search

/-- The search of `a+b` with the run of `a` captured. -/
example : (seq (capture (run 1 (· == 1))) (lit [2])).search [3,1,1,2,4] =
    some ([3],⟨[1,1,2],[some [1,1]],[4]⟩) := by decide

end Pattern
