import Mathlib.Data.List.Perm.Basic
import Mathlib.Data.List.Nodup
import Cadoo.Lib.Steps

/-! Workers that run side by side over a shared state: each one, as it ends, changes the state in one step, into a
slot of its own or under a lock. All that is waited for is that every worker has ended. -/
namespace Workers
open Steps

/-- The shared state, and the workers that have not ended. -/
structure Pool (S : Type*) where
  shared : S
  running : List ℕ

/-- As many workers as are wanted. -/
def start {S : Type*} (n : ℕ) (s : S) : Pool S := ⟨s,List.range n⟩

variable {S R : Type*} (put : ℕ → R → S → S)

/-- A worker that has not ended does so with a result. -/
def step (p : Pool S) (e : ℕ × R) : Option (Pool S) :=
  if e.1 ∈ p.running then some ⟨put e.1 e.2 p.shared,p.running.erase e.1⟩ else none

variable {put} {p : Pool S} {n : ℕ} {s : S} {es : List (ℕ × R)}

lemma shared_eq (h : run (step put) (start n s) es = some p) :
    p.shared = es.foldl (fun s e => put e.1 e.2 s) s := by
  refine run_history (I := fun past p => p.shared = past.foldl (fun s e => put e.1 e.2 s) s) h rfl ?_
  intro past p e q hstep hp
  rw [step] at hstep
  split at hstep
  · rw [← Option.some.inj hstep,List.foldl_append,← hp]
    rfl
  · cases hstep

lemma ended_perm (h : run (step put) (start n s) es = some p) :
    (es.map Prod.fst ++ p.running).Perm (List.range n) := by
  refine run_history (I := fun past p => (past.map Prod.fst ++ p.running).Perm (List.range n)) h (.refl _) ?_
  intro past p e q hstep hp
  rw [step] at hstep
  split at hstep
  · next hmem =>
    rw [← Option.some.inj hstep,List.map_append,List.map_cons,List.map_nil,List.append_assoc]
    exact ((List.perm_cons_erase hmem).symm.append_left _).trans hp
  · cases hstep

/-- When all have ended, each one has done so once. -/
lemma ended_once (h : run (step put) (start n s) es = some p) (hdone : p.running = []) :
    (es.map Prod.fst).Perm (List.range n) := by
  have hperm := ended_perm h
  rwa [hdone,List.append_nil] at hperm

/-- The workers' numbers lead to what they work on, one for one. -/
lemma range_getElem? {α : Type*} (l : List α) : (List.range l.length).map (fun i => l[i]?) = l.map some :=
  List.ext_getElem (by simp) fun n h₁ h₂ => by simp

/-- The results by the workers' numbers. -/
def numbered (rs : List R) : List (ℕ × R) := rs.mapIdx Prod.mk

lemma mem_numbered {rs : List R} {i : ℕ} {r : R} : (i,r) ∈ numbered rs ↔ rs[i]? = some r := by
  rw [numbered,List.mem_mapIdx]
  constructor
  · rintro ⟨j,hj,he⟩
    obtain ⟨rfl,rfl⟩ := Prod.mk.inj he
    exact List.getElem?_eq_getElem hj
  · intro h
    obtain ⟨hi,hr⟩ := List.getElem?_eq_some_iff.mp h
    exact ⟨i,hi,by rw [hr]⟩

/-- When all have ended, each worker has done so with one result, and nothing else has happened. -/
theorem exists_results (h : run (step put) (start n s) es = some p) (hdone : p.running = []) :
    ∃ rs : List R, rs.length = n ∧ es.Perm (numbered rs) := by
  obtain ⟨fs,hmap,hfs⟩ : Relation.Comp (fun l fs => l = List.map Prod.fst fs) List.Perm (List.range n) es := by
    rw [List.eq_map_comp_perm]
    exact (ended_once h hdone).symm
  have hmap : List.range n = fs.map Prod.fst := hmap
  have hlen : (fs.map Prod.snd).length = n := by
    rw [List.length_map,← List.length_map (f := Prod.fst),← hmap,List.length_range]
  refine ⟨fs.map Prod.snd,hlen,hfs.symm.trans (.of_eq (List.ext_getElem? fun i => ?_))⟩
  rw [numbered,List.getElem?_mapIdx,List.getElem?_map]
  cases hi : fs[i]? with
  | none => rfl
  | some e =>
    have hfst : (List.range n)[i]? = some e.1 := by rw [hmap,List.getElem?_map,hi]; rfl
    have hlt : i < n := by simpa using (List.getElem?_eq_some_iff.mp hfst).1
    rw [List.getElem?_range hlt] at hfst
    simp [Option.some.inj hfst]

section Slots
variable {β : Type*} (f : ℕ → R → Option β)

/-- A worker that has something to say does so in its own slot. -/
def putSlot (i : ℕ) (r : R) (slots : List (Option β)) : List (Option β) :=
  match f i r with
  | some b => slots.set i (some b)
  | none => slots

/-- The slots of the workers that have ended hold what these left there, the others nothing. -/
structure Kept (n : ℕ) (past : List (ℕ × R)) (p : Pool (List (Option β))) : Prop where
  once : (past.map Prod.fst ++ p.running).Perm (List.range n)
  length : p.shared.length = n
  ended : ∀ i r, (i,r) ∈ past → p.shared[i]? = some (f i r)
  empty : ∀ i ∈ p.running, p.shared[i]? = some none

variable {f}

lemma putSlot_length (i : ℕ) (r : R) (slots : List (Option β)) : (putSlot f i r slots).length = slots.length := by
  unfold putSlot
  cases f i r with
  | some b => exact List.length_set
  | none => rfl

lemma putSlot_self {i : ℕ} {r : R} {slots : List (Option β)} (h : slots[i]? = some none) :
    (putSlot f i r slots)[i]? = some (f i r) := by
  unfold putSlot
  cases hb : f i r with
  | some b =>
    have hi := (List.getElem?_eq_some_iff.mp h).1
    simp [hi]
  | none => exact h

lemma putSlot_ne {i j : ℕ} {r : R} {slots : List (Option β)} (h : i ≠ j) : (putSlot f i r slots)[j]? = slots[j]? := by
  unfold putSlot
  cases f i r with
  | some b => exact List.getElem?_set_ne h
  | none => rfl

lemma Kept.step {past : List (ℕ × R)} {p q : Pool (List (Option β))} {e : ℕ × R} (hp : Kept f n past p)
    (h : step (putSlot f) p e = some q) : Kept f n (past ++ [e]) q := by
  obtain ⟨i,r⟩ := e
  rw [Workers.step] at h
  split at h
  case isFalse => cases h
  next hmem =>
  obtain rfl := Option.some.inj h
  have hnodup : (past.map Prod.fst ++ p.running).Nodup := hp.once.nodup_iff.mpr List.nodup_range
  have hpast : ∀ j ∈ past.map Prod.fst, i ≠ j := fun j hj hij =>
    (List.nodup_append.mp hnodup).2.2 j hj i hmem hij.symm
  constructor
  · rw [List.map_append,List.map_cons,List.map_nil,List.append_assoc]
    exact ((List.perm_cons_erase hmem).symm.append_left _).trans hp.once
  · exact (putSlot_length i r p.shared).trans hp.length
  · intro j r' hj
    obtain hj | hj := List.mem_append.mp hj
    · exact (putSlot_ne (hpast j (List.mem_map_of_mem hj))).trans (hp.ended j r' hj)
    · obtain ⟨rfl,rfl⟩ := Prod.mk.inj (List.mem_singleton.mp hj)
      exact putSlot_self (hp.empty j hmem)
  · intro j hj
    have hne : i ≠ j := fun hij => (List.Nodup.not_mem_erase (List.nodup_append.mp hnodup).2.1) (hij ▸ hj)
    exact (putSlot_ne hne).trans (hp.empty j (List.mem_of_mem_erase hj))

/-- Slots are filled alike in whatever order the workers end. -/
theorem slots_eq {p : Pool (List (Option β))} (h : run (step (putSlot f)) (start n (List.replicate n none)) es = some p)
    (hdone : p.running = []) : ∃ rs : List R, rs.length = n ∧ es.Perm (numbered rs) ∧ p.shared = rs.mapIdx f := by
  obtain ⟨rs,hlen,hperm⟩ := exists_results h hdone
  have hkept : Kept f n es p := by
    refine run_history (I := fun past p => Kept f n past p) h ⟨.refl _,List.length_replicate,?_,?_⟩
      fun past p e q hstep hp => hp.step hstep
    · exact fun i r hi => absurd hi List.not_mem_nil
    · exact fun i hi => List.getElem?_replicate_of_lt (List.mem_range.mp hi)
  refine ⟨rs,hlen,hperm,List.ext_getElem? fun i => ?_⟩
  rw [List.getElem?_mapIdx]
  cases hr : rs[i]? with
  | some r => exact hkept.ended i r (hperm.mem_iff.mpr (mem_numbered.mpr hr))
  | none =>
    rw [List.getElem?_eq_none_iff] at hr
    exact List.getElem?_eq_none (by rw [hkept.length]; omega)

end Slots

section Lock
variable {β : Type*}

/-- Under a lock, what each worker has is added at the end. -/
lemma appended_eq {f : ℕ → R → List β} {p : Pool (List β)}
    (h : run (step fun i r all => all ++ f i r) (start n []) es = some p) :
    p.shared = es.flatMap fun e => f e.1 e.2 := by
  rw [shared_eq h]
  suffices hall : ∀ init : List β, es.foldl (fun s e => s ++ f e.1 e.2) init = init ++ es.flatMap fun e => f e.1 e.2 from
    hall []
  clear h
  induction es with
  | nil => simp
  | cons e es ih =>
    intro init
    rw [List.foldl_cons,ih,List.flatMap_cons,List.append_assoc]

/-- Under a lock, the first one to have something keeps its place. -/
lemma first_eq {f : ℕ → R → Option β} {p : Pool (Option β)}
    (h : run (step fun i r first => first.or (f i r)) (start n none) es = some p) :
    p.shared = es.findSome? fun e => f e.1 e.2 := by
  rw [shared_eq h]
  suffices hall : ∀ init : Option β,
      es.foldl (fun s e => s.or (f e.1 e.2)) init = init.or (es.findSome? fun e => f e.1 e.2) from hall none
  clear h
  induction es with
  | nil => simp
  | cons e es ih =>
    intro init
    rw [List.foldl_cons,ih,Option.or_assoc,List.findSome?_cons]
    cases f e.1 e.2 <;> simp

end Lock

end Workers
