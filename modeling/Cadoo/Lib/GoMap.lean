import Mathlib.Data.List.AList
import Mathlib.Tactic.Lemma

/-! Maps as Go has them: reading a missing key gives the zero value, and the order of the entries
means nothing. -/

abbrev GoMap (K V : Type) := AList fun _ : K => V

namespace GoMap
variable {K V : Type} [DecidableEq K]

def get [Inhabited V] (m : GoMap K V) (k : K) : V := (m.lookup k).getD default

variable [Inhabited V] (m : GoMap K V) (k j : K) (v : V)

@[simp] lemma get_insert : get (AList.insert k v m) k = v := by simp [get]

lemma get_insert_ne (h : j ≠ k) : get (AList.insert k v m) j = get m j := by
  simp [get,AList.lookup_insert_ne h]

lemma get_insert_eq : get (AList.insert k v m) j = if j = k then v else get m j := by
  split
  · next h => subst h; simp
  · next h => exact get_insert_ne m k j v h

@[simp] lemma get_singleton : get (AList.singleton k v) k = v := by
  rw [← AList.insert_empty,get_insert]

lemma get_of_notMem (h : k ∉ m) : get m k = default := by
  rw [get,AList.lookup_eq_none.mpr h]
  rfl

/-- Lists filled value by value, each under its key. -/
lemma get_foldl_append {A W : Type} (key : A → K) (val : A → W) (xs : List A) (m : GoMap K (List W)) :
    get (xs.foldl (fun m x => m.insert (key x) (get m (key x) ++ [val x])) m) k =
      get m k ++ (xs.filter fun x => key x = k).map val := by
  induction xs generalizing m with
  | nil => exact (List.append_nil _).symm
  | cons x xs ih =>
    rw [List.foldl_cons,ih,get_insert_eq,List.filter_cons]
    by_cases hx : k = key x
    · rw [if_pos hx,if_pos (decide_eq_true hx.symm),← hx,List.map_cons,List.append_assoc]
      rfl
    · rw [if_neg hx,if_neg (by simpa using Ne.symm hx)]

section Entries
omit [Inhabited V]
variable {m : GoMap K V} {k : K} {v : V} {l : List (K × V)}

lemma lookup_insert_cases {j : K} {w : V} (h : AList.lookup j (AList.insert k v m) = some w) :
    (j = k ∧ w = v) ∨ (j ≠ k ∧ AList.lookup j m = some w) := by
  by_cases hj : j = k
  · subst hj
    rw [AList.lookup_insert] at h
    exact .inl ⟨rfl,(Option.some.inj h).symm⟩
  · rw [AList.lookup_insert_ne hj] at h
    exact .inr ⟨hj,h⟩

/-- The pairs a `range` over the map goes through, in some order. -/
def toList (m : GoMap K V) : List (K × V) := m.entries.map fun e => (e.1,e.2)

/-- A map filled pair by pair. -/
def ofEntries (l : List (K × V)) : GoMap K V := l.foldl (fun m e => m.insert e.1 e.2) ∅

lemma mem_toList : (k,v) ∈ toList m ↔ AList.lookup k m = some v := by
  rw [← Option.mem_def,AList.mem_lookup_iff,toList,List.mem_map]
  constructor
  · rintro ⟨⟨k',v'⟩,he,hkv⟩
    obtain ⟨rfl,rfl⟩ := Prod.mk.inj hkv
    exact he
  · exact fun he => ⟨⟨k,v⟩,he,rfl⟩

/-- Filling a map: a key that comes with one value only gets it. -/
lemma lookup_ofEntries (h : ∀ v w, (k,v) ∈ l → (k,w) ∈ l → v = w) :
    AList.lookup k (ofEntries l) = some v ↔ (k,v) ∈ l := by
  suffices hm : ∀ m : GoMap K V, AList.lookup k (l.foldl (fun m e => m.insert e.1 e.2) m) = some v ↔
      (k,v) ∈ l ∨ (∀ w, (k,w) ∉ l) ∧ AList.lookup k m = some v by
    simpa [ofEntries] using hm ∅
  induction l with
  | nil => simp
  | cons e l ih =>
    obtain ⟨k',v'⟩ := e
    have ih := ih fun v w hv hw => h v w (List.mem_cons_of_mem _ hv) (List.mem_cons_of_mem _ hw)
    intro m
    rw [List.foldl_cons,ih]
    by_cases hk : k = k'
    · subst hk
      have hv' : ∀ w, (k,w) ∈ l → w = v' := fun w hw =>
        h w v' (List.mem_cons_of_mem _ hw) List.mem_cons_self
      rw [AList.lookup_insert]
      constructor
      · rintro (hv | ⟨-,hv⟩)
        · exact .inl (List.mem_cons_of_mem _ hv)
        · obtain rfl := Option.some.inj hv
          exact .inl List.mem_cons_self
      · rintro (hv | ⟨hnone,-⟩)
        · rcases List.mem_cons.mp hv with hv | hv
          · obtain ⟨-,rfl⟩ := Prod.mk.inj hv
            by_cases hin : ∃ w, (k,w) ∈ l
            · obtain ⟨w,hw⟩ := hin
              exact .inl (hv' w hw ▸ hw)
            · exact .inr ⟨fun w hw => hin ⟨w,hw⟩,rfl⟩
          · exact .inl hv
        · exact absurd List.mem_cons_self (hnone v')
    · rw [AList.lookup_insert_ne hk]
      have hne : ∀ w, (k,w) ∈ (k',v') :: l ↔ (k,w) ∈ l := fun w => by simp [hk]
      simp only [hne]

/-- The keys of a map that has been filled. -/
lemma isSome_lookup_ofEntries : (AList.lookup k (ofEntries l)).isSome ↔ k ∈ l.map Prod.fst := by
  suffices hm : ∀ m : GoMap K V, (AList.lookup k (l.foldl (fun m e => m.insert e.1 e.2) m)).isSome ↔
      k ∈ l.map Prod.fst ∨ (AList.lookup k m).isSome by
    simpa [ofEntries] using hm ∅
  induction l with
  | nil => simp
  | cons e l ih =>
    intro m
    rw [List.foldl_cons,ih,List.map_cons,List.mem_cons]
    by_cases hk : k = e.1
    · rw [hk,AList.lookup_insert]
      simp
    · rw [AList.lookup_insert_ne hk,or_iff_right hk]

/-- A map written under encoded keys, all of them distinct. -/
lemma lookup_encoded {K' : Type} [DecidableEq K'] {enc : K → K'} {dec : K' → Option K}
    (hdec : ∀ k v, AList.lookup k m = some v → dec (enc k) = some k)
    {e : K'} {v : V} :
    AList.lookup e (ofEntries (m.toList.map fun x => (enc x.1,x.2))) = some v ↔
      ∃ k, AList.lookup k m = some v ∧ enc k = e := by
  have hmem : ∀ v, (e,v) ∈ m.toList.map (fun x => (enc x.1,x.2)) ↔
      ∃ k, AList.lookup k m = some v ∧ enc k = e := by
    intro v
    rw [List.mem_map]
    constructor
    · rintro ⟨⟨k,v'⟩,hk,he⟩
      obtain ⟨rfl,rfl⟩ := Prod.mk.inj he
      exact ⟨k,mem_toList.mp hk,rfl⟩
    · rintro ⟨k,hk,rfl⟩
      exact ⟨(k,v),mem_toList.mpr hk,rfl⟩
  rw [lookup_ofEntries,hmem]
  intro v w hv hw
  obtain ⟨k₁,h₁,he₁⟩ := (hmem v).mp hv
  obtain ⟨k₂,h₂,he₂⟩ := (hmem w).mp hw
  have hk : k₁ = k₂ := by
    have h := hdec k₁ v h₁
    rw [he₁,← he₂,hdec k₂ w h₂] at h
    exact (Option.some.inj h).symm
  rw [hk] at h₁
  exact Option.some.inj (h₁.symm.trans h₂)

/-- A map whose keys are written in another form that can be read again comes back as it was. -/
lemma lookup_recoded {K' : Type} [DecidableEq K'] {W : Type} {p : GoMap K' W} {enc : K → K'}
    {dec : K' → Option K} {h : V → W} (hdec : ∀ k v, AList.lookup k m = some v → dec (enc k) = some k)
    (hp : ∀ e w, AList.lookup e p = some w → ∃ k v, AList.lookup k m = some v ∧ enc k = e)
    (hm : ∀ k v, AList.lookup k m = some v → AList.lookup (enc k) p = some (h v)) (k : K) :
    AList.lookup k (ofEntries (p.toList.filterMap fun e => (dec e.1).map (·,e.2))) =
      (AList.lookup k m).map h := by
  have hmem : ∀ w, (k,w) ∈ p.toList.filterMap (fun e => (dec e.1).map (·,e.2)) ↔
      ∃ v, AList.lookup k m = some v ∧ w = h v := by
    intro w
    rw [List.mem_filterMap]
    constructor
    · rintro ⟨⟨e,w'⟩,he,hd⟩
      obtain ⟨k',hk',hpair⟩ := Option.map_eq_some_iff.mp hd
      obtain ⟨rfl,rfl⟩ := Prod.mk.inj hpair
      rw [mem_toList] at he
      obtain ⟨k₀,v,hv,rfl⟩ := hp _ _ he
      rw [hdec k₀ v hv] at hk'
      obtain rfl := Option.some.inj hk'
      rw [hm k₀ v hv] at he
      exact ⟨v,hv,(Option.some.inj he).symm⟩
    · rintro ⟨v,hv,rfl⟩
      refine ⟨(enc k,h v),mem_toList.mpr (hm k v hv),?_⟩
      rw [hdec k v hv]
      rfl
  apply Option.ext
  intro w
  rw [lookup_ofEntries,hmem,Option.map_eq_some_iff]
  · simp only [eq_comm]
  · intro v w hv hw
    obtain ⟨x,hx,rfl⟩ := (hmem v).mp hv
    obtain ⟨y,hy,rfl⟩ := (hmem w).mp hw
    rw [Option.some.inj (hx.symm.trans hy)]

end Entries

end GoMap
