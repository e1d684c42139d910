import Mathlib.Data.List.Dedup
import Mathlib.Data.List.Infix
import Mathlib.Tactic.Lemma

/-! A tree of files and directories, each at the list of names that leads to it, and the calls of an operating
system on it. A call that fails leaves what it has done so far. -/
namespace FileTree
variable {N C : Type} [DecidableEq N]

inductive Node (C : Type) where
  | dir
  | file (content : C)
  deriving DecidableEq

inductive Errno where
  | notDir | isDir | notExist | exist | notEmpty | invalid
  deriving DecidableEq

/-- The nodes, and every name that has been given to one. -/
structure Tree (N C : Type) where
  node : List N → Option (Node C)
  names : List N

namespace Tree
variable (t : Tree N C)

def isDir (p : List N) : Bool :=
  match t.node p with
  | some .dir => true
  | _ => false

def set (p : List N) (n : Node C) : Tree N C where
  node := fun q => if q = p then some n else t.node q
  names := p ++ t.names

/-- The directories of a path that are missing are made, from one of its own directories on. -/
def mkdirFrom (t : Tree N C) (made : List N) : List N → Option Errno × Tree N C
  | [] => (none,t)
  | e :: rest =>
    match t.node (made ++ [e]) with
    | some .dir => mkdirFrom t (made ++ [e]) rest
    | some (.file _) => (some .notDir,t)
    | none => mkdirFrom (t.set (made ++ [e]) .dir) (made ++ [e]) rest

def mkdirAll (p : List N) : Option Errno × Tree N C := t.mkdirFrom [] p

/-- Opens a file for writing; it is made, or emptied. -/
def create (p : List N) (empty : C) : Option Errno × Tree N C :=
  match t.node p with
  | some .dir => (some .isDir,t)
  | some (.file _) => (none,t.set p (.file empty))
  | none => if t.isDir p.dropLast then (none,t.set p (.file empty)) else (some .notExist,t)

/-- The names in a directory. -/
def readDir (p : List N) : Except Errno (List N) :=
  match t.node p with
  | some .dir => .ok (t.names.dedup.filter fun e => (t.node (p ++ [e])).isSome)
  | some (.file _) => .error .notDir
  | none => .error .notExist

/-- A directory is not replaced, whatever is moved. -/
def rename (src dst : List N) : Option Errno × Tree N C :=
  match t.node src,t.node dst with
  | none,_ => (some .notExist,t)
  | _,some .dir => (some .exist,t)
  | some .dir,some (.file _) => (some .notDir,t)
  | _,_ =>
    if src <+: dst then (some .invalid,t)
    else if t.isDir dst.dropLast = false then (some .notExist,t)
    else (none,{
      node := fun q =>
        if dst <+: q then t.node (src ++ q.drop dst.length) else if src <+: q then none else t.node q
      names := dst ++ t.names })

/-- A file or an empty directory is removed. -/
def remove (p : List N) : Option Errno × Tree N C :=
  match t.node p with
  | none => (some .notExist,t)
  | some _ =>
    if t.names.any fun e => (t.node (p ++ [e])).isSome then (some .notEmpty,t)
    else (none,{ t with node := fun q => if q = p then none else t.node q })

def removeAll (p : List N) : Tree N C := { t with node := fun q => if p <+: q then none else t.node q }

/-- Whatever is there is in a directory and has its name noted. -/
structure Rooted (t : Tree N C) : Prop where
  parent : ∀ p e, t.node (p ++ [e]) ≠ none → t.node p = some .dir
  named : ∀ p e, t.node (p ++ [e]) ≠ none → e ∈ t.names

variable {t} {p q made rest : List N} {n : Node C}

omit [DecidableEq N] in
lemma isDir_iff : t.isDir p = true ↔ t.node p = some .dir := by
  rw [isDir]
  split
  · next h => simp [h]
  · next h => simpa using h

lemma set_node_self : (t.set p n).node p = some n := if_pos rfl

lemma set_node_ne (h : q ≠ p) : (t.set p n).node q = t.node q := if_neg h

namespace Rooted

omit [DecidableEq N] in
/-- Above everything there are directories. -/
lemma above (ht : t.Rooted) (hq : t.node q ≠ none) (hp : p <+: q) (hne : p ≠ q) : t.node p = some .dir := by
  obtain ⟨tail,rfl⟩ := hp
  induction tail using List.reverseRecOn with
  | nil => exact absurd (List.append_nil p).symm hne
  | append_singleton tail e ih =>
    rw [← List.append_assoc] at hq
    have hparent := ht.parent _ _ hq
    by_cases hnil : tail = []
    · rwa [hnil,List.append_nil] at hparent
    · refine ih (by rw [hparent]; simp) fun h => hnil ?_
      exact (List.append_right_eq_self.mp h.symm)

lemma set (ht : t.Rooted) (hparent : t.node p.dropLast = some .dir)
    (hkeep : t.node p = some .dir → n = .dir) : (t.set p n).Rooted where
  parent := by
    intro q e hne
    have hold : t.node q = some .dir := by
      by_cases hqe : q ++ [e] = p
      · rw [← hqe,List.dropLast_concat] at hparent
        exact hparent
      · rw [set_node_ne hqe] at hne
        exact ht.parent q e hne
    by_cases hq : q = p
    · rw [hq] at hold ⊢
      rw [set_node_self,hkeep hold]
    · rwa [set_node_ne hq]
  named := by
    intro q e hne
    by_cases hqe : q ++ [e] = p
    · exact List.mem_append_left _ (hqe ▸ List.mem_append_right _ List.mem_cons_self)
    · rw [set_node_ne hqe] at hne
      exact List.mem_append_right _ (ht.named q e hne)

end Rooted

/-- What `mkdirAll` does: directories appear where nothing was, on the way to the path. -/
lemma mkdirFrom_spec (ht : t.Rooted) (hmade : t.node made = some .dir) : (t.mkdirFrom made rest).2.Rooted ∧
    (∀ q, (t.mkdirFrom made rest).2.node q = t.node q ∨ t.node q = none ∧
      (t.mkdirFrom made rest).2.node q = some .dir ∧ q <+: made ++ rest) ∧
    ((t.mkdirFrom made rest).1 = none → (t.mkdirFrom made rest).2.node (made ++ rest) = some .dir) ∧
    ((∀ q c, q <+: made ++ rest → t.node q ≠ some (.file c)) → (t.mkdirFrom made rest).1 = none) := by
  induction rest generalizing made t with
  | nil =>
    rw [mkdirFrom,List.append_nil]
    exact ⟨ht,fun q => .inl rfl,fun _ => hmade,fun _ => rfl⟩
  | cons e rest ih =>
    have happend : made ++ e :: rest = made ++ [e] ++ rest := List.append_cons made e rest
    rw [mkdirFrom,happend]
    cases hnode : t.node (made ++ [e]) with
    | some n =>
      cases n with
      | dir => exact ih ht hnode
      | file c =>
        refine ⟨ht,fun q => .inl rfl,fun h => absurd h (by simp),fun h => absurd hnode (h _ c ?_)⟩
        exact List.prefix_append _ _
    | none =>
      have hset : (t.set (made ++ [e]) .dir).Rooted := by
        refine ht.set ?_ fun _ => rfl
        rw [List.dropLast_concat]
        exact hmade
      obtain ⟨hrooted,hnodes,hdone,hok⟩ := ih hset set_node_self
      refine ⟨hrooted,fun q => ?_,hdone,fun hfiles => hok fun q c hq hfile => ?_⟩
      · by_cases hq : q = made ++ [e]
        · refine .inr ⟨hq ▸ hnode,?_,hq ▸ List.prefix_append _ _⟩
          obtain h | h := hnodes q
          · rw [h,hq,set_node_self]
          · exact h.2.1
        · have h := hnodes q
          rwa [set_node_ne hq] at h
      · by_cases hqe : q = made ++ [e]
        · rw [hqe,set_node_self] at hfile
          exact absurd hfile (by simp)
        · rw [set_node_ne hqe] at hfile
          exact hfiles q c hq hfile

lemma mkdirAll_spec (ht : t.Rooted) (hroot : t.node [] = some .dir) (p : List N) : (t.mkdirAll p).2.Rooted ∧
    (∀ q, (t.mkdirAll p).2.node q = t.node q ∨ t.node q = none ∧ (t.mkdirAll p).2.node q = some .dir ∧ q <+: p) ∧
    ((t.mkdirAll p).1 = none → (t.mkdirAll p).2.node p = some .dir) ∧
    ((∀ q c, q <+: p → t.node q ≠ some (.file c)) → (t.mkdirAll p).1 = none) :=
  mkdirFrom_spec ht hroot

lemma create_eq (h : t.node p.dropLast = some .dir) (empty : C) :
    t.create p empty = if t.isDir p then (some .isDir,t) else (none,t.set p (.file empty)) := by
  have hparent : t.isDir p.dropLast = true := isDir_iff.mpr h
  cases hp : t.node p with
  | none =>
    have hdir : t.isDir p = false := by rw [isDir,hp]
    rw [create,hp,hdir,hparent]
    rfl
  | some n =>
    cases n with
    | dir =>
      have hdir : t.isDir p = true := by rw [isDir,hp]
      rw [create,hp,hdir]
      rfl
    | file c =>
      have hdir : t.isDir p = false := by rw [isDir,hp]
      rw [create,hp,hdir]
      rfl

lemma mem_readDir (ht : t.Rooted) {names : List N} (h : t.readDir p = .ok names) :
    t.node p = some .dir ∧ names.Nodup ∧ ∀ e, e ∈ names ↔ t.node (p ++ [e]) ≠ none := by
  rw [readDir] at h
  split at h
  · next hp =>
    obtain rfl := Except.ok.inj h
    refine ⟨hp,(List.nodup_dedup t.names).filter _,fun e => ?_⟩
    rw [List.mem_filter,List.mem_dedup,Option.isSome_iff_ne_none]
    exact ⟨And.right,fun hne => ⟨ht.named p e hne,hne⟩⟩
  · exact absurd h (by simp)
  · exact absurd h (by simp)

lemma readDir_dir (h : t.node p = some .dir) : ∃ names, t.readDir p = .ok names := by
  rw [readDir,h]
  exact ⟨_,rfl⟩

variable {src dst : List N}

/-- A move to a place where nothing is. -/
lemma rename_spec (ht : t.Rooted) (hsrc : t.node src ≠ none) (hdst : t.node dst = none)
    (hparent : t.node dst.dropLast = some .dir) (happart : ¬ src <+: dst) :
    (t.rename src dst).1 = none ∧ (t.rename src dst).2.Rooted ∧
    (∀ tail, (t.rename src dst).2.node (dst ++ tail) = t.node (src ++ tail)) ∧
    (∀ q, ¬ dst <+: q → src <+: q → (t.rename src dst).2.node q = none) ∧
    ∀ q, ¬ dst <+: q → ¬ src <+: q → (t.rename src dst).2.node q = t.node q := by
  have hmove : t.rename src dst = (none,{
      node := fun q =>
        if dst <+: q then t.node (src ++ q.drop dst.length) else if src <+: q then none else t.node q
      names := dst ++ t.names }) := by
    obtain ⟨n,hn⟩ := Option.ne_none_iff_exists'.mp hsrc
    rw [rename,hn,hdst]
    simp [happart,isDir_iff.mpr hparent]
  rw [hmove]
  refine ⟨rfl,⟨fun p e hpe => ?_,fun p e hpe => ?_⟩,fun tail => ?_,fun q hd hs => ?_,fun q hd hs => ?_⟩
  · -- the parent of what has moved has moved along, but for the top
    dsimp only at hpe ⊢
    split at hpe
    · next hd =>
      obtain ⟨tail,htail⟩ := hd
      by_cases hp : dst <+: p
      · obtain ⟨more,rfl⟩ := hp
        rw [if_pos (List.prefix_append _ _),List.drop_left]
        rw [List.append_assoc,List.drop_left,← List.append_assoc] at hpe
        exact ht.parent _ e hpe
      · have hdrop : dst.dropLast = p := by
          obtain rfl | ⟨more,x,rfl⟩ := List.eq_nil_or_concat' tail
          · rw [List.append_nil] at htail
            rw [htail,List.dropLast_concat]
          · rw [← List.append_assoc] at htail
            exact absurd ⟨more,(List.append_inj' htail rfl).1⟩ hp
        rw [hdrop] at hparent
        rw [if_neg hp,if_neg fun hs => happart (hs.trans (hdrop ▸ List.dropLast_prefix dst)),hparent]
    · next hd =>
      split at hpe
      · exact absurd rfl hpe
      · next hs =>
        rw [if_neg fun h => hd (h.trans (List.prefix_append _ _)),if_neg fun h => hs (h.trans (List.prefix_append _ _))]
        exact ht.parent p e hpe
  · dsimp only at hpe ⊢
    split at hpe
    · next hd =>
      obtain ⟨tail,htail⟩ := hd
      obtain rfl | ⟨more,x,rfl⟩ := List.eq_nil_or_concat' tail
      · rw [List.append_nil] at htail
        exact List.mem_append_left _ (htail ▸ List.mem_append_right _ List.mem_cons_self)
      · rw [← htail,List.drop_left,← List.append_assoc] at hpe
        rw [← List.append_assoc] at htail
        obtain rfl : x = e := (List.cons.inj (List.append_inj' htail rfl).2).1
        exact List.mem_append_right _ (ht.named _ x hpe)
    · split at hpe
      · exact absurd rfl hpe
      · exact List.mem_append_right _ (ht.named p e hpe)
  · dsimp only
    rw [if_pos (List.prefix_append _ _),List.drop_left]
  · dsimp only
    rw [if_neg hd,if_pos hs]
  · dsimp only
    rw [if_neg hd,if_neg hs]

/-- Whether it succeeds or not, a move has to do with nothing but its two ends. -/
lemma rename_outside (t : Tree N C) (hsrc : ¬ src <+: q) (hdst : ¬ dst <+: q) :
    (t.rename src dst).2.node q = t.node q := by
  rw [rename]
  split
  · rfl
  · rfl
  · rfl
  · split
    · rfl
    · split
      · rfl
      · dsimp only
        rw [if_neg hdst,if_neg hsrc]

lemma rename_dir (h : t.node dst = some .dir) : (t.rename src dst).1 ≠ none := by
  rw [rename,h]
  split <;> simp_all

/-- Something in which nothing is can be removed. -/
lemma remove_spec (hp : t.node p ≠ none) (hempty : ∀ e, t.node (p ++ [e]) = none) :
    (t.remove p).1 = none ∧ ∀ q, (t.remove p).2.node q = if q = p then none else t.node q := by
  obtain ⟨n,hn⟩ := Option.ne_none_iff_exists'.mp hp
  have hany : (t.names.any fun e => (t.node (p ++ [e])).isSome) = false := by
    rw [List.any_eq_false]
    intro e _
    rw [hempty e]
    simp
  rw [remove,hn]
  simp only [hany]
  exact ⟨rfl,fun q => rfl⟩

end Tree
end FileTree
