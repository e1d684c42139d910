import Cadoo.Lib.FileTree
import Cadoo.Lib.GoPath

/-! A repository's archive on disk: it is unpacked into a new directory, past entries that would leave it, and the
one directory archives are wrapped in is taken away. -/
namespace Workspace
open Bytes FileTree GoPath

abbrev Err := Bytes
abbrev Disk := Tree Bytes Bytes

inductive Typeflag where
  | dir | reg | other
  deriving DecidableEq

/-- An entry of an archive, and the error if the archive breaks off in its data. -/
structure Entry where
  name : Bytes
  typeflag : Typeflag
  data : Bytes := []
  broken : Option Err := none

/-- The entries of an archive, and the error if something else than its end comes after them. -/
structure Archive where
  entries : List Entry
  broken : Option Err := none

inductive ExtractErr where
  | read (err : Err)
  | system (errno : Errno)

inductive OpenErr where
  | fetch (repo ref : Bytes) (err : Err)
  | mkdtemp (err : Err)
  | extract (repo ref : Bytes) (err : ExtractErr)
  | flatten (repo ref : Bytes) (errno : Errno)

section Source
variable (dest : Bytes)

def target (e : Entry) : Bytes := Join [dest,e.name]

/-- The guard against paths that leave the directory. -/
def accepted (e : Entry) : Bool := hasPrefix (Clean (target dest e) ++ lit "/") (Clean dest ++ lit "/")

/-- Where an entry goes. -/
def place (e : Entry) : List Bytes := elements (target dest e)

def unpack (e : Entry) (t : Disk) : Option ExtractErr × Disk :=
  if accepted dest e = false then (e.broken.map .read,t)
  else
    match e.typeflag with
    | .dir =>
      match t.mkdirAll (place dest e) with
      | (some errno,t) => (some (.system errno),t)
      | (none,t) => (e.broken.map .read,t)
    | .reg =>
      match t.mkdirAll (place dest e).dropLast with
      | (some errno,t) => (some (.system errno),t)
      | (none,t) =>
        match t.create (place dest e) [] with
        | (some errno,t) => (some (.system errno),t)
        | (none,t) => (e.broken.map .read,t.set (place dest e) (.file e.data))
    | .other => (e.broken.map .read,t)

def unpackAll : List Entry → Disk → Option ExtractErr × Disk
  | [],t => (none,t)
  | e :: es,t =>
    match unpack dest e t with
    | (some err,t) => (some err,t)
    | (none,t) => unpackAll es t

def extractTarGz (archive : Except Err Archive) (t : Disk) : Option ExtractErr × Disk :=
  match archive with
  | .error err => (some (.read err),t)
  | .ok a =>
    match unpackAll dest a.entries t with
    | (some err,t) => (some err,t)
    | (none,t) => (a.broken.map .read,t)

end Source

def byName (a b : Bytes) : Bool := !less b a

/-- What is in `sub` goes up into `dir`. -/
def moveUp (dir sub : List Bytes) : List Bytes → Disk → Option Errno × Disk
  | [],t => (none,t)
  | e :: es,t =>
    match t.rename (sub ++ [e]) (dir ++ [e]) with
    | (some errno,t) => (some errno,t)
    | (none,t) => moveUp dir sub es t

def flattenSingleRoot (dir : List Bytes) (t : Disk) : Option Errno × Disk :=
  match t.readDir dir with
  | .error errno => (some errno,t)
  | .ok [root] =>
    if t.isDir (dir ++ [root]) then
      match t.readDir (dir ++ [root]) with
      | .error errno => (some errno,t)
      | .ok inner =>
        match moveUp dir (dir ++ [root]) (inner.mergeSort byName) t with
        | (some errno,t) => (some errno,t)
        | (none,t) => t.remove (dir ++ [root])
    else (none,t)
  | .ok _ => (none,t)

/-- The workspace's directory; `mkdtemp` is the name of a new one. -/
def Open (archive : Except Err (Except Err Archive)) (mkdtemp : Except Err Bytes) (repo ref : Bytes) (t : Disk) :
    Except OpenErr Bytes × Disk :=
  match archive with
  | .error err => (.error (.fetch repo ref err),t)
  | .ok src =>
    match mkdtemp with
    | .error err => (.error (.mkdtemp err),t)
    | .ok dir =>
      match extractTarGz dir src (t.set (elements dir) .dir) with
      | (some err,t) => (.error (.extract repo ref err),t.removeAll (elements dir))
      | (none,t) =>
        match flattenSingleRoot (elements dir) t with
        | (some errno,t) => (.error (.flatten repo ref errno),t.removeAll (elements dir))
        | (none,t) => (.ok dir,t)

section Confined
variable {dest : Bytes} {e : Entry} {t t₀ t' : Disk} {ds : List Bytes}

/-- What the guard lets through stays in the directory. -/
lemma prefix_place (hdest : rooted dest = true) (h : accepted dest e = true) : elements dest <+: place dest e := by
  have hclean : Clean dest ≠ [] := by
    intro hnil
    have hrooted := (elements_Clean dest).1
    rw [hnil,hdest] at hrooted
    exact absurd hrooted (by decide)
  have hslash : lit "/" = [slash] := rfl
  rw [accepted,hasPrefix,List.isPrefixOf_iff_prefix,hslash] at h
  rw [← (elements_Clean dest).2,place,← (elements_Clean (target dest e)).2]
  obtain heq | hpre := List.prefix_concat_iff.mp h
  · rw [List.append_cancel_right heq]
  · have hcont : hasPrefix (Clean (target dest e)) (Clean dest ++ lit "/") = true := List.isPrefixOf_iff_prefix.mpr hpre
    exact ((hasPrefix_slash_iff hclean _).mp hcont).2.2.1

/-- Nothing outside of the directory has changed, and the directory is there. -/
structure Confined (ds : List Bytes) (t₀ t : Disk) : Prop where
  rooted : t.Rooted
  top : t.node [] = some .dir
  dir : t.node ds = some .dir
  outside : ∀ q, ¬ ds <+: q → t.node q = t₀.node q

variable {p : List Bytes} {n : Node Bytes}

/-- Above the directory there are directories. -/
lemma Confined.above (h : Confined ds t₀ t) {q : List Bytes} (hq : q <+: ds) : t.node q = some .dir := by
  by_cases hne : q = ds
  · rw [hne,h.dir]
  · exact h.rooted.above (by rw [h.dir]; simp) hq hne

lemma Confined.mkdirAll (h : Confined ds t₀ t) (hp : ds <+: p ∨ p <+: ds) : Confined ds t₀ (t.mkdirAll p).2 := by
  obtain ⟨hrooted,hnodes,-,-⟩ := Tree.mkdirAll_spec h.rooted h.top p
  have hkeep : ∀ q, t.node q ≠ none → (t.mkdirAll p).2.node q = t.node q := fun q hq =>
    (hnodes q).elim id fun hnew => absurd hnew.1 hq
  refine ⟨hrooted,?_,?_,fun q hq => ?_⟩
  · rw [hkeep _ (by rw [h.top]; simp),h.top]
  · rw [hkeep _ (by rw [h.dir]; simp),h.dir]
  · rw [← h.outside q hq]
    refine (hnodes q).elim id fun hnew => ?_
    have hup : q <+: ds := by
      obtain hp | hp := hp
      · exact (List.prefix_or_prefix_of_prefix hnew.2.2 hp).resolve_right hq
      · exact hnew.2.2.trans hp
    rw [h.above hup] at hnew
    exact absurd hnew.1 (by simp)

lemma Confined.set (h : Confined ds t₀ t) (hp : ds <+: p) (hparent : t.node p.dropLast = some .dir)
    (hfree : t.node p ≠ some .dir) : Confined ds t₀ (t.set p n) := by
  have hne : ∀ {q : List Bytes}, t.node q = some .dir → q ≠ p := fun hq heq => hfree (heq ▸ hq)
  refine ⟨h.rooted.set hparent fun hdir => absurd hdir hfree,?_,?_,fun q hq => ?_⟩
  · rw [Tree.set_node_ne (hne h.top),h.top]
  · rw [Tree.set_node_ne (hne h.dir),h.dir]
  · rw [Tree.set_node_ne fun heq : q = p => hq (by rw [heq]; exact hp),h.outside q hq]

lemma prefix_dropLast (hp : ds <+: p) : ds <+: p.dropLast ∨ p.dropLast <+: ds :=
  List.prefix_or_prefix_of_prefix hp (List.dropLast_prefix p)

/-- Everything an entry can do: nothing, make directories, or write its file into a directory. -/
lemma unpack_cases (ht : t.Rooted) (htop : t.node [] = some .dir) (e : Entry) :
    ((accepted dest e = false ∨ e.typeflag = .other) ∧ unpack dest e t = (e.broken.map .read,t)) ∨
    (accepted dest e = true ∧ e.typeflag = .dir ∧ (unpack dest e t).2 = (t.mkdirAll (place dest e)).2 ∧
      ((t.mkdirAll (place dest e)).1 = none → (unpack dest e t).1 = e.broken.map .read) ∧
      ((unpack dest e t).1 = none → (t.mkdirAll (place dest e)).1 = none)) ∨
    (accepted dest e = true ∧ e.typeflag = .reg ∧ (unpack dest e t).1 ≠ none ∧
      (unpack dest e t).2 = (t.mkdirAll (place dest e).dropLast).2 ∧
      ((t.mkdirAll (place dest e).dropLast).1 ≠ none ∨
        (t.mkdirAll (place dest e).dropLast).2.node (place dest e) = some .dir)) ∨
    (accepted dest e = true ∧ e.typeflag = .reg ∧ (unpack dest e t).1 = e.broken.map .read ∧
      (t.mkdirAll (place dest e).dropLast).2.node (place dest e).dropLast = some .dir ∧
      (t.mkdirAll (place dest e).dropLast).2.node (place dest e) ≠ some .dir ∧
      (unpack dest e t).2 = ((t.mkdirAll (place dest e).dropLast).2.set (place dest e) (.file [])).set
        (place dest e) (.file e.data)) := by
  by_cases hin : accepted dest e = false
  · exact .inl ⟨.inl hin,if_pos hin⟩
  · have hacc : accepted dest e = true := Bool.not_eq_false _ ▸ hin
    obtain ⟨name,flag,data,broken⟩ := e
    cases flag with
    | dir =>
      refine .inr (.inl ⟨hacc,rfl,?_⟩)
      rw [unpack,if_neg hin]
      dsimp only
      generalize t.mkdirAll (place dest ⟨name,.dir,data,broken⟩) = r
      obtain ⟨errno,t'⟩ := r
      cases errno with
      | none => exact ⟨rfl,fun _ => rfl,fun _ => rfl⟩
      | some errno => exact ⟨rfl,fun h => absurd h (by simp),fun h => absurd h (by simp)⟩
    | reg =>
      obtain ⟨-,-,hdone,-⟩ := Tree.mkdirAll_spec ht htop (place dest ⟨name,.reg,data,broken⟩).dropLast
      refine .inr (.inr ?_)
      rw [unpack,if_neg hin]
      dsimp only at hdone ⊢
      generalize t.mkdirAll (place dest ⟨name,.reg,data,broken⟩).dropLast = r at hdone ⊢
      obtain ⟨errno,t'⟩ := r
      cases errno with
      | some errno => exact .inl ⟨hacc,rfl,by simp,rfl,.inl (by simp)⟩
      | none =>
        have hparent := hdone rfl
        dsimp only at hparent ⊢
        rw [Tree.create_eq hparent]
        by_cases hdir : t'.isDir (place dest ⟨name,.reg,data,broken⟩) = true
        · rw [if_pos hdir]
          exact .inl ⟨hacc,rfl,by simp,rfl,.inr (Tree.isDir_iff.mp hdir)⟩
        · rw [if_neg hdir]
          exact .inr ⟨hacc,rfl,rfl,hparent,fun h => hdir (Tree.isDir_iff.mpr h),rfl⟩
    | other =>
      refine .inl ⟨.inr rfl,?_⟩
      rw [unpack,if_neg hin]

lemma Confined.unpack (hdest : GoPath.rooted dest = true) (h : Confined (elements dest) t₀ t) (e : Entry) :
    Confined (elements dest) t₀ (unpack dest e t).2 := by
  obtain ⟨-,hu⟩ | ⟨hacc,-,hu,-⟩ | ⟨hacc,-,-,hu,-⟩ | ⟨hacc,-,-,hparent,hfree,hu⟩ := unpack_cases h.rooted h.top e
  · rw [hu]
    exact h
  · rw [hu]
    exact h.mkdirAll (.inl (prefix_place hdest hacc))
  · rw [hu]
    exact h.mkdirAll (prefix_dropLast (prefix_place hdest hacc))
  · rw [hu]
    have hp := prefix_place hdest hacc
    have hne : (place dest e).dropLast ≠ place dest e := fun heq => hfree ((congrArg _ heq.symm).trans hparent)
    refine ((h.mkdirAll (prefix_dropLast hp)).set hp hparent hfree).set hp ?_ ?_
    · rw [Tree.set_node_ne hne,hparent]
    · rw [Tree.set_node_self]
      simp

lemma Confined.unpackAll (hdest : GoPath.rooted dest = true) (es : List Entry) (h : Confined (elements dest) t₀ t) :
    Confined (elements dest) t₀ (unpackAll dest es t).2 := by
  induction es generalizing t with
  | nil => exact h
  | cons e es ih =>
    have hone := h.unpack hdest e
    rw [Workspace.unpackAll]
    generalize Workspace.unpack dest e t = r at hone ⊢
    obtain ⟨err,t'⟩ := r
    cases err with
    | some err => exact hone
    | none => exact ih hone

end Confined

section Flatten
variable {t : Disk} {dir : List Bytes} {root : Bytes}

lemma below_iff {a b : Bytes} {l : List Bytes} : dir ++ [a] <+: dir ++ b :: l ↔ a = b := by
  rw [List.prefix_append_right_inj,List.cons_prefix_cons]
  exact and_iff_left List.nil_prefix

lemma below_two_iff {a b c d : Bytes} {l : List Bytes} : dir ++ [a,c] <+: dir ++ b :: d :: l ↔ a = b ∧ c = d := by
  rw [List.prefix_append_right_inj,List.cons_prefix_cons,List.cons_prefix_cons]
  exact and_congr_right fun _ => and_iff_left List.nil_prefix

lemma apart {a b : Bytes} (h : a ≠ b) (l : List Bytes) : ¬ dir ++ [a] <+: dir ++ b :: l :=
  fun hpre => h (below_iff.mp hpre)

lemma apart_two {a b c d : Bytes} (h : a ≠ b ∨ c ≠ d) (l : List Bytes) : ¬ dir ++ [a,c] <+: dir ++ b :: d :: l :=
  fun hpre => h.elim (fun h => h (below_two_iff.mp hpre).1) fun h => h (below_two_iff.mp hpre).2

lemma apart_head {a b c : Bytes} (h : a ≠ b) (l : List Bytes) : ¬ dir ++ [a,c] <+: dir ++ b :: l := by
  intro hpre
  rw [List.prefix_append_right_inj,List.cons_prefix_cons] at hpre
  exact h hpre.1

lemma not_below {a : Bytes} {l : List Bytes} : ¬ dir ++ a :: l <+: dir := by
  intro h
  have hlen := h.length_le
  rw [List.length_append,List.length_cons] at hlen
  omega

/-- What moves up is found where it was, one name shorter; everything else stays. -/
lemma moveUp_spec {es : List Bytes} (ht : t.Rooted) (hdir : t.node dir = some .dir) (hnd : es.Nodup) (hroot : root ∉ es)
    (hsrc : ∀ e ∈ es, t.node (dir ++ [root,e]) ≠ none) (hdst : ∀ e ∈ es, t.node (dir ++ [e]) = none) :
    (moveUp dir (dir ++ [root]) es t).1 = none ∧ (moveUp dir (dir ++ [root]) es t).2.Rooted ∧
    (∀ e ∈ es, ∀ rest, (moveUp dir (dir ++ [root]) es t).2.node (dir ++ e :: rest) = t.node (dir ++ root :: e :: rest)) ∧
    (∀ e ∈ es, ∀ rest, (moveUp dir (dir ++ [root]) es t).2.node (dir ++ root :: e :: rest) = none) ∧
    ∀ q, (∀ e ∈ es, ¬ dir ++ [e] <+: q ∧ ¬ dir ++ [root,e] <+: q) →
      (moveUp dir (dir ++ [root]) es t).2.node q = t.node q := by
  induction es generalizing t with
  | nil => exact ⟨rfl,ht,by simp,by simp,fun q _ => rfl⟩
  | cons e es ih =>
    obtain ⟨he,hnd⟩ := List.nodup_cons.mp hnd
    rw [List.mem_cons,not_or] at hroot
    obtain ⟨hroote,hroot⟩ := hroot
    have hne : ∀ f ∈ es, e ≠ f := fun f hf heq => he (heq ▸ hf)
    have hnroot : ∀ f ∈ es, root ≠ f := fun f hf heq => hroot (heq ▸ hf)
    have hsub : dir ++ [root] ++ [e] = dir ++ [root,e] := List.append_assoc _ _ _
    have hsrce : t.node (dir ++ [root] ++ [e]) ≠ none := hsub ▸ hsrc e List.mem_cons_self
    have hparent : t.node (dir ++ [e]).dropLast = some .dir := by rwa [List.dropLast_concat]
    obtain ⟨hok,hrooted,hmoved,hgone,hkept⟩ := Tree.rename_spec ht hsrce (hdst e List.mem_cons_self) hparent
      (hsub ▸ apart_head hroote [])
    rw [hsub] at hok hrooted hmoved hgone hkept
    rw [moveUp,hsub]
    generalize t.rename (dir ++ [root,e]) (dir ++ [e]) = r at hok hrooted hmoved hgone hkept ⊢
    obtain ⟨errno,t₁⟩ := r
    obtain rfl : errno = none := hok
    dsimp only at hrooted hmoved hgone hkept ⊢
    have hdir₁ : t₁.node dir = some .dir := by rw [hkept dir not_below not_below,hdir]
    have hdeep : ∀ f ∈ es, ∀ rest, t₁.node (dir ++ root :: f :: rest) = t.node (dir ++ root :: f :: rest) := by
      intro f hf rest
      exact hkept _ (apart (Ne.symm hroote) _) (apart_two (.inr (hne f hf)) rest)
    have hflat : ∀ f ∈ es, t₁.node (dir ++ [f]) = t.node (dir ++ [f]) := fun f hf =>
      hkept _ (apart (hne f hf) _) (apart_head (hnroot f hf) _)
    obtain ⟨hok₂,hrooted₂,hmoved₂,hgone₂,hkept₂⟩ := ih hrooted hdir₁ hnd hroot
      (fun f hf => (hdeep f hf []).symm ▸ hsrc f (List.mem_cons_of_mem _ hf))
      (fun f hf => (hflat f hf).trans (hdst f (List.mem_cons_of_mem _ hf)))
    refine ⟨hok₂,hrooted₂,fun f hf rest => ?_,fun f hf rest => ?_,fun q hq => ?_⟩
    · obtain rfl | hf := List.mem_cons.mp hf
      · rw [hkept₂ _ fun g hg => ⟨apart (hne g hg).symm _,apart_head hroote _⟩,List.append_cons,hmoved,List.append_assoc]
        rfl
      · rw [hmoved₂ f hf,hdeep f hf]
    · obtain rfl | hf := List.mem_cons.mp hf
      · rw [hkept₂ _ fun g hg => ⟨apart (hnroot g hg).symm _,apart_two (.inr (hne g hg).symm) rest⟩]
        exact hgone _ (apart (Ne.symm hroote) _) (below_two_iff.mpr ⟨rfl,rfl⟩)
      · exact hgone₂ f hf rest
    · rw [hkept₂ q fun f hf => hq f (List.mem_cons_of_mem _ hf)]
      exact hkept q (hq e List.mem_cons_self).1 (hq e List.mem_cons_self).2

lemma moveUp_outside (t : Disk) (es : List Bytes) {q : List Bytes} (hq : ¬ dir <+: q) :
    (moveUp dir (dir ++ [root]) es t).2.node q = t.node q := by
  induction es generalizing t with
  | nil => rfl
  | cons e es ih =>
    have hsub : ¬ dir ++ [root] ++ [e] <+: q := fun h =>
      hq ((List.prefix_append _ _).trans ((List.prefix_append _ _).trans h))
    have hone := t.rename_outside hsub fun h : dir ++ [e] <+: q => hq ((List.prefix_append _ _).trans h)
    rw [moveUp]
    generalize t.rename (dir ++ [root] ++ [e]) (dir ++ [e]) = r at hone ⊢
    obtain ⟨errno,t₁⟩ := r
    cases errno with
    | some errno => exact hone
    | none => exact (ih t₁).trans hone

/-- Something of the wrapper's own name cannot take its place. -/
lemma moveUp_root {es : List Bytes} (h : t.node (dir ++ [root]) = some .dir) (hroot : root ∈ es) :
    (moveUp dir (dir ++ [root]) es t).1 ≠ none := by
  induction es generalizing t with
  | nil => exact absurd hroot (List.not_mem_nil)
  | cons e es ih =>
    rw [moveUp]
    by_cases he : e = root
    · rw [he]
      have hfail : (t.rename (dir ++ [root] ++ [root]) (dir ++ [root])).1 ≠ none := Tree.rename_dir h
      generalize t.rename (dir ++ [root] ++ [root]) (dir ++ [root]) = r at hfail ⊢
      obtain ⟨errno,t₁⟩ := r
      cases errno with
      | none => exact absurd rfl hfail
      | some errno => simp
    · have hsub : ¬ dir ++ [root] ++ [e] <+: dir ++ [root] := fun h => by simpa using h.length_le
      have hone := t.rename_outside hsub fun h : dir ++ [e] <+: dir ++ [root] => he (below_iff.mp h)
      generalize t.rename (dir ++ [root] ++ [e]) (dir ++ [e]) = r at hone ⊢
      obtain ⟨errno,t₁⟩ := r
      cases errno with
      | some errno => simp
      | none => exact ih (hone.trans h) ((List.mem_cons.mp hroot).resolve_left (Ne.symm he))

/-- The one directory in which everything is. -/
def Wraps (dir : List Bytes) (root : Bytes) (t : Disk) : Prop :=
  (∀ e, t.node (dir ++ [e]) ≠ none ↔ e = root) ∧ t.node (dir ++ [root]) = some .dir

lemma flatten_outside (t : Disk) {q : List Bytes} (hq : ¬ dir <+: q) :
    (flattenSingleRoot dir t).2.node q = t.node q := by
  rw [flattenSingleRoot]
  split
  · rfl
  · next root _ =>
    split
    · split
      · rfl
      · next inner _ =>
        have hmove : (moveUp dir (dir ++ [root]) (inner.mergeSort byName) t).2.node q = t.node q :=
          moveUp_outside t (inner.mergeSort byName) hq
        generalize moveUp dir (dir ++ [root]) (inner.mergeSort byName) t = r at hmove ⊢
        obtain ⟨errno,t₁⟩ := r
        cases errno with
        | some errno => exact hmove
        | none =>
          refine Eq.trans ?_ hmove
          have hne : q ≠ dir ++ [root] := fun h => hq (h ▸ List.prefix_append _ _)
          dsimp only
          rw [Tree.remove]
          split
          · rfl
          · split
            · rfl
            · exact if_neg hne
    · rfl
  · rfl

lemma flatten_unwrapped (ht : t.Rooted) (hdir : t.node dir = some .dir) (h : ¬ ∃ root, Wraps dir root t) :
    flattenSingleRoot dir t = (none,t) := by
  obtain ⟨names,hnames⟩ := Tree.readDir_dir hdir
  obtain ⟨-,-,hmem⟩ := Tree.mem_readDir ht hnames
  rw [flattenSingleRoot,hnames]
  split
  · next heq => exact absurd heq (by simp)
  · next root heq =>
    obtain rfl := Except.ok.inj heq
    refine if_neg fun hroot => h ⟨root,fun e => ?_,Tree.isDir_iff.mp hroot⟩
    rw [← hmem e,List.mem_singleton]
  · rfl

lemma nothing_below (ht : t.Rooted) {p : List Bytes} {a : Bytes} (h : t.node (p ++ [a]) = none) (rest : List Bytes) :
    t.node (p ++ a :: rest) = none := by
  obtain rfl | hrest := eq_or_ne rest []
  · exact h
  · by_contra hne
    rw [List.append_cons] at hne
    have hup := ht.above hne (List.prefix_append _ rest) fun heq => hrest (List.append_right_eq_self.mp heq.symm)
    rw [h] at hup
    exact absurd hup (by simp)

lemma nothing_below_two (ht : t.Rooted) {a b : Bytes} (h : t.node (dir ++ [a,b]) = none) (rest : List Bytes) :
    t.node (dir ++ a :: b :: rest) = none := by
  have hsplit : ∀ l, dir ++ a :: b :: l = dir ++ [a] ++ b :: l := fun l => List.append_cons _ _ _
  rw [hsplit] at h ⊢
  exact nothing_below ht h rest

/-- The wrapper is taken away exactly when nothing in it has its name, and then everything is one name shorter. -/
lemma flatten_wrapped (ht : t.Rooted) (hdir : t.node dir = some .dir) (hw : Wraps dir root t) :
    ((flattenSingleRoot dir t).1 = none ↔ t.node (dir ++ [root,root]) = none) ∧
    ((flattenSingleRoot dir t).1 = none → ∀ rest, rest ≠ [] →
      (flattenSingleRoot dir t).2.node (dir ++ rest) = t.node (dir ++ root :: rest)) := by
  obtain ⟨honly,hroot⟩ := hw
  obtain ⟨names,hnames⟩ := Tree.readDir_dir hdir
  obtain ⟨-,hnd,hmem⟩ := Tree.mem_readDir ht hnames
  obtain rfl : names = [root] := by
    refine List.perm_singleton.mp ((List.perm_ext_iff_of_nodup hnd (List.nodup_singleton root)).mpr fun e => ?_)
    rw [hmem,honly,List.mem_singleton]
  obtain ⟨inner,hinner⟩ := Tree.readDir_dir hroot
  obtain ⟨-,hnd,hmem⟩ := Tree.mem_readDir ht hinner
  rw [flattenSingleRoot,hnames]
  dsimp only
  rw [if_pos (Tree.isDir_iff.mpr hroot),hinner]
  dsimp only
  have hsub : ∀ e, dir ++ [root] ++ [e] = dir ++ [root,e] := fun e => List.append_assoc _ _ _
  have hsort : ∀ e, e ∈ inner.mergeSort byName ↔ t.node (dir ++ [root,e]) ≠ none := fun e => by
    rw [List.mem_mergeSort,hmem,hsub]
  by_cases hself : t.node (dir ++ [root,root]) = none
  · have hnotin : root ∉ inner.mergeSort byName := fun h => (hsort root).mp h hself
    have hflat : ∀ e ∈ inner.mergeSort byName, t.node (dir ++ [e]) = none := by
      intro e he
      by_contra hne
      exact hnotin ((honly e).mp hne ▸ he)
    obtain ⟨hok,hrooted,hmoved,hgone,hkept⟩ := moveUp_spec ht hdir
      ((List.mergeSort_perm inner byName).nodup_iff.mpr hnd) hnotin (fun e he => (hsort e).mp he) hflat
    generalize moveUp dir (dir ++ [root]) (inner.mergeSort byName) t = r at hok hrooted hmoved hgone hkept ⊢
    obtain ⟨errno,t₁⟩ := r
    obtain rfl : errno = none := hok
    dsimp only at hrooted hmoved hgone hkept ⊢
    have hne : ∀ e ∈ inner.mergeSort byName, e ≠ root := fun e he heq => hnotin (heq ▸ he)
    have hroot₁ : t₁.node (dir ++ [root]) = some .dir := by
      rw [hkept (dir ++ [root]) fun e he => ⟨apart (hne e he) [],fun h => by simpa using h.length_le⟩,hroot]
    -- of the wrapper nothing is left
    have hleft : ∀ e rest, t₁.node (dir ++ root :: e :: rest) = none := by
      intro e rest
      by_cases he : e ∈ inner.mergeSort byName
      · exact hgone e he rest
      · have hother : ∀ f ∈ inner.mergeSort byName, f ≠ e := fun f hf heq => he (heq ▸ hf)
        rw [hkept _ fun f hf => ⟨apart (hne f hf) _,apart_two (.inr (hother f hf)) rest⟩]
        exact nothing_below_two ht (not_not.mp fun h => he ((hsort e).mpr h)) rest
    have hempty : ∀ e, t₁.node (dir ++ [root] ++ [e]) = none := fun e => (congrArg t₁.node (hsub e)).trans (hleft e [])
    obtain ⟨hremoved,hnode⟩ := Tree.remove_spec (by rw [hroot₁]; simp) hempty
    refine ⟨iff_of_true hremoved hself,fun _ rest hrest => ?_⟩
    obtain ⟨e,rest,rfl⟩ := List.exists_cons_of_ne_nil hrest
    rw [hnode]
    by_cases he : e ∈ inner.mergeSort byName
    · have hplace : dir ++ e :: rest ≠ dir ++ [root] := fun h => hne e he (List.cons.inj (List.append_cancel_left h)).1
      rw [if_neg hplace,hmoved e he]
    · have hsame : t.node (dir ++ root :: e :: rest) = none :=
        nothing_below_two ht (not_not.mp fun h => he ((hsort e).mpr h)) rest
      rw [hsame]
      split
      · rfl
      · next hplace =>
        by_cases heroot : e = root
        · obtain ⟨f,more,rfl⟩ := List.exists_cons_of_ne_nil fun hnil : rest = [] => hplace (by rw [heroot,hnil])
          rw [heroot]
          exact hleft f more
        · have hother : ∀ f ∈ inner.mergeSort byName, f ≠ e := fun f hf heq => he (heq ▸ hf)
          rw [hkept _ fun f hf => ⟨apart (hother f hf) rest,apart_head (Ne.symm heroot) rest⟩]
          have hnone : t.node (dir ++ [e]) = none := not_not.mp fun h => heroot ((honly e).mp h)
          exact nothing_below ht hnone rest
  · have hfail := moveUp_root hroot ((hsort root).mpr hself)
    generalize moveUp dir (dir ++ [root]) (inner.mergeSort byName) t = r at hfail ⊢
    obtain ⟨errno,t₁⟩ := r
    cases errno with
    | none => exact absurd rfl hfail
    | some errno => exact ⟨by simp [hself],fun h => absurd h (by simp)⟩

end Flatten
section Content
variable {dest : Bytes} {t t₀ : Disk} {done es : List Entry} {e : Entry} {p : List Bytes} {c : Bytes}

/-- The entry writes a file. -/
def writes (dest : Bytes) (e : Entry) : Bool := accepted dest e && e.typeflag = .reg

/-- The data of the last file that has been written to a place. -/
def fileAt (dest : Bytes) (es : List Entry) (p : List Bytes) : Option Bytes :=
  ((es.filter fun e => writes dest e && place dest e = p).getLast?).map Entry.data

lemma fileAt_concat (done : List Entry) (e : Entry) (p : List Bytes) : fileAt dest (done ++ [e]) p =
    if writes dest e = true ∧ place dest e = p then some e.data else fileAt dest done p := by
  rw [fileAt,List.filter_append]
  split
  · next h =>
    have hone : [e].filter (fun e => writes dest e && place dest e = p) = [e] := by simp [h.1,h.2]
    rw [hone,List.getLast?_concat]
    rfl
  · next h =>
    have hnone : [e].filter (fun e => writes dest e && place dest e = p) = [] := by simpa using h
    rw [hnone,List.append_nil]
    rfl

/-- An entry that something is made for, at a path and on the way to it. -/
def Makes (dest : Bytes) (e : Entry) (p : List Bytes) : Prop :=
  accepted dest e = true ∧ e.typeflag ≠ .other ∧ p <+: place dest e

instance (dest : Bytes) (e : Entry) (p : List Bytes) : Decidable (Makes dest e p) := inferInstanceAs (Decidable (_ ∧ _ ∧ _))

/-- What the entries so far have left in the directory. -/
structure Unpacked (dest : Bytes) (done : List Entry) (t₀ t : Disk) : Prop where
  confined : Confined (elements dest) t₀ t
  files : ∀ p c, elements dest <+: p → (t.node p = some (.file c) ↔ fileAt dest done p = some c)
  made : ∀ p, elements dest <+: p → p ≠ elements dest → t.node p ≠ none → ∃ e ∈ done, Makes dest e p ∧
    (t.node p = some .dir → p ≠ place dest e ∨ e.typeflag = .dir)
  kept : ∀ e ∈ done, accepted dest e = true → e.typeflag ≠ .other → t.node (place dest e) ≠ none

/-- A step in which directories appear on the way to an entry that has none of its own file. -/
lemma Unpacked.more (h : Unpacked dest done t₀ t) {t' : Disk} (hc : Confined (elements dest) t₀ t')
    (hnodes : ∀ q, t'.node q = t.node q ∨ t.node q = none ∧ t'.node q = some .dir ∧ Makes dest e q ∧
      (q ≠ place dest e ∨ e.typeflag = .dir)) (he : writes dest e = false)
    (hplace : accepted dest e = true → e.typeflag ≠ .other → t'.node (place dest e) ≠ none) :
    Unpacked dest (done ++ [e]) t₀ t' where
  confined := hc
  files := by
    intro p c hp
    rw [fileAt_concat,he,if_neg (by simp),← h.files p c hp]
    obtain heq | ⟨hnone,hdir,-⟩ := hnodes p
    · rw [heq]
    · simp [hnone,hdir]
  made := by
    intro p hp hne hnode
    obtain heq | ⟨-,-,hmakes,hown⟩ := hnodes p
    · rw [heq] at hnode ⊢
      obtain ⟨e',he',hmakes⟩ := h.made p hp hne hnode
      exact ⟨e',List.mem_append_left _ he',hmakes⟩
    · exact ⟨e,List.mem_append_right _ List.mem_cons_self,hmakes,fun _ => hown⟩
  kept := by
    intro e' he' hacc hother
    obtain he' | he' := List.mem_append.mp he'
    · have hnode := h.kept e' he' hacc hother
      obtain heq | ⟨hnone,-⟩ := hnodes (place dest e')
      · rw [heq]
        exact hnode
      · exact absurd hnone hnode
    · obtain rfl := List.mem_singleton.mp he'
      exact hplace hacc hother

lemma Unpacked.unpack (hdest : rooted dest = true) (h : Unpacked dest done t₀ t)
    (hok : (unpack dest e t).1 = none) : Unpacked dest (done ++ [e]) t₀ (unpack dest e t).2 := by
  have hc := h.confined.unpack hdest e
  obtain ⟨hrooted,htop⟩ : t.Rooted ∧ t.node [] = some .dir := ⟨h.confined.rooted,h.confined.top⟩
  obtain ⟨hskip,hu⟩ | ⟨hacc,hflag,hu,-,hmade⟩ | ⟨-,-,hfail,-⟩ | ⟨hacc,hflag,-,hparent,hfree,hu⟩ :=
    unpack_cases hrooted htop e
  · rw [hu] at hc ⊢
    refine h.more hc (fun q => .inl rfl) ?_ fun hacc hother => ?_
    · rw [writes,Bool.and_eq_false_iff]
      exact hskip.imp_right fun hother => by rw [hother]; rfl
    · exact absurd hskip (not_or.mpr ⟨by simp [hacc],hother⟩)
  · rw [hu] at hc ⊢
    obtain ⟨-,hnodes,hdone,-⟩ := Tree.mkdirAll_spec hrooted htop (place dest e)
    have hthere : (t.mkdirAll (place dest e)).2.node (place dest e) ≠ none := by
      rw [hdone (hmade hok)]
      simp
    refine h.more hc (fun q => (hnodes q).imp_right fun ⟨hnone,hdir,hq⟩ => ?_) (by simp [writes,hflag]) fun _ _ => hthere
    exact ⟨hnone,hdir,⟨hacc,by simp [hflag],hq⟩,.inr hflag⟩
  · exact absurd hok hfail
  · obtain ⟨-,hnodes,-⟩ := Tree.mkdirAll_spec hrooted htop (place dest e).dropLast
    rw [hu] at hc ⊢
    have hwrites : writes dest e = true := by simp [writes,hacc,hflag]
    have hmakes : ∀ q, q <+: place dest e → Makes dest e q := fun q hq => ⟨hacc,by simp [hflag],hq⟩
    have hself : (((t.mkdirAll (place dest e).dropLast).2.set (place dest e) (.file [])).set (place dest e)
        (.file e.data)).node (place dest e) = some (.file e.data) := Tree.set_node_self
    have hother : ∀ q, q ≠ place dest e → (((t.mkdirAll (place dest e).dropLast).2.set (place dest e) (.file [])).set
        (place dest e) (.file e.data)).node q = (t.mkdirAll (place dest e).dropLast).2.node q := fun q hq => by
      rw [Tree.set_node_ne hq,Tree.set_node_ne hq]
    refine ⟨hc,fun p c hp => ?_,fun p hp hne hnode => ?_,fun e' he' hacc' hother' => ?_⟩
    · rw [fileAt_concat]
      by_cases hplace : place dest e = p
      · rw [if_pos ⟨hwrites,hplace⟩,← hplace,hself]
        simp
      · rw [if_neg fun h => hplace h.2,hother p (Ne.symm hplace),← h.files p c hp]
        obtain heq | ⟨hnone,hdir,-⟩ := hnodes p
        · rw [heq]
        · simp [hnone,hdir]
    · by_cases hplace : place dest e = p
      · refine ⟨e,List.mem_append_right _ List.mem_cons_self,hmakes p (hplace ▸ List.prefix_refl _),fun hdir => ?_⟩
        rw [← hplace,hself] at hdir
        exact absurd hdir (by simp)
      · rw [hother p (Ne.symm hplace)] at hnode ⊢
        obtain heq | ⟨-,-,hq⟩ := hnodes p
        · rw [heq] at hnode ⊢
          obtain ⟨e',he',hmakes⟩ := h.made p hp hne hnode
          exact ⟨e',List.mem_append_left _ he',hmakes⟩
        · exact ⟨e,List.mem_append_right _ List.mem_cons_self,hmakes p (hq.trans (List.dropLast_prefix _)),
            fun _ => .inl (Ne.symm hplace)⟩
    · by_cases hplace : place dest e = place dest e'
      · rw [← hplace,hself]
        simp
      · obtain he' | he' := List.mem_append.mp he'
        · have hnode := h.kept e' he' hacc' hother'
          rw [hother _ (Ne.symm hplace)]
          obtain heq | ⟨hnone,-⟩ := hnodes (place dest e')
          · rw [heq]
            exact hnode
          · exact absurd hnone hnode
        · exact absurd (congrArg (place dest) (List.mem_singleton.mp he').symm) hplace

lemma Unpacked.unpackAll (hdest : rooted dest = true) (h : Unpacked dest done t₀ t)
    (hok : (unpackAll dest es t).1 = none) : Unpacked dest (done ++ es) t₀ (unpackAll dest es t).2 := by
  induction es generalizing t done with
  | nil =>
    rw [List.append_nil]
    exact h
  | cons e es ih =>
    have hone := h.unpack (e := e) hdest
    rw [Workspace.unpackAll] at hok ⊢
    generalize Workspace.unpack dest e t = r at hone hok ⊢
    obtain ⟨err,t'⟩ := r
    cases err with
    | some err => exact absurd hok (by simp)
    | none =>
      rw [List.append_cons]
      exact ih (hone rfl) hok

/-- The name of a directory that can be made: an absolute path to something new in a directory. -/
structure NewDir (dir : Bytes) (t : Disk) : Prop where
  disk : t.Rooted
  top : t.node [] = some .dir
  absolute : rooted dir = true
  fresh : t.node (elements dir) = none
  parent : t.node (elements dir).dropLast = some .dir

variable {dir : Bytes}

lemma NewDir.below (h : NewDir dir t) (hp : elements dir <+: p) : t.node p = none := by
  by_contra hne
  by_cases heq : elements dir = p
  · exact hne (heq ▸ h.fresh)
  · have hup := h.disk.above hne hp heq
    rw [h.fresh] at hup
    exact absurd hup (by simp)

lemma NewDir.unpacked (h : NewDir dir t) : Unpacked dir [] t (t.set (elements dir) .dir) where
  confined := {
    rooted := h.disk.set h.parent fun _ => rfl
    top := by
      rw [Tree.set_node_ne fun heq : [] = elements dir => ?_,h.top]
      have hfresh := h.fresh
      rw [← heq,h.top] at hfresh
      exact absurd hfresh (by simp)
    dir := Tree.set_node_self
    outside := fun q hq => Tree.set_node_ne fun heq => hq (heq ▸ List.prefix_refl _) }
  files := by
    intro p c hp
    have hnone : fileAt dir [] p = none := rfl
    by_cases heq : p = elements dir
    · rw [heq,Tree.set_node_self,← heq,hnone]
      simp
    · rw [Tree.set_node_ne heq,h.below hp,hnone]
      simp
  made := by
    intro p hp hne hnode
    rw [Tree.set_node_ne hne] at hnode
    exact absurd (h.below hp) hnode
  kept := by simp

/-- What is in the directory after an archive has been unpacked: what its entries made. -/
lemma Unpacked.node_iff (h : Unpacked dest done t₀ t) (hp : elements dest <+: p) (hne : p ≠ elements dest) :
    t.node p ≠ none ↔ ∃ e ∈ done, Makes dest e p := by
  constructor
  · intro hnode
    obtain ⟨e,he,hmakes,-⟩ := h.made p hp hne hnode
    exact ⟨e,he,hmakes⟩
  · rintro ⟨e,he,hacc,hother,hpre⟩
    have hnode := h.kept e he hacc hother
    by_cases heq : p = place dest e
    · rw [heq]
      exact hnode
    · rw [h.confined.rooted.above hnode hpre heq]
      simp

/-- All that an archive unpacks is in one directory. -/
def Single (dir : Bytes) (es : List Entry) (root : Bytes) : Prop :=
  (∀ x, (∃ e ∈ es, Makes dir e (elements dir ++ [x])) ↔ x = root) ∧ fileAt dir es (elements dir ++ [root]) = none

/-- What is taken off the paths of an archive: the name of the single directory at its top, if there is one. -/
inductive Cut (dir : Bytes) (es : List Entry) : List Bytes → Prop
  | wrapper (root : Bytes) (h : Single dir es root) : Cut dir es [root]
  | nothing (h : ∀ root, ¬ Single dir es root) : Cut dir es []

lemma Unpacked.wraps_iff (h : Unpacked dest done t₀ t) (root : Bytes) :
    Wraps (elements dest) root t ↔ Single dest done root := by
  have hnode : ∀ x, t.node (elements dest ++ [x]) ≠ none ↔ ∃ e ∈ done, Makes dest e (elements dest ++ [x]) :=
    fun x => h.node_iff (List.prefix_append _ _) (by simp)
  have hfiles := fun c => h.files (elements dest ++ [root]) c (List.prefix_append _ _)
  rw [Wraps,Single]
  simp only [hnode]
  refine and_congr_right fun hone => ?_
  have hthere := (hnode root).mpr ((hone root).mpr rfl)
  cases hroot : t.node (elements dest ++ [root]) with
  | none => exact absurd hroot hthere
  | some n =>
    rw [hroot] at hfiles
    cases n with
    | dir =>
      refine iff_of_true rfl (Option.eq_none_iff_forall_ne_some.mpr fun c hc => ?_)
      exact absurd ((hfiles c).mpr hc) (by simp)
    | file c => exact iff_of_false (by simp) (by simp [(hfiles c).mp rfl])

/-- A workspace, whatever is in the archive: nothing outside of its directory changes; if it cannot be opened, nothing
at all does; and if it is opened, its files are those of the archive, the last one for each path, without the name of the
directory at the top when all that was unpacked is in one. -/
structure OpensSafely (archive : Except Err (Except Err Archive)) (dir repo ref : Bytes) (t : Disk) : Prop where
  outside : ∀ q, ¬ elements dir <+: q → (Open archive (.ok dir) repo ref t).2.node q = t.node q
  failed : ∀ err, (Open archive (.ok dir) repo ref t).1 = .error err →
    ∀ q, (Open archive (.ok dir) repo ref t).2.node q = t.node q
  opened : ∀ w, (Open archive (.ok dir) repo ref t).1 = .ok w → w = dir ∧ ∃ a, archive = .ok (.ok a) ∧
    ∃ cut, Cut dir a.entries cut ∧ ∀ rest, rest ≠ [] → ∀ c,
      (Open archive (.ok dir) repo ref t).2.node (elements dir ++ rest) = some (.file c) ↔
        fileAt dir a.entries (elements dir ++ (cut ++ rest)) = some c

lemma extract_cases (h : NewDir dir t) (src : Except Err Archive) :
    Confined (elements dir) t (extractTarGz dir src (t.set (elements dir) .dir)).2 ∧
      ((extractTarGz dir src (t.set (elements dir) .dir)).1 = none → ∃ a, src = .ok a ∧
        Unpacked dir a.entries t (extractTarGz dir src (t.set (elements dir) .dir)).2) := by
  have hstart := h.unpacked
  cases src with
  | error err => exact ⟨hstart.confined,fun hok => absurd hok (by simp [extractTarGz])⟩
  | ok a =>
    have hconf := hstart.confined.unpackAll h.absolute a.entries
    have hall : (unpackAll dir a.entries (t.set (elements dir) .dir)).1 = none →
        Unpacked dir a.entries t (unpackAll dir a.entries (t.set (elements dir) .dir)).2 := hstart.unpackAll h.absolute
    rw [extractTarGz]
    generalize unpackAll dir a.entries (t.set (elements dir) .dir) = r at hconf hall ⊢
    obtain ⟨err,t'⟩ := r
    cases err with
    | some err => exact ⟨hconf,fun hok => absurd hok (by simp)⟩
    | none => exact ⟨hconf,fun _ => ⟨a,rfl,hall rfl⟩⟩

/-- The directory is taken away again. -/
lemma removed (h : NewDir dir t) {t' : Disk} (hout : ∀ q, ¬ elements dir <+: q → t'.node q = t.node q) (q : List Bytes) :
    (t'.removeAll (elements dir)).node q = t.node q := by
  rw [Tree.removeAll]
  dsimp only
  split
  · next hq => exact (h.below hq).symm
  · next hq => exact hout q hq

/-- Opening fails and leaves everything as it was, or the workspace has the archive's files. -/
lemma Open_cases (h : NewDir dir t) (archive : Except Err (Except Err Archive)) (repo ref : Bytes) :
    (∃ err, (Open archive (.ok dir) repo ref t).1 = .error err ∧
      ∀ q, (Open archive (.ok dir) repo ref t).2.node q = t.node q) ∨
    (Open archive (.ok dir) repo ref t).1 = .ok dir ∧
      (∀ q, ¬ elements dir <+: q → (Open archive (.ok dir) repo ref t).2.node q = t.node q) ∧
      ∃ a, archive = .ok (.ok a) ∧ ∃ cut, Cut dir a.entries cut ∧ ∀ rest, rest ≠ [] → ∀ c,
        (Open archive (.ok dir) repo ref t).2.node (elements dir ++ rest) = some (.file c) ↔
          fileAt dir a.entries (elements dir ++ (cut ++ rest)) = some c := by
  cases archive with
  | error err => exact .inl ⟨_,rfl,fun _ => rfl⟩
  | ok src =>
    obtain ⟨hconf,hunpacked⟩ := extract_cases h src
    have hopen : Open (.ok src) (.ok dir) repo ref t =
        match extractTarGz dir src (t.set (elements dir) .dir) with
        | (some err,t) => (.error (.extract repo ref err),t.removeAll (elements dir))
        | (none,t) =>
          match flattenSingleRoot (elements dir) t with
          | (some errno,t) => (.error (.flatten repo ref errno),t.removeAll (elements dir))
          | (none,t) => (.ok dir,t) := rfl
    generalize extractTarGz dir src (t.set (elements dir) .dir) = r at hconf hunpacked hopen
    obtain ⟨err,t₁⟩ := r
    cases err with
    | some err => exact .inl ⟨_,by rw [hopen],fun q => by rw [hopen]; exact removed h hconf.outside q⟩
    | none =>
      obtain ⟨a,rfl,hun⟩ := hunpacked rfl
      have hout : ∀ q, ¬ elements dir <+: q → (flattenSingleRoot (elements dir) t₁).2.node q = t.node q := fun q hq =>
        (flatten_outside t₁ hq).trans (hconf.outside q hq)
      have hflat := flatten_unwrapped hconf.rooted hconf.dir
      have hwrapped : ∀ root, Wraps (elements dir) root t₁ → _ := fun root => flatten_wrapped hconf.rooted hconf.dir
      dsimp only at hopen
      generalize flattenSingleRoot (elements dir) t₁ = r at hout hflat hwrapped hopen
      obtain ⟨errno,t₂⟩ := r
      cases errno with
      | some errno => exact .inl ⟨_,by rw [hopen],fun q => by rw [hopen]; exact removed h hout q⟩
      | none =>
        rw [hopen]
        refine .inr ⟨rfl,hout,a,rfl,?_⟩
        by_cases hw : ∃ root, Wraps (elements dir) root t₁
        · obtain ⟨root,hroot⟩ := hw
          refine ⟨[root],.wrapper root ((hun.wraps_iff root).mp hroot),fun rest hrest c => ?_⟩
          rw [(hwrapped root hroot).2 rfl rest hrest,← hun.files _ c (List.prefix_append _ _)]
          rfl
        · refine ⟨[],.nothing fun root hroot => hw ⟨root,(hun.wraps_iff root).mpr hroot⟩,fun rest hrest c => ?_⟩
          obtain rfl : t₂ = t₁ := (Prod.mk.inj (hflat hw)).2
          exact hun.files _ c (List.prefix_append _ _)

theorem Open_safe (h : NewDir dir t) (archive : Except Err (Except Err Archive)) (repo ref : Bytes) :
    OpensSafely archive dir repo ref t := by
  obtain ⟨err,herr,hsame⟩ | ⟨hok,hout,hfiles⟩ := Open_cases h archive repo ref
  · exact ⟨fun q _ => hsame q,fun _ _ => hsame,fun w hw => absurd (herr.symm.trans hw) (by simp)⟩
  · exact ⟨hout,fun e he => absurd (hok.symm.trans he) (by simp),
      fun w hw => ⟨(Except.ok.inj (hok.symm.trans hw)).symm,hfiles⟩⟩

/-- A whole archive of at least one file, all in one directory, with no path that is a file and has something in it. -/
structure Wrapped (dir root : Bytes) (a : Archive) : Prop where
  whole : a.broken = none ∧ ∀ e ∈ a.entries, e.broken = none
  inRoot : ∀ e ∈ a.entries, accepted dir e = true → e.typeflag ≠ .other → elements dir ++ [root] <+: place dir e
  files : ∃ e ∈ a.entries, writes dir e = true
  apart : ∀ e ∈ a.entries, writes dir e = true → place dir e ≠ elements dir ++ [root] ∧
    ∀ e' ∈ a.entries, Makes dir e' (place dir e) → writes dir e' = true ∧ place dir e' = place dir e

lemma exists_of_fileAt (h : fileAt dest done p = some c) : ∃ e ∈ done, writes dest e = true ∧ place dest e = p := by
  obtain ⟨e,he,-⟩ := Option.map_eq_some_iff.mp h
  obtain ⟨hmem,hw⟩ := List.mem_filter.mp (List.mem_of_getLast? he)
  simp only [Bool.and_eq_true,decide_eq_true_eq] at hw
  exact ⟨e,hmem,hw⟩

lemma writes_iff : writes dest e = true ↔ accepted dest e = true ∧ e.typeflag = .reg := by simp [writes]

/-- No file is in the way of an entry. -/
lemma Unpacked.clear (h : Unpacked dest done t₀ t) (hacc : elements dest <+: place dest e)
    (hapart : ∀ e' ∈ done, writes dest e' = true → ¬ place dest e' <+: p) (hp : p <+: place dest e) (q : List Bytes)
    (c : Bytes) (hq : q <+: p) : t.node q ≠ some (.file c) := by
  intro hfile
  obtain hup | hdown := List.prefix_or_prefix_of_prefix (hq.trans hp) hacc
  · rw [h.confined.above hup] at hfile
    exact absurd hfile (by simp)
  · obtain ⟨e',he',hw,rfl⟩ := exists_of_fileAt ((h.files q c hdown).mp hfile)
    exact hapart e' he' hw hq

/-- With the files apart from everything else each entry of a whole archive can be unpacked. -/
lemma Unpacked.unpack_ok (hdest : rooted dest = true) (h : Unpacked dest done t₀ t) (hbroken : e.broken = none)
    (hnew : writes dest e = true → place dest e ≠ elements dest)
    (hfile : ∀ e' ∈ done, writes dest e' = true → Makes dest e (place dest e') →
      writes dest e = true ∧ place dest e = place dest e')
    (hplace : writes dest e = true → ∀ e' ∈ done, Makes dest e' (place dest e) →
      writes dest e' = true ∧ place dest e' = place dest e) : (Workspace.unpack dest e t).1 = none := by
  obtain ⟨hrooted,htop⟩ : t.Rooted ∧ t.node [] = some .dir := ⟨h.confined.rooted,h.confined.top⟩
  obtain ⟨-,hu⟩ | ⟨hacc,hflag,-,hok,-⟩ | ⟨hacc,hflag,-,-,hfail⟩ | ⟨-,-,hu,-⟩ := unpack_cases hrooted htop e
  · rw [hu,hbroken]
    rfl
  · rw [hok,hbroken]
    · rfl
    · refine (Tree.mkdirAll_spec hrooted htop _).2.2.2 (h.clear (prefix_place hdest hacc) (fun e' he' hw hpre => ?_)
        (List.prefix_refl _))
      have hreg := (writes_iff.mp (hfile e' he' hw ⟨hacc,by simp [hflag],hpre⟩).1).2
      rw [hflag] at hreg
      exact absurd hreg (by decide)
  · exfalso
    have hw : writes dest e = true := writes_iff.mpr ⟨hacc,hflag⟩
    have hdest := prefix_place hdest hacc
    have hne : place dest e ≠ [] := fun hnil => hnew hw (hnil.trans (List.prefix_nil.mp (hnil ▸ hdest)).symm)
    have hshort : ∀ q, q <+: (place dest e).dropLast → q ≠ place dest e := by
      intro q hq heq
      have hlen := hq.length_le
      have hpos := List.length_pos_iff.mpr hne
      rw [heq,List.length_dropLast] at hlen
      omega
    obtain ⟨-,hnodes,-,hok⟩ := Tree.mkdirAll_spec hrooted htop (place dest e).dropLast
    obtain hfail | hdir := hfail
    · refine hfail (hok (h.clear hdest (fun e' he' hw' hpre => ?_) (List.dropLast_prefix _)))
      exact hshort _ hpre (hfile e' he' hw' ⟨hacc,by simp [hflag],hpre.trans (List.dropLast_prefix _)⟩).2.symm
    · obtain heq | ⟨-,-,hpre⟩ := hnodes (place dest e)
      · rw [heq] at hdir
        obtain ⟨e',he',hmakes,hown⟩ := h.made _ hdest (hnew hw) (by rw [hdir]; simp)
        obtain ⟨hw',hsame⟩ := hplace hw e' he' hmakes
        obtain hne | hflag' := hown hdir
        · exact hne hsame.symm
        · have hreg := (writes_iff.mp hw').2
          rw [hflag'] at hreg
          exact absurd hreg (by decide)
      · exact hshort _ hpre rfl
  · rw [hu,hbroken]
    rfl

lemma Wrapped.unpackAll {root : Bytes} {a : Archive} (ha : Wrapped dir root a) (h : NewDir dir t) (es : List Entry)
    (hes : done ++ es = a.entries) (hun : Unpacked dir done t t₀) : (unpackAll dir es t₀).1 = none := by
  induction es generalizing done t₀ with
  | nil => rfl
  | cons e es ih =>
    have he : e ∈ a.entries := hes ▸ List.mem_append_right _ List.mem_cons_self
    have hdone : ∀ e' ∈ done, e' ∈ a.entries := fun e' he' => hes ▸ List.mem_append_left _ he'
    have hone : (Workspace.unpack dir e t₀).1 = none := by
      refine hun.unpack_ok h.absolute (ha.whole.2 e he) (fun hw heq => ?_) (fun e' he' hw hmakes => ?_)
        fun hw e' he' hmakes => (ha.apart e he hw).2 e' (hdone e' he') hmakes
      · obtain ⟨hacc,hflag⟩ := writes_iff.mp hw
        have hin := ha.inRoot e he hacc (by simp [hflag])
        rw [heq] at hin
        exact not_below hin
      · exact (ha.apart e' (hdone e' he') hw).2 e he hmakes
    have hnext := hun.unpack h.absolute hone
    rw [Workspace.unpackAll]
    generalize Workspace.unpack dir e t₀ = r at hone hnext ⊢
    obtain ⟨err,t₁⟩ := r
    obtain rfl : err = none := hone
    exact ih (by rw [← hes,List.append_assoc,List.singleton_append]) hnext

lemma Wrapped.single {root : Bytes} {a : Archive} (ha : Wrapped dir root a) : Single dir a.entries root := by
  obtain ⟨e,he,hw⟩ := ha.files
  obtain ⟨hacc,hflag⟩ := writes_iff.mp hw
  refine ⟨fun x => ⟨?_,?_⟩,Option.eq_none_iff_forall_ne_some.mpr fun c hc => ?_⟩
  · rintro ⟨e',he',hacc',hother,hpre⟩
    have hin := ha.inRoot e' he' hacc' hother
    have hsame := (List.prefix_of_prefix_length_le hpre hin (by simp)).eq_of_length (by simp)
    exact (List.cons.inj (List.append_cancel_left hsame)).1
  · rintro rfl
    exact ⟨e,he,hacc,by simp [hflag],ha.inRoot e he hacc (by simp [hflag])⟩
  · obtain ⟨e',he',hw',hplace⟩ := exists_of_fileAt hc
    exact (ha.apart e' he' hw').1 hplace

/-- An archive in one directory is opened, and its files are found without the directory's name, just when nothing
right in that directory has its name. Otherwise the wrapper cannot be taken away, which is an error, and the disk is as
it was. -/
theorem Open_wrapped {root : Bytes} {a : Archive} (h : NewDir dir t) (ha : Wrapped dir root a) (repo ref : Bytes) :
    ((∀ e ∈ a.entries, ¬ Makes dir e (elements dir ++ [root,root])) →
      (Open (.ok (.ok a)) (.ok dir) repo ref t).1 = .ok dir ∧ ∀ rest, rest ≠ [] → ∀ c,
        (Open (.ok (.ok a)) (.ok dir) repo ref t).2.node (elements dir ++ rest) = some (.file c) ↔
          fileAt dir a.entries (elements dir ++ root :: rest) = some c) ∧
    ((∃ e ∈ a.entries, Makes dir e (elements dir ++ [root,root])) →
      (∃ errno, (Open (.ok (.ok a)) (.ok dir) repo ref t).1 = .error (.flatten repo ref errno)) ∧
        ∀ q, (Open (.ok (.ok a)) (.ok dir) repo ref t).2.node q = t.node q) := by
  have hok := ha.unpackAll h a.entries rfl h.unpacked
  have hun : Unpacked dir a.entries t (unpackAll dir a.entries (t.set (elements dir) .dir)).2 :=
    h.unpacked.unpackAll h.absolute hok
  have hextract : extractTarGz dir (.ok a) (t.set (elements dir) .dir) =
      (none,(unpackAll dir a.entries (t.set (elements dir) .dir)).2) := by
    rw [extractTarGz]
    generalize unpackAll dir a.entries (t.set (elements dir) .dir) = r at hok ⊢
    obtain ⟨err,t₁⟩ := r
    obtain rfl : err = none := hok
    simp [ha.whole.1]
  have hopen : Open (.ok (.ok a)) (.ok dir) repo ref t =
      match extractTarGz dir (.ok a) (t.set (elements dir) .dir) with
      | (some err,t) => (.error (.extract repo ref err),t.removeAll (elements dir))
      | (none,t) =>
        match flattenSingleRoot (elements dir) t with
        | (some errno,t) => (.error (.flatten repo ref errno),t.removeAll (elements dir))
        | (none,t) => (.ok dir,t) := rfl
  rw [hopen,hextract]
  generalize (unpackAll dir a.entries (t.set (elements dir) .dir)).2 = t₁ at hun ⊢
  have hinner : t₁.node (elements dir ++ [root,root]) ≠ none ↔
      ∃ e ∈ a.entries, Makes dir e (elements dir ++ [root,root]) := hun.node_iff (List.prefix_append _ _) (by simp)
  obtain ⟨hiff,hnodes⟩ := flatten_wrapped hun.confined.rooted hun.confined.dir ((hun.wraps_iff root).mpr ha.single)
  have hout : ∀ q, ¬ elements dir <+: q → (flattenSingleRoot (elements dir) t₁).2.node q = t.node q := fun q hq =>
    (flatten_outside t₁ hq).trans (hun.confined.outside q hq)
  dsimp only
  generalize flattenSingleRoot (elements dir) t₁ = r at hiff hnodes hout ⊢
  obtain ⟨errno,t₂⟩ := r
  refine ⟨fun hno => ?_,fun hsome => ?_⟩
  · have hnone : t₁.node (elements dir ++ [root,root]) = none := by
      by_contra hne
      obtain ⟨e,he,hmakes⟩ := hinner.mp hne
      exact hno e he hmakes
    obtain rfl : errno = none := hiff.mpr hnone
    refine ⟨rfl,fun rest hrest c => ?_⟩
    have hnode : t₂.node (elements dir ++ rest) = t₁.node (elements dir ++ root :: rest) := hnodes rfl rest hrest
    dsimp only
    rw [hnode]
    exact hun.files _ c (List.prefix_append _ _)
  · cases errno with
    | none => exact absurd (hiff.mp rfl) (hinner.mpr hsome)
    | some errno => exact ⟨⟨errno,rfl⟩,removed h hout⟩

end Content

section Example

/-- A disk with a directory for temporary ones. -/
def exampleDisk : Disk := Tree.set ⟨fun p => if p = [] then some .dir else none,[]⟩ [lit "tmp"] .dir

def exampleDir : Bytes := lit "/tmp/ws"

/-- A file that is there twice, and two entries that are passed over. -/
def exampleArchive : Archive where
  entries := [⟨lit "shop-1a2b/",.dir,[],none⟩,⟨lit "shop-1a2b/main.go",.reg,lit "old",none⟩,
    ⟨lit "shop-1a2b/../../../etc/passwd",.reg,lit "root",none⟩,⟨lit "shop-1a2b/link",.other,[],none⟩,
    ⟨lit "shop-1a2b/./main.go",.reg,lit "package main",none⟩]

lemma exampleDir_new : NewDir exampleDir exampleDisk where
  disk := by
    refine Tree.Rooted.set ⟨fun p e hp => ?_,fun p e hp => ?_⟩ rfl fun _ => rfl
    · simp at hp
    · simp at hp
  top := rfl
  absolute := by decide
  fresh := by decide
  parent := by decide

lemma exampleArchive_wrapped : Wrapped exampleDir (lit "shop-1a2b") exampleArchive where
  whole := ⟨rfl,by simp [exampleArchive]⟩
  inRoot := by decide +kernel
  files := by decide +kernel
  apart := by decide +kernel

/-- A directory of its own name inside of the wrapper. -/
def nestedArchive : Archive where
  entries := [⟨lit "shop/shop/main.go",.reg,lit "package main",none⟩]

lemma nestedArchive_wrapped : Wrapped exampleDir (lit "shop") nestedArchive where
  whole := ⟨rfl,by simp [nestedArchive]⟩
  inRoot := by decide +kernel
  files := by decide +kernel
  apart := by decide +kernel

/-- One of them is opened, and the other one is not. -/
theorem exampleArchives_opened :
    ((Open (.ok (.ok exampleArchive)) (.ok exampleDir) (lit "o/r") (lit "c0") exampleDisk).1 = .ok exampleDir ∧
      ∀ rest, rest ≠ [] → ∀ c, (Open (.ok (.ok exampleArchive)) (.ok exampleDir) (lit "o/r") (lit "c0")
        exampleDisk).2.node (elements exampleDir ++ rest) = some (.file c) ↔
          fileAt exampleDir exampleArchive.entries (elements exampleDir ++ lit "shop-1a2b" :: rest) = some c) ∧
    (∃ errno, (Open (.ok (.ok nestedArchive)) (.ok exampleDir) (lit "o/r") (lit "c0") exampleDisk).1 =
      .error (.flatten (lit "o/r") (lit "c0") errno)) ∧
    ∀ q, (Open (.ok (.ok nestedArchive)) (.ok exampleDir) (lit "o/r") (lit "c0") exampleDisk).2.node q =
      exampleDisk.node q :=
  ⟨(Open_wrapped exampleDir_new exampleArchive_wrapped (lit "o/r") (lit "c0")).1 (by decide +kernel),
    (Open_wrapped exampleDir_new nestedArchive_wrapped (lit "o/r") (lit "c0")).2 (by decide +kernel)⟩

theorem exampleArchive_safe :
    OpensSafely (.ok (.ok exampleArchive)) exampleDir (lit "o/r") (lit "c0") exampleDisk :=
  Open_safe exampleDir_new (.ok (.ok exampleArchive)) (lit "o/r") (lit "c0")

end Example

end Workspace
