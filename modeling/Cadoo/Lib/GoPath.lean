import Cadoo.Lib.Bytes

/-! Lexical processing of slash-separated paths: empty and `.` elements fall out, `..` takes back the
element before it. -/
namespace GoPath
open Bytes

def slash : UInt8 := 47

/-- One element taken up; what is kept so far stands with the last element first. -/
def take (rooted : Bool) (kept : List Bytes) (e : Bytes) : List Bytes :=
  if e = [] ∨ e = lit "." then kept
  else if e = lit ".." then
    match kept with
    | [] => if rooted then [] else [e]
    | k :: rest => if k = lit ".." then e :: k :: rest else rest
  else e :: kept

def Clean (p : Bytes) : Bytes :=
  let rooted := decide (p.head? = some slash)
  let kept := (p.splitOn slash).foldl (take rooted) []
  if rooted then slash :: [slash].intercalate kept.reverse
  else if kept = [] then lit "."
  else [slash].intercalate kept.reverse

def Join (elems : List Bytes) : Bytes :=
  match elems.filter (· ≠ []) with
  | [] => []
  | kept => Clean ([slash].intercalate kept)

example : Join [lit "docs",lit "releases",lit "../v1//",[],lit "./a.md"] = lit "docs/v1/a.md" := by
  decide +kernel

def rooted (p : Bytes) : Bool := decide (p.head? = some slash)

/-- The elements a path comes down to. -/
def elements (p : Bytes) : List Bytes := ((p.splitOn slash).foldl (take (rooted p)) []).reverse

/-- A path of elements, written out. -/
def render (r : Bool) (es : List Bytes) : Bytes :=
  if r then slash :: [slash].intercalate es
  else if es = [] then lit "." else [slash].intercalate es

lemma Clean_eq (p : Bytes) : Clean p = render (rooted p) (elements p) := by
  simp only [Clean,render,elements,rooted,List.reverse_eq_nil_iff]

/-- What is kept of a path, the last element first: names, and a `..` only where nothing but `..` is before it, and
never at the root. -/
def Settled (r : Bool) : List Bytes → Prop
  | [] => True
  | k :: rest => (k ≠ [] ∧ k ≠ lit "." ∧ slash ∉ k) ∧ (k = lit ".." → r = false ∧ ∀ e ∈ rest, e = lit "..") ∧
      Settled r rest

namespace Settled
variable {r : Bool} {kept rest : List Bytes} {e : Bytes}

lemma take (h : Settled r kept) (he : slash ∉ e) : Settled r (GoPath.take r kept e) := by
  unfold GoPath.take
  split
  · exact h
  · next hname =>
    rw [not_or] at hname
    split
    · next hup =>
      split
      · split
        · trivial
        · next hr =>
          exact ⟨⟨hname.1,hname.2,he⟩,fun _ => ⟨Bool.eq_false_iff.mpr hr,by simp⟩,trivial⟩
      · split
        · next k rest hk =>
          obtain ⟨hr,hall⟩ := h.2.1 hk
          refine ⟨⟨hname.1,hname.2,he⟩,fun _ => ⟨hr,?_⟩,h⟩
          exact List.forall_mem_cons.mpr ⟨hk,hall⟩
        · exact h.2.2
    · next hup => exact ⟨⟨hname.1,hname.2,he⟩,fun hdots => absurd hdots hup,h⟩

lemma foldl {es : List Bytes} (h : Settled r kept) (hes : ∀ e ∈ es, slash ∉ e) :
    Settled r (es.foldl (GoPath.take r) kept) := by
  induction es generalizing kept with
  | nil => exact h
  | cons e es ih => exact ih (h.take (hes e List.mem_cons_self)) fun x hx => hes x (List.mem_cons_of_mem e hx)

lemma suffix (h : Settled r (rest ++ kept)) : Settled r kept := by
  induction rest with
  | nil => exact h
  | cons k rest ih => exact ih h.2.2

lemma name (h : Settled r kept) (he : e ∈ kept) : e ≠ [] ∧ e ≠ lit "." ∧ slash ∉ e := by
  induction kept with
  | nil => exact absurd he List.not_mem_nil
  | cons k kept ih =>
    rcases List.mem_cons.mp he with rfl | he
    · exact h.1
    · exact ih h.2.2 he

/-- Taking up settled elements again keeps all of them. -/
lemma refold (h : Settled r kept) : kept.reverse.foldl (GoPath.take r) [] = kept := by
  induction kept with
  | nil => rfl
  | cons k kept ih =>
    rw [List.reverse_cons,List.foldl_append,ih h.2.2,List.foldl_cons,List.foldl_nil]
    unfold GoPath.take
    rw [if_neg (not_or.mpr ⟨h.1.1,h.1.2.1⟩)]
    split
    · next hup =>
      obtain ⟨hr,hall⟩ := h.2.1 hup
      cases kept with
      | nil => rw [hr]; rfl
      | cons k' kept =>
        dsimp only
        rw [if_pos (hall k' List.mem_cons_self)]
    · rfl

end Settled

/-- No element has a slash. -/
lemma notMem_of_mem_splitOn {p e : Bytes} (h : e ∈ p.splitOn slash) : slash ∉ e := by
  induction p generalizing e with
  | nil =>
    rw [List.splitOn_nil,List.mem_singleton] at h
    rw [h]
    exact List.not_mem_nil
  | cons b p ih =>
    rw [List.splitOn_cons_eq_if_modifyHead] at h
    split at h
    · rcases List.mem_cons.mp h with rfl | h
      · exact List.not_mem_nil
      · exact ih h
    · next hb =>
      obtain ⟨x,rest,hx⟩ := List.exists_cons_of_ne_nil (List.splitOn_ne_nil slash p)
      rw [hx,List.modifyHead_cons] at h
      rw [hx] at ih
      rcases List.mem_cons.mp h with rfl | h
      · rw [List.mem_cons,not_or]
        exact ⟨fun heq => hb (beq_iff_eq.mpr heq.symm),ih List.mem_cons_self⟩
      · exact ih (List.mem_cons_of_mem x h)

lemma settled_elements (p : Bytes) : Settled (rooted p) (elements p).reverse := by
  rw [elements,List.reverse_reverse]
  exact Settled.foldl trivial fun e => notMem_of_mem_splitOn

section Render
variable {r : Bool} {es : List Bytes} (h : Settled r es.reverse)
include h

lemma name_of_settled {e : Bytes} (he : e ∈ es) : e ≠ [] ∧ e ≠ lit "." ∧ slash ∉ e :=
  h.name (List.mem_reverse.mpr he)

lemma splitOn_joined (hes : es ≠ []) : ([slash].intercalate es).splitOn slash = es :=
  List.splitOn_intercalate slash (fun _ he => (name_of_settled h he).2.2) hes

lemma refold_joined : es.foldl (take r) [] = es.reverse := by
  have hfold := h.refold
  rwa [List.reverse_reverse] at hfold

lemma rooted_render : rooted (render r es) = r := by
  rw [render]
  split
  · next hr =>
    rw [hr]
    rfl
  · next hr =>
    rw [Bool.eq_false_iff.mpr hr]
    split
    · rfl
    · next hes =>
      obtain ⟨e,es,rfl⟩ := List.exists_cons_of_ne_nil hes
      obtain ⟨hne,-,hslash⟩ := name_of_settled h List.mem_cons_self
      obtain ⟨b,e,rfl⟩ := List.exists_cons_of_ne_nil hne
      have hb : b ≠ slash := fun hb => hslash (List.mem_cons.mpr (.inl hb.symm))
      rw [List.intercalate_cons_cons_left,rooted,List.head?_cons]
      simpa using hb

/-- A path made of settled elements comes down to them. -/
lemma elements_render : elements (render r es) = es := by
  rw [elements,rooted_render h,render]
  split
  · next hr =>
    have hsplit : (slash :: [slash].intercalate es).splitOn slash = [] :: ([slash].intercalate es).splitOn slash := by
      rw [List.splitOn_cons_eq_if_modifyHead,if_pos (beq_self_eq_true slash)]
    rw [hsplit]
    by_cases hes : es = []
    · rw [hes]
      rfl
    · rw [splitOn_joined h hes]
      change (es.foldl (take r) []).reverse = es
      rw [refold_joined h,List.reverse_reverse]
  · next hr =>
    split
    · next hes =>
      rw [hes]
      rfl
    · next hes => rw [splitOn_joined h hes,refold_joined h,List.reverse_reverse]

end Render

/-- What a path comes down to is what its clean form does. -/
theorem elements_Clean (p : Bytes) : rooted (Clean p) = rooted p ∧ elements (Clean p) = elements p := by
  rw [Clean_eq]
  exact ⟨rooted_render (settled_elements p),elements_render (settled_elements p)⟩

lemma intercalate_append {ds xs : List Bytes} (hds : ds ≠ []) (hxs : xs ≠ []) :
    [slash].intercalate (ds ++ xs) = [slash].intercalate ds ++ slash :: [slash].intercalate xs := by
  induction ds with
  | nil => exact absurd rfl hds
  | cons d ds ih =>
    cases ds with
    | nil =>
      rw [List.singleton_append,List.intercalate_cons_of_ne_nil hxs,List.intercalate_singleton,List.append_assoc]
      rfl
    | cons d' ds =>
      rw [List.cons_append,List.intercalate_cons_of_ne_nil (by simp),List.intercalate_cons_of_ne_nil (by simp),
        ih (by simp)]
      simp only [List.append_assoc]

/-- Where a path of settled elements is cut at a slash, the part before it is such a path, too. -/
lemma cut_render {r : Bool} {es : List Bytes} (h : Settled r es.reverse) {dir t : Bytes} (hdir : dir ≠ [])
    (hp : render r es = dir ++ slash :: t) : ∃ ds xs, es = ds ++ xs ∧ ds ≠ [] ∧ xs ≠ [] ∧ dir = render r ds := by
  have hcut : ∀ {d : Bytes}, [slash].intercalate es = d ++ slash :: t → es = d.splitOn slash ++ t.splitOn slash := by
    intro d hd
    have hes : es ≠ [] := by
      rintro rfl
      exact absurd hd.symm (by simp)
    rw [← splitOn_joined h hes,hd,List.splitOn_append_cons_self]
  rw [render] at hp
  split at hp
  · next hr =>
    obtain ⟨a,d,rfl⟩ := List.exists_cons_of_ne_nil hdir
    obtain ⟨rfl,hd⟩ := List.cons_eq_cons.mp hp
    refine ⟨d.splitOn slash,t.splitOn slash,hcut hd,List.splitOn_ne_nil slash d,List.splitOn_ne_nil slash t,?_⟩
    rw [render,if_pos hr,List.intercalate_splitOn]
  · next hr =>
    split at hp
    · have hslash : slash ∈ lit "." := by
        rw [hp]
        simp
      exact absurd hslash (by decide)
    · refine ⟨dir.splitOn slash,t.splitOn slash,hcut hp,List.splitOn_ne_nil slash dir,List.splitOn_ne_nil slash t,?_⟩
      rw [render,if_neg hr,if_neg (List.splitOn_ne_nil slash dir),List.intercalate_splitOn]

lemma render_append {r : Bool} {ds xs : List Bytes} (hds : ds ≠ []) (hxs : xs ≠ []) :
    render r (ds ++ xs) = render r ds ++ slash :: [slash].intercalate xs := by
  have happend : ds ++ xs ≠ [] := fun h => hds (List.append_eq_nil_iff.mp h).1
  rw [render,render,intercalate_append hds hxs,if_neg hds,if_neg happend]
  split
  · rfl
  · rfl

section Below

/-- A directory that is written as it is cleaned, and has a name. -/
def Plain (dir : Bytes) : Prop := Clean dir = dir ∧ dir ≠ lit "." ∧ dir ≠ lit "/"

instance (dir : Bytes) : Decidable (Plain dir) := inferInstanceAs (Decidable (_ ∧ _))

/-- What a path goes on with after a directory. -/
def beyond (dir p : Bytes) : List Bytes := (elements p).drop (elements dir).length

/-- The path goes on from the directory. -/
def Continues (dir p : Bytes) : Prop := rooted p = rooted dir ∧ elements dir <+: elements p ∧ beyond dir p ≠ []

/-- The path is strictly inside of the directory: it goes on from it and does not leave it again. -/
def Inside (dir p : Bytes) : Prop := Continues dir p ∧ lit ".." ∉ beyond dir p

/-- The path goes up from the directory. -/
def Climbs (dir p : Bytes) : Prop := Continues dir p ∧ lit ".." ∈ beyond dir p

instance (dir p : Bytes) : Decidable (Continues dir p) := inferInstanceAs (Decidable (_ ∧ _ ∧ _))
instance (dir p : Bytes) : Decidable (Inside dir p) := inferInstanceAs (Decidable (_ ∧ _))
instance (dir p : Bytes) : Decidable (Climbs dir p) := inferInstanceAs (Decidable (_ ∧ _))

lemma continues_iff {dir p : Bytes} : Continues dir p ↔
    rooted p = rooted dir ∧ ∃ extra, extra ≠ [] ∧ elements p = elements dir ++ extra := by
  refine and_congr_right fun _ => ⟨?_,?_⟩
  · rintro ⟨⟨extra,hextra⟩,hbeyond⟩
    rw [beyond,← hextra,List.drop_left] at hbeyond
    exact ⟨extra,hbeyond,hextra.symm⟩
  · rintro ⟨extra,hne,hextra⟩
    rw [beyond,hextra,List.drop_left]
    exact ⟨List.prefix_append _ _,hne⟩

lemma inside_Clean (dir p : Bytes) : Inside (Clean dir) p ↔ Inside dir p := by
  rw [Inside,Inside,Continues,Continues,beyond,beyond,(elements_Clean dir).1,(elements_Clean dir).2]

/-- A clean path begins with a directory and a slash exactly when the directory is plain and the path goes on from
it. -/
theorem hasPrefix_slash_iff {dir : Bytes} (hdir : dir ≠ []) (q : Bytes) :
    hasPrefix (Clean q) (dir ++ lit "/") = true ↔ Plain dir ∧ Continues dir (Clean q) := by
  have hslash : lit "/" = [slash] := by decide
  have hsettled := settled_elements q
  rw [hasPrefix,List.isPrefixOf_iff_prefix,continues_iff,(elements_Clean q).1,(elements_Clean q).2,Clean_eq q,hslash]
  constructor
  · rintro ⟨t,ht⟩
    rw [List.append_assoc,List.singleton_append] at ht
    obtain ⟨ds,xs,hes,hds,hxs,rfl⟩ := cut_render hsettled hdir ht.symm
    rw [hes,List.reverse_append] at hsettled
    have hrooted := rooted_render hsettled.suffix
    have helements := elements_render hsettled.suffix
    refine ⟨⟨?_,?_,?_⟩,hrooted.symm,xs,hxs,?_⟩
    · rw [Clean_eq,hrooted,helements]
    · intro hdot
      rw [hdot] at helements
      exact hds (helements.symm.trans (by decide))
    · intro hroot
      rw [hroot] at helements
      exact hds (helements.symm.trans (by decide))
    · rw [helements,hes]
  · rintro ⟨⟨hclean,hdot,hroot⟩,hrooted,xs,hxs,hes⟩
    have hds : elements dir ≠ [] := by
      intro hnil
      rw [Clean_eq,hnil,render] at hclean
      split at hclean
      · exact hroot (hclean.symm.trans (by decide))
      · exact hdot hclean.symm
    rw [Clean_eq] at hclean
    rw [hes,hrooted,render_append hds hxs,hclean]
    exact ⟨[slash].intercalate xs,by simp⟩

end Below

end GoPath
