import Mathlib.Data.List.Perm.Basic
import Mathlib.Logic.Relation
import Cadoo.ApiDocs.RenderHTML

/-! The document a YAML node stands for, and what becomes of it on the way to JSON. Everything arrives but
a boolean that is true and written with capitals. -/

/-- The keys of every object are in order. -/
inductive Json.KeysSorted : Json → Prop
  | null : KeysSorted .null
  | bool (b : Bool) : KeysSorted (.bool b)
  | num (m e : ℤ) : KeysSorted (.num m e)
  | str (s : Bytes) : KeysSorted (.str s)
  | arr {xs : List Json} (h : ∀ x ∈ xs, KeysSorted x) : KeysSorted (.arr xs)
  | obj {ms : List (Bytes × Json)} (hs : (ms.map Prod.fst).Pairwise Bytes.NotAfter)
      (h : ∀ m ∈ ms, KeysSorted m.2) : KeysSorted (.obj ms)

namespace ApiDocs
open Bytes Utf8

def trueSpellings : List Bytes := [lit "true",lit "True",lit "TRUE"]
def falseSpellings : List Bytes := [lit "false",lit "False",lit "FALSE"]

variable {F : Type} (Y : Library F) (g : Graph)

/-- The value of a scalar by its tag. -/
inductive Scalar (n : Node) : Json → Prop
  | null (ht : Y.shortTag n = lit "!!null") : Scalar n .null
  | yes (ht : Y.shortTag n = lit "!!bool") (hv : n.value ∈ trueSpellings) : Scalar n (.bool true)
  | no (ht : Y.shortTag n = lit "!!bool") (hv : n.value ∈ falseSpellings) : Scalar n (.bool false)
  | int (i : ℤ) (ht : Y.shortTag n = lit "!!int") (hv : Y.decodeInt n = .ok i) : Scalar n (.num i 0)
  | str (ht : Y.shortTag n = lit "!!str") (hv : valid n.value = true) : Scalar n (.str n.value)

def keyNodes : List ℕ → List ℕ
  | k :: _ :: rest => k :: keyNodes rest
  | _ => []

/-- The keys of a mapping are strings, no two of them alike. -/
structure StringKeys (content : List ℕ) : Prop where
  scalar : ∀ k ∈ keyNodes content, (g k).kind = .scalar ∧ Y.shortTag (g k) = lit "!!str" ∧
    valid (g k).value = true
  nodup : ((pairsOf g content).map Prod.fst).Nodup

/-- The node stands for the document, with no more than so many levels, alias hops included. The members
of an object come in any order. -/
def Denotes : ℕ → ℕ → Json → Prop
  | 0, _, _ => False
  | left+1, n, j =>
    match (g n).kind with
    | .alias => Denotes left (g n).target j
    | .scalar => Scalar Y (g n) j
    | .sequence => ∃ js, j = .arr js ∧ List.Forall₂ (Denotes left) (g n).content js
    | .mapping => StringKeys Y g (g n).content ∧ ∃ ms ms', j = .obj ms ∧ ms.Perm ms' ∧
        List.Forall₂ (fun p m => m.1 = p.1 ∧ Denotes left p.2 m.2) (pairsOf g (g n).content) ms'
    | _ => False

/-- From a node to its elements, its values or what it is an alias of. -/
def Child (a b : ℕ) : Prop :=
  match (g a).kind with
  | .alias => b = (g a).target
  | .sequence => b ∈ (g a).content
  | .mapping => b ∈ (pairsOf g (g a).content).map Prod.snd
  | _ => False

/-- No boolean is written `True` or `TRUE`. -/
def PlainTrue (root : ℕ) : Prop :=
  ∀ n, Relation.ReflTransGen (Child g) root n → (g n).kind = .scalar → Y.shortTag (g n) = lit "!!bool" →
    (g n).value ≠ lit "True" ∧ (g n).value ≠ lit "TRUE"

/-- What the code makes of a node: a printed document with sorted keys, which is the node's own unless a
boolean is in the way. -/
structure Rendered (left n : ℕ) (j : Json) : Prop where
  encoded : encode Y g left n = .ok (Json.print j)
  sorted : j.KeysSorted
  repaired : j.repaired = j
  faithful : Denotes Y g left n j ↔ PlainTrue Y g n

section Lists
variable {α β γ : Type} {R : α → β → Prop} {xs : List α} {ys : List β}

lemma exists_of_mem_right (h : List.Forall₂ R xs ys) {y : β} (hy : y ∈ ys) : ∃ x ∈ xs, R x y := by
  induction h with
  | nil => simp at hy
  | cons hxy _ ih =>
    rcases List.mem_cons.mp hy with rfl | hy
    · exact ⟨_,List.mem_cons_self,hxy⟩
    · obtain ⟨x,hx,hR⟩ := ih hy
      exact ⟨x,List.mem_cons_of_mem _ hx,hR⟩

lemma exists_of_mem_left (h : List.Forall₂ R xs ys) {x : α} (hx : x ∈ xs) : ∃ y ∈ ys, R x y :=
  exists_of_mem_right (R := fun y x => R x y) (.flip h) hx

/-- Item by item, one list can be exchanged for another. -/
lemma exists_forall₂ {S : α → γ → Prop} (h : ∀ x ∈ xs, ∃ z, S x z) : ∃ zs, List.Forall₂ S xs zs := by
  induction xs with
  | nil => exact ⟨[],.nil⟩
  | cons x xs ih =>
    obtain ⟨z,hz⟩ := h x List.mem_cons_self
    obtain ⟨zs,hzs⟩ := ih fun y hy => h y (List.mem_cons_of_mem x hy)
    exact ⟨z :: zs,.cons hz hzs⟩

lemma forall₂_iff_forall {D : α → β → Prop} {P : α → Prop} (h : List.Forall₂ (fun x y => D x y ↔ P x) xs ys) :
    List.Forall₂ D xs ys ↔ ∀ x ∈ xs, P x := by
  induction h with
  | nil => simp
  | cons hxy _ ih => rw [List.forall₂_cons,hxy,ih,List.forall_mem_cons]

end Lists

variable {Y g} {left n : ℕ} {j : Json}

lemma plainTrue_of_children (h : (g n).kind ≠ .scalar) :
    PlainTrue Y g n ↔ ∀ m, Child g n m → PlainTrue Y g m := by
  constructor
  · exact fun hn m hm k hk => hn k (.head hm hk)
  · intro hall k hk
    rcases Relation.ReflTransGen.cases_head hk with rfl | ⟨m,hm,hk⟩
    · exact fun hs => absurd hs h
    · exact hall m hm k hk

lemma plainTrue_scalar (h : (g n).kind = .scalar) : PlainTrue Y g n ↔
    (Y.shortTag (g n) = lit "!!bool" → (g n).value ≠ lit "True" ∧ (g n).value ≠ lit "TRUE") := by
  constructor
  · exact fun hn => hn n .refl h
  · intro hn k hk
    rcases Relation.ReflTransGen.cases_head hk with rfl | ⟨m,hm,-⟩
    · exact fun _ => hn
    · rw [Child,h] at hm
      exact hm.elim

lemma scalar_bool_iff {n : Node} (ht : Y.shortTag n = lit "!!bool") (b : Bool) :
    Scalar Y n (.bool b) ↔ n.value ∈ if b then trueSpellings else falseSpellings := by
  constructor
  · intro h
    cases h with
    | yes _ hv => exact hv
    | no _ hv => exact hv
  · cases b with
    | true => exact .yes ht
    | false => exact .no ht

lemma rendered_bool (hk : (g n).kind = .scalar) (ht : Y.shortTag (g n) = lit "!!bool")
    (hv : (g n).value ∈ trueSpellings ++ falseSpellings) :
    Rendered Y g (left+1) n (.bool ((g n).value = lit "true")) where
  encoded := by
    simp only [encode,hk,scalarToJSON,ht,if_true,Json.print,decide_eq_true_eq]
  sorted := .bool _
  repaired := rfl
  faithful := by
    rw [plainTrue_scalar hk,forall_prop_of_true ht]
    simp only [Denotes,hk]
    rw [scalar_bool_iff ht]
    have hall : ∀ v ∈ trueSpellings ++ falseSpellings,
        (v ∈ if decide (v = lit "true") then trueSpellings else falseSpellings) ↔
          v ≠ lit "True" ∧ v ≠ lit "TRUE" := by
      decide
    exact hall _ hv

lemma rendered_plain (hk : (g n).kind = .scalar) (hs : Scalar Y (g n) j)
    (ht : Y.shortTag (g n) ≠ lit "!!bool") (he : scalarToJSON Y (g n) = .ok (Json.print j))
    (hsorted : j.KeysSorted) (hrep : j.repaired = j) : Rendered Y g (left+1) n j where
  encoded := by
    simp only [encode,hk,he]
  sorted := hsorted
  repaired := hrep
  faithful := by
    rw [plainTrue_scalar hk]
    simp only [Denotes,hk]
    exact iff_of_true hs fun h => absurd h ht

lemma rendered_scalar (hk : (g n).kind = .scalar) (h : Scalar Y (g n) j) :
    ∃ j', Rendered Y g (left+1) n j' := by
  have htags : lit "!!null" ≠ lit "!!bool" ∧ lit "!!int" ≠ lit "!!bool" ∧ lit "!!int" ≠ lit "!!null" ∧
      lit "!!str" ≠ lit "!!bool" ∧ lit "!!str" ≠ lit "!!null" ∧ lit "!!str" ≠ lit "!!int" ∧
      lit "!!str" ≠ lit "!!float" := by
    decide
  obtain ⟨h₁,h₂,h₃,h₄,h₅,h₆,h₇⟩ := htags
  cases h with
  | null ht =>
    exact ⟨.null,rendered_plain hk (.null ht) (by rwa [ht]) (by simp [scalarToJSON,ht,h₁,Json.print])
      .null rfl⟩
  | yes ht hv => exact ⟨_,rendered_bool hk ht (List.mem_append_left _ hv)⟩
  | no ht hv => exact ⟨_,rendered_bool hk ht (List.mem_append_right _ hv)⟩
  | int i ht hv =>
    refine ⟨.num i 0,rendered_plain hk (.int i ht hv) (by rwa [ht]) ?_ (.num i 0) rfl⟩
    simp [scalarToJSON,ht,h₂,h₃,hv,Json.print,Json.printNumber]
  | str ht hv =>
    refine ⟨.str (g n).value,rendered_plain hk (.str ht hv) (by rwa [ht]) ?_ (.str _) ?_⟩
    · simp [scalarToJSON,ht,h₄,h₅,h₆,h₇,Json.print]
    · rw [Json.repaired,Json.repair_of_valid hv]

lemma rendered_sequence (hk : (g n).kind = .sequence) {js : List Json}
    (h : List.Forall₂ (Rendered Y g left) (g n).content js) : Rendered Y g (left+1) n (.arr js) where
  encoded := by
    have hitems := writeItems_ok (List.forall₂_map_right_iff.mpr
      (h.imp fun _ _ hr => hr.encoded) : List.Forall₂ _ _ (js.map Json.print))
    simp only [encode,hk,sequenceToJSON,hitems]
    rw [Json.print,Json.printAll_eq_map]
    rfl
  sorted := .arr fun j hj => by
    obtain ⟨c,-,hr⟩ := exists_of_mem_right h hj
    exact hr.sorted
  repaired := by
    rw [Json.repaired,Json.repairedAll_eq_map]
    congr 1
    refine (List.map_congr_left fun j hj => ?_).trans (List.map_id js)
    obtain ⟨c,-,hr⟩ := exists_of_mem_right h hj
    exact hr.repaired
  faithful := by
    rw [plainTrue_of_children (by simp [hk])]
    simp only [Denotes,hk,Child]
    rw [← forall₂_iff_forall (h.imp fun _ _ hr => hr.faithful)]
    constructor
    · rintro ⟨js',hjs,h'⟩
      rwa [Json.arr.inj hjs]
    · exact fun h' => ⟨js,rfl,h'⟩

lemma StringKeys.valid {content : List ℕ} (h : StringKeys Y g content) :
    ∀ p ∈ pairsOf g content, valid p.1 = true := by
  have hkey : ∀ content : List ℕ, ∀ p ∈ pairsOf g content, ∃ k ∈ keyNodes content,
      p.1 = (g k).value := by
    intro content
    induction content using keyNodes.induct with
    | case1 k v rest ih =>
      intro p hp
      rcases List.mem_cons.mp hp with rfl | hp
      · exact ⟨k,List.mem_cons_self,rfl⟩
      · obtain ⟨k',hk',hp⟩ := ih p hp
        exact ⟨k',List.mem_cons_of_mem _ hk',hp⟩
    | case2 content hno =>
      intro p hp
      rw [pairsOf] at hp
      · simp at hp
      · exact hno
  intro p hp
  obtain ⟨k,hk,hp⟩ := hkey content p hp
  rw [hp]
  exact (h.scalar k hk).2.2

/-- One member written: the key, and the document of its value. -/
def Member (R : ℕ → Json → Prop) (p : Bytes × ℕ) (m : Bytes × Json) : Prop := m.1 = p.1 ∧ R p.2 m.2

lemma map_fst_of_members {R : ℕ → Json → Prop} {ps : List (Bytes × ℕ)} {ms : List (Bytes × Json)}
    (h : List.Forall₂ (Member R) ps ms) : ms.map Prod.fst = ps.map Prod.fst := by
  induction h with
  | nil => rfl
  | cons hm _ ih => rw [List.map_cons,List.map_cons,hm.1,ih]

/-- Members in sorted order say the same as members in the order of the source. -/
lemma members_faithful {ps : List (Bytes × ℕ)} (hnd : (ps.map Prod.fst).Nodup) {ms : List (Bytes × Json)}
    (h : List.Forall₂ (Member (Rendered Y g left)) (sortPairs ps) ms) :
    (∃ ms', ms.Perm ms' ∧ List.Forall₂ (Member (Denotes Y g left)) ps ms') ↔
      ∀ p ∈ ps, PlainTrue Y g p.2 := by
  have hperm := sortPairs_perm ps
  constructor
  · rintro ⟨ms',hms,h'⟩ p hp
    obtain ⟨m,hm,hkey,hr⟩ := exists_of_mem_left h (hperm.mem_iff.mpr hp)
    obtain ⟨q,hq,hkey',hd⟩ := exists_of_mem_right h' (hms.mem_iff.mp hm)
    have hqp : q = p := List.inj_on_of_nodup_map hnd hq hp (hkey'.symm.trans hkey)
    exact hr.faithful.mp (hqp ▸ hd)
  · intro hall
    have hiff : List.Forall₂ (fun p m => Member (Denotes Y g left) p m ↔ PlainTrue Y g p.2)
        (sortPairs ps) ms :=
      h.imp fun p m hr => ⟨fun hd => hr.2.faithful.mp hd.2,fun hp => ⟨hr.1,hr.2.faithful.mpr hp⟩⟩
    have h' := (forall₂_iff_forall hiff).mpr fun p hp => hall p (hperm.mem_iff.mp hp)
    obtain ⟨ms',h'',hms⟩ := List.perm_comp_forall₂ hperm.symm h'
    exact ⟨ms',hms.symm,h''⟩

lemma rendered_mapping (hk : (g n).kind = .mapping) (hkeys : StringKeys Y g (g n).content)
    {ms : List (Bytes × Json)}
    (h : List.Forall₂ (Member (Rendered Y g left)) (sortPairs (pairsOf g (g n).content)) ms) :
    Rendered Y g (left+1) n (.obj ms) where
  encoded := by
    have hitem : ∀ p m, Member (Rendered Y g left) p m →
        ((encode Y g left p.2).map fun s => Json.quote p.1 ++ 58 :: s) = .ok (Json.printMember m) := by
      intro p m hm
      rw [hm.2.encoded,Json.printMember,hm.1]
      rfl
    have hitems := writeItems_ok (List.forall₂_map_right_iff.mpr
      (h.imp hitem) : List.Forall₂ _ _ (ms.map Json.printMember))
    simp only [encode,hk,mappingToJSON,hitems]
    rw [Json.print,Json.printMembers_eq_map]
    rfl
  sorted := by
    refine .obj ?_ fun m hm => ?_
    · rw [map_fst_of_members h]
      exact sortPairs_sorted _
    · obtain ⟨p,-,-,hr⟩ := exists_of_mem_right h hm
      exact hr.sorted
  repaired := by
    rw [Json.repaired,Json.repairedMembers_eq_map]
    congr 1
    refine (List.map_congr_left fun m hm => ?_).trans (List.map_id ms)
    obtain ⟨p,hp,hkey,hr⟩ := exists_of_mem_right h hm
    have hv : valid m.1 = true := by
      rw [hkey]
      exact hkeys.valid p ((sortPairs_perm _).mem_iff.mp hp)
    rw [Json.repairedMember,Json.repair_of_valid hv,hr.repaired]
    rfl
  faithful := by
    have hchildren : (∀ m, Child g n m → PlainTrue Y g m) ↔
        ∀ p ∈ pairsOf g (g n).content, PlainTrue Y g p.2 := by
      simp only [Child,hk]
      exact List.forall_mem_map
    rw [plainTrue_of_children (by simp [hk]),hchildren,← members_faithful hkeys.nodup h]
    simp only [Denotes,hk]
    constructor
    · rintro ⟨-,ms₀,ms',hobj,hperm,h'⟩
      exact ⟨ms',Json.obj.inj hobj ▸ hperm,h'⟩
    · rintro ⟨ms',hperm,h'⟩
      exact ⟨hkeys,ms,ms',rfl,hperm,h'⟩

/-- Every node that stands for a document is rendered. -/
theorem exists_rendered (h : Denotes Y g left n j) : ∃ j', Rendered Y g left n j' := by
  induction left generalizing n j with
  | zero => exact h.elim
  | succ left ih =>
    rw [Denotes] at h
    split at h
    · next hk =>
      obtain ⟨j',hr⟩ := ih h
      refine ⟨j',?_,hr.sorted,hr.repaired,?_⟩
      · simp only [encode,hk,hr.encoded]
      · rw [plainTrue_of_children (by simp [hk])]
        simp only [Denotes,hk,Child,forall_eq]
        exact hr.faithful
    · next hk => exact rendered_scalar hk h
    · next hk =>
      obtain ⟨js,-,hjs⟩ := h
      obtain ⟨js',h'⟩ := exists_forall₂ fun c hc => by
        obtain ⟨j,-,hd⟩ := exists_of_mem_left hjs hc
        exact ih hd
      exact ⟨_,rendered_sequence hk h'⟩
    · next hk =>
      obtain ⟨hkeys,ms,ms',-,-,hms⟩ := h
      obtain ⟨ms'',h'⟩ := exists_forall₂ fun p hp => by
        obtain ⟨m,-,-,hd⟩ := exists_of_mem_left hms ((sortPairs_perm _).mem_iff.mp hp)
        obtain ⟨j',hr⟩ := ih hd
        exact (⟨(p.1,j'),rfl,hr⟩ : ∃ m, Member (Rendered Y g left) p m)
      exact ⟨_,rendered_mapping hk hkeys h'⟩
    · exact h.elim

/-- A specification arrives as the document it is, with sorted keys, just when none of its booleans is
written `True` or `TRUE`. -/
theorem yamlToJSON_exact_iff {spec : Bytes} {root : ℕ} (hspec : Y.unmarshal spec = .ok (g,root))
    (hdoc : Denotes Y g (maxNodeDepth+1) (unwrap g root) j) :
    (∃ out j', yamlToJSON Y spec = .ok out ∧ Json.parse out = some j' ∧
      Denotes Y g (maxNodeDepth+1) (unwrap g root) j' ∧ j'.KeysSorted) ↔
      PlainTrue Y g (unwrap g root) := by
  obtain ⟨j₀,hr⟩ := exists_rendered hdoc
  have hout : yamlToJSON Y spec = .ok (Json.print j₀) := by
    rw [yamlToJSON,hspec]
    exact hr.encoded
  have hparse : Json.parse (Json.print j₀) = some j₀ := by rw [Json.parse_print,hr.repaired]
  rw [← hr.faithful]
  constructor
  · rintro ⟨out,j',hout',hparse',hd,-⟩
    obtain rfl := Except.ok.inj (hout.symm.trans hout')
    obtain rfl := Option.some.inj (hparse.symm.trans hparse')
    exact hd
  · exact fun hd => ⟨_,_,hout,hparse,hd,hr.sorted⟩

section Example

def scalarNode (tag value : String) : Node := { kind := .scalar, tag := lit tag, value := lit value }

/-- The nodes of a page on which one flag is set and aliased. -/
def exampleNodes (word : String) : List Node :=
  [{ kind := .document, content := [1] },{ kind := .mapping, content := [2,3,4,5] },
    scalarNode "!!str" "x-internal",scalarNode "!!bool" word,scalarNode "!!str" "tags",
    { kind := .sequence, content := [6,7,8] },scalarNode "!!str" "shop",scalarNode "!!int" "7",
    { kind := .alias, value := lit "flag", target := 3 }]

def exampleGraph (word : String) : Graph := fun n => (exampleNodes word).getD n { kind := .other }

def exampleSpec (word : String) : Bytes :=
  lit "x-internal: &flag " ++ lit word ++ lit "\ntags: [shop, 7, *flag]\n"

/-- The libraries on this page. -/
def exampleLibrary (word : String) : Library Unit where
  unmarshal spec := if spec = exampleSpec word then .ok (exampleGraph word,0) else .error []
  shortTag n := n.tag
  decodeInt n := match readInt n.value with
    | some (i,[]) => .ok i
    | _ => .error []
  decodeFloat _ := .error []
  isInf _ := false
  isNaN _ := false
  marshalFloat _ := .error []

def exampleDocument (flag : Bool) : Json :=
  .obj [(lit "tags",.arr [.str (lit "shop"),.num 7 0,.bool flag]),(lit "x-internal",.bool flag)]

lemma exampleDocument_denoted {word : String} (hw : lit word ∈ trueSpellings) (left : ℕ) :
    Denotes (exampleLibrary word) (exampleGraph word) (left+4) 1 (exampleDocument true) := by
  have hflag : Scalar (exampleLibrary word) (scalarNode "!!bool" word) (.bool true) := .yes rfl hw
  have hkeys : [lit "x-internal",lit "tags"].Nodup := by decide
  have hvalid : valid (lit "x-internal") = true ∧ valid (lit "tags") = true ∧
      valid (lit "shop") = true := by
    decide
  refine ⟨⟨fun k hk => ?_,hkeys⟩,_,[(lit "x-internal",.bool true),
    (lit "tags",.arr [.str (lit "shop"),.num 7 0,.bool true])],rfl,.swap _ _ _,?_⟩
  · have hk' : k ∈ [2,4] := hk
    rcases List.mem_pair.mp hk' with rfl | rfl
    · exact ⟨rfl,rfl,hvalid.1⟩
    · exact ⟨rfl,rfl,hvalid.2.1⟩
  · refine .cons ⟨rfl,hflag⟩ (.cons ⟨rfl,_,rfl,?_⟩ .nil)
    exact .cons (.str rfl hvalid.2.2) (.cons (.int 7 rfl rfl) (.cons hflag .nil))

lemma examplePlain : PlainTrue (exampleLibrary "true") (exampleGraph "true") 1 := by
  have hall : ∀ node ∈ { kind := .other } :: exampleNodes "true", node.tag = lit "!!bool" →
      node.value ≠ lit "True" ∧ node.value ≠ lit "TRUE" := by
    decide
  intro n _ _ ht
  refine hall _ ?_ ht
  rw [exampleGraph,List.getD_eq_getElem?_getD]
  cases hn : (exampleNodes "true")[n]? with
  | none => exact List.mem_cons_self
  | some node => exact List.mem_cons_of_mem _ (List.mem_of_getElem? hn)

theorem true_arrives : ∃ out j', yamlToJSON (exampleLibrary "true") (exampleSpec "true") = .ok out ∧
    Json.parse out = some j' ∧
    Denotes (exampleLibrary "true") (exampleGraph "true") (maxNodeDepth+1)
      (unwrap (exampleGraph "true") 0) j' ∧ j'.KeysSorted :=
  (yamlToJSON_exact_iff rfl (exampleDocument_denoted (by decide) 997)).mpr examplePlain

/-- A flag set with a capital letter is published as not set. -/
theorem capital_true_lost :
    Denotes (exampleLibrary "True") (exampleGraph "True") (maxNodeDepth+1)
      (unwrap (exampleGraph "True") 0) (exampleDocument true) ∧
    yamlToJSON (exampleLibrary "True") (exampleSpec "True") =
      .ok (Json.print (exampleDocument false)) ∧
    ¬ ∃ out j', yamlToJSON (exampleLibrary "True") (exampleSpec "True") = .ok out ∧
      Json.parse out = some j' ∧
      Denotes (exampleLibrary "True") (exampleGraph "True") (maxNodeDepth+1)
        (unwrap (exampleGraph "True") 0) j' ∧ j'.KeysSorted := by
  have hout : yamlToJSON (exampleLibrary "True") (exampleSpec "True") =
      .ok (Json.print (exampleDocument false)) := by
    rfl
  refine ⟨exampleDocument_denoted (by decide) 997,hout,?_⟩
  rintro ⟨out,j',hout',hparse,hd,-⟩
  obtain rfl := Except.ok.inj (hout.symm.trans hout')
  rw [Json.parse_print] at hparse
  obtain rfl := Option.some.inj hparse
  obtain ⟨-,ms,ms',hms,hperm,hall⟩ := hd
  obtain ⟨m,hm,hkey,hflag⟩ := exists_of_mem_left hall List.mem_cons_self
  rw [← hperm.mem_iff,← Json.obj.inj hms] at hm
  rcases List.mem_pair.mp hm with rfl | rfl
  · have hne : lit "tags" ≠ lit "x-internal" := by decide
    exact hne hkey
  · have hno : lit "True" ∉ falseSpellings := by decide
    exact hno ((scalar_bool_iff rfl false).mp hflag)

end Example

end ApiDocs
