import Cadoo.Lib.GoUrl
import Cadoo.Lib.Utf8
import Cadoo.Vcs.Types

/-! The address of a pull request or a merge request, as a one-shot run is given it, and what is read from it. -/
namespace Cli
open Bytes Vcs GoUrl Segments

/-- All that a run needs to talk to one request. -/
structure CiTarget where
  Provider : Kind
  BaseURL : Bytes
  APIBaseURL : Bytes
  ProjectPath : Bytes
  Number : ℤ
  deriving DecidableEq

inductive TargetError where
  | parseURL
  /-- The text of the error, and the address quoted behind it. -/
  | address (text raw : Bytes)
  deriving DecidableEq

/-- `strings.Trim` with a one-byte cutset. -/
def trim (s : Bytes) (b : UInt8) : Bytes := trimRight (s.dropWhile (· == b)) b

def parseTrailingNumber (s : Bytes) : Option ℤ :=
  match ParseInt (s.takeWhile (· != 47)) with
  | some n => if n ≤ 0 then none else some n
  | none => none

/-- The target that the trimmed path of an address names. -/
def targetAt (raw host base path : Bytes) : Except TargetError CiTarget :=
  match [lit "/-/merge_requests/",lit "/merge_requests/"].findSome? (cut path) with
  | some (project,tail) =>
    match parseTrailingNumber tail with
    | some n =>
      if project = [] then .error (.address (lit "not a valid merge-request URL: ") raw)
      else .ok ⟨KindGitLab,base,base ++ lit "/api/v4",project,n⟩
    | none => .error (.address (lit "not a valid merge-request URL: ") raw)
  | none =>
    match cut path (lit "/pull/") with
    | some (project,tail) =>
      match parseTrailingNumber tail with
      | some n =>
        if project.count 47 ≠ 1 ∨ project = [] then .error (.address (lit "not a valid pull-request URL: ") raw)
        else if host ≠ lit "github.com" then .ok ⟨KindGitHubEnterprise,base,base ++ lit "/api/v3",project,n⟩
        else .ok ⟨KindGitHub,base,[],project,n⟩
      | none => .error (.address (lit "not a valid pull-request URL: ") raw)
    | none => .error (.address (lit "not a pull-request or merge-request URL: ") raw)

variable (literal : Bytes → Option Bytes)

def parseTargetURL (raw : Bytes) : Except TargetError CiTarget :=
  match Parse literal (Utf8.trimSpace raw) with
  | none => .error .parseURL
  | some u =>
    if u.scheme = [] ∨ u.host = [] then .error (.address (lit "missing scheme or host in ") raw)
    else targetAt raw u.host (trimRight (u.scheme ++ (lit "://" ++ u.host)) 47) (trim u.path 47)

/-- The name of an owner, a repository, a group or a project. -/
structure Name where
  text : Bytes
  ne : text ≠ []
  chars : ∀ b ∈ text, isAlnum b = true ∨ b ∈ lit "-._"

/-- What may follow the number in an address, and the path it stands for. -/
structure Trail where
  text : Bytes := []
  path : Bytes := []
  slash : ∀ b ∈ text.head?, b = 47
  plain : ∀ b ∈ text, PathByte b
  decoded : unescape text = some path

/-- Where the requests of a project are. -/
inductive Project where
  | gitHub (owner repo : Name)
  /-- The groups and the project, of which none has a word of the routes for its name. -/
  | gitLab (group : Name) (names : List Name)
      (free : ∀ name ∈ group :: names, name.text ≠ lit "-" ∧ name.text ≠ lit "merge_requests")

/-- A request of a project at a host. -/
structure Target where
  scheme : Bytes
  host : Host
  project : Project
  number : ℕ
  trail : Trail
  scheme_ne : scheme ≠ []
  scheme_small : ∀ b ∈ scheme, 97 ≤ b ∧ b ≤ 122
  number_pos : 0 < number
  number_fits : (number : ℤ) ≤ GoInt.maxInt

namespace Project

/-- The names of the path of a project behind the first one. -/
def rest : Project → List Bytes
  | gitHub _ repo => [repo.text]
  | gitLab _ names _ => names.map Name.text

def first : Project → Name
  | gitHub owner _ => owner
  | gitLab group _ _ => group

/-- The words between the path of a project and the number of a request. -/
def route : Project → List Bytes
  | gitHub _ _ => [lit "pull"]
  | gitLab _ _ _ => [lit "-",lit "merge_requests"]

def path (p : Project) : Bytes := joined 47 (p.first.text :: p.rest)

end Project

namespace Target
variable (t : Target)

/-- The words of an address behind its host. -/
def words : List Bytes := t.project.rest ++ (t.project.route ++ [natDecimal t.number])

/-- The address of a request. -/
def url : Bytes :=
  t.scheme ++ (lit "://" ++ (t.host.text ++ (tailed 47 (t.project.first.text :: t.words) ++ t.trail.text)))

/-- What an address says in front of the path. -/
def base : Bytes := trimRight (t.scheme ++ (lit "://" ++ t.host.text)) 47

def kind : Kind :=
  match t.project with
  | .gitHub _ _ => if t.host.text = lit "github.com" then KindGitHub else KindGitHubEnterprise
  | .gitLab _ _ _ => KindGitLab

/-- The address is read back as the request it is for. -/
def ReadBack : Prop := ∃ got, parseTargetURL literal t.url = .ok got ∧
  got.Provider = t.kind ∧ got.ProjectPath = t.project.path ∧ got.Number = t.number

/-- No word of a route stands where the address is searched for one. -/
def Distinct : Prop :=
  match t.project with
  | .gitHub _ repo => repo.text ≠ lit "pull" ∧ repo.text ≠ lit "merge_requests" ∧
      ¬ lit "/merge_requests/" <:+: trimRight t.trail.path 47
  | .gitLab _ _ _ => True

end Target

/-- The bytes of a word of a path. -/
def WordByte (b : UInt8) : Prop := PathByte b ∧ b ≠ 37 ∧ b ≠ 47

lemma wordByte_name {b : UInt8} (h : isAlnum b = true ∨ b ∈ lit "-._") : WordByte b := by
  have hall : ∀ b : UInt8, (isAlnum b || List.contains (lit "-._") b) = true → PathByte b ∧ b ≠ 37 ∧ b ≠ 47 :=
    forall_byte (by decide +kernel)
  refine hall b ?_
  rwa [Bool.or_eq_true,List.contains_iff_mem]

lemma wordByte_number {n : ℕ} {b : UInt8} (h : b ∈ natDecimal n) : WordByte b :=
  wordByte_name (.inl (by rw [isAlnum,isDecimal_of_mem_natDecimal h,Bool.or_true]))

lemma wordByte_route {p : Project} {w : Bytes} (hw : w ∈ p.route) {b : UInt8} (hb : b ∈ w) : WordByte b := by
  have hname : ∀ c ∈ lit "pull" ++ (lit "-" ++ lit "merge_requests"), isAlnum c = true ∨ c ∈ lit "-._" :=
    forall_of_all (by decide)
  refine wordByte_name (hname b ?_)
  cases p with
  | gitHub owner repo =>
    obtain rfl := List.mem_singleton.mp hw
    exact List.mem_append_left _ hb
  | gitLab group names free =>
    rcases List.mem_cons.mp hw with rfl | hw
    · exact List.mem_append_right _ (List.mem_append_left _ hb)
    · obtain rfl := List.mem_singleton.mp hw
      exact List.mem_append_right _ (List.mem_append_right _ hb)

namespace Target
variable {t : Target}

lemma wordByte_of_mem {w : Bytes} (hw : w ∈ t.words) {b : UInt8} (hb : b ∈ w) : WordByte b := by
  rcases List.mem_append.mp hw with hw | hw
  · cases hp : t.project with
    | gitHub owner repo =>
      rw [hp] at hw
      obtain rfl := List.mem_singleton.mp hw
      exact wordByte_name (repo.chars b hb)
    | gitLab group names free =>
      rw [hp] at hw
      obtain ⟨name,-,rfl⟩ := List.mem_map.mp hw
      exact wordByte_name (name.chars b hb)
  rcases List.mem_append.mp hw with hw | hw
  · exact wordByte_route hw hb
  · obtain rfl := List.mem_singleton.mp hw
    exact wordByte_number hb

lemma wordByte_tailed {b : UInt8} (hb : b ∈ tailed 47 (t.project.first.text :: t.words)) : WordByte b ∨ b = 47 := by
  obtain ⟨w,hw,hb⟩ := List.mem_flatMap.mp hb
  rcases List.mem_cons.mp hb with rfl | hb
  · exact .inr rfl
  rcases List.mem_cons.mp hw with rfl | hw
  · exact .inl (wordByte_name (t.project.first.chars b hb))
  · exact .inl (wordByte_of_mem hw hb)

lemma slash_notMem {w : Bytes} (hw : w ∈ t.words) : 47 ∉ w := fun hb => (wordByte_of_mem hw hb).2.2 rfl

lemma slash_notMem_first : 47 ∉ t.project.first.text := fun hb =>
  (wordByte_name (t.project.first.chars 47 hb)).2.2 rfl

lemma url_visible {b : UInt8} (hb : b ∈ t.url) : 32 < b ∧ b < 128 := by
  have hpath : PathByte b := by
    rcases List.mem_append.mp hb with hb | hb
    · exact pathByte_letter (t.scheme_small b hb)
    rcases List.mem_append.mp hb with hb | hb
    · have hlit : ∀ c ∈ lit "://", PathByte c := forall_of_all (by decide)
      exact hlit b hb
    rcases List.mem_append.mp hb with hb | hb
    · obtain ⟨-,hlow,hhigh,hhash,-,-,hquestion,-,-⟩ := plain_cases (t.host.plain_of_mem hb)
      exact ⟨hlow,hhigh,hhash,hquestion⟩
    rcases List.mem_append.mp hb with hb | hb
    · rcases wordByte_tailed hb with hword | rfl
      · exact hword.1
      · decide
    · exact t.trail.plain b hb
  exact ⟨hpath.1,UInt8.lt_trans hpath.2.1 (by decide)⟩

/-- The words of what follows the number. -/
lemma exists_trail (t : Target) : ∃ ws, trimRight t.trail.path 47 = tailed 47 ws ∧ ∀ w ∈ ws, 47 ∉ w := by
  refine exists_tailed fun c hc => ?_
  have hpath := head_of_unescape (by decide) t.trail.slash t.trail.decoded
  refine hpath c ?_
  obtain ⟨more,hmore⟩ : trimRight t.trail.path 47 <+: t.trail.path := List.rdropWhile_prefix _ _
  rw [← hmore]
  cases htrim : trimRight t.trail.path 47 with
  | nil =>
    rw [htrim] at hc
    cases hc
  | cons d ds =>
    rw [htrim] at hc
    exact hc

/-- The address is taken apart as it was put together. -/
lemma parse_url : Parse literal (Utf8.trimSpace t.url) =
    some ⟨t.scheme,t.host.text,tailed 47 (t.project.first.text :: t.words) ++ t.trail.path⟩ := by
  rw [Utf8.trimSpace_visible fun b => url_visible,url]
  refine Parse_text literal t.host t.scheme_ne t.scheme_small ?_ ?_ ?_
  · rw [tailed_cons]
    rfl
  · intro b hb
    rcases List.mem_append.mp hb with hb | hb
    · rcases wordByte_tailed hb with hword | rfl
      · exact hword.1
      · decide
    · exact t.trail.plain b hb
  · rw [unescape_append fun b hb => (wordByte_tailed hb).elim (fun hword => hword.2.1) (by rintro rfl; decide),
      t.trail.decoded]
    rfl

/-- The slashes at both ends of a path are trimmed. -/
lemma trim_path {ws : List Bytes} (hws : trimRight t.trail.path 47 = tailed 47 ws) :
    trim (tailed 47 (t.project.first.text :: t.words) ++ t.trail.path) 47 =
      t.project.first.text ++ tailed 47 (t.words ++ ws) := by
  obtain ⟨c,cs,hc⟩ := List.exists_cons_of_ne_nil t.project.first.ne
  have hne : c ≠ 47 := fun he => slash_notMem_first (t := t) (by rw [hc,he]; exact List.mem_cons_self)
  have hlast : ∃ front, t.project.first.text ++ tailed 47 t.words = front ++ natDecimal t.number := by
    refine ⟨t.project.first.text ++ (tailed 47 (t.project.rest ++ t.project.route) ++ [47]),?_⟩
    rw [words,← List.append_assoc t.project.rest,tailed_append]
    simp only [tailed,List.flatMap_cons,List.flatMap_nil,List.append_nil,List.append_assoc,List.cons_append,
      List.nil_append]
  obtain ⟨front,hfront⟩ := hlast
  have hnumber := natDecimal_ne_nil t.number
  rw [tailed_cons,List.cons_append,trim,List.dropWhile_cons_of_pos (by decide),hc,List.cons_append,List.cons_append,
    List.dropWhile_cons_of_neg (by rwa [beq_iff_eq]),← List.cons_append,← List.cons_append,← hc,
    trimRight_append _ (by rw [hc]; simp) fun h => ?_,hws,tailed_append,List.append_assoc]
  simp only [hfront,List.getLast_append_of_ne_nil _ hnumber]
  exact fun he => (wordByte_number (he ▸ List.getLast_mem hnumber)).2.2 rfl

lemma parseTrailingNumber_natDecimal (t : Target) (ws : List Bytes) :
    parseTrailingNumber (natDecimal t.number ++ tailed 47 ws) = some (t.number : ℤ) := by
  have hdigits : ∀ b ∈ natDecimal t.number, (b != 47) = true := fun b hb => bne_iff_ne.mpr (wordByte_number hb).2.2
  have hrest : (tailed 47 ws).takeWhile (· != 47) = [] := by
    cases ws with
    | nil => rfl
    | cons w ws =>
      rw [tailed_cons]
      exact List.takeWhile_cons_of_neg (by decide)
  have hpos := t.number_pos
  rw [parseTrailingNumber,List.takeWhile_append_of_pos hdigits,hrest,List.append_nil,ParseInt_natDecimal t.number_fits]
  dsimp only
  rw [if_neg (by omega)]

/-- Where an address is searched for the words of a route. -/
lemma cut_route {route ws : List Bytes} (hroute : ∀ w ∈ route, 47 ∉ w) (hws : ∀ w ∈ ws, 47 ∉ w) :
    cut (t.project.first.text ++ tailed 47 (t.words ++ ws)) (tailed 47 route ++ [47]) =
      (cutAt route (t.words ++ ws)).map fun r => (t.project.first.text ++ tailed 47 r.1,joined 47 r.2) := by
  refine cut_words hroute slash_notMem_first fun w hw => ?_
  exact (List.mem_append.mp hw).elim slash_notMem (hws w)

lemma host_ne (h : Host) : h.text ≠ [] := fun he => h.name_ne (List.append_eq_nil_iff.mp he).1

/-- The path of an address without the slashes at its ends decides what it is read as. -/
lemma parseTargetURL_url {ws : List Bytes} (hws : trimRight t.trail.path 47 = tailed 47 ws) :
    parseTargetURL literal t.url = targetAt t.url t.host.text t.base
      (t.project.first.text ++ tailed 47 (t.words ++ ws)) := by
  rw [parseTargetURL,parse_url]
  dsimp only
  rw [if_neg fun h => h.elim t.scheme_ne (host_ne t.host),trim_path hws,base]

lemma findSome_first {path : Bytes} {r : Bytes × Bytes} (h : cut path (lit "/-/merge_requests/") = some r) :
    [lit "/-/merge_requests/",lit "/merge_requests/"].findSome? (cut path) = some r := by
  rw [List.findSome?_cons,h]

/-- Where the shorter of the two texts is not found, the longer one is not. -/
lemma findSome_eq {path : Bytes} : ([lit "/-/merge_requests/",lit "/merge_requests/"].findSome? (cut path) = none ↔
    cut path (lit "/merge_requests/") = none) := by
  rw [List.findSome?_eq_none_iff]
  constructor
  · exact fun h => h _ (by simp)
  · intro h
    have hshort := cut_eq_none_iff.mp h
    have hwithin : lit "/merge_requests/" <:+: lit "/-/merge_requests/" := by decide
    refine List.forall_mem_cons.mpr ⟨cut_eq_none_iff.mpr fun hlong => hshort (hwithin.trans hlong),?_⟩
    exact List.forall_mem_singleton.mpr h

/-- A search that finds a merge request never tells a pull request. -/
lemma targetAt_found {raw host base path : Bytes}
    (h : [lit "/-/merge_requests/",lit "/merge_requests/"].findSome? (cut path) ≠ none) {got : CiTarget}
    (hgot : targetAt raw host base path = .ok got) : got.Provider = KindGitLab := by
  rw [targetAt] at hgot
  split at hgot
  · next project tail _ =>
    split at hgot
    · split at hgot
      · cases hgot
      · cases hgot
        rfl
    · cases hgot
  · next hnone => exact absurd hnone h

lemma readBack_gitLab {group : Name} {names : List Name}
    {free : ∀ name ∈ group :: names, name.text ≠ lit "-" ∧ name.text ≠ lit "merge_requests"}
    (h : t.project = .gitLab group names free) : t.ReadBack literal := by
  obtain ⟨ws,hws,hslash⟩ := exists_trail t
  have hroute : lit "/-/merge_requests/" = tailed 47 [lit "-",lit "merge_requests"] ++ [47] := by decide
  have hplain : ∀ w ∈ [lit "-",lit "merge_requests"], 47 ∉ w := by decide
  have hwords : t.words ++ ws =
      names.map Name.text ++ lit "-" :: ([lit "merge_requests"] ++ natDecimal t.number :: ws) := by
    rw [words,h]
    simp only [Project.rest,Project.route,List.append_assoc,List.cons_append,List.nil_append]
  have hfree : ∀ w ∈ names.map Name.text, w ≠ lit "-" := List.forall_mem_map.mpr fun name hname =>
    (free name (List.mem_cons_of_mem _ hname)).1
  have hcut : cut (t.project.first.text ++ tailed 47 (t.words ++ ws)) (lit "/-/merge_requests/") = some
      (t.project.first.text ++ tailed 47 (names.map Name.text),joined 47 (natDecimal t.number :: ws)) := by
    rw [hroute,cut_route hplain hslash,hwords,cutAt_first hfree (List.cons_ne_nil _ _)]
    rfl
  have hne : t.project.first.text ++ tailed 47 (names.map Name.text) ≠ [] := fun he =>
    t.project.first.ne (List.append_eq_nil_iff.mp he).1
  have hread : parseTargetURL literal t.url = .ok ⟨KindGitLab,t.base,t.base ++ lit "/api/v4",
      t.project.first.text ++ tailed 47 (names.map Name.text),t.number⟩ := by
    rw [parseTargetURL_url literal hws,targetAt,findSome_first hcut]
    dsimp only
    rw [joined_cons,parseTrailingNumber_natDecimal]
    dsimp only
    rw [if_neg hne]
  refine ⟨_,hread,?_,?_,rfl⟩
  · rw [kind,h]
  · rw [Project.path,joined_cons,h]
    rfl

lemma natDecimal_ne_route (n : ℕ) : natDecimal n ≠ lit "merge_requests" := fun he =>
  absurd (isDecimal_of_mem_natDecimal (n := n) (b := 109) (by rw [he]; decide)) (by decide)

section GitHub
variable {owner repo : Name} (h : t.project = .gitHub owner repo) {ws : List Bytes}
include h

lemma words_gitHub : t.words ++ ws = repo.text :: lit "pull" :: natDecimal t.number :: ws := by
  rw [words,h]
  rfl

/-- Where the address of a pull request is taken for one of a merge request. -/
lemma cut_requests (hws : trimRight t.trail.path 47 = tailed 47 ws) (hslash : ∀ w ∈ ws, 47 ∉ w) :
    cut (t.project.first.text ++ tailed 47 (t.words ++ ws)) (lit "/merge_requests/") = none ↔
      repo.text ≠ lit "merge_requests" ∧ ¬ lit "/merge_requests/" <:+: trimRight t.trail.path 47 := by
  have hlit : lit "/merge_requests/" = tailed 47 [lit "merge_requests"] ++ [47] := by decide
  have hplain : ∀ w ∈ [lit "merge_requests"], 47 ∉ w := by decide
  have htrail : ¬ lit "/merge_requests/" <:+: trimRight t.trail.path 47 ↔ cutAt [lit "merge_requests"] ws = none := by
    have hcut := @cut_words 47 [lit "merge_requests"] ws [] hplain List.not_mem_nil hslash
    rw [List.nil_append,← hlit,← hws] at hcut
    rw [← cut_eq_none_iff,hcut,Option.map_eq_none_iff]
  rw [htrail,hlit,cut_route hplain hslash,Option.map_eq_none_iff,words_gitHub h]
  by_cases hrepo : repo.text = lit "merge_requests"
  · have hfirst : cutAt [lit "merge_requests"] (lit "merge_requests" :: lit "pull" :: natDecimal t.number :: ws) =
        some ([],lit "pull" :: natDecimal t.number :: ws) :=
      @cutAt_first (lit "merge_requests") [] [] _ (List.forall_mem_nil _) (List.cons_ne_nil _ _)
    rw [hrepo]
    refine iff_of_false (fun hn => ?_) fun hn => hn.1 rfl
    cases hfirst.symm.trans hn
  · rw [cutAt_cons hrepo,cutAt_cons (by decide),cutAt_cons (natDecimal_ne_route _),Option.map_eq_none_iff,
      Option.map_eq_none_iff,Option.map_eq_none_iff,and_iff_right hrepo]

variable (hslash : ∀ w ∈ ws, 47 ∉ w)
include hslash

/-- A repository of another name ends the path of the project. -/
lemma cut_pull (hrepo : repo.text ≠ lit "pull") :
    cut (t.project.first.text ++ tailed 47 (t.words ++ ws)) (lit "/pull/") =
      some (t.project.path,natDecimal t.number ++ tailed 47 ws) := by
  have hpull : lit "/pull/" = tailed 47 [lit "pull"] ++ [47] := by decide
  have hplain : ∀ w ∈ [lit "pull"], 47 ∉ w := by decide
  have hfirst : cutAt [lit "pull"] (repo.text :: lit "pull" :: natDecimal t.number :: ws) =
      some ([repo.text],natDecimal t.number :: ws) :=
    @cutAt_first (lit "pull") [] [repo.text] _ (List.forall_mem_singleton.mpr hrepo) (List.cons_ne_nil _ _)
  rw [hpull,cut_route hplain hslash,words_gitHub h,hfirst,Option.map_some,joined_cons,Project.path,joined_cons,h]
  rfl

/-- A repository with the name of the route is taken for it. -/
lemma cut_pull_pull (hrepo : repo.text = lit "pull") :
    cut (t.project.first.text ++ tailed 47 (t.words ++ ws)) (lit "/pull/") =
      some (t.project.first.text,joined 47 (lit "pull" :: natDecimal t.number :: ws)) := by
  have hpull : lit "/pull/" = tailed 47 [lit "pull"] ++ [47] := by decide
  have hplain : ∀ w ∈ [lit "pull"], 47 ∉ w := by decide
  have hfirst : cutAt [lit "pull"] (lit "pull" :: lit "pull" :: natDecimal t.number :: ws) =
      some ([],lit "pull" :: natDecimal t.number :: ws) :=
    @cutAt_first (lit "pull") [] [] _ (List.forall_mem_nil _) (List.cons_ne_nil _ _)
  rw [hpull,cut_route hplain hslash,words_gitHub h,hrepo,hfirst,Option.map_some,tailed,List.flatMap_nil,List.append_nil]

variable (hws : trimRight t.trail.path 47 = tailed 47 ws)
include hws

lemma readBack_pull (hrepo : repo.text ≠ lit "pull")
    (hfound : cut (t.project.first.text ++ tailed 47 (t.words ++ ws)) (lit "/merge_requests/") = none) :
    t.ReadBack literal := by
  have hpath : t.project.path = owner.text ++ 47 :: repo.text := by
    rw [Project.path,joined_cons,h]
    exact congrArg _ (List.flatMap_singleton _ _)
  have hslashes : ¬ (t.project.path.count 47 ≠ 1 ∨ t.project.path = []) := by
    have howner : 47 ∉ owner.text := fun hb => (wordByte_name (owner.chars 47 hb)).2.2 rfl
    have hname : 47 ∉ repo.text := fun hb => (wordByte_name (repo.chars 47 hb)).2.2 rfl
    rw [hpath,List.count_append,List.count_eq_zero.mpr howner,List.count_cons_self,List.count_eq_zero.mpr hname]
    simp
  rw [ReadBack,parseTargetURL_url literal hws,targetAt,findSome_eq.mpr hfound,cut_pull h hslash hrepo]
  dsimp only
  rw [parseTrailingNumber_natDecimal]
  dsimp only
  rw [if_neg hslashes,kind,h]
  by_cases hhost : t.host.text = lit "github.com"
  · rw [if_neg (not_not.mpr hhost)]
    exact ⟨_,rfl,(if_pos hhost).symm,rfl,rfl⟩
  · rw [if_pos hhost]
    exact ⟨_,rfl,(if_neg hhost).symm,rfl,rfl⟩

/-- The owner alone is no path of a project. -/
lemma not_readBack_pull (hrepo : repo.text = lit "pull")
    (hfound : cut (t.project.first.text ++ tailed 47 (t.words ++ ws)) (lit "/merge_requests/") = none) :
    ¬ t.ReadBack literal := by
  have hcount : t.project.first.text.count 47 ≠ 1 := by
    rw [List.count_eq_zero.mpr slash_notMem_first]
    decide
  rintro ⟨got,hgot,-,-,-⟩
  rw [parseTargetURL_url literal hws,targetAt,findSome_eq.mpr hfound,cut_pull_pull h hslash hrepo] at hgot
  dsimp only at hgot
  split at hgot
  · rw [if_pos (.inl hcount)] at hgot
    cases hgot
  · cases hgot

omit hslash in
lemma not_readBack_requests
    (hfound : cut (t.project.first.text ++ tailed 47 (t.words ++ ws)) (lit "/merge_requests/") ≠ none) :
    ¬ t.ReadBack literal := by
  rintro ⟨got,hgot,hprovider,-,-⟩
  rw [parseTargetURL_url literal hws] at hgot
  have hkind := hprovider.symm.trans (targetAt_found (mt findSome_eq.mp hfound) hgot)
  rw [kind,h] at hkind
  dsimp only at hkind
  split at hkind
  · exact absurd hkind (by decide)
  · exact absurd hkind (by decide)

end GitHub

/-- An address is read back as the request it is for if and only if no name is taken for a word of a route. -/
theorem readBack_iff (t : Target) : t.ReadBack literal ↔ t.Distinct := by
  cases h : t.project with
  | gitHub owner repo =>
    obtain ⟨ws,hws,hslash⟩ := exists_trail t
    rw [Distinct,h]
    dsimp only
    rw [← cut_requests h hws hslash]
    by_cases hfound : cut (t.project.first.text ++ tailed 47 (t.words ++ ws)) (lit "/merge_requests/") = none
    · by_cases hrepo : repo.text = lit "pull"
      · exact iff_of_false (not_readBack_pull literal h hslash hws hrepo hfound) fun hall => hall.1 hrepo
      · exact iff_of_true (readBack_pull literal h hslash hws hrepo hfound) ⟨hrepo,hfound⟩
    · exact iff_of_false (not_readBack_requests literal h hws hfound) fun hall => hfound hall.2
  | gitLab group names free =>
    refine iff_of_true (readBack_gitLab literal h) ?_
    rw [Distinct,h]
    trivial

/-- The page of a pull request that shows its files. -/
def filesPage : Target where
  scheme := lit "https"
  host := {
    name := lit "ghe.example.com"
    name_ne := by decide
    name_plain := forall_of_all (by decide)
    port_digits := fun _ hds => by cases hds }
  project := .gitHub ⟨lit "acme",by decide,forall_of_all (by decide)⟩ ⟨lit "shop",by decide,forall_of_all (by decide)⟩
  number := 42
  trail := {
    text := lit "/files"
    path := lit "/files"
    slash := fun _ hb => (Option.some.inj hb).symm
    plain := forall_of_all (by decide)
    decoded := by decide +kernel }
  scheme_ne := by decide
  scheme_small := forall_of_all (by decide)
  number_pos := by decide
  number_fits := by decide

theorem filesPage_read : filesPage.url = lit "https://ghe.example.com/acme/shop/pull/42/files" ∧
    filesPage.ReadBack fun _ => none :=
  ⟨by decide +kernel,(readBack_iff (fun _ => none) filesPage).mpr ⟨by decide,by decide,by decide +kernel⟩⟩

/-- A pull request of a repository that is named like the route. -/
def namedPull : Target where
  scheme := lit "https"
  host := {
    name := lit "github.com"
    name_ne := by decide
    name_plain := forall_of_all (by decide)
    port_digits := fun _ hds => by cases hds }
  project := .gitHub ⟨lit "acme",by decide,forall_of_all (by decide)⟩ ⟨lit "pull",by decide,forall_of_all (by decide)⟩
  number := 7
  trail := { slash := fun _ hb => (by cases hb), plain := List.forall_mem_nil _, decoded := rfl }
  scheme_ne := by decide
  scheme_small := forall_of_all (by decide)
  number_pos := by decide
  number_fits := by decide

theorem namedPull_unread : namedPull.url = lit "https://github.com/acme/pull/pull/7" ∧
    ¬ namedPull.ReadBack fun _ => none := by
  refine ⟨by decide +kernel,?_⟩
  have herror : parseTargetURL (fun _ => none) namedPull.url =
      .error (.address (lit "not a valid pull-request URL: ") namedPull.url) := by
    decide +kernel
  rintro ⟨got,hgot,-⟩
  rw [herror] at hgot
  cases hgot

end Target

end Cli
