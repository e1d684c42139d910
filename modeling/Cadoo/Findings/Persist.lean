import Mathlib.Logic.Function.Basic
import Cadoo.Lib.JsonGrammar
import Cadoo.Lib.Sorted
import Cadoo.Findings.Runs

/-! The JSON file behind a memory store: every change rewrites it, and a new store reads it back. -/
namespace Findings
open Bytes Utf8 Vcs

/-- The files there are, by name. -/
abbrev Disk := Bytes → Option Bytes

def Disk.write (d : Disk) (path data : Bytes) : Disk := Function.update d path (some data)

def Disk.rename (d : Disk) (source target : Bytes) : Disk :=
  Function.update (Function.update d source none) target (d source)

/-- The shape of the file: the keys of the maps are flattened into strings. -/
structure PersistedState where
  findings : GoMap Bytes (List FindingRec) := ∅
  summaries : GoMap Bytes Bytes := ∅
  sections : GoMap Bytes (GoMap Bytes Bytes) := ∅

def bar : UInt8 := 124

def encodePRKey (k : PRKey) : Bytes :=
  k.provider ++ bar :: (k.repoFullName ++ bar :: intDecimal k.prNumber)

def encodeSummaryKey (k : PRKey) (tool : Bytes) : Bytes := encodePRKey k ++ bar :: tool

def int64Ok (n : ℤ) : Bool := -9223372036854775808 ≤ n && n ≤ 9223372036854775807

/-- `fmt.Sscanf(s, "%d", &n)`: leading space is skipped, text after the digits is left alone. -/
def sscanfInt (s : Bytes) : Option ℤ :=
  let s := ((chunks s).dropWhile fun p => isSpace p.1 && p.1 ≠ '\n').flatMap Prod.snd
  let v : Option ℤ :=
    if s.head? = some 43 then
      let ds := (spanDigits (s.drop 1)).1
      if ds = [] then none else some (digitsValue ds)
    else (readInt s).map Prod.fst
  v.filter int64Ok

def decodePRKey (s : Bytes) : Option PRKey :=
  match splitN s [bar] 3 with
  | [provider,repo,number] => (sscanfInt number).map fun n => ⟨provider,repo,n⟩
  | _ => none

def decodeSummaryKey (s : Bytes) : Option (PRKey × Bytes) :=
  match splitN s [bar] 4 with
  | [provider,repo,number,tool] => (sscanfInt number).map fun n => (⟨provider,repo,n⟩,tool)
  | _ => none

section Marshal

/-- A map as an object; `json.Marshal` sorts the keys. -/
def mapJson {V : Type} (f : V → Json) (m : GoMap Bytes V) : Json :=
  .obj ((m.toList.insertionSort fun a b => less b.1 a.1 = false).map fun e => (e.1,f e.2))

/-- The fields of a record; three are left out when they are zero. -/
def recJson (r : FindingRec) : Json :=
  .obj ([(lit "tool",.str r.tool),(lit "file",.str r.file),(lit "severity",.str r.severity),
    (lit "sk",.str r.structuralKey),(lit "fp",.str r.fingerprint),(lit "nt",.str r.normalizedTitle),
    (lit "title",.str r.title),(lit "ls",.num r.lineStart 0),(lit "le",.num r.lineEnd 0)] ++
    (if r.externalID = [] then [] else [(lit "eid",.str r.externalID)]) ++
    (if r.resolved then [(lit "resolved",.bool true)] else []) ++
    (if r.line = 0 then [] else [(lit "line",.num r.line 0)]))

def stateJson (p : PersistedState) : Json :=
  .obj [(lit "findings",mapJson (fun rs => .arr (rs.map recJson)) p.findings),
    (lit "summaries",mapJson .str p.summaries),(lit "sections",mapJson (mapJson .str) p.sections)]

end Marshal

section Unmarshal

/-- The member of an object that a field is filled from; the store's own files spell the names
exactly. -/
def member (ms : List (Bytes × Json)) (name : Bytes) : Option Json := ms.reverse.lookup name

def stringOfJson : Json → Option Bytes
  | .str s => some s
  | .null => some []
  | _ => none

def intOfJson : Json → Option ℤ
  | .num m 0 => if int64Ok m then some m else none
  | .null => some 0
  | _ => none

def boolOfJson : Json → Option Bool
  | .bool b => some b
  | .null => some false
  | _ => none

def listOfJson {V : Type} (f : Json → Option V) : Json → Option (List V)
  | .arr xs => xs.mapM f
  | .null => some []
  | _ => none

def mapOfJson {V : Type} (f : Json → Option V) : Json → Option (GoMap Bytes V)
  | .obj ms => (ms.mapM fun e => (f e.2).map fun v => (e.1,v)).map GoMap.ofEntries
  | .null => some ∅
  | _ => none

/-- A field of a struct: its zero value when the object has no such member. -/
def field {V : Type} (f : Json → Option V) (zero : V) (ms : List (Bytes × Json)) (name : Bytes) :
    Option V :=
  match member ms name with
  | some j => f j
  | none => some zero

def recOfJson : Json → Option FindingRec
  | .obj ms => do
    let tool ← field stringOfJson [] ms (lit "tool")
    let file ← field stringOfJson [] ms (lit "file")
    let severity ← field stringOfJson [] ms (lit "severity")
    let structuralKey ← field stringOfJson [] ms (lit "sk")
    let fingerprint ← field stringOfJson [] ms (lit "fp")
    let normalizedTitle ← field stringOfJson [] ms (lit "nt")
    let title ← field stringOfJson [] ms (lit "title")
    let lineStart ← field intOfJson 0 ms (lit "ls")
    let lineEnd ← field intOfJson 0 ms (lit "le")
    let externalID ← field stringOfJson [] ms (lit "eid")
    let resolved ← field boolOfJson false ms (lit "resolved")
    let line ← field intOfJson 0 ms (lit "line")
    some ⟨tool,file,severity,structuralKey,fingerprint,normalizedTitle,title,lineStart,lineEnd,
      externalID,resolved,line⟩
  | .null => some ⟨[],[],[],[],[],[],[],0,0,[],false,0⟩
  | _ => none

def stateOfJson : Json → Option PersistedState
  | .obj ms => do
    let findings ← field (mapOfJson (listOfJson recOfJson)) ∅ ms (lit "findings")
    let summaries ← field (mapOfJson stringOfJson) ∅ ms (lit "summaries")
    let sections ← field (mapOfJson (mapOfJson stringOfJson)) ∅ ms (lit "sections")
    some ⟨findings,summaries,sections⟩
  | .null => some {}
  | _ => none

end Unmarshal

def flatten (m : MemoryStore) : PersistedState where
  findings := .ofEntries (m.findings.toList.map fun e => (encodePRKey e.1,e.2))
  summaries := .ofEntries (m.summaries.toList.map fun e => (encodeSummaryKey e.1.1 e.1.2,e.2))
  sections := .ofEntries (m.sections.toList.map fun e => (encodePRKey e.1,e.2))

/-- Keys that do not decode are passed over. -/
def hydrate (p : PersistedState) : MemoryStore where
  findings := .ofEntries (p.findings.toList.filterMap fun e => (decodePRKey e.1).map (·,e.2))
  summaries := .ofEntries (p.summaries.toList.filterMap fun e => (decodeSummaryKey e.1).map (·,e.2))
  sections := .ofEntries (p.sections.toList.filterMap fun e => (decodePRKey e.1).map (·,e.2))

/-- A missing or malformed file leaves the store empty. -/
def load (path : Bytes) (disk : Disk) : MemoryStore :=
  if path = [] then {}
  else
    match disk path with
    | none => {}
    | some data =>
      match (Json.parse data).bind stateOfJson with
      | none => {}
      | some p => hydrate p

/-- A memory store with the file it is kept in; an empty path names none. -/
structure FileStore where
  path : Bytes
  disk : Disk
  mem : MemoryStore

namespace FileStore
variable (U : Tables) (s : FileStore)

def NewMemory (path : Bytes) (disk : Disk) : FileStore := ⟨path,disk,load path disk⟩

/-- The state goes to a temporary file that then takes the place of the old one. -/
def persist : FileStore :=
  if s.path = [] then s
  else
    let tmp := s.path ++ lit ".tmp"
    let data := Json.print (stateJson (flatten s.mem))
    { s with disk := (s.disk.write tmp data).rename tmp s.path }

/-- Recording what is recorded already writes nothing, unless an empty id is filled in. -/
def record (key : PRKey) (tool externalID : Bytes) (c : InlineComment) : FileStore :=
  let s' := { s with mem := s.mem.record U key tool externalID c }
  match (s.mem.findings.get key).find? fun r => r.fingerprint = Fingerprint U tool c with
  | some existing => if existing.externalID = [] ∧ externalID ≠ [] then s'.persist else s'
  | none => s'.persist

def putSummaryID (key : PRKey) (tool id : Bytes) : FileStore :=
  { s with mem := s.mem.putSummaryID key tool id }.persist

def putSection (key : PRKey) (tool body : Bytes) : FileStore :=
  { s with mem := s.mem.putSection key tool body }.persist

def write : Write → FileStore
  | .recordFinding key tool id c => s.record U key tool id c
  | .putSummaryID key tool id => s.putSummaryID key tool id
  | .putSection key tool body => s.putSection key tool body

end FileStore

section Keys

/-- The keys the file can tell apart: valid text without the separator. -/
def PRKey.plain (k : PRKey) : Bool :=
  valid k.provider && valid k.repoFullName && bar ∉ k.provider && bar ∉ k.repoFullName &&
    int64Ok k.prNumber

lemma bar_notMem_intDecimal (n : ℤ) : bar ∉ intDecimal n := by
  have hdigit : ∀ m : ℕ, bar ∉ natDecimal m := fun m hm =>
    absurd (isDecimal_of_mem_natDecimal hm) (by decide)
  cases n with
  | ofNat m => exact hdigit m
  | negSucc m =>
    change bar ∉ 45 :: natDecimal (m+1)
    rw [List.mem_cons,not_or]
    exact ⟨by decide,hdigit (m+1)⟩

lemma sscanfInt_intDecimal {n : ℤ} (h : int64Ok n = true) : sscanfInt (intDecimal n) = some n := by
  obtain ⟨b,t,ht,hb⟩ := intDecimal_front n
  have hall : ∀ d : UInt8, isDecimal d = true ∨ d = 45 →
      d < 128 ∧ d ≠ 43 ∧ isSpace (Char.ofNat d.toNat) = false := forall_byte (by decide +kernel)
  obtain ⟨hlt,hplus,hspace⟩ := hall b hb
  have hskip : ((chunks (intDecimal n)).dropWhile fun p => isSpace p.1 && p.1 ≠ '\n').flatMap
      Prod.snd = intDecimal n := by
    have hc : chunks (intDecimal n) = (Char.ofNat b.toNat,[b]) :: chunks t := by
      have := chunks_encode_append (Char.ofNat b.toNat) t
      rw [← encode_ascii b hlt] at this
      rw [ht]
      exact this
    rw [hc,List.dropWhile_cons,hspace,Bool.false_and,if_neg Bool.false_ne_true,← hc,flatMap_chunks]
  have hread : readInt (intDecimal n ++ []) = some (n,[]) := readInt_intDecimal n (by simp [NoDigit])
  rw [List.append_nil] at hread
  have hhead : (intDecimal n).head? ≠ some 43 := by
    rw [ht,List.head?_cons]
    exact fun he => hplus (Option.some.inj he)
  rw [sscanfInt]
  simp only [hskip,if_neg hhead,hread,Option.map_some,Option.filter_some,h,if_true]

lemma plain_iff {k : PRKey} : k.plain = true ↔ valid k.provider = true ∧
    valid k.repoFullName = true ∧ bar ∉ k.provider ∧ bar ∉ k.repoFullName ∧
      int64Ok k.prNumber = true := by
  simp [PRKey.plain,and_assoc]

theorem decodePRKey_encode {k : PRKey} (h : k.plain = true) :
    decodePRKey (encodePRKey k) = some k := by
  obtain ⟨-,-,hp,hr,hn⟩ := plain_iff.mp h
  have hsplit : splitN (encodePRKey k) [bar] 3 = [k.provider,k.repoFullName,intDecimal k.prNumber] := by
    rw [encodePRKey,splitN,cut_append_cons hp]
    simp only
    rw [splitN,cut_append_cons hr]
    rfl
  rw [decodePRKey,hsplit]
  simp only [sscanfInt_intDecimal hn]
  rfl

theorem decodeSummaryKey_encode {k : PRKey} {tool : Bytes} (h : k.plain = true) :
    decodeSummaryKey (encodeSummaryKey k tool) = some (k,tool) := by
  obtain ⟨-,-,hp,hr,hn⟩ := plain_iff.mp h
  have hsplit : splitN (encodeSummaryKey k tool) [bar] 4 =
      [k.provider,k.repoFullName,intDecimal k.prNumber,tool] := by
    simp only [encodeSummaryKey,encodePRKey,List.append_assoc,List.cons_append]
    rw [splitN,cut_append_cons hp]
    simp only
    rw [splitN,cut_append_cons hr]
    simp only
    rw [splitN,cut_append_cons (bar_notMem_intDecimal k.prNumber)]
    rfl
  rw [decodeSummaryKey,hsplit]
  simp only [sscanfInt_intDecimal hn]
  rfl

end Keys

section Reread

lemma mapM_some {α β : Type} {f : α → Option β} {g : α → β} {l : List α}
    (h : ∀ a ∈ l, f a = some (g a)) : l.mapM f = some (l.map g) := by
  induction l with
  | nil => rfl
  | cons a l ih =>
    rw [List.mapM_cons,h a (by simp),ih fun b hb => h b (by simp [hb])]
    rfl

/-- A map as it comes back from an object. -/
def reread {V W : Type} (h : V → W) (m : GoMap Bytes V) : GoMap Bytes W :=
  .ofEntries ((m.toList.insertionSort fun a b => less b.1 a.1 = false).map fun e => (e.1,h e.2))

variable {V W : Type} {f : V → Json} {g : Json → Option W} {h : V → W} {m : GoMap Bytes V}

lemma mem_sorted {k : Bytes} {v : V} :
    (k,v) ∈ m.toList.insertionSort (fun a b => less b.1 a.1 = false) ↔
      AList.lookup k m = some v := by
  rw [(List.perm_insertionSort _ _).mem_iff,GoMap.mem_toList]

lemma lookup_reread (k : Bytes) : AList.lookup k (reread h m) = (AList.lookup k m).map h := by
  have hmem : ∀ w, (k,w) ∈ (m.toList.insertionSort fun a b => less b.1 a.1 = false).map
      (fun e => (e.1,h e.2)) ↔ ∃ v, AList.lookup k m = some v ∧ h v = w := by
    intro w
    rw [List.mem_map]
    constructor
    · rintro ⟨⟨k',v⟩,he,hkw⟩
      obtain ⟨rfl,rfl⟩ := Prod.mk.inj hkw
      exact ⟨v,mem_sorted.mp he,rfl⟩
    · rintro ⟨v,hv,rfl⟩
      exact ⟨(k,v),mem_sorted.mpr hv,rfl⟩
  apply Option.ext
  intro w
  rw [reread,GoMap.lookup_ofEntries,hmem,Option.map_eq_some_iff]
  intro v w hv hw
  obtain ⟨x,hx,rfl⟩ := (hmem v).mp hv
  obtain ⟨y,hy,rfl⟩ := (hmem w).mp hw
  rw [Option.some.inj (hx.symm.trans hy)]

/-- An object written from a map is read as the map, each value as its own text is read. -/
lemma mapOfJson_mapJson (hm : ∀ k v, AList.lookup k m = some v →
    valid k = true ∧ g (Json.repaired (f v)) = some (h v)) :
    mapOfJson g (Json.repaired (mapJson f m)) = some (reread h m) := by
  rw [mapJson,Json.repaired,Json.repairedMembers_eq_map,mapOfJson,List.map_map,List.mapM_map]
  rw [mapM_some (g := fun e => (e.1,h e.2))]
  · rfl
  · rintro ⟨k,v⟩ he
    obtain ⟨hk,hv⟩ := hm k v (mem_sorted.mp he)
    simp only [Function.comp,Json.repairedMember,hv,Json.repair_of_valid hk]
    rfl

end Reread

/-- Every text of a record but its title is valid UTF-8, and its lines are machine integers; the
title may be cut inside a rune. -/
structure FindingRec.Clean (r : FindingRec) : Prop where
  tool : valid r.tool = true
  file : valid r.file = true
  severity : valid r.severity = true
  structuralKey : valid r.structuralKey = true
  fingerprint : valid r.fingerprint = true
  normalizedTitle : valid r.normalizedTitle = true
  externalID : valid r.externalID = true
  lineStart : int64Ok r.lineStart = true
  lineEnd : int64Ok r.lineEnd = true
  line : int64Ok r.line = true

/-- What becomes of a record in the file. -/
def FindingRec.retitled (r : FindingRec) : FindingRec := { r with title := Json.repair r.title }

lemma repair_lit (s : String) : Json.repair (lit s) = lit s :=
  Json.repair_of_valid (valid_encode s.toList)

lemma repaired_recJson {r : FindingRec} (h : r.Clean) :
    Json.repaired (recJson r) = recJson r.retitled := by
  simp only [recJson,FindingRec.retitled,Json.repaired,Json.repairedMembers_eq_map,List.map_append,
    List.map_cons,List.map_nil,apply_ite (List.map _),Json.repairedMember,repair_lit,
    Json.repair_of_valid h.tool,Json.repair_of_valid h.file,Json.repair_of_valid h.severity,
    Json.repair_of_valid h.structuralKey,Json.repair_of_valid h.fingerprint,
    Json.repair_of_valid h.normalizedTitle,Json.repair_of_valid h.externalID]
  rfl

lemma intOfJson_num {n : ℤ} (h : int64Ok n = true) : intOfJson (.num n 0) = some n := if_pos h

lemma recOfJson_recJson {r : FindingRec} (h : r.Clean) : recOfJson (recJson r) = some r := by
  have hbind : recOfJson (recJson r) = (intOfJson (.num r.lineStart 0)).bind fun ls =>
      (intOfJson (.num r.lineEnd 0)).bind fun le => (intOfJson (.num r.line 0)).bind fun line =>
        some { r with lineStart := ls, lineEnd := le, line := line } := by
    obtain ⟨tool,file,severity,sk,fp,nt,title,ls,le,eid,resolved,line⟩ := r
    rw [recJson]
    by_cases he : eid = [] <;> by_cases hl : line = 0 <;> cases resolved <;>
      simp only [he,hl,if_true,if_false,Bool.false_eq_true] <;> rfl
  rw [hbind,intOfJson_num h.lineStart,intOfJson_num h.lineEnd,intOfJson_num h.line]
  rfl

lemma FindingRec.Clean.retitled {r : FindingRec} (h : r.Clean) : r.retitled.Clean :=
  ⟨h.tool,h.file,h.severity,h.structuralKey,h.fingerprint,h.normalizedTitle,h.externalID,h.lineStart,
    h.lineEnd,h.line⟩

/-- Everything a store keeps can be written to the file and told apart there. -/
structure MemoryStore.Persistable (m : MemoryStore) : Prop where
  findings : ∀ k rs, AList.lookup k m.findings = some rs → k.plain = true ∧ ∀ r ∈ rs, r.Clean
  summaries : ∀ k id, AList.lookup k m.summaries = some id →
    k.1.plain = true ∧ valid k.2 = true ∧ valid id = true
  sections : ∀ k bucket, AList.lookup k m.sections = some bucket →
    k.plain = true ∧ ∀ t x, AList.lookup t bucket = some x → valid t = true ∧ valid x = true

lemma valid_intDecimal (n : ℤ) : valid (intDecimal n) = true := by
  have hdigits : ∀ m : ℕ, ∀ b ∈ natDecimal m, b < 128 := fun m b hb => by
    have := isDecimal_of_mem_natDecimal hb
    simp only [isDecimal,Bool.and_eq_true,decide_eq_true_eq] at this
    exact UInt8.lt_of_le_of_lt this.2 (by decide)
  apply valid_of_ascii
  cases n with
  | ofNat m => exact hdigits m
  | negSucc m =>
    intro b hb
    rcases List.mem_cons.mp (show b ∈ 45 :: natDecimal (m+1) from hb) with rfl | hb
    · decide
    · exact hdigits (m+1) b hb

lemma valid_barred {s t : Bytes} (hs : valid s = true) (ht : valid t = true) :
    valid (s ++ bar :: t) = true :=
  valid_append hs (valid_append (s := [bar]) (by decide) ht)

lemma valid_encodePRKey {k : PRKey} (h : k.plain = true) : valid (encodePRKey k) = true := by
  obtain ⟨hp,hr,-⟩ := plain_iff.mp h
  exact valid_barred hp (valid_barred hr (valid_intDecimal _))

/-- The state read back from the file that was written for a store. -/
def rereadState (p : PersistedState) : PersistedState where
  findings := reread (List.map FindingRec.retitled) p.findings
  summaries := reread id p.summaries
  sections := reread (reread id) p.sections

/-- The object of a state has each of its fields once. -/
lemma stateOfJson_obj (x y z : Json) :
    stateOfJson (.obj [(lit "findings",x),(lit "summaries",y),(lit "sections",z)]) =
      (mapOfJson (listOfJson recOfJson) x).bind fun findings =>
        (mapOfJson stringOfJson y).bind fun summaries =>
          (mapOfJson (mapOfJson stringOfJson) z).bind fun sections =>
            some ⟨findings,summaries,sections⟩ := rfl

lemma lookup_reloaded {K V W : Type} [DecidableEq K] {m : GoMap K V} (enc : K → Bytes)
    (dec : Bytes → Option K) (h : V → W)
    (hdec : ∀ k v, AList.lookup k m = some v → dec (enc k) = some k) (k : K) :
    AList.lookup k (GoMap.ofEntries ((reread h (.ofEntries (m.toList.map fun x =>
      (enc x.1,x.2)))).toList.filterMap fun e => (dec e.1).map (·,e.2))) =
        (AList.lookup k m).map h := by
  apply GoMap.lookup_recoded hdec
  · intro e w he
    rw [lookup_reread,Option.map_eq_some_iff] at he
    obtain ⟨v,hv,-⟩ := he
    obtain ⟨k,hk,rfl⟩ := (GoMap.lookup_encoded hdec).mp hv
    exact ⟨k,v,hk,rfl⟩
  · intro k v hk
    rw [lookup_reread,(GoMap.lookup_encoded hdec).mpr ⟨k,hk,rfl⟩]
    rfl

namespace MemoryStore.Persistable
variable {m : MemoryStore} (hm : m.Persistable)
include hm

/-- The file of a store is read as the state it was written from. -/
lemma parse_file : (Json.parse (Json.print (stateJson (flatten m)))).bind stateOfJson =
    some (rereadState (flatten m)) := by
  have hf : mapOfJson (listOfJson recOfJson)
      (Json.repaired (mapJson (fun rs => .arr (rs.map recJson)) (flatten m).findings)) =
        some (reread (List.map FindingRec.retitled) (flatten m).findings) := by
    apply mapOfJson_mapJson
    intro e rs he
    obtain ⟨k,hk,rfl⟩ := (GoMap.lookup_encoded fun k v h =>
      decodePRKey_encode (hm.findings k v h).1).mp he
    obtain ⟨hplain,hclean⟩ := hm.findings k rs hk
    refine ⟨valid_encodePRKey hplain,?_⟩
    rw [Json.repaired,Json.repairedAll_eq_map,List.map_map,listOfJson,List.mapM_map]
    apply mapM_some
    intro r hr
    rw [Function.comp,Function.comp,repaired_recJson (hclean r hr),recOfJson_recJson (hclean r hr).retitled]
  have hs : mapOfJson stringOfJson (Json.repaired (mapJson .str (flatten m).summaries)) =
      some (reread id (flatten m).summaries) := by
    apply mapOfJson_mapJson
    intro e id he
    obtain ⟨k,hk,rfl⟩ := (GoMap.lookup_encoded fun k v h =>
      decodeSummaryKey_encode (hm.summaries k v h).1).mp he
    obtain ⟨hplain,htool,hid⟩ := hm.summaries k id hk
    refine ⟨valid_barred (valid_encodePRKey hplain) htool,?_⟩
    rw [Json.repaired,Json.repair_of_valid hid]
    rfl
  have hb : mapOfJson (mapOfJson stringOfJson)
      (Json.repaired (mapJson (mapJson .str) (flatten m).sections)) =
        some (reread (reread id) (flatten m).sections) := by
    apply mapOfJson_mapJson
    intro e bucket he
    obtain ⟨k,hk,rfl⟩ := (GoMap.lookup_encoded fun k v h =>
      decodePRKey_encode (hm.sections k v h).1).mp he
    obtain ⟨hplain,hbucket⟩ := hm.sections k bucket hk
    refine ⟨valid_encodePRKey hplain,mapOfJson_mapJson fun t x hx => ?_⟩
    obtain ⟨ht,hx⟩ := hbucket t x hx
    rw [Json.repaired,Json.repair_of_valid hx]
    exact ⟨ht,rfl⟩
  rw [Json.parse_print]
  simp only [stateJson,Json.repaired,Json.repairedMembers,repair_lit]
  rw [Option.bind_some,stateOfJson_obj,hf,hs,hb]
  rfl

lemma findings_reloaded (k : PRKey) : AList.lookup k (hydrate (rereadState (flatten m))).findings =
    (AList.lookup k m.findings).map (List.map FindingRec.retitled) :=
  lookup_reloaded encodePRKey decodePRKey _
    (fun k v h => decodePRKey_encode (hm.findings k v h).1) k

lemma summaries_reloaded (k : PRKey × Bytes) :
    AList.lookup k (hydrate (rereadState (flatten m))).summaries = AList.lookup k m.summaries := by
  have h := lookup_reloaded (m := m.summaries) (fun k => encodeSummaryKey k.1 k.2) decodeSummaryKey id
    (fun k v h => decodeSummaryKey_encode (hm.summaries k v h).1) k
  rw [Option.map_id_fun,id] at h
  exact h

lemma sections_reloaded (k : PRKey) : AList.lookup k (hydrate (rereadState (flatten m))).sections =
    (AList.lookup k m.sections).map (reread id) :=
  lookup_reloaded encodePRKey decodePRKey _
    (fun k v h => decodePRKey_encode (hm.sections k v h).1) k

end MemoryStore.Persistable

section Answers

def FindingRec.untitled (r : FindingRec) : FindingRec := { r with title := [] }
def PostedFinding.untitled (p : PostedFinding) : PostedFinding := { p with title := [] }

/-- Two stores that keep the same, whatever the titles of their records. -/
structure MemoryStore.Alike (m m' : MemoryStore) : Prop where
  findings : ∀ k, (m'.findings.get k).map FindingRec.untitled =
    (m.findings.get k).map FindingRec.untitled
  summaries : ∀ k, m'.summaries.get k = m.summaries.get k
  sections : ∀ k t, (m'.sections.get k).get t = (m.sections.get k).get t

namespace MemoryStore.Alike
variable {m m' : MemoryStore} (h : m.Alike m') (U : Tables) (key : PRKey) (tool : Bytes)
include h

lemma has (c : InlineComment) : m'.has U key tool c = m.has U key tool c := by
  have hany : ∀ rs : List FindingRec, rs.any (fun r => r.matchesComment U tool c) =
      (rs.map FindingRec.untitled).any fun r => r.matchesComment U tool c := by
    intro rs
    rw [List.any_map]
    rfl
  rw [MemoryStore.has,MemoryStore.has,hany (m.findings.get key),hany (m'.findings.get key),h.findings]

lemma list : (m'.list key).map PostedFinding.untitled = (m.list key).map PostedFinding.untitled := by
  have hmap : ∀ rs : List FindingRec, (rs.map FindingRec.posted).map PostedFinding.untitled =
      (rs.map FindingRec.untitled).map FindingRec.posted := by
    intro rs
    rw [List.map_map,List.map_map]
    rfl
  rw [MemoryStore.list,MemoryStore.list,hmap,hmap,h.findings]

lemma summaryID : m'.summaryID key tool = m.summaryID key tool := h.summaries (key,tool)

lemma allSections : m'.allSections key = m.allSections key := by
  have hmem : ∀ (b : GoMap Bytes Bytes) (t : Bytes),
      t ∈ b.keys.filter (fun t => t ≠ WrapperToolKey ∧ b.get t ≠ []) ↔
        t ≠ WrapperToolKey ∧ b.get t ≠ [] := by
    intro b t
    rw [List.mem_filter,decide_eq_true_iff,← AList.mem_keys]
    refine ⟨And.right,fun ht => ⟨?_,ht⟩⟩
    by_contra hn
    exact ht.2 (GoMap.get_of_notMem _ _ hn)
  have hperm : ((m'.sections.get key).keys.filter fun t =>
      t ≠ WrapperToolKey ∧ (m'.sections.get key).get t ≠ []).Perm
        ((m.sections.get key).keys.filter fun t =>
          t ≠ WrapperToolKey ∧ (m.sections.get key).get t ≠ []) := by
    rw [List.perm_ext_iff_of_nodup ((AList.keys_nodup _).filter _) ((AList.keys_nodup _).filter _)]
    intro t
    rw [hmem,hmem,h.sections]
  rw [MemoryStore.allSections,MemoryStore.allSections]
  simp only [h.sections key] at hperm ⊢
  rw [insertionSort_eq_of_perm hperm]

end MemoryStore.Alike

/-- A store hydrated from its own file keeps the same. -/
theorem MemoryStore.Persistable.alike {m : MemoryStore} (hm : m.Persistable) :
    m.Alike (hydrate (rereadState (flatten m))) where
  findings k := by
    rw [GoMap.get,GoMap.get,hm.findings_reloaded]
    cases AList.lookup k m.findings with
    | none => rfl
    | some rs =>
      simp only [Option.map_some,Option.getD_some,List.map_map]
      rfl
  summaries k := by rw [GoMap.get,GoMap.get,hm.summaries_reloaded]
  sections k t := by
    have hs : ∀ o : Option (GoMap Bytes Bytes), GoMap.get ((o.map (reread id)).getD default) t =
        GoMap.get (o.getD default) t := by
      intro o
      cases o with
      | none => rfl
      | some b =>
        simp only [Option.map_some,Option.getD_some]
        rw [GoMap.get,GoMap.get,lookup_reread,Option.map_id_fun,id]
    have hk : (hydrate (rereadState (flatten m))).sections.get k =
        ((AList.lookup k m.sections).map (reread id)).getD default := by
      rw [GoMap.get,hm.sections_reloaded]
    rw [hk]
    exact hs _

end Answers

section Runs
variable (U : Tables)

/-- What a record shares with those it is recorded among holds of all of them afterwards. -/
lemma recordInto_forall {P : FindingRec → Prop} {rec : FindingRec} {rs : List FindingRec}
    (hrec : P rec) (hrs : ∀ r ∈ rs, P r)
    (hfill : ∀ r ∈ rs, P r → P { r with externalID := rec.externalID }) :
    ∀ r ∈ recordInto rec rs, P r := by
  induction rs with
  | nil => simpa [recordInto] using hrec
  | cons e rs ih =>
    have ih := ih (fun r hr => hrs r (by simp [hr])) (fun r hr => hfill r (by simp [hr]))
    have he := hrs e (by simp)
    rw [recordInto]
    split
    · split
      · exact List.forall_mem_cons.mpr ⟨hfill e (by simp) he,fun r hr => hrs r (by simp [hr])⟩
      · exact hrs
    · exact List.forall_mem_cons.mpr ⟨he,ih⟩

/-- The texts of a write are valid, its lines are machine integers and its key can be told apart in
the file. -/
def Write.persistable : Write → Bool
  | .recordFinding key tool id c => key.plain && valid tool && valid id && valid c.file &&
      valid c.severity && valid c.body && int64Ok c.lineStart && int64Ok c.lineEnd
  | .putSummaryID key tool id => key.plain && valid tool && valid id
  | .putSection key tool body => key.plain && valid tool && valid body

lemma valid_hexKey (data : Bytes) : valid ((Sha1.hex (Sha1.sum data)).take 16) = true := by
  have hhex : ∀ b, Sha1.isHexDigit b = true → b < 128 := forall_byte (by decide +kernel)
  apply valid_of_ascii
  intro b hb
  exact hhex b (Sha1.isHexDigit_of_mem_hex (List.mem_of_mem_take hb))

lemma newRec_clean {key : PRKey} {tool id : Bytes} {c : InlineComment}
    (h : (Write.recordFinding key tool id c).persistable = true) : (newRec U tool id c).Clean := by
  simp only [Write.persistable,Bool.and_eq_true] at h
  obtain ⟨⟨⟨⟨⟨⟨⟨-,htool⟩,hid⟩,hfile⟩,hsev⟩,-⟩,hstart⟩,hend⟩ := h
  exact ⟨htool,hfile,hsev,valid_hexKey _,valid_hexKey _,valid_normalizeTitle U c.body,hid,hstart,hend,
    rfl⟩

/-- A store that can be written stays so. -/
lemma MemoryStore.Persistable.write {m : MemoryStore} (hm : m.Persistable) {w : Write}
    (hw : w.persistable = true) : (m.write U w).Persistable := by
  cases w with
  | recordFinding key tool id c =>
    have hclean := newRec_clean U hw
    simp only [Write.persistable,Bool.and_eq_true] at hw
    obtain ⟨⟨⟨⟨⟨⟨⟨hkey,-⟩,hid⟩,-⟩,-⟩,-⟩,-⟩,-⟩ := hw
    refine ⟨fun k rs hk => ?_,hm.summaries,hm.sections⟩
    have hold : ∀ r ∈ m.findings.get key, r.Clean := by
      intro r hr
      rw [GoMap.get] at hr
      cases hl : AList.lookup key m.findings with
      | none =>
        rw [hl] at hr
        exact absurd hr List.not_mem_nil
      | some rs => exact (hm.findings key rs hl).2 r (by simpa [hl] using hr)
    rcases GoMap.lookup_insert_cases hk with ⟨rfl,rfl⟩ | ⟨-,hk⟩
    · refine ⟨hkey,recordInto_forall hclean hold fun r _ hr => ?_⟩
      exact ⟨hr.tool,hr.file,hr.severity,hr.structuralKey,hr.fingerprint,hr.normalizedTitle,hid,
        hr.lineStart,hr.lineEnd,hr.line⟩
    · exact hm.findings k rs hk
  | putSummaryID key tool id =>
    simp only [Write.persistable,Bool.and_eq_true] at hw
    refine ⟨hm.findings,fun k v hk => ?_,hm.sections⟩
    rcases GoMap.lookup_insert_cases hk with ⟨rfl,rfl⟩ | ⟨-,hk⟩
    · exact ⟨hw.1.1,hw.1.2,hw.2⟩
    · exact hm.summaries k v hk
  | putSection key tool body =>
    simp only [Write.persistable,Bool.and_eq_true] at hw
    refine ⟨hm.findings,hm.summaries,fun k bucket hk => ?_⟩
    rcases GoMap.lookup_insert_cases hk with ⟨rfl,rfl⟩ | ⟨-,hk⟩
    · refine ⟨hw.1.1,fun t x hx => ?_⟩
      rcases GoMap.lookup_insert_cases hx with ⟨rfl,rfl⟩ | ⟨-,hx⟩
      · exact ⟨hw.1.2,hw.2⟩
      · rw [GoMap.get] at hx
        cases hl : AList.lookup k m.sections with
        | none =>
          rw [hl] at hx
          cases hx
        | some b => exact (hm.sections k b hl).2 t x (by simpa [hl] using hx)
    · exact hm.sections k bucket hk

namespace FileStore
variable {s : FileStore}

@[simp] lemma persist_mem : s.persist.mem = s.mem := by
  rw [persist]
  split <;> rfl

@[simp] lemma persist_path : s.persist.path = s.path := by
  rw [persist]
  split <;> rfl

/-- The memory behind a file goes through the writes like any other. -/
lemma write_mem (w : Write) : (s.write U w).mem = s.mem.write U w := by
  cases w with
  | recordFinding key tool id c =>
    rw [write,record]
    split
    · split <;> simp [MemoryStore.write]
    · simp [MemoryStore.write]
  | putSummaryID key tool id => exact persist_mem
  | putSection key tool body => exact persist_mem

/-- What is read back right after the file was written is what the store keeps. -/
lemma alike_persist (hpath : s.path ≠ []) (hm : s.mem.Persistable) :
    s.mem.Alike (load s.path s.persist.disk) := by
  have hdisk : s.persist.disk s.path = some (Json.print (stateJson (flatten s.mem))) := by
    rw [persist,if_neg hpath]
    simp [Disk.rename,Disk.write]
  rw [load,if_neg hpath,hdisk]
  simp only [hm.parse_file]
  exact hm.alike

/-- The file keeps up with the memory. -/
structure Synced (path : Bytes) (s : FileStore) : Prop where
  name : s.path = path
  persistable : s.mem.Persistable
  alike : s.mem.Alike (load path s.disk)

lemma Synced.persist {path : Bytes} (hpath : path ≠ []) (hp : s.path = path)
    (hm : s.mem.Persistable) : Synced path s.persist := by
  subst hp
  refine ⟨persist_path,?_,?_⟩
  · rw [persist_mem]
    exact hm
  · rw [persist_mem]
    exact alike_persist hpath hm

/-- Every write leaves the file in step with the memory, also the one that does not touch it. -/
lemma Synced.write {path : Bytes} (hpath : path ≠ []) (h : Synced path s) {w : Write}
    (hw : w.persistable = true) : Synced path (s.write U w) := by
  have hm := h.persistable.write U hw
  cases w with
  | putSummaryID key tool id => exact .persist hpath h.name hm
  | putSection key tool body => exact .persist hpath h.name hm
  | recordFinding key tool id c =>
    rw [FileStore.write,record]
    split
    · next existing hfind =>
      split
      · exact .persist hpath h.name hm
      · next hfill =>
        refine ⟨h.name,hm,?_⟩
        have hsame : recordInto (newRec U tool id c) (s.mem.findings.get key) =
            s.mem.findings.get key := by
          apply recordInto_of_find hfind
          by_contra hno
          rw [not_or,not_not] at hno
          exact hfill hno
        refine ⟨fun k => ?_,h.alike.summaries,h.alike.sections⟩
        rw [h.alike.findings,MemoryStore.record,hsame,GoMap.get_insert_eq]
        split
        · next hk => rw [hk]
        · rfl
    · exact .persist hpath h.name hm

/-- The store as its callers see it. -/
def store (s : FileStore) : Store := { mem := some s.mem }

/-- Its callers see an ordinary memory store. -/
lemma store_write (w : Write) : (s.write U w).store = Store.write U s.store w := by
  rw [store,write_mem,store,Store.write_ofMemory]

end FileStore

lemma persistable_empty : ({} : MemoryStore).Persistable where
  findings k rs hk := by cases hk
  summaries k id hk := by cases hk
  sections k bucket hk := by cases hk

/-- A store opened on the file of another answers as that one does: after any run of writes from a
path without a file. The titles in the lists are left out of the comparison. -/
theorem reopened_answers {path : Bytes} (hpath : path ≠ []) {disk : Disk} (hdisk : disk path = none)
    {writes : List Write} (hw : ∀ w ∈ writes, w.persistable = true) :
    let s := Machine.run (FileStore.write U) (FileStore.NewMemory path disk) writes
    let s' := FileStore.NewMemory path s.disk
    (∀ key tool c, s'.store.HasFinding U key tool c = s.store.HasFinding U key tool c) ∧
      (∀ key tool, s'.store.SummaryID key tool = s.store.SummaryID key tool) ∧
      (∀ key, s'.store.AllSections key = s.store.AllSections key) ∧
      ∀ key, (s'.store.ListPostedFindings key).map (List.map PostedFinding.untitled) =
        (s.store.ListPostedFindings key).map (List.map PostedFinding.untitled) := by
  have hload : load path disk = {} := by
    rw [load,if_neg hpath,hdisk]
  have hstart : FileStore.Synced path (FileStore.NewMemory path disk) := by
    rw [FileStore.NewMemory]
    refine ⟨rfl,?_,⟨fun _ => rfl,fun _ => rfl,fun _ _ => rfl⟩⟩
    rw [hload]
    exact persistable_empty
  intro s s'
  have hrun : FileStore.Synced path s :=
    Machine.run_invariant (FileStore.write U) (fun s w hin h => h.write U hpath (hw w hin)) hstart
  have halike : s.mem.Alike s'.mem := hrun.alike
  refine ⟨fun key tool c => congrArg Except.ok (halike.has U key tool c),
    fun key tool => congrArg Except.ok (halike.summaryID key tool),
    fun key => congrArg Except.ok (halike.allSections key),
    fun key => congrArg Except.ok (halike.list key)⟩

def cachePath : Bytes := lit "/var/cadoo/state.json"

def emptyDisk : Disk := fun _ => none

/-- A tool whose name has the separator in it, a record that learns its id late, a section. -/
def cachedWrites : List Write :=
  lateID ++ [.putSummaryID storeKey (lit "review|deep") (lit "note-1"),
    .putSection storeKey (lit "review|deep") (lit "One finding.")]

theorem cachedWrites_reopened :
    let s := Machine.run (FileStore.write Tables.plain)
      (FileStore.NewMemory cachePath emptyDisk) cachedWrites
    (FileStore.NewMemory cachePath s.disk).store.SummaryID storeKey (lit "review|deep") =
      .ok (lit "note-1") := by
  intro s
  have hpath : cachePath ≠ [] := by decide
  have hdisk : emptyDisk cachePath = none := rfl
  have hw : ∀ w ∈ cachedWrites, w.persistable = true := by decide
  obtain ⟨-,hid,-⟩ := reopened_answers Tables.plain hpath hdisk hw
  rw [hid]
  decide +kernel

end Runs

end Findings
