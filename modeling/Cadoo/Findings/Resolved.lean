import Mathlib.Data.List.Dedup
import Mathlib.Tactic.NormNum
import Cadoo.Findings.Backends
import Cadoo.Findings.Prior

/-! Threads that a user has resolved. Their records answer by another rule than open ones: by the line
they were anchored at or by a looser likeness of the titles, and no longer by key. -/
namespace Findings
open Bytes Utf8 Vcs

variable (U : Tables)

/-- The record of a thread that has been resolved at a line, 0 when the line is not known. -/
def FindingRec.resolve (r : FindingRec) (line : ℤ) : FindingRec :=
  { r with resolved := true, line := line }

/-- The comment brackets a known line. -/
def brackets (c : InlineComment) (line : ℤ) : Prop :=
  0 < line ∧ 0 < c.lineStart ∧ c.lineStart ≤ line ∧ line ≤ c.lineEnd

/-- The titles share three tokens in ten. -/
def looselyAlike (r : FindingRec) (c : InlineComment) : Prop :=
  ResolvedSuppressThreshold ≤ jaccard (titleTokens U c.body) (tokenize U r.normalizedTitle)

section Likeness

lemma tokenize_nodup (s : Bytes) : (tokenize U s).Nodup := by
  suffices h : ∀ (toks out : List Bytes), out.Nodup → (toks.foldl (fun out tok =>
      if tok.length < 2 ∨ tok ∈ stopwords ∨ tok ∈ out then out else out ++ [tok]) out).Nodup from
    h _ [] List.nodup_nil
  intro toks
  induction toks with
  | nil => exact fun out h => h
  | cons tok toks ih =>
    intro out h
    rw [List.foldl_cons]
    split
    · exact ih out h
    · next hnew =>
      push Not at hnew
      refine ih _ (List.nodup_append.mpr ⟨h,by simp,fun a ha b hb he => hnew.2.2 ?_⟩)
      rwa [← List.mem_singleton.mp hb,← he]

/-- A title is wholly like itself, unless it has no tokens: then it is like nothing. -/
lemma jaccard_self {a : List Bytes} (h : a.Nodup) : jaccard a a = if a = [] then 0 else 1 := by
  rw [jaccard]
  by_cases ha : a = []
  · simp [ha]
  · have hcount : a.countP (· ∈ a) = a.length := List.countP_eq_length.mpr (by simp)
    have hlen : (a.length : ℚ) ≠ 0 := by
      simpa using ha
    simp only [ha,or_self,if_false,hcount,List.dedup_eq_self.mpr h,add_sub_cancel_right]
    rw [if_neg (by exact_mod_cast hlen)]
    rw [Int.cast_natCast]
    exact div_self hlen

lemma looselyAlike_self {r : FindingRec} {c : InlineComment}
    (h : r.normalizedTitle = normalizeTitle U c.body) :
    looselyAlike U r c ↔ titleTokens U c.body ≠ [] := by
  rw [looselyAlike,h,← titleTokens,jaccard_self (a := titleTokens U c.body) (tokenize_nodup U _)]
  split
  · next hn =>
    rw [ResolvedSuppressThreshold]
    norm_num [hn]
  · next hn =>
    rw [ResolvedSuppressThreshold]
    norm_num [hn]

/-- Titles that are alike enough for an open record are so for a resolved one. -/
lemma looselyAlike_of_similar {r : FindingRec} {c : InlineComment}
    (h : SimilarTitleThreshold ≤ jaccard (titleTokens U c.body) (tokenize U r.normalizedTitle)) : looselyAlike U r c := by
  refine le_trans ?_ h
  rw [ResolvedSuppressThreshold,SimilarTitleThreshold]
  norm_num

/-- What an open record stands for by likeness it stands for once it is resolved: only a match by key can be lost. -/
lemma key_eq_or_looselyAlike {r : FindingRec} (hr : r.resolved = false) {tool : Bytes} {c : InlineComment}
    (h : r.matchesComment U tool c = true) : r.structuralKey = StructuralKey U tool c ∨ looselyAlike U r c := by
  rw [FindingRec.matchesComment] at h
  split at h
  · cases h
  · rw [Bool.or_eq_true,beq_iff_eq,decide_eq_true_eq] at h
    exact h.imp_right (looselyAlike_of_similar U)

end Likeness

/-- When the record of a resolved thread stands for a comment. -/
lemma matchesComment_resolved {r : FindingRec} (hr : r.resolved = true) {tool : Bytes}
    {c : InlineComment} (htool : r.tool = tool) (hfile : r.file = c.file)
    (hsev : r.severity = c.severity) :
    r.matchesComment U tool c = true ↔ brackets c r.line ∨ looselyAlike U r c := by
  rw [FindingRec.matchesComment,if_neg (by simp [htool,hfile,hsev]),hr]
  simp [brackets,looselyAlike,and_assoc]

lemma matchesComment_place {r : FindingRec} {tool : Bytes} {c : InlineComment}
    (h : r.matchesComment U tool c = true) :
    r.tool = tool ∧ r.file = c.file ∧ r.severity = c.severity := by
  by_contra hno
  rw [FindingRec.matchesComment,if_pos (by tauto)] at h
  exact Bool.false_ne_true h

lemma any_eraseIdx {α : Type} {l : List α} {i : ℕ} {a : α} (h : l[i]? = some a) (f : α → Bool) :
    l.any f = (f a || (l.eraseIdx i).any f) := by
  induction l generalizing i with
  | nil => simp at h
  | cons b l ih =>
    cases i with
    | zero =>
      obtain rfl : b = a := by simpa using h
      rfl
    | succ i =>
      rw [List.any_cons,ih (by simpa using h),List.eraseIdx_cons_succ,List.any_cons,Bool.or_left_comm]

/-- Another record of the pull request than the one at this place stands for the comment. -/
def MemoryStore.hasBesides (m : MemoryStore) (key : PRKey) (i : ℕ) (tool : Bytes)
    (c : InlineComment) : Bool :=
  ((m.findings.get key).eraseIdx i).any fun r => r.matchesComment U tool c

/-- The store once the record at this place of a pull request is resolved. -/
def MemoryStore.resolveAt (m : MemoryStore) (key : PRKey) (i : ℕ) (line : ℤ) : MemoryStore :=
  { m with findings := m.findings.insert key ((m.findings.get key).modify i (·.resolve line)) }

section Place
variable {m : MemoryStore} {key : PRKey} {i : ℕ} {r : FindingRec}
  (hr : (m.findings.get key)[i]? = some r) {tool : Bytes} {c : InlineComment}
include hr

lemma has_split : m.has U key tool c = true ↔
    m.hasBesides U key i tool c = true ∨ r.matchesComment U tool c = true := by
  rw [MemoryStore.has,any_eraseIdx hr,Bool.or_eq_true,or_comm]
  rfl

/-- A comment known by an open record stays known once the thread is resolved exactly when another
record knows it, the comment brackets the resolved line, or the titles are loosely alike; for the
comment of the record itself, wherever its lines moved, that means a title with a token. -/
theorem has_resolveAt_iff (hmatch : r.matchesComment U tool c = true) (line : ℤ) :
    ((m.resolveAt key i line).has U key tool c = true ↔
      m.hasBesides U key i tool c = true ∨ brackets c line ∨ looselyAlike U r c) ∧
    (r.normalizedTitle = normalizeTitle U c.body →
      (looselyAlike U r c ↔ titleTokens U c.body ≠ [])) := by
  obtain ⟨htool,hfile,hsev⟩ := matchesComment_place U hmatch
  refine ⟨?_,looselyAlike_self U⟩
  have hget : (m.resolveAt key i line).findings.get key =
      (m.findings.get key).modify i (·.resolve line) := GoMap.get_insert _ _ _
  have hr' : ((m.resolveAt key i line).findings.get key)[i]? = some (r.resolve line) := by
    rw [hget,List.getElem?_modify_eq,hr]
    rfl
  have hrest : (m.resolveAt key i line).hasBesides U key i tool c =
      m.hasBesides U key i tool c := by
    rw [MemoryStore.hasBesides,hget,List.eraseIdx_modify_of_eq]
    rfl
  rw [has_split U hr',hrest,matchesComment_resolved U (r := r.resolve line) rfl htool hfile hsev]
  rfl

end Place

section Bare

/-- A comment whose title has no word to compare. -/
def bareLetter : InlineComment where
  file := lit "cache.go"
  lineStart := 18
  lineEnd := 18
  body := lit "x"
  severity := SeverityNit

def postedBefore (c : InlineComment) : MemoryStore :=
  ({} : MemoryStore).record Tables.plain storeKey (lit "review") (lit "note-7") c

/-- Known while its thread is open, it comes again once the thread is resolved and its line moved. -/
theorem bareLetter_returns :
    let moved : InlineComment := { bareLetter with lineStart := 21, lineEnd := 21 }
    let m := postedBefore bareLetter
    m.has Tables.plain storeKey (lit "review") moved = true ∧
      (m.resolveAt storeKey 0 18).has Tables.plain storeKey (lit "review") moved = false ∧
      (m.resolveAt storeKey 0 0).has Tables.plain storeKey (lit "review") bareLetter = false := by
  decide +kernel

theorem unguardedMap_stays_away :
    let moved : InlineComment := { unguardedMap with lineStart := 21, lineEnd := 0 }
    ((postedBefore unguardedMap).resolveAt storeKey 0 18).has Tables.plain storeKey (lit "review")
      moved = true := by
  intro moved
  let r := newRec Tables.plain (lit "review") (lit "note-7") unguardedMap
  have hr : ((postedBefore unguardedMap).findings.get storeKey)[0]? = some r := by decide +kernel
  have hmatch : r.matchesComment Tables.plain (lit "review") moved = true := by decide +kernel
  have h := has_resolveAt_iff Tables.plain hr hmatch 18
  exact h.1.mpr (.inr (.inr ((h.2 (by decide)).mpr (by decide))))

end Bare

section Line
variable {m : MemoryStore} {key : PRKey} {i : ℕ} {r : FindingRec}

/-- A comment whose single line or range holds the line of a resolved thread is known exactly when its
end is written out up to that line, another record knows it, or the titles are loosely alike. -/
theorem has_on_resolved_line_iff (hr : (m.findings.get key)[i]? = some r) {tool : Bytes}
    {c : InlineComment} (hres : r.resolved = true) (hline : 0 < r.line)
    (hplace : r.tool = tool ∧ r.file = c.file ∧ r.severity = c.severity) (hstart : 0 < c.lineStart)
    (hrange : c.lineStart ≤ r.line ∧ r.line ≤ max c.lineStart c.lineEnd) :
    m.has U key tool c = true ↔
      r.line ≤ c.lineEnd ∨ m.hasBesides U key i tool c = true ∨ looselyAlike U r c := by
  obtain ⟨htool,hfile,hsev⟩ := hplace
  have hb : brackets c r.line ↔ r.line ≤ c.lineEnd :=
    ⟨fun h => h.2.2.2,fun h => ⟨hline,hstart,hrange.1,h⟩⟩
  rw [has_split U hr,matchesComment_resolved U hres htool hfile hsev,hb]
  tauto

/-- A thread at line 18 that was resolved. -/
def settledThread : PriorInline where
  tool := lit "review"
  file := lit "cache.go"
  severity := SeverityBlock
  structuralKey := []
  title := lit "Map is written without the lock"
  normalizedTitle := []
  externalID := lit "note-7"
  resolved := true
  line := 18
  endLine := 18

def otherWords : InlineComment where
  file := lit "cache.go"
  lineStart := 18
  lineEnd := 0
  body := lit "Race on concurrent access"
  severity := SeverityBlock

/-- The end 0 of a single line lets a reworded comment through that the end 18 holds back. -/
theorem otherWords_comes_again :
    (priorMemory Tables.plain storeKey { inline := [settledThread] }).has Tables.plain storeKey
      (lit "review") otherWords = false := by
  decide +kernel

theorem otherWords_held_back :
    (priorMemory Tables.plain storeKey { inline := [settledThread] }).has Tables.plain storeKey
      (lit "review") { otherWords with lineEnd := 18 } = true :=
  (has_on_resolved_line_iff Tables.plain (i := 0) (r := seedRec Tables.plain settledThread)
    (by decide) (by decide) (by decide) (by decide) (by decide) (by decide)).mpr
      (.inl (by decide))

end Line

end Findings
