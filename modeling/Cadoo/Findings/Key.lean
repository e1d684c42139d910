import Mathlib.Algebra.Order.Field.Rat
import Cadoo.Lib.Sha1
import Cadoo.Lib.Utf8
import Cadoo.Vcs.Types

/-! The identity of a finding: its fingerprint, its structural key and the tokens of its title. -/
namespace Findings
open Bytes Utf8 Vcs

variable (U : Tables)

def nul : UInt8 := 0

/-- What a fingerprint hashes, NUL between the fields. -/
def fingerprintInput (tool : Bytes) (c : InlineComment) : Bytes :=
  toLower U tool ++ nul :: toLower U c.file ++ nul :: intDecimal c.lineStart ++
    nul :: intDecimal c.lineEnd ++ nul :: toLower U c.severity ++ nul :: c.body

def Fingerprint (tool : Bytes) (c : InlineComment) : Bytes :=
  (Sha1.hex (Sha1.sum (fingerprintInput U tool c))).take 16

def firstLine (s : Bytes) : Bytes :=
  if newline ∈ s then s.takeWhile (· ≠ newline) else if s.length > 200 then s.take 200 else s

/-- Bullets, a bold wrapper and a leading `[tag]` taken off a trimmed line. -/
def stripDecoration (line : Bytes) : Bytes :=
  let line := trimPrefix line (lit "- ")
  let line := trimPrefix line (lit "* ")
  let line := trimPrefix line (lit "**")
  let line := trimSuffix line (lit "**")
  if hasPrefix line (lit "[") then
    match cut line (lit "]") with
    | some (_,rest) => trimSpace rest
    | none => line
  else line

def budget : ℕ := 200

/-- The loop over the lines of a body: what has been collected, and whether a fence is open. -/
def titleLoop : List Bytes → Bytes → Bool → Bytes
  | [], sb, _ => sb
  | raw :: rest, sb, inFence =>
    let line := trimSpace raw
    if hasPrefix line (lit "```") then titleLoop rest sb (!inFence)
    else if inFence || line == [] then titleLoop rest sb inFence
    else
      let line := stripDecoration line
      if line = [] then titleLoop rest sb inFence
      else
        let sb := (if sb.length > 0 then sb ++ [space] else sb) ++ line
        if sb.length ≥ budget then sb else titleLoop rest sb inFence

def normalizeTitle (body : Bytes) : Bytes :=
  let s := titleLoop (body.splitOn newline) [] false
  toLower U (if s.length > budget then s.take budget else s)

/-- What a structural key hashes. -/
def structuralInput (tool : Bytes) (c : InlineComment) : Bytes :=
  toLower U tool ++ nul :: toLower U c.file ++ nul :: toLower U c.severity ++
    nul :: normalizeTitle U c.body

def StructuralKey (tool : Bytes) (c : InlineComment) : Bytes :=
  (Sha1.hex (Sha1.sum (structuralInput U tool c))).take 16

section File
variable (tool : Bytes) (c : InlineComment) (f g : Bytes)

/-- Of the file the keys see all but the case of its letters. -/
lemma structuralInput_file : structuralInput U tool { c with file := f } = structuralInput U tool { c with file := g } ↔
    toLower U f = toLower U g := by
  simp [structuralInput]

lemma fingerprintInput_file :
    fingerprintInput U tool { c with file := f } = fingerprintInput U tool { c with file := g } ↔
      toLower U f = toLower U g := by
  simp [fingerprintInput]

variable {f g}

lemma StructuralKey_file (h : toLower U f = toLower U g) :
    StructuralKey U tool { c with file := f } = StructuralKey U tool { c with file := g } := by
  rw [StructuralKey,(structuralInput_file U tool c f g).mpr h,StructuralKey]

lemma Fingerprint_file (h : toLower U f = toLower U g) :
    Fingerprint U tool { c with file := f } = Fingerprint U tool { c with file := g } := by
  rw [Fingerprint,(fingerprintInput_file U tool c f g).mpr h,Fingerprint]

end File

def stopwords : List Bytes :=
  ["a","an","and","are","as","at","be","by","for","from","has","have","in","is","it","of","on","or",
    "that","the","this","to","was","with"].map lit

/-- The distinct words of a text, short ones and stopwords left out. -/
def tokenize (s : Bytes) : List Bytes :=
  (fieldsFunc (fun r => !isLetter U r && !isDigit U r) s).foldl
    (fun out tok => if tok.length < 2 ∨ tok ∈ stopwords ∨ tok ∈ out then out else out ++ [tok]) []

def titleTokens (body : Bytes) : List Bytes := tokenize U (normalizeTitle U body)

/-- |A∩B| / |A∪B|, and 0 when a side is empty. -/
def jaccard (a b : List Bytes) : ℚ :=
  if a = [] ∨ b = [] then 0
  else
    let inter := b.countP (· ∈ a)
    let union : ℤ := a.dedup.length + b.dedup.length - inter
    if union = 0 then 0 else inter / union

def SimilarTitleThreshold : ℚ := 1/2
def ResolvedSuppressThreshold : ℚ := 3/10

@[simp] lemma StructuralKey_length (tool : Bytes) (c : InlineComment) :
    (StructuralKey U tool c).length = 16 := by
  simp [StructuralKey]

lemma StructuralKey_ne_nil (tool : Bytes) (c : InlineComment) : StructuralKey U tool c ≠ [] := by
  intro h
  have := StructuralKey_length U tool c
  simp [h] at this

lemma isHexDigit_of_mem_StructuralKey {tool : Bytes} {c : InlineComment} {b : UInt8}
    (h : b ∈ StructuralKey U tool c) : Sha1.isHexDigit b = true :=
  Sha1.isHexDigit_of_mem_hex (List.mem_of_mem_take h)

section Title
variable {x : UInt8}

lemma mem_stripDecoration {line : Bytes} (h : x ∈ stripDecoration line) : x ∈ line := by
  have hwrap : ∀ y, y ∈ trimSuffix (trimPrefix (trimPrefix (trimPrefix line (lit "- ")) (lit "* "))
      (lit "**")) (lit "**") → y ∈ line :=
    fun y hy => mem_trimPrefix (mem_trimPrefix (mem_trimPrefix (mem_trimSuffix hy)))
  unfold stripDecoration at h
  dsimp only at h
  split at h
  · split at h
    · next hc => exact hwrap x (mem_cut hc (mem_trimSpace h))
    · exact hwrap x h
  · exact hwrap x h

/-- A title consists of bytes of the body and of spaces. -/
lemma mem_titleLoop {lines : List Bytes} {sb : Bytes} {inFence : Bool}
    (h : x ∈ titleLoop lines sb inFence) : x ∈ sb ∨ x = space ∨ ∃ l ∈ lines, x ∈ l := by
  induction lines generalizing sb inFence with
  | nil => exact .inl h
  | cons raw rest ih =>
    have hrest : ∀ {sb' : Bytes} {f : Bool}, (∀ y ∈ sb', y ∈ sb ∨ y = space ∨ y ∈ raw) →
        x ∈ titleLoop rest sb' f → x ∈ sb ∨ x = space ∨ ∃ l ∈ raw :: rest, x ∈ l := by
      intro sb' f hsb' hx
      rcases ih hx with hx | rfl | ⟨l,hl,hx⟩
      · rcases hsb' x hx with hx | rfl | hx
        · exact .inl hx
        · exact .inr (.inl rfl)
        · exact .inr (.inr ⟨raw,by simp,hx⟩)
      · exact .inr (.inl rfl)
      · exact .inr (.inr ⟨l,by simp [hl],hx⟩)
    have hadd : ∀ y ∈ (if sb.length > 0 then sb ++ [space] else sb) ++
        stripDecoration (trimSpace raw), y ∈ sb ∨ y = space ∨ y ∈ raw := by
      intro y hy
      rcases List.mem_append.mp hy with hy | hy
      · split at hy
        · rcases List.mem_append.mp hy with hy | hy
          · exact .inl hy
          · exact .inr (.inl (List.mem_singleton.mp hy))
        · exact .inl hy
      · exact .inr (.inr (mem_trimSpace (mem_stripDecoration hy)))
    rw [titleLoop] at h
    dsimp only at h
    generalize (if sb.length > 0 then sb ++ [space] else sb) ++ stripDecoration (trimSpace raw) = sb'
      at hadd h
    split at h
    · exact hrest (fun y hy => .inl hy) h
    · split at h
      · exact hrest (fun y hy => .inl hy) h
      · split at h
        · exact hrest (fun y hy => .inl hy) h
        · split at h
          · rcases hadd x h with h | rfl | h
            · exact .inl h
            · exact .inr (.inl rfl)
            · exact .inr (.inr ⟨raw,by simp,h⟩)
          · exact hrest hadd h

lemma nul_notMem_normalizeTitle {body : Bytes} (h : nul ∉ body) : nul ∉ normalizeTitle U body := by
  have hloop : nul ∉ titleLoop (body.splitOn newline) [] false := by
    intro hm
    rcases mem_titleLoop hm with hm | hm | ⟨l,hl,hm⟩
    · simp at hm
    · exact absurd hm (by decide)
    · exact h (mem_of_mem_splitOn hl hm)
  apply zero_notMem_toLower
  split
  · exact fun hm => hloop (List.mem_of_mem_take hm)
  · exact hloop

@[simp] lemma valid_normalizeTitle (body : Bytes) : valid (normalizeTitle U body) = true :=
  valid_toLower U _

lemma nul_notMem_firstLine {body : Bytes} (h : nul ∉ body) : nul ∉ firstLine body := by
  unfold firstLine
  split
  · exact fun hm => h ((List.takeWhile_sublist _).subset hm)
  · split
    · exact fun hm => h (List.mem_of_mem_take hm)
    · exact h

end Title

end Findings
