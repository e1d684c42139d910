import Cadoo.Lib.GoInt
import Cadoo.Lib.Sorted
import Cadoo.Vcs.Types

/-! The diff packed into a token budget: files filtered by path, sorted by size and taken one by one, cut where
they are too large. How a glob matches a path is left open. -/
namespace ContextEngine
open Bytes GoInt Vcs

def EstimateTokens (s : Bytes) : ℕ := (s.length+3)/4

structure CompressOptions where
  maxTokens : ℤ
  perFileMax : ℤ
  includePaths : List Bytes := []
  excludePaths : List Bytes := []
  maxTokens_fits : Fits maxTokens := by decide
  perFileMax_fits : Fits perFileMax := by decide

structure Compressed where
  files : List FileChange
  truncated : List Bytes
  skipped : List Bytes
  estTokens : ℤ

variable (Match : Bytes → Bytes → Bool) (opts : CompressOptions)

/-- An exclude beats an include, and no include at all stands for every path. -/
def pathMatches (path : Bytes) (includes excludes : List Bytes) : Bool :=
  if excludes.any fun glob => Match glob path then false
  else if includes = [] then true
  else includes.any fun glob => Match glob path

def marker : Bytes := lit "\n... (truncated by Cadoo)"

def truncatePatch (patch : Bytes) (tokenCap : ℤ) : Bytes :=
  let charCap := wrap (tokenCap*4)
  if patch.length ≤ charCap then patch
  else if charCap ≤ marker.length then marker
  else trimRight (patch.take (charCap-marker.length).toNat) newline ++ marker

/-- The files that are neither binary nor filtered out. -/
def keep (f : FileChange) : Bool :=
  !f.isBinary && pathMatches Match f.path opts.includePaths opts.excludePaths

/-- Small files first. -/
def sortKept (files : List FileChange) : List FileChange :=
  (files.filter (keep Match opts)).insertionSort fun f g => EstimateTokens f.patch ≤ EstimateTokens g.patch

/-- The token budget, or the default one. -/
def startBudget : ℤ := if opts.maxTokens ≤ 0 then 50000 else opts.maxTokens

/-- What a file may take out of a budget. -/
def fileCap (budget : ℤ) : ℤ :=
  if opts.perFileMax = 0 ∨ budget < opts.perFileMax then budget else opts.perFileMax

/-- The variables of the loop that packs the files. -/
structure Packing where
  budget : ℤ
  packed : List FileChange := []
  truncated : List Bytes := []
  skipped : List Bytes := []

def packFile (s : Packing) (f : FileChange) : Packing :=
  if s.budget ≤ 0 then { s with skipped := s.skipped ++ [f.path] }
  else if (EstimateTokens f.patch : ℤ) ≤ fileCap opts s.budget then
    { s with packed := s.packed ++ [f], budget := s.budget - EstimateTokens f.patch }
  else
    let f2 := { f with patch := truncatePatch f.patch (fileCap opts s.budget) }
    { s with packed := s.packed ++ [f2], budget := s.budget - EstimateTokens f2.patch,
             truncated := s.truncated ++ [f.path] }

def Compress (files : List FileChange) : Compressed :=
  let skipped := (files.filter fun f => !keep Match opts f).map FileChange.path
  let final := (sortKept Match opts files).foldl (packFile opts) { budget := startBudget opts, skipped := skipped }
  ⟨final.packed,final.truncated,final.skipped,wrap (opts.maxTokens - final.budget)⟩

section Sizes

lemma length_trimRight_le (s : Bytes) (b : UInt8) : (trimRight s b).length ≤ s.length :=
  (List.rdropWhile_prefix _ _).length_le

lemma length_marker : marker.length = 25 := by decide

variable (patch : Bytes) {cap : ℤ}

/-- A cut at seven tokens or more leaves room for the marker. -/
lemma estimateTokens_truncatePatch_le (h : 7 ≤ cap) : (EstimateTokens (truncatePatch patch cap) : ℤ) ≤ cap := by
  have hle : wrap (cap*4) ≤ cap*4 := wrap_le (by unfold minInt; omega)
  have hlength : ((truncatePatch patch cap).length : ℤ) ≤ cap*4 := by
    rw [truncatePatch,length_marker]
    split
    · omega
    split
    · rw [length_marker]
      omega
    · have htrim := length_trimRight_le (patch.take (wrap (cap*4) - (25 : ℕ)).toNat) newline
      have htake := List.length_take_le (wrap (cap*4) - (25 : ℕ)).toNat patch
      rw [List.length_append,length_marker]
      omega
  rw [EstimateTokens]
  omega

variable {patch}

/-- A cut below seven tokens leaves the marker alone, which is larger. -/
lemma truncatePatch_small (h : cap < 7) (hpos : 0 ≤ cap) (hlarge : cap < EstimateTokens patch) :
    truncatePatch patch cap = marker := by
  have hwrap : wrap (cap*4) = cap*4 := wrap_of_fits (by unfold minInt; omega) (by unfold maxInt; omega)
  rw [EstimateTokens] at hlarge
  rw [truncatePatch,hwrap,length_marker,if_neg (by omega),if_pos (by omega)]

end Sizes

end ContextEngine
