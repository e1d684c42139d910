import Cadoo.Lib.Utf8

/-! The markers the release documents are found again by. -/
namespace ReleaseDocs
open Bytes Utf8

def ReleaseNotesBegin : Bytes := lit "<!-- cadoo:release-notes:begin -->"
def ReleaseNotesEnd : Bytes := lit "<!-- cadoo:release-notes:end -->"

def ChangelogMarker (toRef : Bytes) : Bytes := lit "<!-- cadoo:changelog:" ++ toRef ++ lit " -->"
def ChangelogBranch (toRef : Bytes) : Bytes := lit "cadoo/changelog/" ++ toRef

/-- The white space trimmed next to the managed block. -/
def blank (b : UInt8) : Bool := b == space || b == newline || b == 9

def joinReleaseBody (userText sec tail : Bytes) : Bytes :=
  let tail := tail.dropWhile blank
  (if userText ≠ [] then userText ++ lit "\n\n" else []) ++
    ReleaseNotesBegin ++ [newline] ++ sec ++ [newline] ++ ReleaseNotesEnd ++
    (if tail ≠ [] then lit "\n\n" ++ tail else [])

/-- The first begin marker and the first end marker, when the end stands after the begin. -/
def SpliceReleaseBody (original sec : Bytes) : Bytes :=
  let sec := trimSpace sec
  match cut original ReleaseNotesBegin,cut original ReleaseNotesEnd with
  | some (head,_),some (upToEnd,tail) =>
    if head.length < upToEnd.length then joinReleaseBody (head.rdropWhile blank) sec tail
    else joinReleaseBody (original.rdropWhile blank) sec []
  | _,_ => joinReleaseBody (original.rdropWhile blank) sec []

end ReleaseDocs
