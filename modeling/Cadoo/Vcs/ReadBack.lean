import Mathlib.Data.List.Nodup
import Cadoo.Vcs.GitHub

/-! The read-back of a pull request through a server that splits its two lists into pages. -/
namespace GitHub
open Bytes Vcs

/-- A list in pages: the first one, and the others with the cursors they follow. -/
structure Connection (α : Type) where
  first : List α
  rest : List (Bytes × List α) := []
  final : Bytes := []
  named : [] ∉ rest.map Prod.fst
  fresh : (rest.map Prod.fst).Nodup

namespace Connection
variable {α : Type} (c : Connection α)

def items : List α := c.first ++ c.rest.flatMap Prod.snd
def pages : ℕ := c.rest.length + 1

/-- Some nodes, with the cursor of what comes after them. -/
def pageOf (nodes : List α) (after : List (Bytes × List α)) : Page α :=
  match after with
  | [] => ⟨nodes,false,c.final⟩
  | (cursor,_) :: _ => ⟨nodes,true,cursor⟩

def find (cursor : Bytes) : List (Bytes × List α) → Page α
  | [] => ⟨[],false,c.final⟩
  | (k,nodes) :: after => if k = cursor then c.pageOf nodes after else find cursor after

/-- The server's answer to a cursor, the same one every time. -/
def serve (cursor : Bytes) : Page α :=
  if cursor = [] then c.pageOf c.first c.rest else c.find cursor c.rest

/-- The whole list on one page. -/
def onePage : Connection α := ⟨c.items,[],c.final,List.not_mem_nil,List.nodup_nil⟩

lemma items_onePage : c.onePage.items = c.items := List.append_nil _

variable {c}

/-- The nodes after a cursor are found, however many pages are in front of them. -/
lemma find_append {before after : List (Bytes × List α)} {cursor : Bytes} {nodes : List α}
    (h : cursor ∉ before.map Prod.fst) :
    c.find cursor (before ++ (cursor,nodes) :: after) = c.pageOf nodes after := by
  induction before with
  | nil => exact if_pos rfl
  | cons p before ih =>
    rw [List.map_cons,List.mem_cons,not_or] at h
    rw [List.cons_append,find,if_neg (Ne.symm h.1)]
    exact ih h.2

lemma serve_append {before after : List (Bytes × List α)} {cursor : Bytes} {nodes : List α}
    (h : c.rest = before ++ (cursor,nodes) :: after) : c.serve cursor = c.pageOf nodes after := by
  have hnamed := c.named
  have hfresh := c.fresh
  rw [h,List.map_append,List.map_cons] at hnamed hfresh
  have hne : cursor ≠ [] := by
    rintro rfl
    exact hnamed (List.mem_append_right _ List.mem_cons_self)
  have hbefore : cursor ∉ before.map Prod.fst := fun hin =>
    (List.nodup_append.mp hfresh).2.2 cursor hin cursor List.mem_cons_self rfl
  rw [serve,if_neg hne,h,find_append hbefore]

/-- From a page on the server hands out the nodes of this page and of all after it. -/
lemma lists_from {before after : List (Bytes × List α)} {cursor : Bytes} {nodes : List α}
    (hserve : c.serve cursor = c.pageOf nodes after) (hrest : c.rest = before ++ after) :
    Lists c.serve cursor (nodes ++ after.flatMap Prod.snd) (after.length+1) := by
  induction after generalizing before cursor nodes with
  | nil =>
    have hlast : Lists c.serve cursor _ 1 := Lists.last cursor (by rw [hserve]; rfl)
    rw [hserve] at hlast
    rw [List.flatMap_nil,List.append_nil]
    exact hlast
  | cons p after ih =>
    obtain ⟨next,nodes'⟩ := p
    have hnext : c.serve next = c.pageOf nodes' after := serve_append hrest
    have hne : next ≠ [] := by
      rintro rfl
      exact c.named (by rw [hrest]; simp)
    have hrest' : c.rest = (before ++ [(next,nodes')]) ++ after := by rw [hrest]; simp
    have htail := ih hnext hrest'
    have hmore : Lists c.serve cursor (_ ++ (nodes' ++ after.flatMap Prod.snd)) _ :=
      Lists.more cursor (by rw [hserve]; rfl) (by rw [hserve]; exact hne) (by rw [hserve]; exact htail)
    rw [hserve] at hmore
    exact hmore

theorem lists (c : Connection α) : Lists c.serve [] c.items c.pages :=
  lists_from (if_pos rfl) (List.nil_append c.rest).symm

end Connection

/-- The server's answer to one query, a page of either list. -/
def snapshots (comments : Connection IssueComment) (threads : Connection ReviewThread) (tc rc : Bytes) :
    Except Err Snapshot := .ok ⟨comments.serve tc,threads.serve rc⟩

lemma snapshots_eq (comments : Connection IssueComment) (threads : Connection ReviewThread) (tc rc : Bytes) :
    snapshots comments threads tc rc = .ok ⟨comments.serve tc,threads.serve rc⟩ := rfl

/-- The id and the reviewed commit of the first comment with the wrapper marker. -/
def overview (cs : List IssueComment) : Bytes × Bytes :=
  match cs.find? fun c => contains c.body SummaryWrapperBegin with
  | some c => (intDecimal c.databaseID,ParseReviewedSHA c.body)
  | none => ([],[])

lemma foldl_scanComment_overview (cs : List IssueComment) : cs.foldl scanComment {} =
    { summaryCommentID := (overview cs).1, lastReviewedSHA := (overview cs).2 } := by
  induction cs with
  | nil => rfl
  | cons c cs ih =>
    rw [List.foldl_cons,overview,List.find?_cons]
    cases hc : contains c.body SummaryWrapperBegin with
    | true =>
      have hfound : scanComment {} c =
          { summaryCommentID := intDecimal c.databaseID, lastReviewedSHA := ParseReviewedSHA c.body } := by
        rw [scanComment,hc,if_pos ⟨rfl,rfl⟩]
        rfl
      rw [hfound]
      exact foldl_scanComment_found cs (intDecimal_ne_nil c.databaseID)
    | false =>
      have hskip : scanComment {} c = {} := by
        rw [scanComment,hc,if_neg fun hn => absurd hn.2 Bool.false_ne_true]
      rw [hskip]
      exact ih

section Example

def headSHA : Bytes := lit "3f2a9c1d4b5e6f708192a3b4c5d6e7f8091a2b3c"

/-- Three pages of comments, the overview on the second of them, and one page of threads. -/
def threePages : Connection IssueComment where
  first := [⟨1,lit "Looks good."⟩]
  rest := [(lit "a",[⟨2,SummaryWrapperBegin ++ RenderReviewedSHA headSHA⟩]),(lit "b",[⟨3,SummaryWrapperBegin⟩])]
  named := by decide
  fresh := by decide

def noThreads : Connection ReviewThread where
  first := []
  named := by decide
  fresh := by decide

end Example

end GitHub
