import Cadoo.Findings.Postgres

/-! Whether the database takes the texts that are stored of a comment: they must be valid UTF-8, and the title
is cut after 200 bytes. -/
namespace Findings
open Bytes Utf8 Vcs

/-- A title is a prefix of its body, up to the first line break or to 200 bytes. -/
lemma valid_firstLine {body : Bytes} (h : valid body = true) : valid (firstLine body) = true ↔
    newline ∈ body ∨ ∀ b, body[200]? = some b → b.IsUTF8FirstByte := by
  rw [firstLine]
  split
  · next hmem =>
    refine iff_of_true ?_ (.inl hmem)
    obtain ⟨line,rest,rfl,hline⟩ := List.eq_append_cons_of_mem hmem
    have hall : ∀ b ∈ line, decide (b ≠ newline) = true := fun b hb =>
      decide_eq_true fun heq => hline (heq ▸ hb)
    rw [List.takeWhile_append_of_pos hall,List.takeWhile_cons_of_neg (by simp),List.append_nil]
    have hcut := (valid_take h line.length).mpr fun b hb => by
      rw [List.getElem?_append_right (Nat.le_refl _),Nat.sub_self] at hb
      obtain rfl := Option.some.inj hb
      decide
    rwa [List.take_left] at hcut
  · next hmem =>
    rw [or_iff_right hmem]
    split
    · exact valid_take h 200
    · next hshort =>
      rw [List.getElem?_eq_none (by omega)]
      exact iff_of_true h fun b hb => nomatch hb

/-- What is stored of a comment is valid text just when its title is not cut within a rune. -/
theorem stored_texts_valid_iff (U : Tables) {body : Bytes} (h : valid body = true) :
    (valid (firstLine body) = true ∧ valid (normalizeTitle U body) = true) ↔
      newline ∈ body ∨ ∀ b, body[200]? = some b → b.IsUTF8FirstByte := by
  rw [valid_normalizeTitle,and_iff_left rfl]
  exact valid_firstLine h

section Example

/-- A comment without a line break, whose last letter takes two bytes. -/
def longComment (n : ℕ) : Bytes := List.replicate n 97 ++ lit "é"

def commentOf (body : Bytes) : InlineComment := ⟨lit "main.go",3,3,body,lit "warn"⟩

/-- The letter cut in half: the text is not stored, and the insert fails. -/
theorem halved_letter_rejected :
    let body := longComment 199
    let db : Database := { collate := fun a b => decide (a ≤ b) }
    valid body = true ∧ valid (firstLine body) = false ∧
      db.recordFinding Tables.plain ⟨lit "github",lit "acme/shop",7⟩ (lit "review") [] (commentOf body) =
        .error .recordFinding := by
  refine ⟨by decide +kernel,by decide +kernel,if_neg ?_⟩
  decide +kernel

theorem whole_letter_valid :
    valid (firstLine (longComment 200)) = true ∧ valid (normalizeTitle Tables.plain (longComment 200)) = true :=
  (stored_texts_valid_iff Tables.plain (by decide +kernel)).mpr (.inr (by decide +kernel))

end Example

end Findings
