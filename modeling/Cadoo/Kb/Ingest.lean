import Cadoo.Kb.StoreRuns

/-! A call of `IngestDocument` that is alone and whose statements get through. It is the database that may still refuse
a chunk. -/
namespace Kb
open Bytes Utf8
open Findings (textOk int4Ok nul)

section Bytes
variable {Q : UInt8 → Prop} {size overlap fuel : ℕ}

/-- Every byte of some texts is such. -/
def AllBytes (Q : UInt8 → Prop) (l : List Bytes) : Prop := ∀ c ∈ l, ∀ b ∈ c, Q b

lemma windowsFrom_bytes {s : Bytes} {step i : ℕ} {windows : List Bytes} (hs : ∀ b ∈ s, Q b)
    (h : windowsFrom s size step fuel i = some windows) : AllBytes Q windows := by
  induction fuel generalizing i windows with
  | zero => cases h
  | succ fuel ih =>
    have hwindow (stop : ℕ) : ∀ b ∈ (s.take stop).drop i, Q b := fun b hb =>
      hs b (List.mem_of_mem_take (List.mem_of_mem_drop hb))
    rw [windowsFrom] at h
    dsimp only at h
    split at h
    · cases h
      exact List.forall_mem_nil _
    · generalize (if s.length < i+size then s.length else i+size) = stop at h
      split at h
      · obtain rfl := Option.some.inj h
        exact List.forall_mem_singleton.mpr (hwindow _)
      · obtain ⟨rest,hrest,rfl⟩ := Option.map_eq_some_iff.mp h
        exact List.forall_mem_cons.mpr ⟨hwindow _,ih hrest⟩

lemma tailString_bytes {s : Bytes} (n : ℕ) (hs : ∀ b ∈ s, Q b) : ∀ b ∈ tailString s n, Q b := fun b hb =>
  hs b ((tailString_suffix s n).subset hb)

/-- Chunks hold bytes of the pieces, and line breaks. -/
lemma chunkEach_bytes (hline : Q newline) {pieces out chunks : List Bytes} {cur : Bytes} (hpieces : AllBytes Q pieces)
    (hout : AllBytes Q out) (hcur : ∀ b ∈ cur, Q b) (h : chunkEach fuel size overlap pieces out cur = some chunks) :
    AllBytes Q chunks := by
  have flushed {cur : Bytes} (hcur : ∀ b ∈ cur, Q b) {out : List Bytes} (hout : AllBytes Q out) :
      AllBytes Q (out ++ [cur]) := List.forall_mem_append.mpr ⟨hout,List.forall_mem_singleton.mpr hcur⟩
  induction pieces generalizing out cur with
  | nil =>
    rw [chunkEach] at h
    cases h
    split
    · exact flushed hcur hout
    · exact hout
  | cons p pieces ih =>
    have hrest : AllBytes Q pieces := fun q hq => hpieces q (List.mem_cons_of_mem _ hq)
    have hp : ∀ b ∈ trimSpace p, Q b := fun b hb =>
      hpieces p List.mem_cons_self b ((trimSpace_isInfix p).subset hb)
    rw [chunkEach] at h
    dsimp only at h
    split at h
    · exact ih hrest hout hcur h
    · split at h
      · split at h
        · cases h
        · next windows hwindows =>
          refine ih hrest (List.forall_mem_append.mpr ⟨?_,windowsFrom_bytes hp hwindows⟩) (List.forall_mem_nil _) h
          split
          · exact flushed hcur hout
          · exact hout
      · have hgap : ∀ b ∈ lit "\n\n", Q b := by
          intro b hb
          have heq : b ∈ [newline,newline] := hb
          rw [List.mem_pair,or_self] at heq
          exact heq ▸ hline
        have hkept : ∀ b ∈ (if size < cur.length+2+(trimSpace p).length ∧ cur ≠ [] then tailString cur overlap else cur), Q b := by
          split
          · exact tailString_bytes overlap hcur
          · exact hcur
        generalize (if size < cur.length+2+(trimSpace p).length ∧ cur ≠ [] then tailString cur overlap else cur) = kept
          at h hkept
        refine ih hrest ?_ ?_ h
        · split
          · exact flushed hcur hout
          · exact hout
        · refine List.forall_mem_append.mpr ⟨?_,hp⟩
          split
          · exact List.forall_mem_append.mpr ⟨hkept,hgap⟩
          · exact hkept

/-- A chunk has no NUL unless the body has one. -/
lemma nul_notMem_chunks {body : Bytes} (h : nul ∉ body) : ∀ c ∈ chunksOf body, nul ∉ c := by
  have hbody : ∀ b ∈ trimSpace body, b ≠ nul := fun b hb heq => h (heq ▸ (trimSpace_isInfix body).subset hb)
  suffices hall : AllBytes (· ≠ nul) (chunksOf body) from fun c hc hin => hall c hc nul hin rfl
  rw [chunksOf]
  cases hchunk : Chunk (body.length+1) body DefaultChunkSize DefaultOverlap with
  | none => exact List.forall_mem_nil _
  | some chunks =>
    rw [Chunk] at hchunk
    rw [Option.getD_some]
    split at hchunk
    · obtain rfl := Option.some.inj hchunk
      split
      · exact List.forall_mem_nil _
      · exact List.forall_mem_singleton.mpr hbody
    · have hline : newline ≠ nul := by decide
      refine chunkEach_bytes hline (fun p hp b hb => hbody b ?_) (List.forall_mem_nil _) (List.forall_mem_nil _) hchunk
      exact (infix_of_mem_splitN hp).subset hb

end Bytes

/-- The chunks of a body whose chunks may all be stored: none is cut within a rune. -/
theorem textOk_chunks_iff {body : Bytes} (h : textOk body = true) : (∀ c ∈ chunksOf body, textOk c = true) ↔
    CutAtRunes DefaultChunkSize 80 (trimSpace body) := by
  rw [textOk,Bool.and_eq_true,decide_eq_true_eq] at h
  obtain ⟨chunks,hrun,hvalid⟩ := Chunk_valid_iff h.1 DefaultChunkSize DefaultOverlap
  have hchunks : chunksOf body = chunks := by
    rw [chunksOf,hrun _ (Nat.lt_succ_self _)]
    rfl
  have hnul := nul_notMem_chunks h.2
  refine Iff.trans ?_ hvalid
  rw [hchunks] at hnul ⊢
  refine forall₂_congr fun c hc => ?_
  rw [textOk,Bool.and_eq_true,decide_eq_true_eq]
  exact and_iff_left (hnul c hc)

variable {V : Type} [DecidableEq V] (vectorOk : V → Bool) (embedder : List Bytes → Option (List V))

/-- What a call sends when everything gets through. -/
def Phase.next : Phase V → Statement V
  | .called => .begin true
  | .begun => .upsertDoc true
  | .working _ .upserted => .deletePrior true
  | .working _ (.deleted _) => .embed embedder
  | .working _ (.inserting _ _ (_ :: _)) => .insertChunk true
  | .working _ (.inserting _ _ []) => .commit true true
  | .done _ => .begin true

/-- A call sends its statements for as long as it can. -/
def Call.finish : ℕ → Call V → Tables V → ℕ → Phase V × Tables V
  | 0,c,t,_ => (c.phase,t)
  | fuel+1,c,t,n =>
    match c.send vectorOk t false n (c.phase.next embedder) with
    | none => (c.phase,t)
    | some (phase,t',n') => Call.finish fuel { c with phase := phase } t' n'

section Finish
variable {vectorOk embedder} {key : DocumentKey} {body : Bytes} {t : Tables V} {n fuel : ℕ}

lemma finish_done {result : Except IngestError ℕ} (fuel : ℕ) :
    Call.finish vectorOk embedder fuel ⟨key,body,.done result⟩ t n = (.done result,t) := by
  cases fuel with
  | zero => rfl
  | succ fuel => rfl

variable {id : ℕ} {gone written : List (ChunkRow V)}

/-- The next chunk is let in when its text is: no other row has its place. -/
lemma admits_iff (hgone : gone = t.chunksOfDocument id) (hwritten : written.map ChunkRow.ordinal = List.range written.length)
    (hrepo : textOk key.repoKey = true) (hcount : written.length < 2147483648) (text : Bytes) {vector : V}
    (hvector : vectorOk vector = true) :
    t.admits vectorOk gone written ⟨n,id,key.repoKey,written.length,text,vector⟩ = true ↔ textOk text = true := by
  have hint : int4Ok (written.length : ℤ) = true := by
    rw [int4Ok,Bool.and_eq_true,decide_eq_true_eq,decide_eq_true_eq]
    omega
  have hplace : (t.chunks.filter (· ∉ gone) ++ written).all
      (fun q => !(decide (q.documentID = id) && decide (q.ordinal = written.length))) = true := by
    rw [List.all_eq_true]
    intro q hq
    rw [Bool.not_eq_true',Bool.and_eq_false_iff,decide_eq_false_iff_not,decide_eq_false_iff_not]
    obtain hq | hq := List.mem_append.mp hq
    · rw [List.mem_filter,decide_eq_true_eq,hgone,Tables.chunksOfDocument,List.mem_filter,decide_eq_true_eq] at hq
      exact .inl fun heq => hq.2 ⟨hq.1,heq⟩
    · have hordinal := List.mem_map_of_mem (f := ChunkRow.ordinal) hq
      rw [hwritten,List.mem_range] at hordinal
      exact .inr (Nat.ne_of_lt hordinal)
  rw [Tables.admits,hplace,hint,hrepo,hvector]
  simp only [Bool.and_true]

/-- How the inserting of chunks ends: with the commit, or at a text that the database refuses. -/
def Inserted (t : Tables V) (doc : DocumentRow) (gone written : List (ChunkRow V)) (texts : List Bytes)
    (r : Phase V × Tables V) : Prop :=
  ((∀ c ∈ texts, textOk c = true) ∧ r.1 = .done (.ok doc.id) ∧ ∃ rows, r.2 = t.commit doc gone (written ++ rows) ∧
    rows.map ChunkRow.text = texts ∧ ∀ q ∈ rows, q.documentID = doc.id) ∨
  (∃ j c, texts[j]? = some c ∧ textOk c = false ∧ r.1 = .done (.error (.insertChunk (written.length+j)))) ∧ r.2 = t

/-- The chunks are inserted one by one, up to the first that is refused. -/
lemma finish_inserting (hgone : gone = t.chunksOfDocument id) (hrepo : textOk key.repoKey = true) {todo : List (Bytes × V)}
    (hvectors : ∀ w ∈ todo, vectorOk w.2 = true) (hwritten : written.map ChunkRow.ordinal = List.range written.length)
    (hcount : written.length+todo.length ≤ 2147483648) (hfuel : todo.length < fuel) :
    Inserted t ⟨id,key,body⟩ gone written (todo.map Prod.fst)
      (Call.finish vectorOk embedder fuel ⟨key,body,.working id (.inserting gone written todo)⟩ t n) := by
  obtain ⟨fuel,rfl⟩ := Nat.exists_eq_add_of_le' (Nat.zero_lt_of_lt hfuel)
  induction todo generalizing fuel written n with
  | nil =>
    have hend : Call.finish vectorOk embedder (fuel+1) ⟨key,body,.working id (.inserting gone written [])⟩ t n =
        (.done (.ok id),t.commit ⟨id,key,body⟩ gone written) := finish_done fuel
    rw [hend]
    exact .inl ⟨List.forall_mem_nil _,rfl,[],by rw [List.append_nil],rfl,List.forall_mem_nil _⟩
  | cons w todo ih =>
    obtain ⟨text,vector⟩ := w
    obtain ⟨hvector,hvectors⟩ := List.forall_mem_cons.mp hvectors
    rw [List.length_cons] at hcount hfuel
    have hadmits := admits_iff (n := n) hgone hwritten hrepo (by omega) text hvector
    have hsend : (⟨key,body,.working id (.inserting gone written ((text,vector) :: todo))⟩ : Call V).send vectorOk t false n
        (.insertChunk true) = if t.admits vectorOk gone written ⟨n,id,key.repoKey,written.length,text,vector⟩ then
          some (.working id (.inserting gone (written ++ [⟨n,id,key.repoKey,written.length,text,vector⟩]) todo),t,n+1)
        else some (.done (.error (.insertChunk written.length)),t,n+1) := rfl
    rw [Call.finish,Phase.next,hsend]
    by_cases htext : textOk text = true
    · rw [if_pos (hadmits.mpr htext)]
      obtain ⟨fuel,rfl⟩ := Nat.exists_eq_add_of_le' (show 1 ≤ fuel by omega)
      have hordinals : (written ++ [(⟨n,id,key.repoKey,written.length,text,vector⟩ : ChunkRow V)]).map ChunkRow.ordinal =
          List.range (written ++ [(⟨n,id,key.repoKey,written.length,text,vector⟩ : ChunkRow V)]).length := by
        rw [List.map_append,hwritten,List.length_append,List.length_singleton,List.range_succ]
        rfl
      have hrest := ih (n := n+1) hvectors hordinals (by rw [List.length_append,List.length_singleton]; omega) fuel (by omega)
      obtain ⟨hall,hphase,rows,htables,htexts,hdocs⟩ | ⟨⟨j,c,hc,hbad,hphase⟩,hkept⟩ := hrest
      · refine .inl ⟨List.forall_mem_cons.mpr ⟨htext,hall⟩,hphase,⟨n,id,key.repoKey,written.length,text,vector⟩ :: rows,?_,
          congrArg (text :: ·) htexts,List.forall_mem_cons.mpr ⟨rfl,hdocs⟩⟩
        rw [List.append_assoc,List.singleton_append] at htables
        exact htables
      · refine .inr ⟨⟨j+1,c,hc,hbad,?_⟩,hkept⟩
        rw [hphase,List.length_append,List.length_singleton,Nat.add_assoc,Nat.add_comm 1]
    · rw [if_neg (mt hadmits.mp htext)]
      dsimp only
      rw [finish_done]
      exact .inr ⟨⟨0,text,rfl,Bool.eq_false_iff.mpr htext,rfl⟩,rfl⟩

/-- A document whose chunks get vectors is stored, all its chunks in place of the older ones, just when no chunk is cut
within a rune; else the call fails at a chunk whose text is no valid one, and what was there stays. -/
theorem IngestDocument_ends (t : Tables V) (n : ℕ) (hkey : key.ok = true) (hbody : textOk body = true)
    (hchunks : chunksOf body ≠ []) (hcount : (chunksOf body).length ≤ 2147483648) {vectors : List V}
    (hembed : embedder (chunksOf body) = some vectors) (hlen : vectors.length = (chunksOf body).length)
    (hvectors : ∀ v ∈ vectors, vectorOk v = true) (hfuel : (chunksOf body).length+5 ≤ fuel) :
    let r := Call.finish vectorOk embedder fuel ⟨key,body,.called⟩ t n
    let id := t.idOf key n
    (CutAtRunes DefaultChunkSize 80 (trimSpace body) → r.1 = .done (.ok id) ∧
      r.2.documents = t.putDocument ⟨id,key,body⟩ ∧ (r.2.chunksOfDocument id).map ChunkRow.text = chunksOf body ∧
      ∀ other, other ≠ id → r.2.chunksOfDocument other = t.chunksOfDocument other) ∧
    (¬ CutAtRunes DefaultChunkSize 80 (trimSpace body) → (∃ j c, (chunksOf body)[j]? = some c ∧ textOk c = false ∧
      r.1 = .done (.error (.insertChunk j))) ∧ r.2 = t) := by
  obtain ⟨fuel,rfl⟩ := Nat.exists_eq_add_of_le' (show 4 ≤ fuel by omega)
  have htexts : ((chunksOf body).zip vectors).map Prod.fst = chunksOf body := List.map_fst_zip (Nat.le_of_eq hlen.symm)
  have hrepo : textOk key.repoKey = true := by
    rw [DocumentKey.ok,Bool.and_eq_true,Bool.and_eq_true] at hkey
    exact hkey.1.1
  -- the four statements before the chunks
  have hbegin : (⟨key,body,.called⟩ : Call V).send vectorOk t false n (.begin true) = some (.begun,t,n) := by
    unfold Call.send
    dsimp only
    rw [if_neg hchunks,if_pos rfl]
  have hupsert : (⟨key,body,.begun⟩ : Call V).send vectorOk t false n (.upsertDoc true) =
      some (.working (t.idOf key n) .upserted,t,n+1) := by
    unfold Call.send
    dsimp only
    rw [hkey,hbody]
    rfl
  have hvectors' : (⟨key,body,.working (t.idOf key n) (.deleted (t.chunksOfDocument (t.idOf key n)))⟩ : Call V).send
      vectorOk t false (n+1) (.embed embedder) = some (.working (t.idOf key n)
        (.inserting (t.chunksOfDocument (t.idOf key n)) [] ((chunksOf body).zip vectors)),t,n+1) := by
    unfold Call.send
    dsimp only
    rw [hembed]
    exact if_pos hlen
  have hfirst : Call.finish vectorOk embedder (fuel+4) ⟨key,body,.called⟩ t n =
      Call.finish vectorOk embedder fuel ⟨key,body,.working (t.idOf key n)
        (.inserting (t.chunksOfDocument (t.idOf key n)) [] ((chunksOf body).zip vectors))⟩ t (n+1) := by
    rw [Call.finish,Phase.next,hbegin]
    dsimp only
    rw [Call.finish,Phase.next,hupsert]
    change Call.finish vectorOk embedder (fuel+1)
      ⟨key,body,.working (t.idOf key n) (.deleted (t.chunksOfDocument (t.idOf key n)))⟩ t (n+1) = _
    rw [Call.finish,Phase.next,hvectors']
  have hinserted : Inserted t ⟨t.idOf key n,key,body⟩ (t.chunksOfDocument (t.idOf key n)) []
      (((chunksOf body).zip vectors).map Prod.fst)
      (Call.finish vectorOk embedder fuel ⟨key,body,.working (t.idOf key n)
        (.inserting (t.chunksOfDocument (t.idOf key n)) [] ((chunksOf body).zip vectors))⟩ t (n+1)) := by
    refine finish_inserting rfl hrepo (fun w hw => hvectors _ (List.of_mem_zip hw).2) rfl ?_ ?_
    · rw [List.length_nil,List.length_zip]
      omega
    · rw [List.length_zip]
      omega
  rw [htexts] at hinserted
  dsimp only
  rw [hfirst,← textOk_chunks_iff hbody]
  obtain ⟨hall,hphase,rows,htables,hrows,hdocs⟩ | ⟨⟨j,c,hc,hbad,hphase⟩,hkept⟩ := hinserted
  · rw [List.nil_append] at htables
    refine ⟨fun _ => ⟨hphase,?_,?_,fun other hother => ?_⟩,fun h => absurd hall h⟩
    · rw [htables]
      rfl
    · rw [htables,chunks_commit rfl hdocs,if_pos rfl]
      exact hrows
    · rw [htables,chunks_commit rfl hdocs,if_neg hother]
  · rw [List.length_nil,Nat.zero_add] at hphase
    refine ⟨fun h => ?_,fun _ => ⟨⟨j,c,hc,hbad,hphase⟩,hkept⟩⟩
    exact absurd (h c (List.mem_of_getElem? hc)) (Bool.eq_false_iff.mp hbad)

end Finish

/-- A document of Latin letters: the end of the first chunk falls within one, and the database keeps what it has. -/
theorem accented_refused : let t : Tables ℕ := ⟨[⟨0,exampleKey,lit "one"⟩],[⟨1,0,exampleKey.repoKey,0,lit "one",3⟩]⟩
    let r := Call.finish (fun _ => true) lengthEmbedder 7 ⟨exampleKey,accented 400,.called⟩ t 2
    (∃ j c, (chunksOf (accented 400))[j]? = some c ∧ textOk c = false ∧ r.1 = .done (.error (.insertChunk j))) ∧
      r.2 = t := by
  have hbody : textOk (accented 400) = true := by decide +kernel
  have hlength : (chunksOf (accented 400)).length = 2 := by decide +kernel
  have hembed (texts : List Bytes) : lengthEmbedder texts = some (texts.map List.length) := rfl
  refine (IngestDocument_ends _ 2 (by decide +kernel) hbody ?_ ?_ (hembed _) (List.length_map _) (fun _ _ => rfl) ?_).2
    (by decide +kernel)
  · exact List.ne_nil_of_length_eq_add_one hlength
  · omega
  · omega

end Kb
