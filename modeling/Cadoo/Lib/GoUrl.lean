import Cadoo.Lib.Decimal
import Cadoo.Lib.JsonString
import Cadoo.Lib.Segments

/-! Go's `net/url`: a text taken apart into its scheme, its host and its path. What is made of a host in brackets is
left to a parameter. -/
namespace GoUrl
open Bytes Json

structure URL where
  scheme : Bytes := []
  host : Bytes := []
  path : Bytes := []
  deriving DecidableEq

def isAlpha (b : UInt8) : Bool := (97 ≤ b && b ≤ 122) || (65 ≤ b && b ≤ 90)
def isAlnum (b : UInt8) : Bool := isAlpha b || isDecimal b

/-- The loop of `getScheme`: how much is a scheme so far, and what follows. -/
def schemeFrom (raw : Bytes) : ℕ → Bytes → Option (Bytes × Bytes)
  | _, [] => some ([],raw)
  | i, c :: s =>
    if isAlpha c then schemeFrom raw (i+1) s
    else if isDecimal c || c ∈ lit "+-." then if i = 0 then some ([],raw) else schemeFrom raw (i+1) s
    else if c = 58 then if i = 0 then none else some (raw.take i,s)
    else some ([],raw)

def getScheme (raw : Bytes) : Option (Bytes × Bytes) := schemeFrom raw 0 raw

/-- `unescape` of a path. -/
def unescape : Bytes → Option Bytes
  | [] => some []
  | c :: s =>
    if c = 37 then
      match s with
      | a :: b :: s =>
        match hexValue a,hexValue b with
        | some x, some y => (unescape s).map (UInt8.ofNat (16*x+y) :: ·)
        | _, _ => none
      | _ => none
    else (unescape s).map (c :: ·)

/-- The ASCII bytes that a host may have as they are. -/
def hostByte (c : UInt8) : Bool := isAlnum c || c ∈ lit "!$&'()*+,;=:[]<>\"-_.~"

/-- `unescape` of a host: only bytes beyond ASCII and the percent sign may be escaped. -/
def unescapeHost : Bytes → Option Bytes
  | [] => some []
  | c :: s =>
    if c = 37 then
      match s with
      | a :: b :: s =>
        match hexValue a,hexValue b with
        | some x, some y =>
          if x < 8 ∧ [a,b] ≠ lit "25" then none else (unescapeHost s).map (UInt8.ofNat (16*x+y) :: ·)
        | _, _ => none
      | _ => none
    else if c < 128 ∧ hostByte c = false then none
    else (unescapeHost s).map (c :: ·)

variable (literal : Bytes → Option Bytes)

def parseHost (host : Bytes) : Option Bytes :=
  if hasPrefix host (lit "[") then literal host
  else
    match cut host (lit ":") with
    | some (_,port) => if port.all isDecimal then unescapeHost host else none
    | none => unescapeHost host

def validUserinfo (s : Bytes) : Bool := s.all fun c => isAlnum c || c ∈ lit "-._:~!$&'()*+,;=%@"

/-- Whatever is in front of the last `@` must be a proper user and password. -/
def parseAuthority (authority : Bytes) : Option Bytes :=
  let host := authority.rtakeWhile (· != 64)
  let user := (authority.rdropWhile (· != 64)).dropLast
  match parseHost literal host with
  | none => none
  | some h =>
    if host = authority then some h
    else if validUserinfo user = false ∨ unescape user = none then none
    else some h

/-- A text without its fragment. -/
def parse (raw : Bytes) : Option URL :=
  if raw.any (fun c => c < 32 || c == 127) then none
  else if raw = lit "*" then some { path := lit "*" }
  else
    match getScheme raw with
    | none => none
    | some (scheme,rest) =>
      let scheme := scheme.map Utf8.lowerByte
      let rest := rest.takeWhile (· != 63)
      if hasPrefix rest (lit "/") = false ∧ scheme ≠ [] then some { scheme := scheme }
      else if hasPrefix rest (lit "/") = false ∧ 58 ∈ rest.takeWhile (· != 47) then none
      else if (scheme ≠ [] ∨ hasPrefix rest (lit "///") = false) ∧ hasPrefix rest (lit "//") then
        let authority := (rest.drop 2).takeWhile (· != 47)
        let rest := (rest.drop 2).dropWhile (· != 47)
        match parseAuthority literal authority,unescape rest with
        | some host, some path => some ⟨scheme,host,path⟩
        | _, _ => none
      else (unescape rest).map fun path => { scheme := scheme, path := path }

/-- `url.Parse`. -/
def Parse (raw : Bytes) : Option URL :=
  match parse literal (raw.takeWhile (· != 35)) with
  | none => none
  | some u => if unescape ((raw.dropWhile (· != 35)).drop 1) = none then none else some u

/-- A host by its name, with a port or without. -/
structure Host where
  name : Bytes
  port : Option Bytes := none
  name_ne : name ≠ []
  name_plain : ∀ b ∈ name, isAlnum b = true ∨ b = 45 ∨ b = 46
  port_digits : ∀ ds ∈ port, ∀ b ∈ ds, isDecimal b = true

namespace Host
variable (h : Host)

def text : Bytes := h.name ++ (match h.port with
  | some ds => 58 :: ds
  | none => [])

/-- The bytes of a host. -/
def Plain (b : UInt8) : Prop := isAlnum b = true ∨ b = 45 ∨ b = 46 ∨ b = 58

lemma plain_of_mem {b : UInt8} (hb : b ∈ h.text) : Plain b := by
  rw [text,List.mem_append] at hb
  rcases hb with hb | hb
  · rcases h.name_plain b hb with ha | hm | hd
    · exact .inl ha
    · exact .inr (.inl hm)
    · exact .inr (.inr (.inl hd))
  · split at hb
    · next ds hds =>
      rcases List.mem_cons.mp hb with rfl | hb
      · exact .inr (.inr (.inr rfl))
      · refine .inl ?_
        rw [isAlnum,h.port_digits ds hds b hb,Bool.or_true]
    · cases hb

end Host

/-- A host has visible letters only, and none that means something in a URL but the colon. -/
lemma plain_cases {b : UInt8} (h : Host.Plain b) : hostByte b = true ∧ 32 < b ∧ b < 127 ∧
    b ≠ 35 ∧ b ≠ 37 ∧ b ≠ 47 ∧ b ≠ 63 ∧ b ≠ 64 ∧ b ≠ 91 := by
  have hall : ∀ b : UInt8, (isAlnum b || b = 45 || b = 46 || b = 58) = true → hostByte b = true ∧ 32 < b ∧ b < 127 ∧
      b ≠ 35 ∧ b ≠ 37 ∧ b ≠ 47 ∧ b ≠ 63 ∧ b ≠ 64 ∧ b ≠ 91 := forall_byte (by decide +kernel)
  refine hall b ?_
  rw [Host.Plain] at h
  simpa [or_assoc] using h

lemma unescapeHost_plain {s : Bytes} (h : ∀ b ∈ s, Host.Plain b) : unescapeHost s = some s := by
  induction s with
  | nil => rfl
  | cons b s ih =>
    obtain ⟨hb,hs⟩ := List.forall_mem_cons.mp h
    have hcases := plain_cases hb
    rw [unescapeHost.eq_def]
    dsimp only
    rw [if_neg hcases.2.2.2.2.1,if_neg fun hbad => absurd (hcases.1.symm.trans hbad.2) (by decide),ih hs]
    rfl

lemma parseHost_text (h : Host) : parseHost literal h.text = some h.text := by
  have hbracket : hasPrefix h.text (lit "[") = false := by
    obtain ⟨b,t,hb⟩ := List.exists_cons_of_ne_nil h.name_ne
    have hmem : b ∈ h.text := by
      rw [Host.text,hb]
      exact List.mem_cons_self
    have hne := (plain_cases (h.plain_of_mem hmem)).2.2.2.2.2.2.2.2
    have hlit : lit "[" = [91] := by decide
    rw [hasPrefix,Host.text,hb,hlit,List.cons_append,List.isPrefixOf_cons_cons,beq_eq_false_iff_ne.mpr hne.symm,
      Bool.false_and]
  have hname : 58 ∉ h.name := fun hm => by
    rcases h.name_plain 58 hm with ha | ha | ha
    · exact absurd ha (by decide)
    · exact absurd ha (by decide)
    · exact absurd ha (by decide)
  have hlit : lit ":" = [58] := by decide
  rw [parseHost,hbracket,if_neg Bool.false_ne_true,unescapeHost_plain fun b => h.plain_of_mem,hlit]
  cases hport : h.port with
  | none =>
    have htext : h.text = h.name := by
      rw [Host.text,hport]
      exact List.append_nil _
    rw [htext,cut_eq_none_of_notMem hname]
  | some ds =>
    have htext : h.text = h.name ++ 58 :: ds := by
      rw [Host.text,hport]
    have hdigits : ds.all isDecimal = true := List.all_eq_true.mpr (h.port_digits ds hport)
    rw [htext,cut_append_cons hname]
    dsimp only
    rw [hdigits,if_pos rfl]

lemma parseAuthority_text (h : Host) : parseAuthority literal h.text = some h.text := by
  have hhost : h.text.rtakeWhile (· != 64) = h.text := by
    rw [List.rtakeWhile_eq_self_iff]
    intro b hb
    exact bne_iff_ne.mpr (plain_cases (h.plain_of_mem hb)).2.2.2.2.2.2.2.1
  rw [parseAuthority]
  simp only [hhost,parseHost_text,if_true]

/-- The bytes that the path of a written URL has: visible ones that do not end it. -/
def PathByte (b : UInt8) : Prop := 32 < b ∧ b < 127 ∧ b ≠ 35 ∧ b ≠ 63

instance (b : UInt8) : Decidable (PathByte b) := by
  unfold PathByte
  infer_instance

/-- What has no percent sign stands for itself. -/
lemma unescape_append {s : Bytes} (h : ∀ b ∈ s, b ≠ 37) (t : Bytes) :
    unescape (s ++ t) = (unescape t).map (s ++ ·) := by
  induction s with
  | nil =>
    change _ = (unescape t).map id
    rw [Option.map_id]
    rfl
  | cons b s ih =>
    obtain ⟨hb,hs⟩ := List.forall_mem_cons.mp h
    rw [List.cons_append,unescape.eq_def]
    dsimp only
    rw [if_neg hb,ih hs,Option.map_map]
    rfl

/-- A path begins as it is written. -/
lemma head_of_unescape {s p : Bytes} {b : UInt8} (hb : b ≠ 37) (hs : ∀ c ∈ s.head?, c = b)
    (h : unescape s = some p) : ∀ c ∈ p.head?, c = b := by
  cases s with
  | nil =>
    obtain rfl := Option.some.inj h
    intro c hc
    cases hc
  | cons c s =>
    obtain rfl := hs c rfl
    rw [unescape.eq_def] at h
    dsimp only at h
    rw [if_neg hb] at h
    obtain ⟨q,-,rfl⟩ := Option.map_eq_some_iff.mp h
    intro d hd
    exact (Option.some.inj hd).symm

lemma schemeFrom_append {raw s rest : Bytes} (hs : ∀ b ∈ s, isAlpha b = true) {i : ℕ} (hi : 0 < i + s.length) :
    schemeFrom raw i (s ++ 58 :: rest) = some (raw.take (i+s.length),rest) := by
  induction s generalizing i with
  | nil =>
    rw [List.length_nil,Nat.add_zero] at hi
    rw [List.nil_append,schemeFrom,if_neg (by decide),if_neg (by decide),if_pos rfl,if_neg (by omega)]
    rfl
  | cons b s ih =>
    obtain ⟨hb,hs⟩ := List.forall_mem_cons.mp hs
    rw [List.cons_append,schemeFrom,if_pos hb,ih hs (by omega),List.length_cons,Nat.add_right_comm,Nat.add_assoc]

lemma getScheme_append {s rest : Bytes} (hne : s ≠ []) (hs : ∀ b ∈ s, isAlpha b = true) :
    getScheme (s ++ 58 :: rest) = some (s,rest) := by
  have hpos := List.length_pos_iff.mpr hne
  rw [getScheme,schemeFrom_append hs (by omega),Nat.zero_add,List.take_left]

lemma pathByte_letter {b : UInt8} (h : 97 ≤ b ∧ b ≤ 122) : PathByte b := by
  have hlow : 32 < b := UInt8.lt_of_lt_of_le (by decide) h.1
  refine ⟨hlow,UInt8.lt_of_le_of_lt h.2 (by decide),?_,?_⟩
  · rintro rfl
    exact absurd h.1 (by decide)
  · rintro rfl
    exact absurd h.1 (by decide)

lemma lowerByte_letter {b : UInt8} (h : 97 ≤ b ∧ b ≤ 122) : Utf8.lowerByte b = b := by
  have hnot : ¬ b ≤ 90 := UInt8.not_le.mpr (UInt8.lt_of_lt_of_le (by decide) h.1)
  rw [Utf8.lowerByte,decide_eq_false hnot,Bool.and_false,if_neg Bool.false_ne_true]

/-- A text with a scheme in small letters, a host and a path is taken apart into them. -/
theorem Parse_text {scheme tail path : Bytes} (h : Host) (hne : scheme ≠ [])
    (hscheme : ∀ b ∈ scheme, 97 ≤ b ∧ b ≤ 122) (hslash : tail.head? = some 47) (htail : ∀ b ∈ tail, PathByte b)
    (hpath : unescape tail = some path) :
    Parse literal (scheme ++ (lit "://" ++ (h.text ++ tail))) = some ⟨scheme,h.text,path⟩ := by
  have hlit : lit "://" = [58,47,47] := by decide
  have hletter : ∀ b ∈ scheme, isAlpha b = true := fun b hb => by
    obtain ⟨hlow,hhigh⟩ := hscheme b hb
    rw [isAlpha,decide_eq_true hlow,decide_eq_true hhigh]
    rfl
  have hrest : ∀ b ∈ lit "://" ++ (h.text ++ tail), PathByte b := by
    intro b hb
    rcases List.mem_append.mp hb with hb | hb
    · rw [hlit] at hb
      exact List.forall_mem_cons.mpr ⟨by decide,List.forall_mem_cons.mpr ⟨by decide,
        List.forall_mem_singleton.mpr (by decide)⟩⟩ b hb
    rcases List.mem_append.mp hb with hb | hb
    · obtain ⟨-,hlow,hhigh,hhash,-,-,hquestion,-,-⟩ := plain_cases (h.plain_of_mem hb)
      exact ⟨hlow,hhigh,hhash,hquestion⟩
    · exact htail b hb
  have hvisible : ∀ b ∈ scheme ++ (lit "://" ++ (h.text ++ tail)), PathByte b := fun b hb =>
    (List.mem_append.mp hb).elim (fun hb => pathByte_letter (hscheme b hb)) (hrest b)
  have hhash : ∀ b ∈ scheme ++ (lit "://" ++ (h.text ++ tail)), (b != 35) = true :=
    fun b hb => bne_iff_ne.mpr (hvisible b hb).2.2.1
  have hquestion : (47 :: 47 :: (h.text ++ tail)).takeWhile (· != 63) = 47 :: 47 :: (h.text ++ tail) := by
    rw [List.takeWhile_eq_self_iff]
    refine fun b hb => bne_iff_ne.mpr (hrest b ?_).2.2.2
    rw [hlit]
    exact List.mem_cons_of_mem _ hb
  have hcontrol : (scheme ++ (lit "://" ++ (h.text ++ tail))).any (fun c => c < 32 || c == 127) = false := by
    rw [List.any_eq_false]
    intro b hb hbad
    obtain ⟨hlow,hhigh,-,-⟩ := hvisible b hb
    rw [Bool.or_eq_true,decide_eq_true_iff,beq_iff_eq] at hbad
    rcases hbad with hbad | rfl
    · exact absurd (UInt8.lt_trans hlow hbad) (by decide)
    · exact absurd hhigh (by decide)
  have hstar : scheme ++ (lit "://" ++ (h.text ++ tail)) ≠ lit "*" := fun he => by
    have hmem : (58 : UInt8) ∈ scheme ++ (lit "://" ++ (h.text ++ tail)) := by simp [hlit]
    rw [he] at hmem
    exact absurd hmem (by decide)
  have hlower : scheme.map Utf8.lowerByte = scheme :=
    (List.map_congr_left fun b hb => lowerByte_letter (hscheme b hb)).trans (List.map_id _)
  obtain ⟨t,rfl⟩ : ∃ t, tail = 47 :: t := by
    cases tail with
    | nil => cases hslash
    | cons b t => exact ⟨t,by rw [List.head?_cons,Option.some.injEq] at hslash; rw [hslash]⟩
  have hauthority : ∀ b ∈ h.text, (b != 47) = true :=
    fun b hb => bne_iff_ne.mpr (plain_cases (h.plain_of_mem hb)).2.2.2.2.2.1
  have hparse : parse literal (scheme ++ (lit "://" ++ (h.text ++ 47 :: t))) = some ⟨scheme,h.text,path⟩ := by
    have hscheme : getScheme (scheme ++ (lit "://" ++ (h.text ++ 47 :: t))) =
        some (scheme,47 :: 47 :: (h.text ++ 47 :: t)) := by
      rw [hlit]
      exact getScheme_append hne hletter
    rw [parse,hcontrol,if_neg Bool.false_ne_true,if_neg hstar,hscheme]
    dsimp only
    have hslash : hasPrefix (47 :: 47 :: (h.text ++ 47 :: t)) (lit "/") = true := rfl
    have hslashes : hasPrefix (47 :: 47 :: (h.text ++ 47 :: t)) (lit "//") = true := rfl
    rw [hlower,hquestion,if_neg fun hbad => absurd (hslash.symm.trans hbad.1) (by decide),
      if_neg fun hbad => absurd (hslash.symm.trans hbad.1) (by decide),if_pos ⟨.inl hne,hslashes⟩]
    change (match parseAuthority literal ((h.text ++ 47 :: t).takeWhile (· != 47)),
        unescape ((h.text ++ 47 :: t).dropWhile (· != 47)) with
      | some host, some path => some (URL.mk scheme host path)
      | _, _ => none) = _
    rw [List.takeWhile_append_of_pos hauthority,List.dropWhile_append_of_pos hauthority,
      List.takeWhile_cons_of_neg (by decide),List.dropWhile_cons_of_neg (by decide),List.append_nil,
      parseAuthority_text,hpath]
  rw [Parse,List.takeWhile_eq_self_iff.mpr hhash,hparse,List.dropWhile_eq_nil_iff.mpr hhash]
  rfl

example : Parse (fun _ => none) (lit "HTTPS://me@git.example.com:8443/a%20b/c?x=1#top") =
    some ⟨lit "https",lit "git.example.com:8443",lit "/a b/c"⟩ := by
  decide +kernel

end GoUrl
