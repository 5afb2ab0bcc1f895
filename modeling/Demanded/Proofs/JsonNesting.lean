import Demanded.Proofs.JsonText

/-!
# How deep a text nests

`Json.nesting` counts the brackets that are open in a text.  It does not look for values: it goes
from character to character and passes over what stands in strings.  The text of a value nests as
deep as the value (`Json.nesting_compact` and `Json.nesting_pretty`).
-/

namespace Demanded.Json

/-! ## Counting brackets -/

/-- Where in a text a character stands. -/
inductive Place where
  /-- Not in a string. -/
  | outside
  /-- In a string. -/
  | inString
  /-- In a string, after a backslash. -/
  | escaped

/-- The greatest number of open brackets in a text, if `d` are open where it starts. -/
def nestingFrom : Place → Nat → List Char → Nat
  | _, d, [] => d
  | .escaped, d, _ :: rest => nestingFrom .inString d rest
  | .inString, d, c :: rest =>
    if c = '\\' then nestingFrom .escaped d rest
    else if c = '"' then nestingFrom .outside d rest
    else nestingFrom .inString d rest
  | .outside, d, c :: rest =>
    if c = '"' then nestingFrom .inString d rest
    else if c = '[' ∨ c = '\x7b' then nestingFrom .outside (d + 1) rest
    else if c = ']' ∨ c = '\x7d' then max d (nestingFrom .outside (d - 1) rest)
    else nestingFrom .outside d rest

/-- How many arrays and objects are open at the deepest point of a text. -/
def nesting (text : String) : Nat := nestingFrom .outside 0 text.toList

example : nesting "[1, \x7b\"a]\\\"[[\": [\"\"]\x7d, []]" = 3 := by decide

variable {d : Nat}

theorem le_nestingFrom (place : Place) (d : Nat) (cs : List Char) : d ≤ nestingFrom place d cs := by
  fun_induction nestingFrom place d cs with
  | case1 => exact Nat.le_refl _
  | case2 | case3 | case4 | case5 | case6 | case9 => assumption
  | case7 d c rest hquote hopen ih => omega
  | case8 d c rest hquote hopen hclose ih => exact Nat.le_max_left _ _

/-! ## Leaves -/

/-- Whether a character is neither a bracket nor a quotation mark. -/
def isFlat (c : Char) : Bool := !(['"', '[', '\x7b', ']', '\x7d'].contains c)

theorem nestingFrom_flat {cs : List Char} (h : ∀ c ∈ cs, isFlat c = true) (rest : List Char) :
    nestingFrom .outside d (cs ++ rest) = nestingFrom .outside d rest := by
  induction cs with
  | nil => rfl
  | cons c cs ih =>
    obtain ⟨hc, hcs⟩ := List.forall_mem_cons.1 h
    simp only [isFlat, List.contains_eq_mem, List.mem_cons, List.not_mem_nil, or_false,
      Bool.not_eq_true', decide_eq_false_iff_not, not_or] at hc
    rw [List.cons_append, nestingFrom, if_neg hc.1, if_neg (by simp [hc]), if_neg (by simp [hc])]
    exact ih hcs

theorem isFlat_of_isBlank {c : Char} (h : isBlank c = true) : isFlat c = true := by
  simp only [isBlank, Bool.or_eq_true, decide_eq_true_eq] at h
  rcases h with ((rfl | rfl) | rfl) | rfl <;> rfl

theorem isFlat_of_mem_decimal {n : Int} {c : Char} (h : c ∈ decimal n) : isFlat c = true := by
  have hdigits : ∀ c ∈ Nat.toDigits 10 n.natAbs, isFlat c = true := by
    intro c hc
    have hdigit := Nat.isDigit_of_mem_toDigits (b := 10) (by decide) (by decide) hc
    apply Classical.byContradiction
    intro hflat
    simp only [isFlat, List.contains_eq_mem, List.mem_cons, List.not_mem_nil, or_false,
      Bool.not_eq_true', decide_eq_false_iff_not, Classical.not_not] at hflat
    rcases hflat with rfl | rfl | rfl | rfl | rfl <;> cases hdigit
  unfold decimal at h
  split at h
  · rcases List.mem_cons.1 h with rfl | h
    · rfl
    · exact hdigits c h
  · exact hdigits c h

theorem nestingFrom_escapeChar (c : Char) (rest : List Char) :
    nestingFrom .inString d (escapeChar c ++ rest) = nestingFrom .inString d rest := by
  have hhex : ∀ n < 16, hexDigit n ≠ '\\' ∧ hexDigit n ≠ '"' := by decide
  unfold escapeChar
  split
  · rfl
  · rename_i hquote
    split
    · rfl
    · rename_i hback
      split
      · rename_i hcontrol
        have hhigh := hhex (c.toNat / 16) (by omega)
        have hlow := hhex (c.toNat % 16) (by omega)
        repeat' split
        all_goals simp [nestingFrom, hhigh, hlow]
      · simp [nestingFrom, hquote, hback]

/-- A string does not count, whatever stands in it. -/
theorem nestingFrom_quote (s : String) (rest : List Char) :
    nestingFrom .outside d (quote s ++ rest) = nestingFrom .outside d rest := by
  have hbody : ∀ cs : List Char, nestingFrom .inString d (cs.flatMap escapeChar ++ '"' :: rest) =
      nestingFrom .outside d rest := by
    intro cs
    induction cs with
    | nil => rfl
    | cons c cs ih => rw [List.flatMap_cons, List.append_assoc, nestingFrom_escapeChar, ih]
  have hquote : quote s ++ rest = '"' :: (s.toList.flatMap escapeChar ++ '"' :: rest) := by
    simp [quote]
  rw [hquote, nestingFrom, if_pos rfl, hbody]

/-! ## Values -/

theorem nestingFrom_open {c : Char} (hc : c = '[' ∨ c = '\x7b') (rest : List Char) :
    nestingFrom .outside d (c :: rest) = nestingFrom .outside (d + 1) rest := by
  rcases hc with rfl | rfl <;> rfl

theorem nestingFrom_close {c : Char} (hc : c = ']' ∨ c = '\x7d') (rest : List Char) :
    nestingFrom .outside (d + 1) (c :: rest) = max (d + 1) (nestingFrom .outside d rest) := by
  rcases hc with rfl | rfl <;> rfl

section Write

variable {l : Layout}

theorem nestingFrom_lead (hl : l.Blank) (k : Nat) (rest : List Char) :
    nestingFrom .outside d (l.lead k ++ rest) = nestingFrom .outside d rest :=
  nestingFrom_flat (fun c hc => isFlat_of_isBlank (hl.lead k c hc)) rest

theorem nestingFrom_afterColon (hl : l.Blank) (rest : List Char) :
    nestingFrom .outside d (':' :: (l.afterColon ++ rest)) = nestingFrom .outside d rest := by
  have hcolon : ∀ c ∈ [':'], isFlat c = true := by simp [isFlat]
  exact (nestingFrom_flat hcolon _).trans
    (nestingFrom_flat (fun c hc => isFlat_of_isBlank (hl.afterColon c hc)) rest)

theorem nestingFrom_comma (hl : l.Blank) (k : Nat) (rest : List Char) :
    nestingFrom .outside d (',' :: (l.lead k ++ rest)) = nestingFrom .outside d rest := by
  have hcomma : ∀ c ∈ [','], isFlat c = true := by simp [isFlat]
  exact (nestingFrom_flat hcomma _).trans (nestingFrom_lead hl k rest)

mutual

/-- A value counts for as much as it nests. -/
theorem nestingFrom_write (hl : l.Blank) (k d : Nat) (j : Json) (rest : List Char) :
    nestingFrom .outside d (write l k j ++ rest) =
      max (d + j.depth) (nestingFrom .outside d rest) := by
  have hleast := le_nestingFrom .outside d rest
  -- a leaf is passed over
  have hleaf : ∀ cs, nestingFrom .outside d (cs ++ rest) = nestingFrom .outside d rest →
      nestingFrom .outside d (cs ++ rest) = max (d + 0) (nestingFrom .outside d rest) := by
    intro cs h
    rw [h]
    omega
  match j with
  | null | num none | str none | bool true | bool false =>
    exact hleaf _ (nestingFrom_flat (by simp [write, isFlat]) rest)
  | num (some n) => exact hleaf _ (nestingFrom_flat (fun c hc => isFlat_of_mem_decimal hc) rest)
  | str (some s) => exact hleaf _ (nestingFrom_quote s rest)
  | arr [] =>
    have htext : write l k (arr []) ++ rest = '[' :: ']' :: rest := rfl
    rw [htext, nestingFrom_open (.inl rfl), nestingFrom_close (.inl rfl)]
    rfl
  | arr (item :: items) =>
    have htext : write l k (arr (item :: items)) ++ rest = '[' :: (l.lead (k + 1) ++
        (write l (k + 1) item ++ (writeItems l (k + 1) items ++ (l.lead k ++ ']' :: rest)))) := by
      simp [write]
    rw [htext, nestingFrom_open (.inl rfl), nestingFrom_lead hl, nestingFrom_write hl,
      nestingFrom_writeItems hl, nestingFrom_lead hl, nestingFrom_close (.inl rfl), depth,
      depthItems]
    omega
  | obj [] =>
    have htext : write l k (obj []) ++ rest = '\x7b' :: '\x7d' :: rest := rfl
    rw [htext, nestingFrom_open (.inr rfl), nestingFrom_close (.inr rfl)]
    rfl
  | obj ((key, value) :: members) =>
    have htext : write l k (obj ((key, value) :: members)) ++ rest = '\x7b' :: (l.lead (k + 1) ++
        (quote (key.getD "") ++ ':' :: (l.afterColon ++ (write l (k + 1) value ++
          (writeMembers l (k + 1) members ++ (l.lead k ++ '\x7d' :: rest)))))) := by
      simp [write, writeMember]
    rw [htext, nestingFrom_open (.inr rfl), nestingFrom_lead hl, nestingFrom_quote,
      nestingFrom_afterColon hl, nestingFrom_write hl, nestingFrom_writeMembers hl,
      nestingFrom_lead hl, nestingFrom_close (.inr rfl), depth, depthMembers]
    omega

theorem nestingFrom_writeItems (hl : l.Blank) (k d : Nat) (items : List Json) (rest : List Char) :
    nestingFrom .outside d (writeItems l k items ++ rest) =
      max (d + depthItems items) (nestingFrom .outside d rest) := by
  match items with
  | [] =>
    have hleast := le_nestingFrom .outside d rest
    rw [writeItems, depthItems, List.nil_append]
    omega
  | item :: items =>
    have htext : writeItems l k (item :: items) ++ rest =
        ',' :: (l.lead k ++ (write l k item ++ (writeItems l k items ++ rest))) := by
      simp [writeItems]
    rw [htext, nestingFrom_comma hl, nestingFrom_write hl, nestingFrom_writeItems hl, depthItems]
    omega

theorem nestingFrom_writeMembers (hl : l.Blank) (k d : Nat) (members : List (Option String × Json))
    (rest : List Char) :
    nestingFrom .outside d (writeMembers l k members ++ rest) =
      max (d + depthMembers members) (nestingFrom .outside d rest) := by
  match members with
  | [] =>
    have hleast := le_nestingFrom .outside d rest
    rw [writeMembers, depthMembers, List.nil_append]
    omega
  | (key, value) :: members =>
    have htext : writeMembers l k ((key, value) :: members) ++ rest =
        ',' :: (l.lead k ++ (quote (key.getD "") ++ ':' :: (l.afterColon ++
          (write l k value ++ (writeMembers l k members ++ rest))))) := by
      simp [writeMembers, writeMember]
    rw [htext, nestingFrom_comma hl, nestingFrom_quote, nestingFrom_afterColon hl,
      nestingFrom_write hl, nestingFrom_writeMembers hl, depthMembers]
    omega

end

/-- The text of a value nests as deep as the value. -/
theorem nesting_write (hl : l.Blank) (j : Json) :
    nesting (String.ofList (write l 0 j)) = j.depth := by
  have h := nestingFrom_write hl 0 0 j []
  rw [List.append_nil] at h
  rw [nesting, String.toList_ofList, h, nestingFrom]
  omega

end Write

theorem nesting_compact (j : Json) : nesting j.compact = j.depth :=
  nesting_write Layout.blank_compact j

theorem nesting_pretty (j : Json) : nesting j.pretty = j.depth :=
  nesting_write Layout.blank_pretty j

end Demanded.Json
