import Mathlib.Data.List.Basic
import Mathlib.Data.List.DropRight
import Demanded.Json.Reader
import Demanded.Json.Writer

/-!
# Written values are read back

`Json.parse?_write` says that a value is read back from its text, in every layout that has only
blanks, so in particular from its compact and from its pretty text.  The value has to be plain: a
leaf without a value is written as `null`.

The notion that carries the proof is `Json.Reads text j`: where `text` stands, the reader takes it
as `j` and goes on behind it.  Each form of value has a lemma that builds its text from the texts of
its parts (`ReadsItems.cons`, `ReadsMembers.last` and so on), and the writer follows these forms
case by case.  Behind a number a character must stand that cannot belong to it, and the fuel that
the reader needs is bounded by the length of the text.
-/

namespace Demanded.Json

/-! ## Blanks -/

theorem skipBlanks_append {bs : List Char} (h : ∀ c ∈ bs, isBlank c) (cs : List Char) :
    skipBlanks (bs ++ cs) = skipBlanks cs :=
  List.dropWhile_append_of_pos h

theorem skipBlanks_cons {c : Char} (h : isBlank c = false) (cs : List Char) :
    skipBlanks (c :: cs) = c :: cs :=
  List.dropWhile_cons_of_neg (by simp [h])

theorem skipBlanks_skipBlanks (cs : List Char) : skipBlanks (skipBlanks cs) = skipBlanks cs :=
  List.dropWhile_idempotent _ _

/-! ## Strings -/

theorem readUnits_short {e c : Char} (he : shortEscape? e = some c) (rest : List Char) :
    readUnits ('\\' :: e :: rest) = (readUnits rest).map fun r => (c.toNat :: r.1, r.2) := by
  have hu : e ≠ 'u' := by
    rintro rfl
    cases he
  rw [readUnits, he]
  · cases readUnits rest <;> rfl
  · exact fun _ _ _ _ _ h => absurd h hu

theorem readUnits_quad {a b c d : Char} {n : Nat} (h : hexQuad? a b c d = some n)
    (rest : List Char) :
    readUnits ('\\' :: 'u' :: a :: b :: c :: d :: rest) =
      (readUnits rest).map fun r => (n :: r.1, r.2) := by
  rw [readUnits, h]
  cases readUnits rest <;> rfl

theorem readUnits_plain {c : Char} (hquote : c ≠ '"') (hback : c ≠ '\\') (hc : ¬c.toNat < 32)
    (rest : List Char) :
    readUnits (c :: rest) = (readUnits rest).map fun r => (c.toNat :: r.1, r.2) := by
  rw [readUnits, if_neg hc]
  · cases readUnits rest <;> rfl
  · exact hquote
  · exact fun _ _ _ _ _ h => absurd h hback
  · exact fun _ _ h => absurd h hback

theorem hexQuad?_escape {n : Nat} (h : n < 32) :
    hexQuad? '0' '0' (hexDigit (n / 16)) (hexDigit (n % 16)) = some n := by
  have hall : ∀ n < 32, hexQuad? '0' '0' (hexDigit (n / 16)) (hexDigit (n % 16)) = some n := by
    decide
  exact hall n h

/-- What stands for a character in a string is read as this character. -/
theorem readUnits_escapeChar (c : Char) (rest : List Char) :
    readUnits (escapeChar c ++ rest) =
      (readUnits rest).map fun r => (c.toNat :: r.1, r.2) := by
  fun_cases escapeChar c with
  | case8 _ _ hlt => exact readUnits_quad (hexQuad?_escape hlt) rest
  | case9 hquote hback hge => exact readUnits_plain hquote hback hge rest
  | _ => subst_vars; exact readUnits_short rfl rest

theorem readUnits_flatMap (cs rest : List Char) :
    readUnits (cs.flatMap escapeChar ++ '"' :: rest) = some (cs.map Char.toNat, rest) := by
  induction cs with
  | nil => rw [List.flatMap_nil, List.nil_append, readUnits, List.map_nil]
  | cons c cs ih =>
    rw [List.flatMap_cons, List.append_assoc, readUnits_escapeChar, ih, List.map_cons,
      Option.map_some]

/-- No character is half of a surrogate pair. -/
theorem isHigh_toNat (c : Char) : isHigh c.toNat = false := by
  have h : c.toNat < 0xD800 ∨ 0xDFFF < c.toNat ∧ c.toNat < 0x110000 := c.valid
  simp only [isHigh, Bool.and_eq_false_iff, decide_eq_false_iff_not]
  omega

theorem isLow_toNat (c : Char) : isLow c.toNat = false := by
  have h : c.toNat < 0xD800 ∨ 0xDFFF < c.toNat ∧ c.toNat < 0x110000 := c.valid
  simp only [isLow, Bool.and_eq_false_iff, decide_eq_false_iff_not]
  omega

theorem assemble_map_toNat (cs : List Char) : assemble (cs.map Char.toNat) = some cs := by
  induction cs with
  | nil => rfl
  | cons c rest ih =>
    cases rest with
    | nil => simp [assemble, isHigh_toNat, isLow_toNat]
    | cons c' rest =>
      rw [List.map_cons] at ih
      simp [assemble, isHigh_toNat, isLow_toNat, ih]

theorem readString_quote (s : String) (rest : List Char) :
    readString (s.toList.flatMap escapeChar ++ '"' :: rest) = some (some s, rest) := by
  simp [readString, readUnits_flatMap, assemble_map_toNat]

/-! ## Numbers -/

/-- Whether a number ends where the text starts. -/
def endsNumber : List Char → Bool
  | [] => true
  | c :: _ => !(c.isDigit || c = '.' || c = 'e' || c = 'E')

theorem readDigits_append {digits rest : List Char} (hne : digits ≠ [])
    (hdigits : ∀ c ∈ digits, c.isDigit) (hrest : endsNumber rest) :
    readDigits (digits ++ rest) = some (digits, rest) := by
  have hstop : rest.takeWhile Char.isDigit = [] ∧ rest.dropWhile Char.isDigit = rest := by
    cases rest with
    | nil => exact ⟨rfl, rfl⟩
    | cons c rest =>
      simp only [endsNumber, Bool.not_eq_true', Bool.or_eq_false_iff] at hrest
      simp [hrest.1.1.1]
  rw [readDigits, List.takeWhile_append_of_pos hdigits, List.dropWhile_append_of_pos hdigits,
    hstop.1, hstop.2, List.append_nil]
  simp [hne]

theorem readFraction_of_ends {rest : List Char} (h : endsNumber rest) :
    readFraction rest = some (false, rest) := by
  fun_cases readFraction rest
  · cases h
  · rfl

theorem readExponent_of_ends {rest : List Char} (h : endsNumber rest) :
    readExponent rest = some (false, rest) := by
  cases rest with
  | nil => rfl
  | cons c rest =>
    simp only [endsNumber, Bool.not_eq_true', Bool.or_eq_false_iff, decide_eq_false_iff_not] at h
    simp [readExponent, h.1.2, h.2]

/-- Only zero starts with the digit zero. -/
theorem head?_toDigits {n : Nat} (h : 0 < n) : (Nat.toDigits 10 n).head? ≠ some '0' := by
  induction n using Nat.strongRecOn with
  | _ n ih =>
    rw [Nat.toDigits_eq_if (by decide)]
    split
    · simpa using Nat.ne_of_gt h
    · rename_i hge
      have hhead := ih (n / 10) (by omega) (by omega)
      rwa [List.head?_append_of_ne_nil _ Nat.toDigits_ne_nil]

theorem readMagnitude_toDigits (n : Nat) {rest : List Char} (h : endsNumber rest) :
    readMagnitude (Nat.toDigits 10 n ++ rest) = some (some n, rest) := by
  have hdigits : ∀ c ∈ Nat.toDigits 10 n, c.isDigit := fun c hc =>
    Nat.isDigit_of_mem_toDigits (by decide) (by decide) hc
  have hzero : 1 < (Nat.toDigits 10 n).length → (Nat.toDigits 10 n).head? ≠ some '0' := by
    intro hlen
    refine head?_toDigits (Nat.pos_of_ne_zero ?_)
    rintro rfl
    exact absurd hlen (by decide)
  simpa [readMagnitude, readDigits_append Nat.toDigits_ne_nil hdigits h, readFraction_of_ends h,
    readExponent_of_ends h] using hzero

theorem exists_cons_toDigits (n : Nat) :
    ∃ c cs, Nat.toDigits 10 n = c :: cs ∧ c.isDigit := by
  obtain ⟨c, cs, hcs⟩ := List.exists_cons_of_ne_nil (Nat.toDigits_ne_nil (n := n) (b := 10))
  refine ⟨c, cs, hcs, Nat.isDigit_of_mem_toDigits (b := 10) (n := n) (by decide) (by decide) ?_⟩
  rw [hcs]
  exact List.mem_cons_self

theorem exists_cons_decimal (n : Int) :
    ∃ c cs, decimal n = c :: cs ∧ (c = '-' ∨ c.isDigit) := by
  obtain ⟨c, cs, hcs, hc⟩ := exists_cons_toDigits n.natAbs
  unfold decimal
  split
  · exact ⟨'-', _, rfl, .inl rfl⟩
  · exact ⟨c, cs, hcs, .inr hc⟩

theorem readNumber_decimal (n : Int) {rest : List Char} (h : endsNumber rest) :
    readNumber (decimal n ++ rest) = some (some n, rest) := by
  unfold decimal
  split
  · have hne : n.natAbs ≠ 0 := by omega
    have hval : -(n.natAbs : Int) = n := by omega
    rw [List.cons_append, readNumber, readMagnitude_toDigits _ h]
    show some ((if n.natAbs = 0 then none else some (-(n.natAbs : Int))), rest) = _
    rw [if_neg hne, hval]
  · have hval : (n.natAbs : Int) = n := by omega
    rw [readNumber, readMagnitude_toDigits _ h]
    · show some (some (n.natAbs : Int), rest) = _
      rw [hval]
    · -- the first digit is not the minus sign
      intro rest' heq
      obtain ⟨c, cs, hcs, hc⟩ := exists_cons_toDigits n.natAbs
      rw [hcs, List.cons_append, List.cons.injEq] at heq
      rw [heq.1] at hc
      cases hc

/-! ## Texts of values -/

theorem readValue_skipBlanks (fuel : Nat) (cs : List Char) :
    readValue fuel (skipBlanks cs) = readValue fuel cs := by
  cases fuel with
  | zero => rfl
  | succ fuel => rw [readValue, readValue, skipBlanks_skipBlanks]

/-- A text is read as a value, whatever stands behind it that cannot belong to a number. -/
def Reads (text : List Char) (j : Json) : Prop :=
  ∀ fuel rest, endsNumber rest → 2 * text.length ≤ fuel →
    readValue fuel (text ++ rest) = some (j, rest)

/-- A text is read as the items of an array and its closing bracket. -/
def ReadsItems (text : List Char) (items : List Json) : Prop :=
  ∀ fuel rest, 2 * text.length + 1 ≤ fuel → readItems fuel (text ++ rest) = some (items, rest)

/-- A text is read as the members of an object and its closing bracket. -/
def ReadsMembers (text : List Char) (members : List (Option String × Json)) : Prop :=
  ∀ fuel rest, 2 * text.length + 1 ≤ fuel →
    readMembers fuel (text ++ rest) = some (members, rest)

theorem Reads.lead {bs text : List Char} {j : Json} (h : Reads text j)
    (hbs : ∀ c ∈ bs, isBlank c) : Reads (bs ++ text) j := by
  intro fuel rest hrest hfuel
  rw [List.append_assoc, ← readValue_skipBlanks, skipBlanks_append hbs, readValue_skipBlanks]
  rw [List.length_append] at hfuel
  exact h fuel rest hrest (by omega)

/-- Reading a text that is not empty starts with some fuel. -/
theorem reads_of_succ {text : List Char} {j : Json} (hne : text ≠ [])
    (h : ∀ fuel rest, endsNumber rest → 2 * text.length ≤ fuel + 1 →
      readValue (fuel + 1) (text ++ rest) = some (j, rest)) : Reads text j := by
  intro fuel rest hrest hfuel
  have hpos := List.length_pos_of_ne_nil hne
  obtain _ | fuel := fuel
  · omega
  · exact h fuel rest hrest hfuel

/-- A number is told from the other values by its first character. -/
theorem readValue_number {c : Char} (hc : c = '-' ∨ c.isDigit) (fuel : Nat) (cs : List Char) :
    readValue (fuel + 1) (c :: cs) = (readNumber (c :: cs)).map fun r => (num r.1, r.2) := by
  have hblank : isBlank c = false := by
    by_contra h
    simp only [isBlank, Bool.or_eq_true, decide_eq_true_eq, Bool.not_eq_false] at h
    rcases h with ((rfl | rfl) | rfl) | rfl <;> exact absurd hc (by decide)
  rw [readValue, skipBlanks_cons hblank]
  split
  case h_7 => rfl
  all_goals
    rename_i heq
    rw [(List.cons.inj heq).1] at hc
    exact absurd hc (by decide)

theorem reads_num (n : Int) : Reads (decimal n) (num (some n)) := by
  obtain ⟨c, cs, hcs, hc⟩ := exists_cons_decimal n
  refine reads_of_succ (by simp [hcs]) fun fuel rest hrest _ => ?_
  have hread := readNumber_decimal n hrest
  rw [hcs, List.cons_append] at hread ⊢
  rw [readValue_number hc, hread, Option.map_some]

theorem reads_str (s : String) : Reads (quote s) (str (some s)) := by
  refine reads_of_succ (by simp [quote]) fun fuel rest _ _ => ?_
  have htext : quote s ++ rest = '"' :: (s.toList.flatMap escapeChar ++ '"' :: rest) := by
    simp [quote]
  rw [htext, readValue, skipBlanks_cons rfl]
  simp only [readString_quote, Option.map_some]

theorem readItems_skipBlanks (fuel : Nat) (cs : List Char) :
    readItems fuel (skipBlanks cs) = readItems fuel cs := by
  obtain _ | fuel := fuel
  · rfl
  · rw [readItems, readItems, readValue_skipBlanks]

theorem readItems_close (fuel : Nat) (cs : List Char) : readItems fuel (']' :: cs) = none := by
  obtain _ | _ | fuel := fuel <;> rfl

theorem readMembers_skipBlanks (fuel : Nat) (cs : List Char) :
    readMembers fuel (skipBlanks cs) = readMembers fuel cs := by
  obtain _ | fuel := fuel
  · rfl
  · rw [readMembers, readMembers, skipBlanks_skipBlanks]

theorem readMembers_close (fuel : Nat) (cs : List Char) :
    readMembers fuel ('\x7d' :: cs) = none := by
  obtain _ | fuel := fuel <;> rfl

theorem endsNumber_append {bs : List Char} (hbs : ∀ c ∈ bs, isBlank c) {c : Char}
    (cs : List Char) (hc : endsNumber [c]) : endsNumber (bs ++ c :: cs) := by
  cases bs with
  | nil => exact hc
  | cons b bs =>
    have hb := hbs b List.mem_cons_self
    simp only [isBlank, Bool.or_eq_true, decide_eq_true_eq] at hb
    rcases hb with ((rfl | rfl) | rfl) | rfl <;> rfl

theorem ReadsItems.arr {text : List Char} {items : List Json} (h : ReadsItems text items) :
    Reads ('[' :: text) (arr items) := by
  refine reads_of_succ (List.cons_ne_nil _ _) fun fuel rest _ hfuel => ?_
  rw [List.length_cons] at hfuel
  have hitems := h fuel rest (by omega)
  rw [← readItems_skipBlanks] at hitems
  rw [List.cons_append, readValue, skipBlanks_cons rfl]
  simp only
  split
  · -- no item starts with a closing bracket
    rename_i heq
    rw [heq, readItems_close] at hitems
    cases hitems
  · rw [hitems, Option.map_some]

theorem ReadsMembers.obj {text : List Char} {members : List (Option String × Json)}
    (h : ReadsMembers text members) : Reads ('\x7b' :: text) (obj members) := by
  refine reads_of_succ (List.cons_ne_nil _ _) fun fuel rest _ hfuel => ?_
  rw [List.length_cons] at hfuel
  have hmembers := h fuel rest (by omega)
  rw [← readMembers_skipBlanks] at hmembers
  rw [List.cons_append, readValue, skipBlanks_cons rfl]
  simp only
  split
  · rename_i heq
    rw [heq, readMembers_close] at hmembers
    cases hmembers
  · rw [hmembers, Option.map_some]

theorem ReadsItems.last {text bs : List Char} {j : Json} (h : Reads text j)
    (hbs : ∀ c ∈ bs, isBlank c) : ReadsItems (text ++ bs ++ [']']) [j] := by
  intro fuel rest hfuel
  obtain _ | fuel := fuel
  · simp at hfuel
  · simp only [List.length_append, List.length_singleton] at hfuel
    have hvalue := h fuel (bs ++ ']' :: rest) (endsNumber_append hbs rest rfl) (by omega)
    rw [List.append_assoc, List.append_assoc, readItems, List.singleton_append, hvalue]
    simp only [skipBlanks_append hbs, skipBlanks_cons (c := ']') rfl]

theorem ReadsItems.cons {text more : List Char} {j : Json} {items : List Json} (h : Reads text j)
    (hmore : ReadsItems more items) : ReadsItems (text ++ ',' :: more) (j :: items) := by
  intro fuel rest hfuel
  obtain _ | fuel := fuel
  · simp at hfuel
  · simp only [List.length_append, List.length_cons] at hfuel
    have hvalue := h fuel (',' :: more ++ rest) rfl (by omega)
    rw [List.append_assoc, readItems, hvalue]
    simp only [List.cons_append, skipBlanks_cons (c := ',') rfl, hmore fuel rest (by omega),
      Option.map_some]

/-- After a member the members go on at a comma and end at a bracket. -/
theorem readMembers_member {text bs tail : List Char} {j : Json} {fuel : Nat} (key : String)
    (h : Reads text j) (hbs : ∀ c ∈ bs, isBlank c) (htail : endsNumber tail)
    (hfuel : 2 * text.length ≤ fuel) (rest : List Char) :
    (skipBlanks tail = ',' :: rest →
      readMembers (fuel + 1) (bs ++ quote key ++ ':' :: text ++ tail) =
        (readMembers fuel rest).map fun r => ((some key, j) :: r.1, r.2)) ∧
    (skipBlanks tail = '\x7d' :: rest →
      readMembers (fuel + 1) (bs ++ quote key ++ ':' :: text ++ tail) =
        some ([(some key, j)], rest)) := by
  have htext : bs ++ quote key ++ ':' :: text ++ tail =
      bs ++ '"' :: (key.toList.flatMap escapeChar ++ '"' :: ':' :: (text ++ tail)) := by
    simp [quote]
  rw [htext, readMembers, skipBlanks_append hbs, skipBlanks_cons rfl]
  simp only [readString_quote, skipBlanks_cons (c := ':') rfl, h fuel tail htail hfuel]
  constructor
  · intro hnext
    simp only [hnext]
  · intro hnext
    simp only [hnext]

theorem ReadsMembers.last {text bs bs' : List Char} {j : Json} (key : String) (h : Reads text j)
    (hbs : ∀ c ∈ bs, isBlank c) (hbs' : ∀ c ∈ bs', isBlank c) :
    ReadsMembers (bs ++ quote key ++ ':' :: text ++ bs' ++ ['\x7d']) [(some key, j)] := by
  intro fuel rest hfuel
  obtain _ | fuel := fuel
  · simp at hfuel
  · simp only [List.length_append, List.length_cons] at hfuel
    have hnext : skipBlanks (bs' ++ '\x7d' :: rest) = '\x7d' :: rest := by
      rw [skipBlanks_append hbs', skipBlanks_cons rfl]
    rw [List.append_assoc, List.append_assoc _ bs', List.singleton_append]
    exact (readMembers_member key h hbs (endsNumber_append hbs' rest rfl) (by omega) rest).2 hnext

theorem ReadsMembers.cons {text bs more : List Char} {j : Json}
    {members : List (Option String × Json)} (key : String) (h : Reads text j)
    (hbs : ∀ c ∈ bs, isBlank c) (hmore : ReadsMembers more members) :
    ReadsMembers (bs ++ quote key ++ ':' :: text ++ ',' :: more) ((some key, j) :: members) := by
  intro fuel rest hfuel
  obtain _ | fuel := fuel
  · simp at hfuel
  · simp only [List.length_append, List.length_cons] at hfuel
    have hnext : skipBlanks (',' :: (more ++ rest)) = ',' :: (more ++ rest) := skipBlanks_cons rfl _
    rw [List.append_assoc, List.cons_append,
      (readMembers_member key h hbs rfl (by omega) (more ++ rest)).1 hnext,
      hmore fuel rest (by omega), Option.map_some]

/-! ## The text of a value -/

/-- The layout has only blanks. -/
structure Layout.Blank (l : Layout) : Prop where
  lead : ∀ d, ∀ c ∈ l.lead d, isBlank c
  afterColon : ∀ c ∈ l.afterColon, isBlank c

theorem Layout.blank_compact : Layout.compact.Blank where
  lead _ _ h := by cases h
  afterColon _ h := by cases h

theorem Layout.blank_pretty : Layout.pretty.Blank where
  lead d c hc := by
    rcases List.mem_cons.1 hc with rfl | hc
    · rfl
    · rw [List.eq_of_mem_replicate hc]
      rfl
  afterColon c hc := by
    rw [List.mem_singleton.1 hc]
    rfl

mutual

/-- Whether every leaf and every key has a value. -/
def isPlain : Json → Bool
  | null | bool _ => true
  | num n => n.isSome
  | str s => s.isSome
  | arr items => itemsPlain items
  | obj members => membersPlain members

/-- Whether all items of an array are plain. -/
def itemsPlain : List Json → Bool
  | [] => true
  | item :: rest => isPlain item && itemsPlain rest

/-- Whether all keys have a value and all values are plain. -/
def membersPlain : List (Option String × Json) → Bool
  | [] => true
  | (key, value) :: rest => key.isSome && isPlain value && membersPlain rest

end

theorem membersPlain_map {members : List (String × Json)} :
    membersPlain (members.map fun m => (some m.1, m.2)) = members.all fun m => m.2.isPlain := by
  induction members with
  | nil => rfl
  | cons m rest ih => simp [membersPlain, ih]

theorem isPlain_record {members : List (String × Json)} :
    (record members).isPlain = members.all fun m => m.2.isPlain :=
  membersPlain_map

section Write

variable {l : Layout}

mutual

theorem reads_write (hl : l.Blank) (d : Nat) (j : Json) (hj : j.isPlain) :
    Reads (write l d j) j := by
  match j with
  | null => exact reads_of_succ (List.cons_ne_nil _ _) fun _ _ _ _ => rfl
  | bool true => exact reads_of_succ (List.cons_ne_nil _ _) fun _ _ _ _ => rfl
  | bool false => exact reads_of_succ (List.cons_ne_nil _ _) fun _ _ _ _ => rfl
  | num (some n) => exact reads_num n
  | str (some s) => exact reads_str s
  | arr [] => exact reads_of_succ (List.cons_ne_nil _ _) fun _ _ _ _ => rfl
  | arr (item :: items) =>
    simp only [isPlain, itemsPlain, Bool.and_eq_true] at hj
    have hitem := (reads_write hl (d + 1) item hj.1).lead (hl.lead (d + 1))
    have hitems := readsItems_write hl (d + 1) items hj.2 hitem (hl.lead d)
    simpa [write] using hitems.arr
  | obj [] => exact reads_of_succ (List.cons_ne_nil _ _) fun _ _ _ _ => rfl
  | obj ((some key, value) :: members) =>
    simp only [isPlain, membersPlain, Bool.and_eq_true] at hj
    have hvalue := (reads_write hl (d + 1) value hj.1.2).lead hl.afterColon
    have hmembers := readsMembers_write hl (d + 1) members hj.2 key hvalue (hl.lead (d + 1))
      (hl.lead d)
    simpa [write, writeMember] using hmembers.obj

theorem readsItems_write (hl : l.Blank) (d : Nat) (items : List Json) (hitems : itemsPlain items)
    {text bs : List Char} {j : Json} (h : Reads text j) (hbs : ∀ c ∈ bs, isBlank c) :
    ReadsItems (text ++ writeItems l d items ++ bs ++ [']']) (j :: items) := by
  match items with
  | [] => simpa [writeItems] using ReadsItems.last h hbs
  | item :: rest =>
    simp only [itemsPlain, Bool.and_eq_true] at hitems
    have hitem := (reads_write hl d item hitems.1).lead (hl.lead d)
    have hrest := readsItems_write hl d rest hitems.2 hitem hbs
    simpa [writeItems] using ReadsItems.cons h hrest

theorem readsMembers_write (hl : l.Blank) (d : Nat) (members : List (Option String × Json))
    (hmembers : membersPlain members) (key : String)
    {text bs bs' : List Char} {j : Json} (h : Reads text j)
    (hbs : ∀ c ∈ bs, isBlank c) (hbs' : ∀ c ∈ bs', isBlank c) :
    ReadsMembers (bs ++ quote key ++ ':' :: text ++ writeMembers l d members ++ bs' ++ ['\x7d'])
      ((some key, j) :: members) := by
  match members with
  | [] => simpa [writeMembers] using ReadsMembers.last key h hbs hbs'
  | (some key', value) :: rest =>
    simp only [membersPlain, Bool.and_eq_true] at hmembers
    have hvalue := (reads_write hl d value hmembers.1.2).lead hl.afterColon
    have hrest := readsMembers_write hl d rest hmembers.2 key' hvalue (hl.lead d) hbs'
    simpa [writeMembers, writeMember] using ReadsMembers.cons key h hbs hrest

end

/-- A plain value is read back from its text. -/
theorem parse?_write (hl : l.Blank) {j : Json} (hj : j.isPlain) :
    parse? (String.ofList (write l 0 j)) = some j := by
  have h := reads_write hl 0 j hj (2 * (write l 0 j).length + 2) [] rfl (by omega)
  rw [List.append_nil] at h
  simp [parse?, h, skipBlanks]

end Write

theorem parse?_compact {j : Json} (hj : j.isPlain) : parse? j.compact = some j :=
  parse?_write Layout.blank_compact hj

theorem parse?_pretty {j : Json} (hj : j.isPlain) : parse? j.pretty = some j :=
  parse?_write Layout.blank_pretty hj

end Demanded.Json
