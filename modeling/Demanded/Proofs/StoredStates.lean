import Demanded.Proofs.Containers
import Demanded.Proofs.JsonText
import Demanded.State.Store

/-!
# Stored states are restored

A state is stored as text and restored from it as it was (`State.decode_encode`), whatever its keys
and bounds are: crossed and infinite bounds, the extreme words and keys of any characters included.
The proof goes through the tree of the text.  A stored state is a plain value, so its text is read
back (`Json.parse?_pretty`), and the decoders invert the encoders form by form (`ofJson?_toJson`).

What the text is does not need the tree: `State.storedText` writes it down line by line, and
`encode_eq_storedText` says that it is the text that is stored.
-/

namespace Demanded

open Json

/-! ## Shapes and layouts -/

namespace Json

theorem unitTag?_tag_record (levels : Nat) (name : String) (members : List (String × Json)) :
    (tag name (record members)).unitTag? levels = none := rfl

theorem tagged?_tag (name : String) (value : Json) :
    (tag name value).tagged? = some (name, value) := rfl

theorem Layout.lead_pretty (d : Nat) :
    Layout.pretty.lead d = '\n' :: List.replicate (2 * d) ' ' := rfl

theorem Layout.afterColon_pretty : Layout.pretty.afterColon = [' '] := rfl

/-- An integer is written as usual. -/
theorem ofList_decimal (n : Int) : String.ofList (decimal n) = toString n := by
  cases n with
  | ofNat m => exact Nat.repr_eq_ofList_toDigits.symm
  | negSucc m =>
    have hrepr : toString (Int.negSucc m) = "-" ++ (m + 1).repr := rfl
    have hdecimal : decimal (Int.negSucc m) = '-' :: Nat.toDigits 10 (m + 1) :=
      if_pos (Int.negSucc_lt_zero m)
    rw [hrepr, hdecimal, Nat.repr_eq_ofList_toDigits, ← String.toList_inj]
    simp

end Json

/-! ## Trees -/

namespace Interval

theorem isPlain_boundToJson (b : Bound) : (boundToJson b).isPlain := by
  cases b <;> rfl

theorem isPlain_toJson (i : Interval) : i.toJson.isPlain := by
  cases i with
  | bottom => rfl
  | range l u => simp [toJson, Json.tag, isPlain_record, isPlain_boundToJson]

theorem boundOfJson?_boundToJson (b : Bound) : boundOfJson? (some (boundToJson b)) = some b := by
  cases b with
  | none => rfl
  | some v => simp [boundToJson, boundOfJson?, Json.int, word?, int?]

theorem ofJson?_toJson (levels : Nat) (i : Interval) :
    ofJson? (levels + 2) i.toJson = some i := by
  cases i with
  | bottom => rfl
  | range l u =>
    have hfields : (record [("lower", boundToJson l), ("upper", boundToJson u)]).fields?
        ["lower", "upper"] = some [some (boundToJson l), some (boundToJson u)] := rfl
    unfold ofJson?
    simp only [toJson, unitTag?_tag_record, tagged?_tag, hfields, boundOfJson?_boundToJson,
      reduceCtorEq, if_false]
    rfl

end Interval

namespace State

theorem isPlain_toJson (s : State) : s.toJson.isPlain := by
  cases s with
  | bottom => rfl
  | env m => simp [toJson, Json.tag, isPlain_record, Interval.isPlain_toJson]

theorem mapM_bindingOfJson? (levels : Nat) (entries : List (String × Interval)) :
    (entries.map fun e => (some e.1, e.2.toJson)).mapM (bindingOfJson? (levels + 2)) =
      some entries := by
  induction entries with
  | nil => rfl
  | cons e rest ih =>
    simp only [List.map_cons, List.mapM_cons, bindingOfJson?, Interval.ofJson?_toJson, ih]
    rfl

theorem ofJson?_toJson (levels : Nat) (s : State) : ofJson? (levels + 4) s.toJson = some s := by
  cases s with
  | bottom => rfl
  | env m =>
    unfold ofJson?
    simp only [toJson, unitTag?_tag_record, tagged?_tag, reduceCtorEq, if_false]
    simp only [record, List.map_map, Function.comp_def, mapM_bindingOfJson?, Option.map_some,
      OrdMap.ofList_entries]

theorem decode?_encode (s : State) : decode? s.encode = some s := by
  rw [decode?, encode, parse?_pretty s.isPlain_toJson, Option.bind_some]
  -- a stored state opens four objects at most
  exact ofJson?_toJson 123 s

end State

/-! ## Texts -/

namespace Interval

/-- The text of a bound. -/
def boundText : Bound → String
  | none => "null"
  | some v => toString v.val

/-- The text of an interval that is bound in a stored state. -/
def storedText : Interval → String
  | bottom => "\"Bottom\""
  | range l u =>
    "\x7b\n      \"Range\": \x7b\n        \"lower\": " ++ boundText l ++
      ",\n        \"upper\": " ++ boundText u ++ "\n      \x7d\n    \x7d"

theorem write_boundToJson (b : Bound) (d : Nat) :
    write .pretty d (boundToJson b) = (boundText b).toList := by
  cases b with
  | none => rfl
  | some v =>
    rw [boundText, ← ofList_decimal, String.toList_ofList]
    rfl

theorem write_toJson (i : Interval) : write .pretty 2 i.toJson = i.storedText.toList := by
  cases i with
  | bottom => rfl
  | range l u =>
    have hrange : quote "Range" = ['"', 'R', 'a', 'n', 'g', 'e', '"'] := by decide
    have hlower : quote "lower" = ['"', 'l', 'o', 'w', 'e', 'r', '"'] := by decide
    have hupper : quote "upper" = ['"', 'u', 'p', 'p', 'e', 'r', '"'] := by decide
    show _ = (_ ++ boundText l ++ _ ++ boundText u ++ _ : String).toList
    simp [toJson, Json.tag, record, write, writeMember, writeMembers, write_boundToJson,
      Layout.lead_pretty, Layout.afterColon_pretty, hrange, hlower, hupper, List.replicate]

end Interval

namespace State

/-- The line of a binding in a stored state. -/
def bindingText (e : String × Interval) : String :=
  "    " ++ String.ofList (quote e.1) ++ ": " ++ e.2.storedText

/-- The bindings of a stored state, one after the other. -/
def bindingsText (entries : List (String × Interval)) : String :=
  if entries = [] then "\x7b\x7d"
  else "\x7b\n" ++ String.intercalate ",\n" (entries.map bindingText) ++ "\n  \x7d"

/-- The text of a stored state. -/
def storedText : State → String
  | bottom => "\"Bottom\""
  | env m => "\x7b\n  \"Env\": " ++ bindingsText m.entries ++ "\n\x7d"

theorem write_binding (e : String × Interval) :
    "    ".toList ++ writeMember .pretty 2 (some e.1, e.2.toJson) = (bindingText e).toList := by
  simp [bindingText, writeMember, Layout.afterColon_pretty, Interval.write_toJson]

theorem write_bindings (e : String × Interval) (rest : List (String × Interval)) :
    "    ".toList ++ writeMember .pretty 2 (some e.1, e.2.toJson) ++
        writeMembers .pretty 2 (rest.map fun e => (some e.1, e.2.toJson)) =
      (String.intercalate ",\n" ((e :: rest).map bindingText)).toList := by
  induction rest generalizing e with
  | nil => simpa [writeMembers] using write_binding e
  | cons e' rest ih =>
    rw [List.map_cons (l := e' :: rest), String.intercalate_cons_of_ne_nil (by simp),
      String.toList_append, String.toList_append, ← ih, ← write_binding]
    simp [writeMembers, Layout.lead_pretty, List.replicate]

theorem write_record (entries : List (String × Interval)) :
    Json.write .pretty 1 (record (entries.map fun e => (e.1, e.2.toJson))) =
      (bindingsText entries).toList := by
  unfold bindingsText
  cases entries with
  | nil => rfl
  | cons e rest =>
    rw [if_neg (List.cons_ne_nil e rest), String.toList_append, String.toList_append,
      ← write_bindings]
    simp [record, Json.write, Layout.lead_pretty, List.replicate, Function.comp_def]

theorem encode_eq_storedText (s : State) : s.encode = s.storedText := by
  rw [← String.toList_inj, encode, pretty, String.toList_ofList]
  cases s with
  | bottom => rfl
  | env m =>
    have henv : quote "Env" = ['"', 'E', 'n', 'v', '"'] := by decide
    show Json.write .pretty 0 (obj [(some "Env", _)]) =
      (_ ++ bindingsText m.entries ++ _ : String).toList
    rw [String.toList_append, String.toList_append, ← write_record]
    simp [Json.write, writeMember, writeMembers, henv, Layout.lead_pretty,
      Layout.afterColon_pretty, List.replicate]

/-- A state is stored as the text `storedText` and restored from it as it was. -/
theorem decode_encode (s : State) :
    s.encode = s.storedText ∧ decode s.encode = .ok s ∧
      ∀ path, restore path (.ok s.encode) = .ok s := by
  have hdecode : decode s.encode = .ok s := by
    rw [decode, decode?_encode]
  exact ⟨encode_eq_storedText s, hdecode, fun _ => hdecode⟩

end State

end Demanded
