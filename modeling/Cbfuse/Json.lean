import Cbfuse.Path

/-!
# JSON documents

The tree cJSON keeps of a document, with the operations the directory code
uses on it. An object is the list of its items in order: a lookup finds
the first item of the name, and a replacement puts the new value where
that item stood.

The text of a document is only ever handed to cJSON, so it is kept as an
arbitrary type with a parser and a printer, the class `CJson`. What the
code relies on is that a printed document parses to itself. Printing
fails only when cJSON runs out of memory, which is not modelled.
-/

/-- A cJSON item. -/
inductive Json where
  /-- `null` -/
  | null
  /-- `true` and `false` -/
  | bool (b : Bool)
  /-- A number, by its text. -/
  | number (text : CString)
  /-- A string. -/
  | string (s : CString)
  /-- An array. -/
  | array (items : List Json)
  /-- An object: its items with their names, in order. -/
  | object (items : List (CString × Json))

namespace Json

/-- `cJSON_GetStringValue`: the value of a string, and `NULL` for any
other item. `cJSON_IsString` is that it is not `NULL`. -/
def getStringValue : Json → Option CString
  | string s => some s
  | _ => none

/-- The items of an array, and nothing for any other item – `NULL`
included, which is what an absent item is. -/
def arrayItems : Option Json → Option (List Json)
  | some (array items) => some items
  | _ => none

/-- `cJSON_GetObjectItemCaseSensitive`: the first item of that name. -/
def getObjectItemCaseSensitive (j : Option Json) (name : CString) : Option Json :=
  match j with
  | some (object items) => (items.find? (fun it => it.1 = name)).map Prod.snd
  | _ => none

/-- The items with the first one of that name replaced. -/
def replaceFirst (name : CString) (v : Json) : List (CString × Json) → List (CString × Json)
  | [] => []
  | it :: items => if it.1 = name then (name, v) :: items else it :: replaceFirst name v items

/-- `cJSON_ReplaceItemInObjectCaseSensitive`: the first item of that name
gets the new value; an object without one stays as it is. -/
def replaceItemInObjectCaseSensitive (j : Json) (name : CString) (v : Json) : Json :=
  match j with
  | object items => object (replaceFirst name v items)
  | j => j

theorem find?_replaceFirst {name : CString} {v : Json} {items : List (CString × Json)}
    (h : (items.find? (fun it => it.1 = name)).isSome) :
    (replaceFirst name v items).find? (fun it => it.1 = name) = some (name, v) := by
  induction items with
  | nil => simp at h
  | cons it items ih =>
    by_cases hn : it.1 = name
    · simp [replaceFirst, hn]
    · rw [List.find?_cons_of_neg (by simpa using hn)] at h
      rw [replaceFirst, if_neg hn, List.find?_cons_of_neg (by simpa using hn)]
      exact ih h

theorem find?_replaceFirst_of_ne {name name' : CString} (hne : name' ≠ name) {v : Json}
    {items : List (CString × Json)} :
    (replaceFirst name v items).find? (fun it => it.1 = name')
      = items.find? (fun it => it.1 = name') := by
  induction items with
  | nil => rfl
  | cons it items ih =>
    by_cases hn : it.1 = name
    · have hn' : it.1 ≠ name' := fun e => hne (e.symm.trans hn)
      rw [replaceFirst, if_pos hn, List.find?_cons_of_neg (by simpa using hne.symm),
        List.find?_cons_of_neg (by simpa using hn')]
    · rw [replaceFirst, if_neg hn, List.find?_cons, List.find?_cons, ih]

/-- A replaced item is found again. -/
theorem get_replace {j : Json} {name : CString} {w : Json} (v : Json)
    (h : getObjectItemCaseSensitive (some j) name = some w) :
    getObjectItemCaseSensitive (some (j.replaceItemInObjectCaseSensitive name v)) name
      = some v := by
  cases j with
  | object items =>
    have hs : (items.find? (fun it => it.1 = name)).isSome := by
      obtain ⟨it, hit, -⟩ := Option.map_eq_some_iff.mp h
      rw [hit]
      rfl
    show ((replaceFirst name v items).find? (fun it => it.1 = name)).map Prod.snd = _
    rw [find?_replaceFirst hs]
    rfl
  | null => cases h
  | bool b => cases h
  | number t => cases h
  | string s => cases h
  | array items => cases h

/-- Replacing an item leaves the others. -/
theorem get_replace_of_ne {name name' : CString} (hne : name' ≠ name) (j v : Json) :
    getObjectItemCaseSensitive (some (j.replaceItemInObjectCaseSensitive name v)) name'
      = getObjectItemCaseSensitive (some j) name' := by
  cases j with
  | object items =>
    show ((replaceFirst name v items).find? (fun it => it.1 = name')).map Prod.snd = _
    rw [find?_replaceFirst_of_ne hne]
    rfl
  | null => rfl
  | bool b => rfl
  | number t => rfl
  | string s => rfl
  | array items => rfl

theorem replaceFirst_replaceFirst (name : CString) (v w : Json) (items : List (CString × Json)) :
    replaceFirst name v (replaceFirst name w items) = replaceFirst name v items := by
  induction items with
  | nil => rfl
  | cons it items ih =>
    by_cases hn : it.1 = name
    · simp [replaceFirst, hn]
    · simp [replaceFirst, hn, ih]

theorem replaceFirst_self {name : CString} {v : Json} {items : List (CString × Json)}
    (h : (items.find? (fun it => it.1 = name)).map Prod.snd = some v) :
    replaceFirst name v items = items := by
  induction items with
  | nil => rfl
  | cons it items ih =>
    by_cases hn : it.1 = name
    · rw [List.find?_cons_of_pos (by simpa using hn)] at h
      rw [replaceFirst, if_pos hn, ← Option.some.inj h, ← hn]
    · rw [List.find?_cons_of_neg (by simpa using hn)] at h
      rw [replaceFirst, if_neg hn, ih h]

/-- Of two replacements of an item the second is what counts. -/
theorem replace_replace (j : Json) (name : CString) (v w : Json) :
    (j.replaceItemInObjectCaseSensitive name w).replaceItemInObjectCaseSensitive name v
      = j.replaceItemInObjectCaseSensitive name v := by
  cases j with
  | object items => exact congrArg object (replaceFirst_replaceFirst name v w items)
  | null => rfl
  | bool b => rfl
  | number t => rfl
  | string s => rfl
  | array items => rfl

/-- Replacing an item by itself changes nothing. -/
theorem replace_self {j : Json} {name : CString} {v : Json}
    (h : getObjectItemCaseSensitive (some j) name = some v) :
    j.replaceItemInObjectCaseSensitive name v = j := by
  cases j with
  | object items => exact congrArg object (replaceFirst_self h)
  | null => rfl
  | bool b => rfl
  | number t => rfl
  | string s => rfl
  | array items => rfl

end Json

/-- **What the code needs of cJSON**: a parser and a printer of document
texts, such that a printed document parses to itself. -/
class CJson (Text : Type) where
  /-- `cJSON_ParseWithLength`: `none` is `NULL`. -/
  parse : Text → Option Json
  /-- `cJSON_PrintUnformatted`. -/
  printUnformatted : Json → Text
  /-- A printed document parses to itself. -/
  parse_print : ∀ j, parse (printUnformatted j) = some j

/-- Texts up to what cJSON makes of them: a text that parses is its tree,
and all others are one. It is the coarsest instance, and enough to run the
code on. -/
instance : CJson (Option Json) where
  parse := id
  printUnformatted := some
  parse_print _ := rfl
