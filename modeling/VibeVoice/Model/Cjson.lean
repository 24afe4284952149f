import Mathlib.Data.List.TakeWhile
import VibeVoice.Lib.Utf8

/-!
The tree `cJSON_Parse` builds, as its callers walk it.

The parser itself and the conversion of its `double`s are parameters of the models that use them:
a tree carries its numbers in a type `δ` of their own.  Names and strings are byte strings.

* `Json.children`: `item->child` and its `next`s, each with its `string`.
* `Json.getObjectItem`: `cJSON_GetObjectItem`, which ignores the case of ASCII letters, as
  `cJSON_GetObjectItemCaseSensitive` does not.
-/

namespace VibeVoice

/-- A `cJSON` item. -/
inductive Json (δ : Type)
  | null
  | bool (b : Bool)
  | number (value : δ)
  | string (s : List UInt8)
  | array (items : List (Json δ))
  | object (members : List (List UInt8 × Json δ))

/-- A C string: the bytes up to the first NUL. -/
def cString (bytes : List UInt8) : List UInt8 := bytes.takeWhile (· ≠ 0)

lemma cString_eq_self {bytes : List UInt8} (h : 0 ∉ bytes) : cString bytes = bytes :=
  List.takeWhile_eq_self_iff.mpr fun b hb => by simpa using fun hb₀ : b = 0 => h (hb₀ ▸ hb)

lemma zero_not_mem_cString (s : List UInt8) : (0 : UInt8) ∉ cString s := by
  intro h
  have hne := List.mem_takeWhile_imp h
  simp at hne

/-- The bytes of a string literal. -/
def literal (s : String) : List UInt8 := Utf8.encode s.toList

namespace Json

variable {δ : Type}

/-- The items a `cJSON_ArrayForEach` runs over, with `item->string` where it is set. -/
def children : Json δ → List (Option (List UInt8) × Json δ)
  | .array items => items.map fun item => (none, item)
  | .object members => members.map fun m => (some m.1, m.2)
  | _ => []

/-- `tolower` of the C locale. -/
def toLower (b : UInt8) : UInt8 := if 65 ≤ b ∧ b ≤ 90 then b + 32 else b

/-- `case_insensitive_strcmp(...) == 0`. -/
def sameName (s s' : List UInt8) : Bool :=
  (cString s).map toLower == (cString s').map toLower

/-- `cJSON_GetObjectItem`. -/
def getObjectItem (item : Json δ) (name : List UInt8) : Option (Json δ) :=
  (item.children.find? fun c => c.1.any (sameName name)).map Prod.snd

/-- `cJSON_GetObjectItemCaseSensitive`. -/
def getObjectItemCaseSensitive (item : Json δ) (name : List UInt8) : Option (Json δ) :=
  (item.children.find? fun c => c.1.any fun n => cString n == cString name).map Prod.snd

lemma getObjectItem_cons (n : List UInt8) (item : Json δ)
    (ms : List (List UInt8 × Json δ)) (name : List UInt8) :
    (object ((n, item) :: ms)).getObjectItem name =
      if sameName name n then some item else (object ms).getObjectItem name := by
  rw [getObjectItem, children, List.map_cons, List.find?_cons]
  cases hname : sameName name n <;> simp [hname, getObjectItem, children]

/-- `cJSON_IsArray`. -/
def isArray : Json δ → Bool
  | .array _ => true
  | _ => false

/-- `cJSON_GetArrayItem`. -/
def getArrayItem (item : Json δ) (index : ℕ) : Option (Json δ) :=
  (item.children[index]?).map Prod.snd

/-- `cJSON_IsTrue`. -/
def isTrue : Json δ → Bool
  | .bool b => b
  | _ => false

/-- `item->valuestring`, `none` for `NULL`. -/
def valueString : Json δ → Option (List UInt8)
  | .string s => some (cString s)
  | _ => none

/-- `item->valuedouble` through a conversion `cast`; an item that is no number has `0`. -/
def valueDouble {β : Type} [Zero β] (cast : δ → β) : Json δ → β
  | .number value => cast value
  | _ => 0

end Json

end VibeVoice
