import PredictiveParsing.Text.Layout
import PredictiveParsing.Text.Quoted

/-!
# Data of clients

Requests, options, tokens and lexical units carry data that the client
chose: numbers, texts, switches, lists and objects. They are compared by
structure and shown in two ways. A datum inside another one, or one that a
message points out as wrong, is shown as a literal with its texts quoted; a
datum on its own is displayed, which leaves a text as it is.
-/

namespace PredictiveParsing

/-- A datum of a client. -/
inductive Datum where
  /-- No value. -/
  | null
  /-- A switch. -/
  | bool (value : Bool)
  /-- An integer of any size. -/
  | int (value : Int)
  /-- A text. -/
  | text (value : String)
  /-- A list of data. -/
  | list (items : List Datum)
  /-- Named data. -/
  | object (fields : List (String × Datum))
  deriving Inhabited

namespace Datum

mutual

/-- Equality by structure, as a test. -/
def same : Datum → Datum → Bool
  | .null, .null => true
  | .bool a, .bool b => a == b
  | .int a, .int b => a == b
  | .text a, .text b => a == b
  | .list a, .list b => sameItems a b
  | .object a, .object b => sameFields a b
  | _, _ => false

/-- Equality of lists of data, item by item. -/
def sameItems : List Datum → List Datum → Bool
  | [], [] => true
  | a :: as, b :: bs => same a b && sameItems as bs
  | _, _ => false

/-- Equality of the fields of two objects, field by field. -/
def sameFields : List (String × Datum) → List (String × Datum) → Bool
  | [], [] => true
  | (k, a) :: as, (l, b) :: bs => k == l && same a b && sameFields as bs
  | _, _ => false

end

mutual

theorem same_refl : ∀ d : Datum, same d d = true
  | .null => by simp [same]
  | .bool _ => by simp [same]
  | .int _ => by simp [same]
  | .text _ => by simp [same]
  | .list items => by simp [same, sameItems_refl items]
  | .object fields => by simp [same, sameFields_refl fields]

theorem sameItems_refl : ∀ items : List Datum, sameItems items items = true
  | [] => by simp [sameItems]
  | d :: rest => by simp [sameItems, same_refl d, sameItems_refl rest]

theorem sameFields_refl : ∀ fields : List (String × Datum), sameFields fields fields = true
  | [] => by simp [sameFields]
  | (_, d) :: rest => by simp [sameFields, same_refl d, sameFields_refl rest]

end

mutual

theorem eq_of_same : ∀ {a b : Datum}, same a b = true → a = b
  | .null, b, h => by cases b <;> simp_all [same]
  | .bool _, b, h => by cases b <;> simp_all [same]
  | .int _, b, h => by cases b <;> simp_all [same]
  | .text _, b, h => by cases b <;> simp_all [same]
  | .list items, b, h => by
    cases b <;> simp only [same, Bool.false_eq_true] at h
    exact congrArg _ (eq_of_sameItems h)
  | .object fields, b, h => by
    cases b <;> simp only [same, Bool.false_eq_true] at h
    exact congrArg _ (eq_of_sameFields h)

theorem eq_of_sameItems : ∀ {a b : List Datum}, sameItems a b = true → a = b
  | [], b, h => by cases b <;> simp_all [sameItems]
  | d :: rest, b, h => by
    cases b with
    | nil => simp [sameItems] at h
    | cons e more =>
      simp only [sameItems, Bool.and_eq_true] at h
      rw [eq_of_same h.1, eq_of_sameItems h.2]

theorem eq_of_sameFields : ∀ {a b : List (String × Datum)}, sameFields a b = true → a = b
  | [], b, h => by cases b <;> simp_all [sameFields]
  | (k, d) :: rest, b, h => by
    cases b with
    | nil => simp [sameFields] at h
    | cons field more =>
      obtain ⟨l, e⟩ := field
      simp only [sameFields, Bool.and_eq_true, beq_iff_eq] at h
      rw [h.1.1, eq_of_same h.1.2, eq_of_sameFields h.2]

end

/-- The test for equality decides it. -/
theorem same_iff {a b : Datum} : same a b = true ↔ a = b :=
  ⟨eq_of_same, fun h => h ▸ same_refl a⟩

instance : DecidableEq Datum := fun _ _ => decidable_of_iff _ same_iff

mutual

/-- A datum as it stands inside another one. -/
def literal : Datum → String
  | .null => "None"
  | .bool true => "True"
  | .bool false => "False"
  | .int n => toString n
  | .text s => Text.quote s
  | .list items => "[" ++ Text.join ", " (literals items) ++ "]"
  | .object fields => "\x7b" ++ Text.join ", " (fieldLiterals fields) ++ "\x7d"

/-- The literals of the items of a list. -/
def literals : List Datum → List String
  | [] => []
  | d :: rest => literal d :: literals rest

/-- The fields of an object, each name quoted before its datum. -/
def fieldLiterals : List (String × Datum) → List String
  | [] => []
  | (name, d) :: rest => (Text.quote name ++ ": " ++ literal d) :: fieldLiterals rest

end

/-- A datum on its own: a text is shown without quotation marks. -/
def display : Datum → String
  | .text s => s
  | d => literal d

@[simp] theorem display_text (s : String) : display (.text s) = s := rfl

/-- What messages call the kind of a datum. -/
def kindName : Datum → String
  | .null => "NoneType"
  | .bool _ => "bool"
  | .int _ => "int"
  | .text _ => "str"
  | .list _ => "list"
  | .object _ => "dict"

/-- Whether a datum counts as absent: no value, a switch that is off, zero,
and the empty text, list and object. -/
def isVacant : Datum → Bool
  | .null => true
  | .bool b => !b
  | .int n => n == 0
  | .text s => s == ""
  | .list items => items.isEmpty
  | .object fields => fields.isEmpty

/-- Whether a datum has no parts. Lists and objects cannot be collected in
a set or looked up by value. -/
def isScalar : Datum → Bool
  | .list _ => false
  | .object _ => false
  | _ => true

/-- The datum of a name in a list of fields, if the name occurs. -/
def field? (name : String) : List (String × Datum) → Option Datum
  | [] => none
  | (key, d) :: rest => if key = name then some d else field? name rest

end Datum

end PredictiveParsing
