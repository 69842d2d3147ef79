import Mathlib.Data.List.Infix

/-! JSON values and their texts. Numbers are integers or values of a type of their own, objects keep
the order of their fields. A text may have whitespace behind its commas and colons; without any it is
the compact text. -/
namespace ModelGateway.Json
open List Nat

abbrev Text := List Char

/-- Named once for every definition that looks a text up in a list. -/
scoped instance lawfulText : LawfulBEq Text := inferInstance

inductive Value (F : Type) where
  | null
  | bool (value : Bool)
  | int (value : Int)
  | float (value : F)
  | string (text : Text)
  | array (items : List (Value F))
  | object (fields : List (Text × Value F))

variable {F : Type} {fields : List (Text × Value F)}

@[elab_as_elim, induction_eliminator]
theorem Value.induction {motive : Value F → Prop} (null : motive .null) (bool : ∀ value, motive (.bool value))
    (int : ∀ value, motive (.int value)) (float : ∀ value, motive (.float value))
    (string : ∀ text, motive (.string text))
    (array : ∀ items, (∀ item ∈ items, motive item) → motive (.array items))
    (object : ∀ fields, (∀ field ∈ fields, motive field.2) → motive (.object fields)) (value : Value F) :
    motive value := by
  refine @Value.rec F motive (fun items => ∀ item ∈ items, motive item)
    (fun fields => ∀ field ∈ fields, motive field.2) (fun field => motive field.2)
    null bool int float string array object ?_ ?_ ?_ ?_ ?_ value
  · exact forall_mem_nil _
  · exact fun first rest here later => forall_mem_cons.mpr ⟨here, later⟩
  · exact forall_mem_nil _
  · exact fun first rest here later => forall_mem_cons.mpr ⟨here, later⟩
  · exact fun _ _ here => here

/-! ### Fields of an object -/

namespace Value

/-- The field of an object. -/
def get (key : Text) : Value F → Option (Value F)
  | .object fields => (fields.find? fun field => field.1 = key).map Prod.snd
  | _ => none

def asStr : Value F → Option Text
  | .string text => some text
  | _ => none

end Value

/-- Sets a field; a key that is there keeps its place. -/
def insertField (fields : List (Text × Value F)) (key : Text) (value : Value F) : List (Text × Value F) :=
  if fields.any fun field => field.1 = key then
    fields.map fun field => if field.1 = key then (key, value) else field
  else fields ++ [(key, value)]

theorem insertField_of_fresh {key : Text} {value : Value F} (fresh : ∀ field ∈ fields, field.1 ≠ key) :
    insertField fields key value = fields ++ [(key, value)] := by
  rw [insertField, if_neg]
  rw [any_eq_true]
  rintro ⟨field, mem, same⟩
  exact fresh field mem (of_decide_eq_true same)

/-! ### Texts -/

theorem forall_mem_of_all {P : Char → Prop} [DecidablePred P] {text : Text}
    (all : (text.all fun char => P char) = true) : ∀ char ∈ text, P char := by
  intro char mem
  exact of_decide_eq_true (all_eq_true.mp all char mem)

def escapeChar (char : Char) : Text :=
  if char = '\x22' then ['\x5c', '\x22']
  else if char = '\x5c' then ['\x5c', '\x5c']
  else if char = '\x08' then ['\x5c', 'b']
  else if char = '\x09' then ['\x5c', 't']
  else if char = '\x0a' then ['\x5c', 'n']
  else if char = '\x0c' then ['\x5c', 'f']
  else if char = '\x0d' then ['\x5c', 'r']
  else if char.toNat < 32 then
    ['\x5c', 'u', '0', '0', digitChar (char.toNat / 16), digitChar (char.toNat % 16)]
  else [char]

def escape (text : Text) : Text := text.flatMap escapeChar

/-- A string between quotes. -/
def quoted (text : Text) : Text := '\x22' :: (escape text ++ ['\x22'])

def intText (value : Int) : Text :=
  if value < 0 then '-' :: toDigits 10 value.natAbs else toDigits 10 value.natAbs

/-- The whitespace of a text. -/
structure Style where
  afterComma : Text
  afterColon : Text
  blank : ∀ char ∈ afterComma ++ afterColon, char ∈ [' ', '\x09', '\x0a', '\x0d']

def Style.compact : Style := ⟨[], [], nofun⟩

section Render
variable (fmt : F → Text) (style : Style)

mutual
/-- The text of a value. -/
def render : Value F → Text
  | .null => "null".toList
  | .bool value => if value then "true".toList else "false".toList
  | .int value => intText value
  | .float value => fmt value
  | .string text => quoted text
  | .array items => '[' :: renderItems items
  | .object fields => '\x7b' :: renderFields fields

/-- The items of an array, to its end. -/
def renderItems : List (Value F) → Text
  | [] => [']']
  | first :: rest => render first ++ renderMoreItems rest

def renderMoreItems : List (Value F) → Text
  | [] => [']']
  | next :: rest => ',' :: (style.afterComma ++ (render next ++ renderMoreItems rest))

/-- The fields of an object, to its end. -/
def renderFields : List (Text × Value F) → Text
  | [] => ['\x7d']
  | (key, value) :: rest =>
    quoted key ++ ':' :: (style.afterColon ++ (render value ++ renderMoreFields rest))

def renderMoreFields : List (Text × Value F) → Text
  | [] => ['\x7d']
  | (key, value) :: rest => ',' :: (style.afterComma ++
      (quoted key ++ ':' :: (style.afterColon ++ (render value ++ renderMoreFields rest))))
end

theorem renderMoreItems_cons (next : Value F) (rest : List (Value F)) :
    renderMoreItems fmt style (next :: rest) =
      ',' :: (style.afterComma ++ renderItems fmt style (next :: rest)) := by
  rw [renderMoreItems, renderItems]

theorem renderMoreFields_cons (next : Text × Value F) (rest : List (Text × Value F)) :
    renderMoreFields fmt style (next :: rest) =
      ',' :: (style.afterComma ++ renderFields fmt style (next :: rest)) := by
  rw [renderMoreFields, renderFields]

end Render

/-- `serde_json::to_string`. -/
def serialize (fmt : F → Text) (value : Value F) : Text := render fmt .compact value

mutual
/-- How many arrays and objects lie inside each other. -/
def nesting : Value F → Nat
  | .array items => nestingItems items + 1
  | .object fields => nestingFields fields + 1
  | _ => 0

def nestingItems : List (Value F) → Nat
  | [] => 0
  | first :: rest => max (nesting first) (nestingItems rest)

def nestingFields : List (Text × Value F) → Nat
  | [] => 0
  | (_, value) :: rest => max (nesting value) (nestingFields rest)
end

theorem nesting_item {items : List (Value F)} {item : Value F} (mem : item ∈ items) :
    nesting item ≤ nestingItems items := by
  induction items with
  | nil => exact nomatch mem
  | cons first rest ih =>
    rw [nestingItems]
    rcases mem_cons.mp mem with rfl | mem
    · exact le_max_left _ _
    · exact le_trans (ih mem) (le_max_right _ _)

theorem nesting_field {field : Text × Value F} (mem : field ∈ fields) :
    nesting field.2 ≤ nestingFields fields := by
  induction fields with
  | nil => exact nomatch mem
  | cons first rest ih =>
    rw [nestingFields]
    rcases mem_cons.mp mem with rfl | mem
    · exact le_max_left _ _
    · exact le_trans (ih mem) (le_max_right _ _)

end ModelGateway.Json
