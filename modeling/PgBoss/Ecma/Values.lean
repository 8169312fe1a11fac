import Mathlib

/-!
# Script values

The values a caller may pass to a function of a dynamically typed language, and the tests such a function
makes of them. A value is truthy, has a type and is compared with a number whatever it is; what strings and
objects are as numbers and as text is a parameter, since an object answers with code of its own.
-/

namespace Ecma

/-- A number, with the values arithmetic may end in. -/
inductive Number
  | finite (value : ℚ)
  | infinity (negative : Bool)
  | nan
  deriving DecidableEq

/-- A value. A date is known by its ISO text, which an invalid one has not. -/
inductive Value
  | undefined
  | null
  | boolean (value : Bool)
  | number (value : Number)
  | string (value : String)
  | function
  | date (iso : Option String)
  | object (properties : String → Option Value)

/-- The properties of an object by name. -/
abbrev Properties := String → Option Value

namespace Properties

/-- The property, or `undefined`. -/
def get (o : Properties) (name : String) : Value := (o name).getD .undefined

/-- `name in o`. -/
def has (o : Properties) (name : String) : Bool := (o name).isSome

/-- `o[name] = value`. -/
def set (o : Properties) (name : String) (value : Value) : Properties := Function.update o name (some value)

@[simp] theorem get_set_of_ne {o : Properties} {name other : String} {value : Value} (h : other ≠ name) :
    (o.set name value).get other = o.get other := by
  simp [get, set, h]

@[simp] theorem has_set_of_ne {o : Properties} {name other : String} {value : Value} (h : other ≠ name) :
    (o.set name value).has other = o.has other := by
  simp [has, set, h]

@[simp] theorem get_set_self {o : Properties} {name : String} {value : Value} : (o.set name value).get name = value := by
  simp [get, set]

end Properties

namespace Value

/-- `typeof`. -/
def typeOf : Value → String
  | undefined => "undefined"
  | null | date _ | object _ => "object"
  | boolean _ => "boolean"
  | number _ => "number"
  | string _ => "string"
  | function => "function"

/-- `!!value`. -/
def truthy : Value → Bool
  | undefined | null => false
  | boolean value => value
  | number (.finite value) => decide (value ≠ 0)
  | number (.infinity _) => true
  | number .nan => false
  | string value => decide (value ≠ "")
  | function | date _ | object _ => true

/-- `Number.isInteger(value)`. -/
def isInteger : Value → Bool
  | number (.finite value) => decide (value.den = 1)
  | _ => false

/-- The properties that a spread copies. -/
def properties : Value → Properties
  | object properties => properties
  | _ => fun _ => none

/-- The value is `undefined`. -/
def isUndefined : Value → Bool
  | undefined => true
  | _ => false

/-- The value is `null`. -/
def isNull : Value → Bool
  | null => true
  | _ => false

end Value

/-- What strings, functions and objects are as numbers, and what values are as text. -/
structure Coercion where
  stringToNumber : String → Number
  objectToNumber : Value → Number
  toText : Value → String

namespace Coercion

/-- The number a value is compared as. -/
def toNumber (c : Coercion) : Value → Number
  | .undefined => .nan
  | .null => .finite 0
  | .boolean value => .finite (if value then 1 else 0)
  | .number value => value
  | .string value => c.stringToNumber value
  | value => c.objectToNumber value

/-- `value >= bound`. -/
def atLeast (c : Coercion) (value : Value) (bound : ℚ) : Bool :=
  match c.toNumber value with
  | .finite value => decide (bound ≤ value)
  | .infinity negative => !negative
  | .nan => false

/-- `value <= bound`. -/
def atMost (c : Coercion) (value : Value) (bound : ℚ) : Bool :=
  match c.toNumber value with
  | .finite value => decide (value ≤ bound)
  | .infinity negative => negative
  | .nan => false

/-- `value > 0`. -/
def isPositive (c : Coercion) (value : Value) : Bool :=
  match c.toNumber value with
  | .finite value => decide (0 < value)
  | .infinity negative => !negative
  | .nan => false

end Coercion

/-- The call throws. -/
def Throws {α : Type} (result : Except String α) : Prop := ∃ message, result = .error message

section Throws

variable {α β : Type} {result : Except String α} {f : α → Except String β}

/-- What follows a step throws or not whatever the step gives. -/
theorem throws_bind (rest : Prop) (hrest : ∀ a, Throws (f a) ↔ rest) : Throws (result >>= f) ↔ Throws result ∨ rest := by
  cases result with
  | error message => simp [Throws, bind, Except.bind]
  | ok a => simpa [Throws, bind, Except.bind] using hrest a

/-- A check throws, or what follows it. -/
theorem throws_check {check : Except String Unit} {rest : Except String β} :
    Throws (check >>= fun _ => rest) ↔ Throws check ∨ Throws rest := throws_bind _ fun _ => Iff.rfl

theorem ok_bind {a : α} {g : α → Except String β} : (.ok a >>= g : Except String β) = g a := rfl

@[simp] theorem not_throws_ok (a : α) : ¬ Throws (.ok a : Except String α) := by
  simp [Throws]

@[simp] theorem not_throws_pure (a : α) : ¬ Throws (pure a : Except String α) := not_throws_ok a

@[simp] theorem throws_error (message : String) : Throws (.error message : Except String α) := ⟨message, rfl⟩

end Throws

end Ecma
