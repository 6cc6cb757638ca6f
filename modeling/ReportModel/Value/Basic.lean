import ReportModel.Number.Basic

/-!
# Property values

The values that properties of elements hold, their equality as the model compares them, and the
reading of a value as a text, a truth value or an integer.
-/

namespace ReportModel

structure Dimension where
  measure : Number
  units : String
deriving DecidableEq, Repr

/-- A property value. A structure is a list of named values in the order of the names, each name
once. -/
inductive Value where
  | string (text : String)
  | integer (n : Int)
  | float (x : Number)
  | boolean (b : Bool)
  /-- One of the names that a property declares. -/
  | choice (name : String)
  /-- The text of a script, which is never evaluated. -/
  | expression (script : String)
  | dimension (d : Dimension)
  /-- A colour name in lower case, or a hexadecimal colour. -/
  | color (name : String)
  | structList (items : List (List (String × Value)))
  | bytes (data : List UInt8)
deriving Inhabited, Repr

namespace Value

mutual

/-- Whether two values agree, their numbers being compared by `eqNumber`. -/
def agree (eqNumber : Number → Number → Bool) : Value → Value → Bool
  | .string a, .string b => a = b
  | .integer a, .integer b => a = b
  | .float a, .float b => eqNumber a b
  | .boolean a, .boolean b => a = b
  | .choice a, .choice b => a = b
  | .expression a, .expression b => a = b
  | .dimension a, .dimension b => eqNumber a.measure b.measure && a.units = b.units
  | .color a, .color b => a = b
  | .structList a, .structList b => agreeItems eqNumber a b
  | .bytes a, .bytes b => a = b
  | _, _ => false

def agreeItems (eqNumber : Number → Number → Bool) :
    List (List (String × Value)) → List (List (String × Value)) → Bool
  | [], [] => true
  | x :: xs, y :: ys => agreeFields eqNumber x y && agreeItems eqNumber xs ys
  | _, _ => false

def agreeFields (eqNumber : Number → Number → Bool) :
    List (String × Value) → List (String × Value) → Bool
  | [], [] => true
  | (k, v) :: xs, (l, w) :: ys => k = l && agree eqNumber v w && agreeFields eqNumber xs ys
  | _, _ => false

end

/-- Whether two values are equal as the model compares them: numerically, so that a value holding
what is not a number differs from itself. -/
def same : Value → Value → Bool :=
  agree Number.same

mutual

private theorem agree_iff : (v w : Value) → (agree (fun x y => decide (x = y)) v w = true ↔ v = w)
  | .string _, w => by cases w <;> simp [agree]
  | .integer _, w => by cases w <;> simp [agree]
  | .float _, w => by cases w <;> simp [agree]
  | .boolean _, w => by cases w <;> simp [agree]
  | .choice _, w => by cases w <;> simp [agree]
  | .expression _, w => by cases w <;> simp [agree]
  | .dimension d, w => by cases d; cases w <;> simp [agree]; next e => cases e; simp
  | .color _, w => by cases w <;> simp [agree]
  | .structList a, w => by cases w <;> simp [agree, agreeItems_iff a _]
  | .bytes _, w => by cases w <;> simp [agree]

private theorem agreeItems_iff : (xs ys : List (List (String × Value))) →
    (agreeItems (fun x y => decide (x = y)) xs ys = true ↔ xs = ys)
  | [], ys => by cases ys <;> simp [agreeItems]
  | x :: xs, ys => by cases ys <;> simp [agreeItems, agreeFields_iff x _, agreeItems_iff xs _]

private theorem agreeFields_iff : (xs ys : List (String × Value)) →
    (agreeFields (fun x y => decide (x = y)) xs ys = true ↔ xs = ys)
  | [], ys => by cases ys <;> simp [agreeFields]
  | (k, v) :: xs, ys => by
    cases ys with
    | nil => simp [agreeFields]
    | cons y ys =>
      obtain ⟨l, w⟩ := y
      simp [agreeFields, agree_iff v w, agreeFields_iff xs ys, and_assoc]

end

instance : DecidableEq Value := fun v w =>
  decidable_of_iff _ (agree_iff v w)

def asText : Value → Option String
  | .string s | .choice s | .expression s | .color s => some s
  | _ => none

def asBool : Value → Option Bool
  | .boolean b => some b
  | _ => none

def asInteger : Value → Option Int
  | .integer n => some n
  | _ => none

end Value

end ReportModel
