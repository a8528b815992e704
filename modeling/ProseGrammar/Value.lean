import ProseGrammar.Number
import ProseGrammar.Table

/-!
# Values

Knowledge, variables and the results of evaluation hold dynamic values: nothing, truth values,
numbers, texts, lists, objects and weighted values, which stand in knowledge lists and bias random
selection.
-/

namespace ProseGrammar

/-- A dynamic value. -/
inductive Value
  | null
  | bool (b : Bool)
  | number (n : Number)
  | text (s : String)
  | list (items : List Value)
  | object (entries : List (String × Value))
  | weighted (value : Value) (weight : Float)

namespace Value

def int (n : Int) : Value :=
  .number (.int n)

def float (x : Float) : Value :=
  .number (.float x)

/-! ### Kinds -/

def kind : Value → String
  | null => "NoneType"
  | bool _ => "bool"
  | number (.int _) => "int"
  | number (.float _) => "float"
  | text _ => "str"
  | list _ => "list"
  | object _ => "dict"
  | weighted _ _ => "WeightedItem"

def isNull : Value → Bool
  | null => true
  | _ => false

/-- Whether a value is a number; truth values are not. -/
def isNumber : Value → Bool
  | number _ => true
  | _ => false

/-- Whether a value counts as true in a condition: lists and objects always do, numbers unless they
are zero or NaN, texts unless they are empty. -/
def isTruthy : Value → Bool
  | null => false
  | bool b => b
  | number (.int n) => n != 0
  | number (.float x) => x < 0 || 0 < x
  | text s => !s.isEmpty
  | _ => true

/-! ### Equality -/

def asNumber? : Value → Option Number
  | bool b => some (.int (if b then 1 else 0))
  | number n => some n
  | _ => none

/-- Whether two values are numbers, or truth values, of one value. -/
def equalAsNumbers (a b : Value) : Bool :=
  match a.asNumber?, b.asNumber? with
  | some m, some n => m.equal n
  | _, _ => false

mutual

/-- Whether two values are equal: truth values and numbers by value, lists in order, objects
without regard to order. -/
def equal : Value → Value → Bool
  | null, null => true
  | text a, text b => a == b
  | list as, list bs => equalLists as bs
  | object as, object bs => as.length == bs.length && equalEntries as bs
  | weighted a w, weighted b v => equal a b && w == v
  | a, b => equalAsNumbers a b

def equalLists : List Value → List Value → Bool
  | [], [] => true
  | a :: as, b :: bs => equal a b && equalLists as bs
  | _, _ => false

/-- Whether every entry has an equal one in a table. -/
def equalEntries : List (String × Value) → Table Value → Bool
  | [], _ => true
  | (key, a) :: as, bs =>
    (match bs.get? key with
      | some b => equal a b
      | none => false) && equalEntries as bs

end

end Value

end ProseGrammar
