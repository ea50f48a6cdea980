/-!
# Structured documents

The value of a JSON or TOML text, as far as this library reads and writes them. The fields of a
table stand in the order in which they are written.

- `Document.get?`: the value of a field.
- `Document.record?`: the fields of a record given either by name or as a list in order.
-/

namespace ShardLedger

/-- A structured value. -/
inductive Document where
  | null
  | flag (value : Bool)
  | integer (value : Int)
  /-- A number that is not an integer, by its written form. -/
  | real (text : String)
  | text (value : String)
  /-- A date or a time, by its written form. -/
  | moment (text : String)
  | list (items : List Document)
  | table (fields : List (String × Document))
deriving Inhabited

namespace Document

/-- The value of a field; where a name occurs twice the last one counts. -/
def get? : Document → String → Option Document
  | table fields, name => (fields.reverse.find? (·.1 == name)).map (·.2)
  | _, _ => none

/-- A natural number below `bound`. -/
def natBelow? (bound : Nat) : Document → Option Nat
  | integer (.ofNat n) => if n < bound then some n else none
  | _ => none

/-- A natural number that fits in 64 bits. -/
def word? : Document → Option Nat := natBelow? UInt64.size

/-- A truth value. -/
def flag? : Document → Option Bool
  | flag b => some b
  | _ => none

/-- A text. -/
def text? : Document → Option String
  | text s => some s
  | _ => none

/-- The items of a list. -/
def items? : Document → Option (List Document)
  | list items => some items
  | _ => none

/-- A natural number as a document. -/
def nat (n : Nat) : Document := integer n

/-- A 64-bit word as a document. -/
def word (w : UInt64) : Document := .nat w.toNat

/-- A list of values, each written by `f`. -/
def each {α : Type} (f : α → Document) (values : List α) : Document := list (values.map f)

/-- A value written by `f`, or null where it is missing. -/
def optional {α : Type} (f : α → Document) : Option α → Document
  | some value => f value
  | none => null

/-- The values of a record's fields, in the order of `names`. A record is given by name, fields
that it does not know being passed over, or as a list in the order of `names`. A list may be
shorter than `names`; it may be longer only if `lenient`. A date or time counts as a record that
names none of the fields. -/
def record? (lenient : Bool) (names : List String) : Document → Option (List (Option Document))
  | d@(table _) => some (names.map d.get?)
  | moment _ => some (names.map fun _ => none)
  | list items =>
    if lenient || items.length ≤ names.length then
      some ((List.range names.length).map fun i => items[i]?)
    else none
  | _ => none

end Document

end ShardLedger
