import ShardLedger.Document.Basic

/-!
# Tables of TOML

A TOML text builds its tables piece by piece: headers open tables, dotted keys open tables on
their way, and each kind of table may be extended by some means and not by others. The fields of
a text are kept as nodes until it is read to its end.

- `Node`: a finished value, an open table, or an open list of tables.
- `Fields.define?`, `Fields.open?`, `Fields.append?`: the three ways to extend tables.
-/

namespace ShardLedger

namespace Toml

/-- How a table came about. -/
inductive Origin where
  /-- A header names the table itself. -/
  | header
  /-- A header names a table inside it. -/
  | onTheWay
  /-- A dotted key leads through it. -/
  | dotted
deriving DecidableEq

/-- A value under construction. -/
inductive Node where
  /-- A value that nothing can be added to. -/
  | value (d : Document)
  | table (origin : Origin) (fields : List (String × Node))
  /-- Tables that headers add one by one; the last one can be extended. -/
  | tables (items : List (List (String × Node)))

/-- The fields of a table under construction. -/
abbrev Fields := List (String × Node)

/-- Look a field up. -/
def Fields.get? (fields : Fields) (key : String) : Option Node :=
  (fields.find? (·.1 = key)).map (·.2)

/-- Set a field. -/
def Fields.set (fields : Fields) (key : String) (node : Node) : Fields :=
  if fields.any (·.1 = key) then
    fields.map fun (k, old) => if k = key then (k, node) else (k, old)
  else fields ++ [(key, node)]

/-- Change the last table of a list of tables. -/
def changeLast? (change : Fields → Option Fields) : List Fields → Option (List Fields)
  | [] => none
  | [last] => (change last).map fun last => [last]
  | item :: rest => (changeLast? change rest).map (item :: ·)

/-- Change the table at the end of a path, opening tables that are not there. By way of a dotted
key no table can be entered that a header names. -/
def Fields.at? (byDots : Bool) (change : Origin → Fields → Option Fields) :
    List String → Origin → Fields → Option Fields
  | [], origin, fields => change origin fields
  | key :: path, _, fields =>
    match fields.get? key with
    | none =>
      let origin : Origin := if byDots then .dotted else .onTheWay
      (Fields.at? byDots change path origin []).map fun inner =>
        fields.set key (.table origin inner)
    | some (.table origin inner) =>
      if byDots ∧ origin = .header then none
      else (Fields.at? byDots change path origin inner).map fun inner =>
        fields.set key (.table origin inner)
    | some (.tables items) =>
      (changeLast? (Fields.at? byDots change path .header) items).map fun items =>
        fields.set key (.tables items)
    | some (.value _) => none

/-- Give a key of a table a value, once. A dotted key ends in a table that dotted keys made. -/
def defineIn? (path : List String) (key : String) (value : Document) (origin : Origin)
    (fields : Fields) : Option Fields :=
  if decide (origin = .dotted) == path.isEmpty then none
  else if (fields.get? key).isSome then none
  else some (fields.set key (.value value))

/-- Define a dotted key, relative to a table. -/
def Fields.define? (path : List String) (key : String) (value : Document) (origin : Origin)
    (fields : Fields) : Option Fields :=
  fields.at? true (defineIn? path key value) path origin

/-- A header names a table. It may have been passed on the way to others, but not more. -/
def openIn? (key : String) (_ : Origin) (fields : Fields) : Option Fields :=
  match fields.get? key with
  | none => some (fields.set key (.table .header []))
  | some (.table .onTheWay inner) => some (fields.set key (.table .header inner))
  | some _ => none

/-- A header adds a table to a list of tables, which it may begin. -/
def appendIn? (key : String) (_ : Origin) (fields : Fields) : Option Fields :=
  match fields.get? key with
  | none => some (fields.set key (.tables [[]]))
  | some (.tables items) => some (fields.set key (.tables (items ++ [[]])))
  | some _ => none

mutual

/-- The finished document of a node. -/
def Node.finish : Node → Document
  | .value d => d
  | .table _ fields => .table (finishFields fields)
  | .tables items => .list (finishItems items)

/-- The finished fields of a table. -/
def finishFields : List (String × Node) → List (String × Document)
  | [] => []
  | (key, node) :: rest => (key, node.finish) :: finishFields rest

/-- The finished tables of a list. -/
def finishItems : List (List (String × Node)) → List Document
  | [] => []
  | fields :: rest => .table (finishFields fields) :: finishItems rest

end

end Toml

end ShardLedger
