import ShardLedger.Document.Toml.Scalar
import ShardLedger.Document.Toml.Table

/-!
# Reading TOML

A TOML 1.0 text is a sequence of expressions: key-value pairs, table headers, comments and empty
lines. Values nest less than 80 deep, and keys have fewer than 80 parts.

- `Toml.value?`: a value of any kind.
- `Toml.read?`: the document of a text, or nothing where the text is no TOML.
-/

namespace ShardLedger

namespace Toml

/-- The value of a dotted key in a table in braces. -/
def defineInline? (fields : Fields) (path : List String) (value : Document) : Option Fields := do
  let key ← path.getLast?
  Fields.define? path.dropLast key value .header fields

mutual

/-- A value. `depth` brackets are open around it. Every step takes a character or closes a
bracket, so twice the length of the text is fuel enough. -/
def valueWithin? (depth : Nat) : Nat → Reader Document
  | 0, _ => none
  | fuel + 1, s =>
    match s with
    | '[' :: rest =>
      if nestingLimit ≤ depth + 1 then none
      else (itemsWithin? (depth + 1) fuel rest).map fun (items, rest) => (.list items, rest)
    | '{' :: rest =>
      if nestingLimit ≤ depth + 1 then none
      else match skipBlank rest with
        | '}' :: rest => some (.table [], rest)
        | rest =>
          (pairsWithin? (depth + 1) fuel [] rest).map fun (fields, rest) =>
            (.table (finishFields fields), rest)
    | '"' :: _ | '\'' :: _ => (string? s).map fun (cs, rest) => (.text (String.ofList cs), rest)
    | _ =>
      let (run, rest) := scalarRun s
      (scalarOf? run).map (·, rest)

/-- The items of an array, up to its closing bracket. A comma may stand after the last one. -/
def itemsWithin? (depth : Nat) : Nat → Reader (List Document)
  | 0, _ => none
  | fuel + 1, s => do
    match ← skipLayout? false s with
    | ']' :: rest => return ([], rest)
    | s =>
      let (item, rest) ← valueWithin? depth fuel s
      match ← skipLayout? false rest with
      | ',' :: rest =>
        let (items, rest) ← itemsWithin? depth fuel rest
        return (item :: items, rest)
      | ']' :: rest => return ([item], rest)
      | _ => none

/-- The pairs of a table in braces, up to its closing brace, after those that are read. They
stand on one line, and no comma follows the last one. -/
def pairsWithin? (depth : Nat) : Nat → Fields → Reader Fields
  | 0, _, _ => none
  | fuel + 1, fields, s => do
    let (path, rest) ← keyPath? s
    let (value, rest) ← valueWithin? depth fuel (skipBlank (← expect? '=' rest))
    let fields ← defineInline? fields path value
    match skipBlank rest with
    | ',' :: rest => pairsWithin? depth fuel fields rest
    | '}' :: rest => return (fields, rest)
    | _ => none

end

/-- A value at the beginning of a text. -/
def value? (s : List Char) : Option (Document × List Char) :=
  valueWithin? 0 (2 * s.length + 1) s

/-- A text as far as it is read: all fields, and the path to the table that pairs go into. -/
structure Progress where
  fields : Fields
  current : List String

/-- A header, after its opening brackets: the path and the rest of the line. -/
def header? (close : List Char → Option (List Char)) : Reader (List String) := fun s => do
  let (path, rest) ← keyPath? s
  return (path, ← lineEnd? (← close rest))

/-- Enter the table that a header names. -/
def Progress.enter? (p : Progress) (path : List String)
    (change : String → Origin → Fields → Option Fields) : Option Progress := do
  let key ← path.getLast?
  return { fields := ← p.fields.at? false (change key) path.dropLast .header, current := path }

/-- A pair goes into the current table. -/
def Progress.define? (p : Progress) (path : List String) (value : Document) :
    Option Progress := do
  let key ← path.getLast?
  return { p with
    fields := ← p.fields.at? false (Fields.define? path.dropLast key value) p.current .header }

/-- One expression, which may be empty, and the rest after its line. -/
def expression? (p : Progress) (s : List Char) : Option (Progress × List Char) := do
  match skipBlank s with
  | '[' :: '[' :: rest =>
    let (path, rest) ← header? (fun s => do expect? ']' (← expect? ']' s)) rest
    return (← p.enter? path appendIn?, rest)
  | '[' :: rest =>
    let (path, rest) ← header? (expect? ']') rest
    return (← p.enter? path openIn?, rest)
  | s =>
    match lineEnd? s with
    | some rest => return (p, rest)
    | none =>
      let (path, rest) ← keyPath? s
      let (value, rest) ← value? (skipBlank (← expect? '=' rest))
      return (← p.define? path value, ← lineEnd? rest)

/-- Expressions up to the end of the text. Each takes a line. -/
def expressions? : Nat → Progress → List Char → Option Progress
  | _, p, [] => some p
  | 0, _, _ => none
  | fuel + 1, p, s => do
    let (p, rest) ← expression? p s
    expressions? fuel p rest

/-- The document of a text. A byte order mark may stand in front. -/
def read? (text : String) : Option Document := do
  let s := match text.toList with
    | '\ufeff' :: rest => rest
    | s => s
  let p ← expressions? s.length { fields := [], current := [] } s
  return .table (finishFields p.fields)

end Toml

end ShardLedger
