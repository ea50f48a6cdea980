import ShardLedger.Document.Basic

/-!
# Documents as JSON

The written form of a document for reports: every item and field stands on a line of its own,
indented by two spaces a level; an empty list or table stays on one line.
-/

namespace ShardLedger

namespace Document

/-- The lowercase hexadecimal digit for a value below sixteen. -/
def hexDigit (n : Nat) : Char := "0123456789abcdef".toList.getD n '0'

/-- A character of a quoted text. Quotes, backslashes and control characters are escaped. -/
def escape (c : Char) : List Char :=
  if c = '"' then ['\\', '"']
  else if c = '\\' then ['\\', '\\']
  else if c = '\n' then ['\\', 'n']
  else if c = '\r' then ['\\', 'r']
  else if c = '\t' then ['\\', 't']
  else if c.toNat = 8 then ['\\', 'b']
  else if c.toNat = 12 then ['\\', 'f']
  else if c.toNat < 32 then
    ['\\', 'u', '0', '0', hexDigit (c.toNat / 16), hexDigit (c.toNat % 16)]
  else [c]

/-- A quoted text. -/
def quote (s : String) : String := String.ofList ('"' :: s.toList.flatMap escape ++ ['"'])

/-- A line break and the indentation of a level. -/
def newLine (level : Nat) : String := "\n" ++ String.ofList (List.replicate (2 * level) ' ')

mutual

/-- A document at a level of indentation. -/
def render (level : Nat) : Document → String
  | null => "null"
  | flag b => if b then "true" else "false"
  | integer n => toString n
  | real t => t
  | text s => quote s
  | moment t => quote t
  | list [] => "[]"
  | list (item :: rest) =>
    "[" ++ newLine (level + 1) ++ render (level + 1) item ++ renderItems (level + 1) rest
      ++ newLine level ++ "]"
  | table [] => "\x7b\x7d"
  | table ((name, value) :: rest) =>
    "\x7b" ++ newLine (level + 1) ++ quote name ++ ": " ++ render (level + 1) value
      ++ renderFields (level + 1) rest ++ newLine level ++ "\x7d"

/-- The items after the first one. -/
def renderItems (level : Nat) : List Document → String
  | [] => ""
  | item :: rest => "," ++ newLine level ++ render level item ++ renderItems level rest

/-- The fields after the first one. -/
def renderFields (level : Nat) : List (String × Document) → String
  | [] => ""
  | (name, value) :: rest =>
    "," ++ newLine level ++ quote name ++ ": " ++ render level value ++ renderFields level rest

end

/-- A document as JSON text. -/
def toJson (d : Document) : String := d.render 0

end Document

end ShardLedger
