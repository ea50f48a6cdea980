/-!
# Blanks, strings and keys of TOML

Readers over lists of characters: each returns what it read and the rest, or nothing where the
text is malformed.

- `lineEnd?`: what may follow an expression on its line.
- `skipLayout?`: blanks, line breaks and comments between the items of an array.
- `string?`: a quoted string of any of the four kinds.
- `keyPath?`: a dotted key.
-/

namespace ShardLedger

namespace Toml

/-- A reader of characters. -/
abbrev Reader (α : Type) := List Char → Option (α × List Char)

/-- Blanks within a line. -/
def isBlank (c : Char) : Bool := c = ' ' || c = '\t'

/-- Characters that may stand in a comment or a string: all but control characters, of which only
the tab is allowed. -/
def isPlain (c : Char) : Bool := c = '\t' || (32 ≤ c.toNat && c.toNat ≠ 127)

/-- Skip blanks. -/
def skipBlank (s : List Char) : List Char := s.dropWhile isBlank

/-- A line break: a line feed, perhaps after a carriage return. -/
def newLine? : List Char → Option (List Char)
  | '\n' :: rest => some rest
  | '\r' :: '\n' :: rest => some rest
  | _ => none

/-- The end of a line: a line break or the end of the text. -/
def endOfLine? (s : List Char) : Option (List Char) :=
  match s with
  | [] => some []
  | _ => newLine? s

/-- A comment, up to the line break. -/
def skipComment : List Char → List Char
  | '#' :: rest => rest.dropWhile isPlain
  | s => s

/-- Blanks and a comment, up to the end of the line. -/
def lineEnd? (s : List Char) : Option (List Char) := endOfLine? (skipComment (skipBlank s))

/-- Skip blanks, line breaks and comments. -/
def skipLayout? (inComment : Bool) : List Char → Option (List Char)
  | [] => some []
  | '\r' :: '\n' :: rest => skipLayout? false rest
  | '\n' :: rest => skipLayout? false rest
  | c :: rest =>
    if inComment then
      if isPlain c then skipLayout? true rest else none
    else if isBlank c then skipLayout? false rest
    else if c = '#' then skipLayout? true rest
    else some (c :: rest)

/-! ### Strings -/

/-- The value of a hexadecimal digit. -/
def hexDigit? (c : Char) : Option Nat :=
  if '0' ≤ c ∧ c ≤ '9' then some (c.toNat - 48)
  else if 'a' ≤ c ∧ c ≤ 'f' then some (c.toNat - 87)
  else if 'A' ≤ c ∧ c ≤ 'F' then some (c.toNat - 55)
  else none

/-- The character whose number is written in hexadecimal digits; surrogates are no characters. -/
def scalar? (digits : List Char) : Option Char := do
  let values ← digits.mapM hexDigit?
  let n := values.foldl (fun n d => n * 16 + d) 0
  if n < 0xD800 ∨ (0xDFFF < n ∧ n < 0x110000) then some (Char.ofNat n) else none

/-- The character of a one-letter escape. -/
def escape? : Char → Option Char
  | 'b' => some '\x08'
  | 't' => some '\t'
  | 'n' => some '\n'
  | 'f' => some '\x0c'
  | 'r' => some '\r'
  | '"' => some '"'
  | '\\' => some '\\'
  | _ => none

/-- What follows a backslash in a basic string. -/
def escaped? : Reader Char
  | 'u' :: a :: b :: c :: d :: rest => (scalar? [a, b, c, d]).map (·, rest)
  | 'U' :: a :: b :: c :: d :: e :: f :: g :: h :: rest =>
    (scalar? [a, b, c, d, e, f, g, h]).map (·, rest)
  | c :: rest => (escape? c).map (·, rest)
  | [] => none

/-- Put a character in front of what is read. -/
def push (c : Char) (read : Option (List Char × List Char)) : Option (List Char × List Char) :=
  read.map fun (cs, rest) => (c :: cs, rest)

/-- The rest of a basic string on one line, up to its closing quote. Every step takes a
character. -/
def basicWithin? : Nat → Reader (List Char)
  | 0, _ | _, [] => none
  | _ + 1, '"' :: rest => some ([], rest)
  | fuel + 1, '\\' :: rest => do
    let (c, rest) ← escaped? rest
    push c (basicWithin? fuel rest)
  | fuel + 1, c :: rest => if isPlain c then push c (basicWithin? fuel rest) else none

/-- The rest of a literal string on one line, up to its closing quote. -/
def literal? : Reader (List Char)
  | [] => none
  | '\'' :: rest => some ([], rest)
  | c :: rest => if isPlain c then push c (literal? rest) else none

/-- What closes a string over several lines: three quotes, before which up to two quotes belong
to the string. -/
def closing? (quote : Char) (s : List Char) : Option (List Char × List Char) :=
  let run := (s.takeWhile (· = quote)).length
  if run < 3 then none
  else
    let inner := min (run - 3) 2
    some (List.replicate inner quote, s.drop (inner + 3))

/-- Skip blanks and line breaks. -/
def skipBreaks : List Char → List Char
  | '\r' :: '\n' :: rest => skipBreaks rest
  | c :: rest => if isBlank c || c = '\n' then skipBreaks rest else c :: rest
  | [] => []

/-- What a backslash at the end of a line swallows: the line break, and all blanks and line
breaks that follow. -/
def swallow? (s : List Char) : Option (List Char) := (newLine? (skipBlank s)).map skipBreaks

/-- The rest of a basic string over several lines. Every step takes a character. -/
def basicLinesWithin? : Nat → Reader (List Char)
  | 0, _ => none
  | fuel + 1, s =>
    match closing? '"' s with
    | some closed => some closed
    | none =>
      match s with
      | [] => none
      | '\\' :: rest =>
        match swallow? rest with
        | some rest => basicLinesWithin? fuel rest
        | none => do
          let (c, rest) ← escaped? rest
          push c (basicLinesWithin? fuel rest)
      | '\r' :: '\n' :: rest => push '\n' (basicLinesWithin? fuel rest)
      | c :: rest =>
        if isPlain c || c = '\n' then push c (basicLinesWithin? fuel rest) else none

/-- The rest of a literal string over several lines. -/
def literalLines? : Reader (List Char)
  | [] => none
  | '\r' :: '\n' :: rest => push '\n' (literalLines? rest)
  | c :: rest =>
    match closing? '\'' (c :: rest) with
    | some closed => some closed
    | none => if isPlain c || c = '\n' then push c (literalLines? rest) else none

/-- A line break right after the opening quotes is not part of a string. -/
def skipFirstBreak (s : List Char) : List Char := (newLine? s).getD s

/-- A quoted string on one line. -/
def quoted? : Reader (List Char)
  | '"' :: rest => basicWithin? rest.length rest
  | '\'' :: rest => literal? rest
  | _ => none

/-- A quoted string of any kind. -/
def string? : Reader (List Char)
  | '"' :: '"' :: '"' :: rest =>
    let body := skipFirstBreak rest
    basicLinesWithin? body.length body
  | '\'' :: '\'' :: '\'' :: rest => literalLines? (skipFirstBreak rest)
  | s => quoted? s

/-! ### Keys -/

/-- The characters of a bare key. -/
def isBare (c : Char) : Bool :=
  ('a' ≤ c && c ≤ 'z') || ('A' ≤ c && c ≤ 'Z') || ('0' ≤ c && c ≤ '9') || c = '_' || c = '-'

/-- One part of a key: bare, or quoted on one line. -/
def keyPart? (s : List Char) : Option (String × List Char) :=
  match s with
  | '"' :: _ | '\'' :: _ => (quoted? s).map fun (cs, rest) => (String.ofList cs, rest)
  | _ =>
    let part := s.takeWhile isBare
    if part.isEmpty then none else some (String.ofList part, s.dropWhile isBare)

/-- The largest number of parts of a key, and the depth to which values nest, both exclusive. -/
def nestingLimit : Nat := 80

/-- The parts of a dotted key, at most `fuel` of them, with blanks around each. -/
def keyParts? : Nat → Reader (List String)
  | 0, _ => none
  | fuel + 1, s => do
    let (part, rest) ← keyPart? (skipBlank s)
    match skipBlank rest with
    | '.' :: rest =>
      let (parts, rest) ← keyParts? fuel rest
      return (part :: parts, rest)
    | rest => return ([part], rest)

/-- A dotted key with the blanks around it. -/
def keyPath? : Reader (List String) := keyParts? (nestingLimit - 1)

end Toml

end ShardLedger
