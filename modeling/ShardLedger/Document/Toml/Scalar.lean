import ShardLedger.Document.Basic
import ShardLedger.Document.Toml.Lexical

/-!
# Numbers, truth values and dates of TOML

A value that is neither quoted nor bracketed is one run of characters. What it stands for is
decided on the whole run.

- `integer?`: 64-bit integers in four bases.
- `isFloat`: decimal numbers whose value is not beyond the largest double.
- `isMoment`: dates, times and both.
- `scalarRun`, `scalarOf?`: the run and its value.
-/

namespace ShardLedger

namespace Toml

/-- A decimal digit. -/
def isDigit (c : Char) : Bool := '0' ≤ c && c ≤ '9'

/-- Digits of a class, with single underscores between digits. The underscores are left out. -/
def digits? (isDigit : Char → Bool) : List Char → Option (List Char)
  | [] => none
  | [c] => if isDigit c then some [c] else none
  | c :: '_' :: rest => if isDigit c then (digits? isDigit rest).map (c :: ·) else none
  | c :: rest => if isDigit c then (digits? isDigit rest).map (c :: ·) else none

/-- The number that digits write in a base. -/
def valueOf (base : Nat) (digits : List Char) : Nat :=
  digits.foldl (fun n c => n * base + (hexDigit? c).getD 0) 0

/-- A sign and what follows it; the sign is negative or not. -/
def unsign : List Char → Bool × List Char
  | '+' :: rest => (false, rest)
  | '-' :: rest => (true, rest)
  | s => (false, s)

/-- Digits without a leading zero, unless they are just zero. -/
def plainDigits? (s : List Char) : Option (List Char) := do
  let ds ← digits? isDigit s
  match ds with
  | '0' :: _ :: _ => none
  | _ => some ds

/-- A number below 2⁶³, in a base, after the two characters that announce the base. -/
def based? (base : Nat) (isDigit : Char → Bool) (s : List Char) : Option Int := do
  let n := valueOf base (← digits? isDigit s)
  if n < UInt64.size / 2 then some n else none

/-- An integer: decimal with a sign, or hexadecimal, octal or binary without one. It fits in 64
bits with its sign. -/
def integer? (s : List Char) : Option Int :=
  match s with
  | '0' :: 'x' :: rest => based? 16 (fun c => (hexDigit? c).isSome) rest
  | '0' :: 'o' :: rest => based? 8 (fun c => '0' ≤ c && c ≤ '7') rest
  | '0' :: 'b' :: rest => based? 2 (fun c => c = '0' || c = '1') rest
  | _ => do
    let (negative, body) := unsign s
    let n := valueOf 10 (← plainDigits? body)
    if negative then (if n ≤ UInt64.size / 2 then some (-n) else none)
    else if n < UInt64.size / 2 then some n else none

/-- Whether `m · 10^e` rounds to a finite double: it is below the middle between the largest
double and the next power of two. The number of digits of `m` decides all but the close cases. -/
def isFinite (m : Nat) (e : Int) : Bool :=
  let middle : Nat := Nat.pow 2 1024 - Nat.pow 2 970
  if m = 0 then true
  else
    let size := (Nat.toDigits 10 m).length + e
    if size < 309 then true
    else if 309 < size then false
    else match e with
      | .ofNat k => m * Nat.pow 10 k < middle
      | .negSucc k => m < middle * Nat.pow 10 (k + 1)

/-- Whether a run is a decimal number with a fraction or an exponent, or names an infinity or the
absence of a number. A positive number must be finite. -/
def isFloat (s : List Char) : Bool :=
  let (negative, body) := unsign s
  if body = ['i', 'n', 'f'] || body = ['n', 'a', 'n'] then true
  else
    let isE (c : Char) : Bool := c = 'e' || c = 'E'
    let mantissa := body.takeWhile (!isE ·)
    let exponent := body.dropWhile (!isE ·)
    let whole := mantissa.takeWhile (· ≠ '.')
    let fraction := mantissa.dropWhile (· ≠ '.')
    let parts : Option (List Char × List Char × Int) := do
      let whole ← plainDigits? whole
      let fraction ← match fraction with
        | [] => some []
        | _ :: ds => digits? isDigit ds
      let exponent ← match exponent with
        | [] => some 0
        | _ :: rest =>
          let (negative, ds) := unsign rest
          (digits? isDigit ds).map fun ds =>
            let n : Int := valueOf 10 ds
            if negative then -n else n
      return (whole, fraction, exponent)
    match parts with
    | none => false
    | some (whole, fraction, exponent) =>
      !(body.all fun c => isDigit c || c = '_')
        && (negative
          || isFinite (valueOf 10 (whole ++ fraction)) (exponent - fraction.length))

/-! ### Dates and times -/

/-- The number that exactly so many leading digits write, and the rest. -/
def fixed? (count : Nat) (s : List Char) : Option (Nat × List Char) :=
  let ds := s.take count
  if ds.length = count ∧ ds.all isDigit then some (valueOf 10 ds, s.drop count) else none

/-- Take a character. -/
def expect? (c : Char) : List Char → Option (List Char)
  | d :: rest => if c = d then some rest else none
  | [] => none

/-- The number of days of a month. -/
def daysIn (year month : Nat) : Nat :=
  if month = 2 then
    if year % 4 = 0 ∧ (year % 100 ≠ 0 ∨ year % 400 = 0) then 29 else 28
  else if month = 4 ∨ month = 6 ∨ month = 9 ∨ month = 11 then 30
  else 31

/-- Take a date of the calendar. -/
def date? (s : List Char) : Option (List Char) := do
  let (year, s) ← fixed? 4 s
  let (month, s) ← fixed? 2 (← expect? '-' s)
  let (day, s) ← fixed? 2 (← expect? '-' s)
  if 1 ≤ month ∧ month ≤ 12 ∧ 1 ≤ day ∧ day ≤ daysIn year month then some s else none

/-- Take a time of day. A minute may have 61 seconds. -/
def time? (s : List Char) : Option (List Char) := do
  let (hour, s) ← fixed? 2 s
  let (minute, s) ← fixed? 2 (← expect? ':' s)
  let (second, s) ← fixed? 2 (← expect? ':' s)
  if 23 < hour ∨ 59 < minute ∨ 60 < second then none
  else match s with
    | '.' :: rest => if (rest.takeWhile isDigit).isEmpty then none else some (rest.dropWhile isDigit)
    | _ => some s

/-- Whether the text is an offset from universal time, or nothing. -/
def isOffset (s : List Char) : Bool :=
  match s with
  | [] | ['Z'] | ['z'] => true
  | sign :: rest =>
    let parts : Option Bool := do
      let (hour, s) ← fixed? 2 rest
      let (minute, s) ← fixed? 2 (← expect? ':' s)
      return hour ≤ 23 && minute ≤ 59 && s.isEmpty
    (sign = '+' || sign = '-') && parts.getD false

/-- Whether a run is a date, a time, or a date and a time with or without an offset. -/
def isMoment (s : List Char) : Bool :=
  match date? s with
  | some [] => true
  | some (delimiter :: rest) =>
    (delimiter = 'T' || delimiter = 't' || delimiter = ' ') && (time? rest).any isOffset
  | none => time? s = some []

/-! ### Runs -/

/-- The characters that runs consist of. -/
def isRun (c : Char) : Bool := isBare c || c = '+' || c = '.' || c = ':'

/-- The run at the beginning of a text. A date and a time may stand one blank apart. -/
def scalarRun (s : List Char) : List Char × List Char :=
  let run := s.takeWhile isRun
  let rest := s.dropWhile isRun
  match rest with
  | ' ' :: a :: b :: ':' :: more =>
    if date? run = some [] && isDigit a && isDigit b then
      let tail := a :: b :: ':' :: more
      (run ++ ' ' :: tail.takeWhile isRun, tail.dropWhile isRun)
    else (run, rest)
  | _ => (run, rest)

/-- The value of a run. -/
def scalarOf? (run : List Char) : Option Document :=
  if run = "true".toList then some (.flag true)
  else if run = "false".toList then some (.flag false)
  else if isMoment run then some (.moment (String.ofList run))
  else match integer? run with
    | some n => some (.integer n)
    | none => if isFloat run then some (.real (String.ofList run)) else none

end Toml

end ShardLedger
