import BlockText.Settings.Value
import BlockText.Text.Blank

/-!
# Words of TOML

Strings, numbers, dates and keys. Each reader takes its word from the front of a text and gives back
the rest.
-/

namespace BlockText.Toml

/-- Blanks inside a line. -/
def isSpace (c : Char) : Bool := c == ' ' || c == '\t'

/-- The text after its leading blanks. -/
def skipSpace (cs : List Char) : List Char := cs.dropWhile isSpace

/-- The text after a line end. -/
def newline? : List Char → Option (List Char)
  | '\n' :: cs => some cs
  | '\r' :: '\n' :: cs => some cs
  | _ => none

/-- A character that may stand in a comment or a string as it is. -/
def isPlain (c : Char) : Bool := c == '\t' || (32 ≤ c.toNat && c.toNat != 127)

/-- The text after a comment, if it starts with one. -/
def skipComment : List Char → List Char
  | '#' :: cs => cs.dropWhile isPlain
  | cs => cs

/-- The text after the end of a line, which blanks and a comment may come before. The end of the
text ends its last line. -/
def lineEnd? (cs : List Char) : Option (List Char) :=
  match skipComment (skipSpace cs) with
  | [] => some []
  | rest => newline? rest

/-- The text after blanks, comments and line ends, at most `bound` of them. -/
def skipLines : Nat → List Char → List Char
  | 0, cs => cs
  | bound + 1, cs =>
    match newline? (skipComment (skipSpace cs)) with
    | some rest => skipLines bound rest
    | none => skipComment (skipSpace cs)

/-! ## Strings -/

/-- The value of some hexadecimal digits. -/
def hexValue? (cs : List Char) : Option Nat :=
  cs.foldl (fun n c => do
    let n ← n
    let d ← if c.isDigit then some (c.toNat - 48)
      else if 'a' ≤ c && c ≤ 'f' then some (c.toNat - 87)
      else if 'A' ≤ c && c ≤ 'F' then some (c.toNat - 55)
      else none
    return 16 * n + d) (some 0)

/-- A character given by its number in so many hexadecimal digits, and the rest. -/
def hexChar? (digits : Nat) (cs : List Char) : Option (Char × List Char) :=
  if cs.length < digits then none
  else
    match hexValue? (cs.take digits) with
    | some n => if n.isValidChar then some (Char.ofNat n, cs.drop digits) else none
    | none => none

/-- An escape after its backslash, and the rest. -/
def escape? : List Char → Option (Char × List Char)
  | 'b' :: cs => some ('\x08', cs)
  | 't' :: cs => some ('\t', cs)
  | 'n' :: cs => some ('\n', cs)
  | 'f' :: cs => some ('\x0c', cs)
  | 'r' :: cs => some ('\r', cs)
  | '"' :: cs => some ('"', cs)
  | '\\' :: cs => some ('\\', cs)
  | 'u' :: cs => hexChar? 4 cs
  | 'U' :: cs => hexChar? 8 cs
  | _ => none

/-- The characters of a basic string up to its closing quote, and the rest. -/
def basic : Nat → List Char → Option (List Char × List Char)
  | 0, _ => none
  | _ + 1, [] => none
  | bound + 1, c :: cs =>
    if c = '"' then some ([], cs)
    else
      let first := if c = '\\' then escape? cs else if isPlain c then some (c, cs) else none
      match first with
      | none => none
      | some (d, rest) => (basic bound rest).map fun (ds, rest) => (d :: ds, rest)

/-- The characters of a literal string up to its closing quote, and the rest. -/
def literal (cs : List Char) : Option (List Char × List Char) :=
  match cs.dropWhile fun c => c != '\'' && isPlain c with
  | '\'' :: rest => some (cs.takeWhile fun c => c != '\'' && isPlain c, rest)
  | _ => none

/-- The rest after a backslash at the end of a line: blanks and line ends up to the next text. -/
def continuation? (cs : List Char) : Option (List Char) :=
  (newline? (skipSpace cs)).map fun rest =>
    rest.dropWhile fun c => isSpace c || c == '\n' || c == '\r'

/-- The characters of a string of several lines up to its three closing quotes, and the rest. Of
more than three quotes at the end up to two belong to the string. -/
def several (quote : Char) (escapes : Bool) : Nat → List Char → Option (List Char × List Char)
  | 0, _ => none
  | _ + 1, [] => none
  | bound + 1, c :: cs =>
    if c = quote then
      let quotes := ((c :: cs).takeWhile (· == quote)).length
      if 3 ≤ quotes then
        some (List.replicate (min quotes 5 - 3) quote, (c :: cs).drop (min quotes 5))
      else
        (several quote escapes bound ((c :: cs).drop quotes)).map fun (ds, rest) =>
          (List.replicate quotes quote ++ ds, rest)
    else
      match newline? (c :: cs) with
      | some rest => (several quote escapes bound rest).map fun (ds, rest) => ('\n' :: ds, rest)
      | none =>
        if c = '\\' && escapes then
          match escape? cs with
          | some (d, rest) =>
            (several quote escapes bound rest).map fun (ds, rest) => (d :: ds, rest)
          | none =>
            match continuation? cs with
            | some rest => several quote escapes bound rest
            | none => none
        else if isPlain c then
          (several quote escapes bound cs).map fun (ds, rest) => (c :: ds, rest)
        else none

/-- A string of several lines after its opening quotes. A line end right after them does
not count. -/
def severalLines (quote : Char) (escapes : Bool) (cs : List Char) :
    Option (List Char × List Char) :=
  several quote escapes (cs.length + 1) ((newline? cs).getD cs)

/-- A string at the front of a text, and the rest. -/
def string? : List Char → Option (List Char × List Char)
  | '"' :: '"' :: '"' :: cs => severalLines '"' true cs
  | '"' :: cs => basic (cs.length + 1) cs
  | '\'' :: '\'' :: '\'' :: cs => severalLines '\'' false cs
  | '\'' :: cs => literal cs
  | _ => none

/-! ## Keys -/

/-- The characters of a bare key. -/
def isBare (c : Char) : Bool := c.isAlphanum || c == '_' || c == '-'

/-- One part of a key, and the rest. -/
def keyPart? : List Char → Option (String × List Char)
  | '"' :: cs => (basic (cs.length + 1) cs).map fun (k, rest) => (String.ofList k, rest)
  | '\'' :: cs => (literal cs).map fun (k, rest) => (String.ofList k, rest)
  | cs =>
    match cs.takeWhile isBare with
    | [] => none
    | k => some (String.ofList k, cs.dropWhile isBare)

/-- The parts of a key between points, at most `bound` of them, and the rest. -/
def keyUpTo : Nat → List Char → Option (List String × List Char)
  | 0, _ => none
  | bound + 1, cs =>
    match keyPart? (skipSpace cs) with
    | none => none
    | some (part, rest) =>
      match skipSpace rest with
      | '.' :: rest => (keyUpTo bound rest).map fun (parts, rest) => (part :: parts, rest)
      | rest => some ([part], rest)

/-- A key with its blanks, and the rest. -/
def key? (cs : List Char) : Option (List String × List Char) := keyUpTo (cs.length + 1) cs

/-! ## Numbers -/

/-- Digits in groups: underscores stand only between two digits. -/
def grouped? (isDigit : Char → Bool) (cs : List Char) : Option (List Char) :=
  let groups := Text.cut '_' cs
  if groups.all fun g => !g.isEmpty && g.all isDigit then some groups.flatten else none

/-- The sign of a number, and what follows it. -/
def sign : List Char → Bool × List Char
  | '-' :: cs => (true, cs)
  | '+' :: cs => (false, cs)
  | cs => (false, cs)

/-- Digits in groups without a leading zero. -/
def decimal? (cs : List Char) : Option (List Char) :=
  match grouped? Char.isDigit cs with
  | some ('0' :: _ :: _) => none
  | ds => ds

/-- The value of digits in a base; letters stand for ten and more. -/
def ofBase (base : Nat) (cs : List Char) : Nat :=
  cs.foldl (fun n c =>
    base * n + (if c.isDigit then c.toNat - 48
      else if c.isUpper then c.toNat - 55 else c.toNat - 87)) 0

/-- A hexadecimal digit. -/
def isHex (c : Char) : Bool := c.isDigit || ('a' ≤ c && c ≤ 'f') || ('A' ≤ c && c ≤ 'F')

/-- The size of an integer in base ten or, without a sign, in another base. -/
def size? (signed : Bool) (cs : List Char) : Option Nat :=
  match signed, cs with
  | false, '0' :: 'x' :: ds => (grouped? isHex ds).map (ofBase 16)
  | false, '0' :: 'o' :: ds => (grouped? (fun c => '0' ≤ c && c ≤ '7') ds).map (ofBase 8)
  | false, '0' :: 'b' :: ds => (grouped? (fun c => c == '0' || c == '1') ds).map (ofBase 2)
  | _, ds => (decimal? ds).map Decimal.ofDigits

/-- The integer of 64 bits that a word is. -/
def integer? (cs : List Char) : Option Int :=
  let (negative, digits) := sign cs
  match size? (digits.length < cs.length) digits with
  | none => none
  | some n =>
    if negative then if n ≤ Nat.pow 2 63 then some (-n) else none
    else if n < Nat.pow 2 63 then some n else none

/-- The exponent of a float without its letter. -/
def exponent? (cs : List Char) : Option (List Char) :=
  (grouped? Char.isDigit (sign cs).2).map fun ds => (if (sign cs).1 then ['-'] else []) ++ ds

/-- The text of a float without underscores. -/
def floatDigits? (cs : List Char) : Option (List Char) := do
  let mantissa := cs.takeWhile fun c => c != 'e' && c != 'E'
  let whole ← decimal? (mantissa.takeWhile (· != '.'))
  let fraction ← match mantissa.dropWhile (· != '.') with
    | [] => some []
    | _ :: ds => (grouped? Char.isDigit ds).map ('.' :: ·)
  let exponent ← match cs.drop mantissa.length with
    | [] => some []
    | _ :: ds => (exponent? ds).map ('e' :: ·)
  if fraction.isEmpty && exponent.isEmpty then none else some (whole ++ fraction ++ exponent)

/-- The float that a word is. A number too large for one is none. -/
def float? (cs : List Char) : Option Double :=
  let (negative, digits) := sign cs
  if digits = "inf".toList then some (.infinite negative)
  else if digits = "nan".toList then some .nan
  else
    match (floatDigits? digits).bind Double.ofText? with
    | some x =>
      if negative then some x.neg
      else if x.isFinite then some x
      else none
    | none => none

/-! ## Dates and times -/

/-- A number of so many digits, in a range, and the rest. -/
def digits? (count low high : Nat) (cs : List Char) : Option (Nat × List Char) :=
  let ds := cs.take count
  if ds.length = count && ds.all Char.isDigit then
    let n := Decimal.ofDigits ds
    if low ≤ n && n ≤ high then some (n, cs.drop count) else none
  else none

/-- The text after a character. -/
def after? (c : Char) : List Char → Option (List Char)
  | d :: cs => if d = c then some cs else none
  | [] => none

/-- How many days a month has. -/
def daysIn (year month : Nat) : Nat :=
  if month = 2 then if year % 4 = 0 && (year % 100 != 0 || year % 400 = 0) then 29 else 28
  else if month = 4 || month = 6 || month = 9 || month = 11 then 30
  else 31

/-- A date at the front of a text as it is written out, and the rest. -/
def date? (cs : List Char) : Option (List Char × List Char) := do
  let (year, rest) ← digits? 4 0 9999 cs
  let (month, rest) ← digits? 2 1 12 (← after? '-' rest)
  let (_, rest) ← digits? 2 1 (daysIn year month) (← after? '-' rest)
  return (cs.take 10, rest)

/-- A fraction of a second, to nine places and without trailing zeros, and the rest. -/
def secondFraction? : List Char → Option (List Char × List Char)
  | '.' :: cs =>
    match cs.takeWhile Char.isDigit with
    | [] => none
    | ds =>
      let kept := ((ds.take 9).reverse.dropWhile (· == '0')).reverse
      some (if kept.isEmpty then [] else '.' :: kept, cs.dropWhile Char.isDigit)
  | cs => some ([], cs)

/-- A time at the front of a text as it is written out, and the rest. -/
def time? (cs : List Char) : Option (List Char × List Char) := do
  let (_, rest) ← digits? 2 0 23 cs
  let (_, rest) ← digits? 2 0 59 (← after? ':' rest)
  let (_, rest) ← digits? 2 0 60 (← after? ':' rest)
  let (fraction, rest) ← secondFraction? rest
  return (cs.take 8 ++ fraction, rest)

/-- The offset at the end of a time as it is written out; none of it has no text. -/
def offset? : List Char → Option (List Char)
  | [] => some []
  | c :: cs =>
    if c = 'Z' || c = 'z' then if cs.isEmpty then some ['Z'] else none
    else if c = '+' || c = '-' then do
      let (hours, rest) ← digits? 2 0 23 cs
      let (minutes, rest) ← digits? 2 0 59 (← after? ':' rest)
      if rest.isEmpty then some ((if hours + minutes = 0 then '+' else c) :: cs) else none
    else none

/-- The date, time or both that a word is, as it is written out. -/
def moment? (cs : List Char) : Option (List Char) :=
  match date? cs with
  | some (date, []) => some date
  | some (date, c :: rest) =>
    if c = 'T' || c = 't' || c = ' ' then do
      let (time, rest) ← time? rest
      return date ++ 'T' :: time ++ (← offset? rest)
    else none
  | none =>
    match time? cs with
    | some (time, []) => some time
    | _ => none

/-! ## Plain words -/

/-- The characters of numbers, dates and truth values. -/
def isWordChar (c : Char) : Bool :=
  c.isAlphanum || c == '+' || c == '-' || c == '_' || c == '.' || c == ':'

/-- A word at the front of a text, and the rest. A blank between a date and a time belongs to it. -/
def spanWord (cs : List Char) : List Char × List Char :=
  let word := cs.takeWhile isWordChar
  let rest := cs.dropWhile isWordChar
  match date? word, rest with
  | some (_, []), ' ' :: d :: more =>
    if d.isDigit then
      (word ++ ' ' :: (d :: more).takeWhile isWordChar, (d :: more).dropWhile isWordChar)
    else (word, rest)
  | _, _ => (word, rest)

/-- The value of a word. -/
def word? (cs : List Char) : Option Setting :=
  if cs = "true".toList then some (.bool true)
  else if cs = "false".toList then some (.bool false)
  else
    (integer? cs).map .int <|> (float? cs).map .float
      <|> (moment? cs).map fun m => .text (String.ofList m)

end BlockText.Toml
