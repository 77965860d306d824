import BlockText.Number.Decimal

/-!
# JSON numbers

The grammar of a JSON number, and the numbers it denotes. A whole number is read exactly up to 64
bits. A binary number is computed from as many digits as fit into 64 bits, and one or more products
or quotients with powers of ten, each of them rounded; so the result may be next to the nearest one.
-/

namespace BlockText

/-- A JSON number: sign, digits before the point, digits after it, and exponent. -/
structure Numeral where
  negative : Bool
  whole : List Char
  fraction : List Char := []
  exponent : Option Int := none

namespace Numeral

/-- The digits at the front of a text, at least one, and the rest. -/
def digits? (cs : List Char) : Option (List Char × List Char) :=
  match cs.takeWhile Char.isDigit with
  | [] => none
  | ds => some (ds, cs.dropWhile Char.isDigit)

/-- The digits before the point: a zero alone, or digits that start with another. -/
def whole? (cs : List Char) : Option (List Char × List Char) :=
  match digits? cs with
  | some (d :: e :: ds, rest) => if d = '0' then none else some (d :: e :: ds, rest)
  | r => r

/-- The digits after a point, none if there is no point. -/
def fraction? : List Char → Option (List Char × List Char)
  | '.' :: cs => digits? cs
  | cs => some ([], cs)

/-- The exponent after an `e`, none if there is no `e`. -/
def exponent? : List Char → Option (Option Int × List Char)
  | c :: cs =>
    if c = 'e' ∨ c = 'E' then
      let (negative, cs) := match cs with
        | '-' :: cs => (true, cs)
        | '+' :: cs => (false, cs)
        | cs => (false, cs)
      (digits? cs).map fun (ds, rest) =>
        let n : Int := Decimal.ofDigits ds
        (some (if negative then -n else n), rest)
    else some (none, c :: cs)
  | [] => some (none, [])

/-- A number at the front of a text, and the rest. -/
def scan (cs : List Char) : Option (Numeral × List Char) := do
  let negative := cs.head? == some '-'
  let (whole, rest) ← whole? (if negative then cs.drop 1 else cs)
  let (fraction, rest) ← fraction? rest
  let (exponent, rest) ← exponent? rest
  return (⟨negative, whole, fraction, exponent⟩, rest)

/-- The number that a literal is. -/
def ofLiteral? (cs : List Char) : Option Numeral :=
  match scan cs with
  | some (n, []) => some n
  | _ => none

/-- One more than the largest whole number that is read exactly. -/
def limit : Nat := Nat.pow 2 64

/-- The natural number that a numeral is: no sign, no point, no exponent, and below the limit. -/
def nat? (n : Numeral) : Option Nat :=
  if n.negative || !n.fraction.isEmpty || n.exponent.isSome then none
  else
    let value := Decimal.ofDigits n.whole
    if value < limit then some value else none

/-! ## Binary numbers -/

/-- Takes digits into a significand while it stays below the limit: the significand and the digits
that are left. -/
def takeDigits : List Char → Nat → Nat × List Char
  | [], m => (m, [])
  | d :: ds, m =>
    let next := 10 * m + Decimal.digitValue d
    if next < limit then takeDigits ds next else (m, d :: ds)

/-- The rank of a power of ten up to `10^308`. -/
def powerRank (e : Nat) : Nat := Double.nearestRank (Nat.pow 10 e) 1

/-- A significand's rank times a power of ten. A power too large for one step is divided by in steps
of `10^308`, of which two take any significand to zero; as a factor it is out of range. -/
def scale : Nat → Nat → Int → Option Double
  | steps, rank, e =>
    if e.natAbs ≤ 308 then
      if 0 ≤ e then
        let product := Double.mulRanks rank (powerRank e.natAbs)
        if product.isFinite then some product else none
      else some (Double.divRanks rank (powerRank e.natAbs))
    else if rank = 0 then some (Double.ofRank false 0)
    else if 0 ≤ e then none
    else
      match steps, Double.divRanks rank (powerRank 308) with
      | steps + 1, .finite _ smaller => scale steps smaller.val (e + 308)
      | _, _ => some (Double.ofRank false 0)

/-- The binary number that a numeral is taken for; none if it is out of range. -/
def double? (n : Numeral) : Option Double :=
  let (m, dropped) := takeDigits n.whole 0
  let (significand, left) := takeDigits n.fraction m
  let taken := n.fraction.length - left.length
  let e : Int := n.exponent.getD 0 + dropped.length - taken
  let size := scale 3 (Double.nearestRank significand 1) e
  if n.negative then size.map Double.neg else size

end Numeral

end BlockText
