import BlockText.Number.Double

/-!
# Decimal notation

A decimal is a coefficient and a power of ten. A number is read from the decimal it is nearest to,
and written with the fewest digits that are read back as the number; of two such decimals the nearer
one.
-/

namespace BlockText

/-- `coefficient * 10 ^ exponent`. -/
structure Decimal where
  coefficient : Nat
  exponent : Int
  deriving DecidableEq

namespace Decimal

/-- The decimal digits of a natural. -/
def digits (n : Nat) : List Char := Nat.toDigits 10 n

/-- The value of a digit. -/
def digitValue (c : Char) : Nat := c.toNat - 48

/-- The natural with the given digits. -/
def ofDigits (cs : List Char) : Nat := cs.foldl (fun n c => 10 * n + digitValue c) 0

/-- The number nearest to a decimal. A decimal beyond `10^310` is past every finite number and one
below `10^-330` is nearer to zero than to the least number. -/
def toDouble (negative : Bool) (d : Decimal) : Double :=
  let top := d.exponent + (digits d.coefficient).length
  if d.coefficient = 0 then .ofRank negative 0
  else if 310 < top then .infinite negative
  else if top < -330 then .ofRank negative 0
  else if 0 ≤ d.exponent then .ofRatio negative (d.coefficient * Nat.pow 10 d.exponent.toNat) 1
  else .ofRatio negative d.coefficient (Nat.pow 10 (-d.exponent).toNat)

/-- Zeros at the end of the coefficient moved to the exponent; the coefficient has at most `fuel`
digits. -/
def stripZeros (fuel : Nat) (d : Decimal) : Decimal :=
  match fuel with
  | 0 => d
  | fuel + 1 =>
    if d.coefficient ≠ 0 ∧ d.coefficient % 10 = 0 then
      stripZeros fuel ⟨d.coefficient / 10, d.exponent + 1⟩
    else d

/-- The first `places` from `places` on, at most `fuel` of them, with `n * 10 ^ places ≥ d`. -/
def leadingPlace (n d places : Nat) : Nat → Nat
  | 0 => places
  | fuel + 1 => if d ≤ n * Nat.pow 10 places then places else leadingPlace n d (places + 1) fuel

/-- The exponent `k` with `10 ^ (k - 1) ≤ n / d < 10 ^ k`, for a positive `n / d` from
`10^-340` on. -/
def magnitude (n d : Nat) : Int :=
  if d ≤ n then ((digits (n / d)).length : Int) else 1 - (leadingPlace n d 1 340 : Int)

/-- The decimals that are read as one number lie between two bounds around it, here counted
in quarters of `2^-1074`. Half way to a neighbour belongs to the number when its significand
is even. -/
structure Interval where
  low : Nat
  value : Nat
  high : Nat
  closed : Bool

/-- The interval of the number with a positive rank. The neighbour below a power of two
is nearer. -/
def interval (rank : Nat) : Interval :=
  let m := Double.significand rank
  let s := Nat.pow 2 (Double.scale rank)
  let below := if m = Double.binade ∧ 2 * Double.binade ≤ rank then 1 else 2
  ⟨(4 * m - below) * s, 4 * m * s, (4 * m + 2) * s, m % 2 == 0⟩

/-- Whether the decimal `c * unit` lies in an interval, both sides scaled by `up`. -/
def Interval.holds (i : Interval) (up unit c : Nat) : Bool :=
  if i.closed then i.low * up ≤ c * unit && c * unit ≤ i.high * up
  else i.low * up < c * unit && c * unit < i.high * up

/-- Which of two equally near decimals is taken: the larger one, or the one with an even
last digit. -/
inductive Tie where
  | up
  | even

/-- The coefficient that a tie between `c` and `c + 1` is decided for. -/
def Tie.decide (tie : Tie) (c : Nat) : Nat :=
  match tie with
  | up => c + 1
  | even => c + c % 2

/-- The best coefficient on one decimal grid: the value's neighbours on the grid that lie in the
interval, the nearer of two. -/
def Interval.onGrid (i : Interval) (tie : Tie) (up unit : Nat) : Option Nat :=
  let c := i.value * up / unit
  match i.holds up unit c, i.holds up unit (c + 1) with
  | true, true =>
    let below := i.value * up - c * unit
    let above := (c + 1) * unit - i.value * up
    some (if below < above then c else if above < below then c + 1 else tie.decide c)
  | true, false => some c
  | false, true => some (c + 1)
  | false, false => none

/-- The decimal with the least number of digits from `places` on, at most `fuel` more, that lies in
the interval of a value below `10 ^ k`. -/
def search (i : Interval) (tie : Tie) (k : Int) (places : Nat) : Nat → Decimal
  | 0 => ⟨i.value / (4 * Double.one), 0⟩
  | fuel + 1 =>
    let e := k - places
    let up := if e < 0 then Nat.pow 10 (-e).toNat else 1
    let unit := 4 * Double.one * if 0 ≤ e then Nat.pow 10 e.toNat else 1
    match i.onGrid tie up unit with
    | some c => ⟨c, e⟩
    | none => search i tie k (places + 1) fuel

/-- The shortest decimal that is read as the number with a rank. -/
def shortest (tie : Tie) (rank : Nat) : Decimal :=
  if rank = 0 then ⟨0, 0⟩
  else stripZeros 20 (search (interval rank) tie (magnitude (Double.units rank) Double.one) 1 17)

/-! ## Layouts -/

/-- Digits with a point: never an exponent, no point on a whole number. -/
def positional (d : Decimal) : List Char :=
  let ds := digits d.coefficient
  if 0 ≤ d.exponent then
    ds ++ List.replicate (if d.coefficient = 0 then 0 else d.exponent.toNat) '0'
  else
    let point := (ds.length : Int) + d.exponent
    if point ≤ 0 then '0' :: '.' :: List.replicate (-point).toNat '0' ++ ds
    else ds.take point.toNat ++ '.' :: ds.drop point.toNat

/-- The layout of document numbers: positional from `10^-5` up to below `10^16`, with `.0` on whole
numbers, and otherwise one digit before the point and a signed exponent. -/
def document (d : Decimal) : List Char :=
  let ds := digits d.coefficient
  let e := (ds.length : Int) + d.exponent - 1
  if -5 ≤ e ∧ e < 16 then positional d ++ if 0 ≤ d.exponent then ['.', '0'] else []
  else
    let fraction := ds.drop 1
    ds.take 1 ++ (if fraction.isEmpty then [] else '.' :: fraction)
      ++ ['e', if e < 0 then '-' else '+'] ++ digits e.natAbs

end Decimal

namespace Double

/-- A minus sign before a negative number. -/
def signed (negative : Bool) (cs : List Char) : List Char := if negative then '-' :: cs else cs

/-- The text of a number: the shortest digits, the larger of two equally near ones, positional. -/
def text : Double → List Char
  | finite negative rank => signed negative (Decimal.shortest .up rank).positional
  | infinite negative => signed negative ['i', 'n', 'f']
  | nan => ['N', 'a', 'N']

/-- The text of a number in a document: the shortest digits, the even of two equally near ones; what
is not finite has none and is written as null. -/
def documentText : Double → List Char
  | finite negative rank => signed negative (Decimal.shortest .even rank).document
  | _ => ['n', 'u', 'l', 'l']

/-! ## Reading -/

/-- Digits at the front of a text, and the rest. -/
def spanDigits (cs : List Char) : List Char × List Char :=
  (cs.takeWhile Char.isDigit, cs.dropWhile Char.isDigit)

/-- The exponent part: a mark, perhaps a sign, and digits to the end. -/
def exponentOf? : List Char → Option Int
  | [] => some 0
  | mark :: cs =>
    if mark = 'e' ∨ mark = 'E' then
      let (negative, ds) :=
        match cs with
        | '-' :: ds => (true, ds)
        | '+' :: ds => (false, ds)
        | ds => (false, ds)
      if ds.isEmpty || !ds.all Char.isDigit then none
      else
        let n : Int := Decimal.ofDigits ds
        some (if negative then -n else n)
    else none

/-- A number without a sign: digits with perhaps a point (on one side of it there may be none) and
perhaps an exponent, or the words `inf`, `infinity` and `nan` in any case. -/
def ofUnsigned? (negative : Bool) (cs : List Char) : Option Double :=
  let word := cs.map Char.toLower
  if word = "inf".toList ∨ word = "infinity".toList then some (.infinite negative)
  else if word = "nan".toList then some .nan
  else
    let (whole, rest) := spanDigits cs
    let (fraction, rest) :=
      match rest with
      | '.' :: rest => spanDigits rest
      | rest => ([], rest)
    if whole.isEmpty && fraction.isEmpty then none
    else
      (exponentOf? rest).map fun e =>
        Decimal.toDouble negative ⟨Decimal.ofDigits (whole ++ fraction), e - fraction.length⟩

/-- The number that a text spells, correctly rounded. -/
def ofText? : List Char → Option Double
  | '-' :: cs => ofUnsigned? true cs
  | '+' :: cs => ofUnsigned? false cs
  | cs => ofUnsigned? false cs

end Double

end BlockText
