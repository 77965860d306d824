/-!
# Binary floating-point numbers

Number fields hold IEEE binary64 numbers. Each finite one is a whole multiple of `2^-1074`, and the
non-negative finite ones, listed in ascending order, are numbered without a gap: number 0 is zero,
number 1 is `2^-1074`. A number is kept as its sign and its place in that list (its *rank*), so
equality of the representation is equality of the bits and all arithmetic here is on naturals.
-/

namespace BlockText

/-- How many numbers lie between two powers of two. -/
abbrev Double.binade : Nat := Nat.pow 2 52

/-- How many non-negative finite numbers there are. -/
abbrev Double.ranks : Nat := 2047 * Double.binade

/-- The number one, counted in units of `2^-1074`. -/
abbrev Double.one : Nat := Nat.pow 2 1074

/-- A binary64 number; all the NaNs are one. -/
inductive Double where
  | finite (negative : Bool) (rank : Fin Double.ranks)
  | infinite (negative : Bool)
  | nan
  deriving DecidableEq

namespace Double

/-- The significand of the number with a rank: 53 bits, fewer below `2^-1022`. -/
def significand (rank : Nat) : Nat := if rank < binade then rank else binade + rank % binade

/-- The power of two, counted from `2^-1074`, that the significand is multiplied by. -/
def scale (rank : Nat) : Nat := rank / binade - 1

/-- The number with a rank, counted in units of `2^-1074`. -/
def units (rank : Nat) : Nat := significand rank * Nat.pow 2 (scale rank)

/-- `n / d` to the nearest whole number, a half to the even one. -/
def divHalfEven (n d : Nat) : Nat :=
  let q := n / d
  let r := n % d
  if 2 * r < d then q else if d < 2 * r then q + 1 else q + q % 2

/-- The rank of the number nearest to `n / d`, of two equally near ones that with the even
significand. It may lie past the finite ranks. -/
def nearestRank (n d : Nat) : Nat :=
  let u := n * one
  let s := (u / d).log2 - 52
  divHalfEven u (d * Nat.pow 2 s) + s * binade

/-- The number with a sign and a rank; ranks past the finite ones are infinity. -/
def ofRank (negative : Bool) (rank : Nat) : Double :=
  if h : rank < ranks then .finite negative ⟨rank, h⟩ else .infinite negative

/-- The number nearest to a quotient of naturals. -/
def ofRatio (negative : Bool) (n d : Nat) : Double := ofRank negative (nearestRank n d)

/-- The number nearest to a natural. -/
def ofNat (n : Nat) : Double := ofRatio false n 1

instance (n : Nat) : OfNat Double n := ⟨ofNat n⟩

instance : Inhabited Double := ⟨0⟩

/-- Neither infinite nor NaN. -/
def isFinite : Double → Bool
  | finite _ _ => true
  | _ => false

/-- Zero of either sign. -/
def isZero : Double → Bool
  | finite _ rank => rank.val == 0
  | _ => false

/-- The sign turned. -/
def neg : Double → Double
  | finite s rank => .finite (!s) rank
  | infinite s => .infinite (!s)
  | nan => nan

/-- Equality of value: the two zeros are equal, a NaN equals nothing. -/
def sameValue : Double → Double → Bool
  | nan, _ => false
  | _, nan => false
  | a, b => a == b || (a.isZero && b.isZero)

/-- The product of two non-negative finite numbers, rounded. -/
def mulRanks (a b : Nat) : Double := ofRatio false (units a * units b) (one * one)

/-- The quotient of two positive finite numbers, rounded. -/
def divRanks (a b : Nat) : Double := ofRatio false (units a) (units b)

end Double

end BlockText
