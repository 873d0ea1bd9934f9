import ProtocolIR.Real.Binary64

/-!
# Shortest decimals

A finite magnitude is written with the fewest digits that read back as the same real, the
nearest such decimal if there are several and the upper one if two are equally near. All
comparisons are between integers: with `X` and `Y` as in `Grid`, a decimal `c * 10 ^ p` lies
below a bound of `b` quarter units exactly when `c * Y < b * X`.
-/

namespace ProtocolIR

namespace Binary64

/-- A decimal grid of step `10 ^ p` laid over the quarter units of a magnitude. -/
structure Grid where
  X : Nat
  Y : Nat

/-- Quarter units are `2 ^ (q - 2)`. -/
def grid (x : Binary64) (p : Int) : Grid where
  X := Nat.pow 2 (x.scale - 2).toNat * Nat.pow 10 (-p).toNat
  Y := Nat.pow 2 (2 - x.scale).toNat * Nat.pow 10 p.toNat

/-- The magnitude in quarter units. -/
def quarters (x : Binary64) : Nat := 4 * x.significand

/-- Whether the decimal `c * 10 ^ p` reads back as the magnitude of `x`. The ends of the
interval belong to the number with the even significand. -/
def readsBack (x : Binary64) (g : Grid) (c : Nat) : Bool :=
  let low := (x.quarters - if x.isBinadeStart then 1 else 2) * g.X
  let high := (x.quarters + 2) * g.X
  if x.significand % 2 = 0 then low ≤ c * g.Y && c * g.Y ≤ high
  else low < c * g.Y && c * g.Y < high

/-- The point of a grid that is chosen for `x`, if one of its two neighbours reads back. -/
def gridPoint? (x : Binary64) (g : Grid) : Option Nat :=
  let below := x.quarters * g.X / g.Y
  let rest := x.quarters * g.X % g.Y
  match x.readsBack g below, x.readsBack g (below + 1) with
  | true, true => some (if 2 * rest < g.Y then below else below + 1)
  | true, false => some below
  | false, true => some (below + 1)
  | false, false => none

/-- Whether `10 ^ e` is at most the magnitude. -/
def powerBelow (x : Binary64) (e : Int) : Bool :=
  (x.grid e).Y ≤ x.quarters * (x.grid e).X

/-- The decimal exponent of a nonzero magnitude: the largest `e` with `10 ^ e` at most it.
The first guess is off by at most one. -/
def decimalExponent (x : Binary64) : Int :=
  let guess := ((x.quarters.log2 : Int) + x.scale - 2) * 1233 / 4096
  if x.powerBelow (guess + 1) then guess + 1
  else if x.powerBelow guess then guess
  else guess - 1

/-- A decimal `digits * 10 ^ exponent`. -/
structure Decimal where
  digits : Nat
  exponent : Int
  deriving DecidableEq

/-- The first grid with a hit, from the coarsest on. -/
def shortestFrom (x : Binary64) (e : Int) : Nat → Nat → Decimal
  | 0, n => ⟨0, e + 1 - n⟩
  | fuel + 1, n =>
    let p := e + 1 - (n : Int)
    match x.gridPoint? (x.grid p) with
    | some c => ⟨c, p⟩
    | none => shortestFrom x e fuel (n + 1)

/-- Seventeen digits always read back. -/
def shortest (x : Binary64) : Decimal := shortestFrom x x.decimalExponent 18 0

end Binary64

/-- How decimals are laid out: positional for decimal exponents from `least` up to but not
including `limit`, with a mark and an exponent otherwise. -/
structure DecimalLayout where
  least : Int
  limit : Int
  mark : String
  wholeSuffix : String

/-- Reals are positional from `1e-4` to below `1e16`, and a whole one ends in `.0`. -/
def Binary64.layout : DecimalLayout where
  least := -4
  limit := 16
  mark := "e"
  wholeSuffix := ".0"

namespace DecimalLayout

def zeros (n : Nat) : String := String.ofList (List.replicate n '0')

/-- The text of `digits * 10 ^ exponent`, where the digits are given as text. -/
def positional (layout : DecimalLayout) (digits : String) (exponent : Int) : String :=
  let point := (digits.length : Int) + exponent
  if point ≤ 0 then "0." ++ zeros (-point).toNat ++ digits
  else if 0 ≤ exponent then digits ++ zeros exponent.toNat ++ layout.wholeSuffix
  else
    String.ofList (digits.toList.take point.toNat) ++ "." ++
      String.ofList (digits.toList.drop point.toNat)

def scientific (layout : DecimalLayout) (digits : String) (exponent : Int) : String :=
  let tail := digits.toList.drop 1
  String.ofList (digits.toList.take 1) ++
    (if tail.isEmpty then "" else "." ++ String.ofList tail) ++
    layout.mark ++ toString ((digits.length : Int) + exponent - 1)

def write (layout : DecimalLayout) (d : Binary64.Decimal) : String :=
  let digits := toString d.digits
  let leading := (digits.length : Int) + d.exponent - 1
  if layout.least ≤ leading ∧ leading < layout.limit then layout.positional digits d.exponent
  else layout.scientific digits d.exponent

end DecimalLayout

namespace Binary64

def magnitudeText (x : Binary64) : String :=
  if x.isInfinite then "inf"
  else if x.isZero then "0.0"
  else layout.write x.shortest

def text (x : Binary64) : String :=
  if x.isNaN then "NaN"
  else if x.isNegative then "-" ++ x.magnitudeText
  else x.magnitudeText

end Binary64

end ProtocolIR
