/-!
# Real values

A real is a binary floating-point number of 64 bits, kept as its bit pattern so that every
value, the zeros and the infinities included, is told apart exactly. Integers become the
nearest real; a value halfway between two goes to the one with the even significand.
-/

namespace ProtocolIR

structure Binary64 where
  bits : UInt64
  deriving DecidableEq, Inhabited

namespace Binary64

def isNegative (x : Binary64) : Bool := x.bits.toNat ≥ Nat.pow 2 63

def exponentField (x : Binary64) : Nat := x.bits.toNat / Nat.pow 2 52 % Nat.pow 2 11

def fractionField (x : Binary64) : Nat := x.bits.toNat % Nat.pow 2 52

def isNaN (x : Binary64) : Bool := x.exponentField == 2047 && x.fractionField != 0

def isInfinite (x : Binary64) : Bool := x.exponentField == 2047 && x.fractionField == 0

def isZero (x : Binary64) : Bool := x.exponentField == 0 && x.fractionField == 0

/-- The integer `m` of a finite magnitude `m * 2 ^ q`. -/
def significand (x : Binary64) : Nat :=
  if x.exponentField = 0 then x.fractionField else Nat.pow 2 52 + x.fractionField

/-- The exponent `q` of a finite magnitude `m * 2 ^ q`. -/
def scale (x : Binary64) : Int :=
  if x.exponentField = 0 then -1074 else (x.exponentField : Int) - 1075

/-- The neighbour below is half as far as the neighbour above. -/
def isBinadeStart (x : Binary64) : Bool := x.fractionField == 0 && x.exponentField > 1

/-- The significand of the real nearest to `n`, before a carry is taken out. -/
def roundedSignificand (n : Nat) : Nat :=
  if n.log2 ≤ 52 then n * Nat.pow 2 (52 - n.log2)
  else
    let unit := Nat.pow 2 (n.log2 - 52)
    let low := n / unit
    let rest := n % unit
    if 2 * rest < unit then low
    else if 2 * rest > unit then low + 1
    else low + low % 2

/-- The bit pattern of the real nearest to a natural number. A carry out of the
significand moves on into the exponent by itself. -/
def bitsOfNat (n : Nat) : Nat :=
  if n = 0 then 0 else (n.log2 + 1022) * Nat.pow 2 52 + roundedSignificand n

def ofNat (n : Nat) : Binary64 := ⟨(bitsOfNat n).toUInt64⟩

def ofInt (n : Int) : Binary64 :=
  if n < 0 then ⟨(Nat.pow 2 63 + bitsOfNat n.natAbs).toUInt64⟩ else ofNat n.natAbs

end Binary64

end ProtocolIR
