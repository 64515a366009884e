import Mathlib

/-! # Rationals over 256-bit integers

Numerator and denominator are signed 256-bit integers held as sign and magnitude, so
that every arithmetic result keeps its sign and loses the bits of its magnitude above
the 256th. The operations reduce by common divisors before they multiply. -/
namespace LogosCore

structure Rational where
  num : ℤ
  den : ℤ
deriving DecidableEq,Repr

namespace Rational

/-- A result as the 256-bit integer type stores it. -/
def int256 (z : ℤ) : ℤ := z.tmod (2 ^ 256)

def zero : Rational := ⟨0,1⟩

def ofNat (n : ℕ) : Rational := ⟨int256 n,1⟩

/-- The quotient in lowest terms with a positive denominator; a zero denominator throws. -/
def make (n d : ℤ) : Option Rational :=
  if d = 0 then none
  else if n = 0 then some ⟨0,1⟩
  else
    let g : ℤ := n.gcd d
    let n := n.tdiv g
    let d := d.tdiv g
    some (if d < 0 then ⟨-n,-d⟩ else ⟨n,d⟩)

/-- Addition and subtraction differ in how the two scaled numerators are combined. -/
def combine (op : ℤ → ℤ → ℤ) (a b : Rational) : Rational :=
  let g : ℤ := a.den.gcd b.den
  let den := a.den.tdiv g
  let num := int256 (op (int256 (a.num * b.den.tdiv g)) (int256 (b.num * den)))
  let g : ℤ := num.gcd g
  ⟨num.tdiv g,int256 (den * b.den.tdiv g)⟩

def add : Rational → Rational → Rational := combine (· + ·)

def sub : Rational → Rational → Rational := combine (· - ·)

def mul (a b : Rational) : Rational :=
  let g1 : ℤ := a.num.gcd b.den
  let g2 : ℤ := b.num.gcd a.den
  ⟨int256 (a.num.tdiv g1 * b.num.tdiv g2),int256 (a.den.tdiv g2 * b.den.tdiv g1)⟩

def increment (a : Rational) : Rational := ⟨int256 (a.num + a.den),a.den⟩

def decrement (a : Rational) : Rational := ⟨int256 (a.num - a.den),a.den⟩

/-- Comparison of two rationals with positive denominators. -/
def lt (a b : Rational) : Bool := a.num * b.den < b.num * a.den

def truncate (a : Rational) : ℤ := a.num.tdiv a.den

def remainder (a : Rational) : Option Rational := make (a.num.tmod a.den) a.den

end Rational
end LogosCore
