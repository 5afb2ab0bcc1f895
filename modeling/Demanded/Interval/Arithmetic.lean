import Demanded.Interval.Basic

/-!
# Arithmetic on intervals

Each operation takes intervals that hold the operands to one that holds the result.  Where a bound
of the result is not a word, it becomes infinite, so the answer stays around the exact result.
A divisor that may be zero leaves the result unconstrained.
-/

namespace Demanded

namespace Extended

/-- The sign of a point: `-1`, `0` or `1`. -/
def sign : Extended → Int
  | negInf => -1
  | fin v => v.val.sign
  | posInf => 1

/-- The infinity on the side of a sign. -/
def infinity (sign : Int) : Extended := if sign < 0 then negInf else posInf

/-- The product of two points.  A product that is not a word lies beyond all words on the side of
its sign; zero times infinity is zero. -/
def mul : Extended → Extended → Extended
  | fin a, fin b =>
    match a.mul? b with
    | some v => fin v
    | none => infinity (a.val.sign * b.val.sign)
  | a, b => if a.sign * b.sign = 0 then fin Word.zero else infinity (a.sign * b.sign)

end Extended

/-- A checked operation on two finite bounds. -/
def Bound.lift₂ (f : Word → Word → Option Word) : Bound → Bound → Bound
  | some a, some b => f a b
  | _, _ => none

namespace Interval

/-- Sums. -/
def add : Interval → Interval → Interval
  | range l₁ u₁, range l₂ u₂ => make (Bound.lift₂ Word.add? l₁ l₂) (Bound.lift₂ Word.add? u₁ u₂)
  | _, _ => bottom

/-- Opposites. -/
def neg : Interval → Interval
  | bottom => bottom
  | range l u => make (u.bind Word.neg?) (l.bind Word.neg?)

/-- Differences. -/
def sub (a b : Interval) : Interval := a.add b.neg

/-- Products: the least and the greatest product of two bounds. -/
def mul : Interval → Interval → Interval
  | range l₁ u₁, range l₂ u₂ =>
    let a := (Extended.ofLower l₁).mul (Extended.ofLower l₂)
    let b := (Extended.ofLower l₁).mul (Extended.ofUpper u₂)
    let c := (Extended.ofUpper u₁).mul (Extended.ofLower l₂)
    let d := (Extended.ofUpper u₁).mul (Extended.ofUpper u₂)
    make ((a.min b).min (c.min d)).finite? ((a.max b).max (c.max d)).finite?
  | _, _ => bottom

/-- The least and the greatest quotient of two finite bounds, unconstrained if one of the four
quotients is not a word. -/
def divFinite (l₁ u₁ l₂ u₂ : Word) : Interval :=
  match l₁.quot? l₂, l₁.quot? u₂, u₁.quot? l₂, u₁.quot? u₂ with
  | some a, some b, some c, some d =>
    make (some (min (min a b) (min c d))) (some (max (max a b) (max c d)))
  | _, _, _, _ => top

/-- Quotients rounded toward zero. -/
def div : Interval → Interval → Interval
  | range l₁ u₁, range l₂ u₂ =>
    if (range l₂ u₂).contains Word.zero then top
    else
      match l₁, u₁, l₂, u₂ with
      | some l₁, some u₁, some l₂, some u₂ => divFinite l₁ u₁ l₂ u₂
      | _, _, _, _ => top
  | _, _ => bottom

/-- The greatest magnitude that a remainder can have: one less than the greatest magnitude of the
divisor. -/
def remMagnitude (l u : Bound) : Bound :=
  (Bound.lift₂ (fun a b => some (max a b)) (l.bind Word.abs?) (u.bind Word.abs?)).bind
    fun m => m.sub? Word.one

/-- Remainders, with the sign of the dividend. -/
def rem : Interval → Interval → Interval
  | range l₁ u₁, range l₂ u₂ =>
    if (range l₂ u₂).contains Word.zero then top
    else
      let magnitude := remMagnitude l₂ u₂
      if l₁.any fun l => decide (Word.zero ≤ l) then
        make (some Word.zero) (minUpper u₁ magnitude)
      else if u₁.any fun u => decide (u ≤ Word.zero) then
        make (maxLower l₁ (magnitude.bind Word.neg?)) (some Word.zero)
      else make (magnitude.bind Word.neg?) magnitude
  | _, _ => bottom

end Interval

end Demanded
