import Demanded.Word

/-!
# Intervals of integers

An interval is empty or has two inclusive bounds, each a word or infinite.  `Interval.make` is the
interval of two bounds, empty when the bounds cross.  `Interval.range` keeps crossed bounds as they
are: stored data may hold them, and every operation here still gives an answer on them.

The operations of the lattice are `meet`, `join` and `widen`, and `implies` is its order.
-/

namespace Demanded

/-! ## Bounds -/

/-- A bound of an interval; `none` is infinite, on the side where the bound stands. -/
abbrev Bound := Option Word

/-- A point of the number line with both infinities. -/
inductive Extended where
  | negInf
  | fin (value : Word)
  | posInf
deriving DecidableEq

namespace Extended

/-- The point where a lower bound stands. -/
def ofLower : Bound → Extended
  | none => negInf
  | some v => fin v

/-- The point where an upper bound stands. -/
def ofUpper : Bound → Extended
  | none => posInf
  | some v => fin v

/-- The word at a finite point. -/
def finite? : Extended → Bound
  | fin v => some v
  | _ => none

/-- The order of the number line, both infinities included. -/
def le : Extended → Extended → Bool
  | negInf, _ => true
  | fin _, negInf => false
  | fin a, fin b => decide (a ≤ b)
  | fin _, posInf => true
  | posInf, posInf => true
  | posInf, _ => false

/-- The strict order of the number line. -/
def lt (a b : Extended) : Bool := !le b a

/-- The smaller of two points. -/
def min (a b : Extended) : Extended := if le a b then a else b

/-- The greater of two points. -/
def max (a b : Extended) : Extended := if le a b then b else a

end Extended

/-- The tighter of two upper bounds. -/
def minUpper : Bound → Bound → Bound
  | some a, some b => some (min a b)
  | some a, none => some a
  | none, b => b

/-- The looser of two upper bounds. -/
def maxUpper : Bound → Bound → Bound
  | some a, some b => some (max a b)
  | _, _ => none

/-- The looser of two lower bounds. -/
def minLower : Bound → Bound → Bound
  | some a, some b => some (min a b)
  | _, _ => none

/-- The tighter of two lower bounds. -/
def maxLower : Bound → Bound → Bound
  | some a, some b => some (max a b)
  | some a, none => some a
  | none, b => b

/-! ## The type -/

/-- An interval of integers. -/
inductive Interval where
  /-- No integer. -/
  | bottom
  /-- The integers between two inclusive bounds. -/
  | range (lower upper : Bound)
deriving DecidableEq

namespace Interval

/-- The interval between two bounds, empty when they cross. -/
def make (lower upper : Bound) : Interval :=
  match lower, upper with
  | some l, some u => if u < l then bottom else range (some l) (some u)
  | l, u => range l u

/-- All integers. -/
def top : Interval := range none none

/-- One integer. -/
def constant (v : Word) : Interval := make (some v) (some v)

/-- The integers from `v` up. -/
def atLeast (v : Word) : Interval := make (some v) none

/-- The integers up to `v`. -/
def atMost (v : Word) : Interval := make none (some v)

/-- The integer that stands for a truth value. -/
def ofBool (b : Bool) : Interval := constant (if b then Word.one else Word.zero)

/-- The two bounds, unless the interval is empty. -/
def bounds? : Interval → Option (Bound × Bound)
  | bottom => none
  | range l u => some (l, u)

/-- Whether this is the empty interval. -/
def isBottom : Interval → Bool
  | bottom => true
  | range _ _ => false

/-- Whether both bounds are infinite. -/
def isTop : Interval → Bool
  | range none none => true
  | _ => false

/-- Whether a word lies between the bounds. -/
def contains : Interval → Word → Bool
  | bottom, _ => false
  | range l u, v => (l.all fun l => decide (l ≤ v)) && (u.all fun u => decide (v ≤ u))

/-- The word at which both bounds stand. -/
def constant? : Interval → Option Word
  | range (some l) (some u) => if l = u then some l else none
  | _ => none

/-! ## The lattice -/

/-- The integers in both intervals. -/
def meet : Interval → Interval → Interval
  | range l₁ u₁, range l₂ u₂ => make (maxLower l₁ l₂) (minUpper u₁ u₂)
  | _, _ => bottom

/-- The least interval around both. -/
def join : Interval → Interval → Interval
  | bottom, b => b
  | a, bottom => a
  | range l₁ u₁, range l₂ u₂ => make (minLower l₁ l₂) (maxUpper u₁ u₂)

/-- Extrapolates from an accumulated interval to a newer one: a bound that the newer interval
passes becomes infinite, any other bound stays. -/
def widen : Interval → Interval → Interval
  | bottom, b => b
  | a, bottom => a
  | range l₁ u₁, range l₂ u₂ =>
    make (if (Extended.ofLower l₂).lt (Extended.ofLower l₁) then none else l₁)
      (if (Extended.ofUpper u₁).lt (Extended.ofUpper u₂) then none else u₁)

/-- The order: the bounds of the first interval lie within those of the second. -/
def implies : Interval → Interval → Bool
  | bottom, _ => true
  | _, bottom => false
  | range l₁ u₁, range l₂ u₂ =>
    (Extended.ofLower l₂).le (Extended.ofLower l₁) && (Extended.ofUpper u₁).le (Extended.ofUpper u₂)

/-! ## Order and text -/

/-- Compares bounds by value, an infinite one first. -/
def compareBound : Bound → Bound → Ordering
  | none, none => .eq
  | none, some _ => .lt
  | some _, none => .gt
  | some a, some b => compare a b

/-- The total order of intervals: the empty one first, then by lower and by upper bound. -/
protected def compare : Interval → Interval → Ordering
  | bottom, bottom => .eq
  | bottom, range _ _ => .lt
  | range _ _, bottom => .gt
  | range l₁ u₁, range l₂ u₂ => (compareBound l₁ l₂).then (compareBound u₁ u₂)

/-- The text of an interval, such as `[0, +oo]`. -/
def text : Interval → String
  | bottom => "bottom"
  | range l u =>
    "[" ++ (match l with | none => "-oo" | some l => toString l.val) ++ ", " ++
      (match u with | none => "+oo" | some u => toString u.val) ++ "]"

end Interval

end Demanded
