import Demanded.Interval.Arithmetic
import Demanded.Lang.Operator

/-!
# Operators on intervals

`Interval.evalBinary` and `Interval.evalUnary` are the operators of expressions on intervals.
Comparisons and logic go through `Truth`: what is known about a condition.  `Interval.refine`
restricts an interval to the values for which a comparison can hold.
-/

namespace Demanded

/-- What is known about the truth of a value. -/
inductive Truth where
  /-- It is true. -/
  | always
  /-- It is false. -/
  | never
  /-- It may be true and it may be false. -/
  | either
  /-- There is no value. -/
  | neither
deriving DecidableEq

namespace Truth

/-- Whether the value may be true. -/
def mayBeTrue : Truth → Bool
  | always | either => true
  | never | neither => false

/-- Whether the value may be false. -/
def mayBeFalse : Truth → Bool
  | never | either => true
  | always | neither => false

/-- The truth of the opposite. -/
def not : Truth → Truth
  | always => never
  | never => always
  | t => t

/-- The truth of a conjunction. -/
def and : Truth → Truth → Truth
  | neither, _ | _, neither => neither
  | never, _ | _, never => never
  | always, always => always
  | _, _ => either

/-- The truth of a disjunction. -/
def or : Truth → Truth → Truth
  | neither, _ | _, neither => neither
  | always, _ | _, always => always
  | never, never => never
  | _, _ => either

end Truth

namespace Interval

/-! ## Conditions -/

/-- The interval of a condition: `1` for true, `0` for false. -/
def ofTruth : Truth → Interval
  | .always => constant Word.one
  | .never => constant Word.zero
  | .either => make (some Word.zero) (some Word.one)
  | .neither => bottom

/-- The truth of a value used as a condition; only `0` is false. -/
def truth : Interval → Truth
  | bottom => .neither
  | range l u =>
    if (range l u).constant? = some Word.zero then .never
    else if (range l u).contains Word.zero then .either
    else .always

/-- Whether the values of the first interval are below those of the second. -/
def less (strict : Bool) : Interval → Interval → Truth
  | range l₁ u₁, range l₂ u₂ =>
    let below := if strict then Extended.lt else Extended.le
    let notAbove := if strict then Extended.le else Extended.lt
    if below (Extended.ofUpper u₁) (Extended.ofLower l₂) then .always
    else if notAbove (Extended.ofUpper u₂) (Extended.ofLower l₁) then .never
    else .either
  | _, _ => .neither

/-- Whether the values of both intervals are equal. -/
def equal (a b : Interval) : Truth :=
  if a.isBottom || b.isBottom then .neither
  else if a.constant?.isSome && a.constant? == b.constant? then .always
  else if (a.meet b).isBottom then .never
  else .either

/-! ## Operators -/

/-- A binary operator on intervals. -/
def evalBinary (op : BinaryOp) (a b : Interval) : Interval :=
  if a.isBottom || b.isBottom then bottom
  else
    match op with
    | .add => a.add b
    | .sub => a.sub b
    | .mul => a.mul b
    | .div => a.div b
    | .rem => a.rem b
    | .lt => ofTruth (less true a b)
    | .le => ofTruth (less false a b)
    | .gt => ofTruth (less true b a)
    | .ge => ofTruth (less false b a)
    | .eq => ofTruth (equal a b)
    | .ne => ofTruth (equal a b).not
    | .and => ofTruth (a.truth.and b.truth)
    | .or => ofTruth (a.truth.or b.truth)

/-- A unary operator on an interval. -/
def evalUnary : UnaryOp → Interval → Interval
  | .neg, a => a.neg
  | .not, a => ofTruth a.truth.not

/-- A division whose divisor may be zero. -/
structure ZeroDivisor where
  /-- Whether the remainder is asked for. -/
  remainder : Bool
  /-- The divisor. -/
  divisor : Interval
deriving DecidableEq

namespace ZeroDivisor

/-- The warning about such a division. -/
def text (w : ZeroDivisor) : String :=
  (if w.remainder then "remainder" else "division") ++ " by " ++ w.divisor.text ++
    " may divide by zero, result is unconstrained"

end ZeroDivisor

/-- The division by zero that evaluating an operator may meet. -/
def zeroDivisor? (op : BinaryOp) (a b : Interval) : Option ZeroDivisor :=
  if !a.isBottom && b.contains Word.zero then
    match op with
    | .div => some ⟨false, b⟩
    | .rem => some ⟨true, b⟩
    | _ => none
  else none

/-! ## Refinement -/

/-- The interval of the values `v` of `a` for which `v ≠ c` can be told from the bounds. -/
def exclude (a : Interval) (c : Word) : Interval :=
  match a with
  | bottom => top
  | range l u =>
    if l = some c then make (c.add? Word.one) u
    else if u = some c then make l (c.sub? Word.one)
    else top

/-- What `v op w`, for some `w` between the bounds `l` and `u` of `b`, says about the values `v`
of `a`. -/
def constraint (op : BinaryOp) (a b : Interval) (l u : Bound) : Interval :=
  match op with
  | .lt => make none (u.bind fun u => u.sub? Word.one)
  | .le => make none u
  | .gt => make (l.bind fun l => l.add? Word.one) none
  | .ge => make l none
  | .eq => b
  | .ne =>
    match b.constant? with
    | some c => a.exclude c
    | none => top
  | _ => top

/-- Restricts `a` to the values `v` with `v op w` for some `w` in `b`. -/
def refine (op : BinaryOp) (a b : Interval) : Interval :=
  match b with
  | bottom => bottom
  | range l u => a.meet (constraint op a b l u)

end Interval

end Demanded
