import Demanded.State.Transfer

/-!
# Verdicts on array accesses

`classify` judges an access by what a state knows about the index and about the length of the array,
which is the field `length` of the array's variable.  `classifyWarnings` tells which divisors may be
zero on the way.
-/

namespace Demanded

/-- What is known about an array access. -/
inductive Verdict where
  /-- The index is within the array, whenever the access is executed. -/
  | safe
  /-- The index may be negative, or it is past every length the array can have. -/
  | outOfBounds
  /-- The index may or may not be within the array. -/
  | unknown
deriving DecidableEq

namespace Verdict

/-- The text of a verdict. -/
def text : Verdict → String
  | safe => "safe"
  | outOfBounds => "unsafe"
  | unknown => "unknown"

/-- The name of a verdict in stored findings. -/
def tag : Verdict → String
  | safe => "Safe"
  | outOfBounds => "Unsafe"
  | unknown => "Unknown"

end Verdict

/-- The verdict on an index with the given bounds, in an array whose length has the given bounds. -/
def classifyBounds (idx length : Bound × Bound) : Verdict :=
  if idx.1.any fun lo => decide (lo < Word.zero) then .outOfBounds
  else
    match idx.1, length.2 with
    | some lo, some longest => if longest ≤ lo then .outOfBounds else within idx.1 idx.2 length.1
    | _, _ => within idx.1 idx.2 length.1
where
  /-- The verdict on an index that is neither negative nor past every length. -/
  within (lo hi shortest : Bound) : Verdict :=
    match lo, hi, shortest with
    | some lo, some hi, some shortest =>
      if Word.zero ≤ lo ∧ hi < shortest then .safe else .unknown
    | _, _, _ => .unknown

/-- The verdict on an access that is executed in a state. -/
def classify (pre : State) (access : Access) : Verdict :=
  if pre.isBottom then .safe
  else
    match access.receiver with
    | .var array =>
      match (pre.eval access.idx).bounds? with
      | none => .safe
      | some idx =>
        classifyBounds idx ((pre.get (fieldKey array "length")).bounds?.getD (none, none))
    | _ => .unknown

/-- The divisors that may be zero where `classify` evaluates the index of an access. -/
def classifyWarnings (pre : State) (access : Access) : List Interval.ZeroDivisor :=
  if pre.isBottom then []
  else
    match access.receiver with
    | .var _ => pre.evalWarnings access.idx
    | _ => []

end Demanded
