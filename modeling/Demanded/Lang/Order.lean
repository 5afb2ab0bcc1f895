import Demanded.Lang.Stmt

/-!
# The order of statements

Statements and expressions are compared by the kind of their outermost form first, then part by part
from left to right.  Texts are compared by code points, lists lexicographically.  `sortBy` sorts by
such a comparison.
-/

namespace Demanded

namespace Literal

/-- The place of a kind of literal. -/
def rank : Literal → Nat
  | int _ => 0
  | bool _ => 1
  | null => 2

/-- The order of literals. -/
protected def compare : Literal → Literal → Ordering
  | int a, int b => Ord.compare a b
  | bool a, bool b => Ord.compare a.toNat b.toNat
  | a, b => Ord.compare a.rank b.rank

end Literal

namespace Expr

/-- The place of a kind of expression. -/
def rank : Expr → Nat
  | var _ => 0
  | lit _ => 1
  | binary .. => 2
  | unary .. => 3
  | field .. => 4
  | index .. => 5
  | array _ => 6
  | call .. => 7

mutual

/-- The order of expressions. -/
protected def compare : Expr → Expr → Ordering
  | var a, var b => Ord.compare a b
  | lit a, lit b => a.compare b
  | binary o l r, binary o' l' r' =>
    (Ord.compare o.rank o'.rank).then ((Expr.compare l l').then (Expr.compare r r'))
  | unary o e, unary o' e' => (Ord.compare o.rank o'.rank).then (Expr.compare e e')
  | field r n, field r' n' => (Expr.compare r r').then (Ord.compare n n')
  | index r i, index r' i' => (Expr.compare r r').then (Expr.compare i i')
  | array es, array es' => compareList es es'
  | call c es, call c' es' => (Ord.compare c c').then (compareList es es')
  | a, b => Ord.compare a.rank b.rank

/-- The lexicographic order of lists of expressions. -/
def compareList : List Expr → List Expr → Ordering
  | [], [] => .eq
  | [], _ :: _ => .lt
  | _ :: _, [] => .gt
  | e :: es, e' :: es' => (Expr.compare e e').then (compareList es es')

end

end Expr

/-- The order of selectors. -/
protected def Selector.compare : Selector → Selector → Ordering
  | .field a, .field b => Ord.compare a b
  | .field _, .index _ => .lt
  | .index _, .field _ => .gt
  | .index a, .index b => a.compare b

namespace Stmt

/-- The place of a kind of statement. -/
def rank : Stmt → Nat
  | assign .. => 0
  | write .. => 1
  | throw _ => 2
  | assume _ => 3
  | expr _ => 4
  | skip => 5

/-- The order of statements. -/
protected def compare : Stmt → Stmt → Ordering
  | assign l r, assign l' r' => (Ord.compare l l').then (r.compare r')
  | write e s r, write e' s' r' => (e.compare e').then ((s.compare s').then (r.compare r'))
  | throw e, throw e' => e.compare e'
  | assume e, assume e' => e.compare e'
  | expr e, expr e' => e.compare e'
  | a, b => Ord.compare a.rank b.rank

end Stmt

/-! ## Sorting -/

section Sorting

universe u

variable {α : Type u}

/-- Inserts before the first item that is not smaller. -/
def insertBy (cmp : α → α → Ordering) (x : α) : List α → List α
  | [] => [x]
  | y :: rest => if (cmp x y).isLE then x :: y :: rest else y :: insertBy cmp x rest

/-- Sorts in ascending order; equal items keep their order. -/
def sortBy (cmp : α → α → Ordering) (xs : List α) : List α :=
  xs.foldr (insertBy cmp) []

end Sorting

end Demanded
