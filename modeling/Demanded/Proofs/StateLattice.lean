import Mathlib.Order.BoundedOrder.Lattice
import Demanded.Proofs.StateOrder

/-!
# The lattice of normal states

Normal states are a join semilattice with a least element: the order is `State.implies`, the join is
`State.join`, and the unreachable state is below all others.  The order is that of the stores that
states allow, so nothing is lost by comparing bindings only.

Two states that are not normal may allow the same stores and still differ, so the type of the
lattice is `NormalState`, not `State`.
-/

namespace Demanded

/-- A state in which every binding is to a proper interval. -/
@[ext]
structure NormalState where
  /-- The state. -/
  state : State
  /-- The state is normal. -/
  normal : state.Normal

namespace NormalState

instance : PartialOrder NormalState where
  le s t := s.state.implies t.state = true
  le_refl s := State.implies_refl s.state
  le_trans s _ _ := State.implies_trans s.normal
  le_antisymm s t h h' := NormalState.ext (State.implies_antisymm s.normal t.normal h h')

instance : SemilatticeSup NormalState where
  sup s t := ⟨s.state.join t.state, State.normal_join s.normal t.normal⟩
  le_sup_left s t := State.implies_join_left s.normal t.state
  le_sup_right s t := State.implies_join_right s.state t.normal
  sup_le s _ _ := State.join_implies s.normal

instance : OrderBot NormalState where
  bot := ⟨.bottom, State.normal_bottom⟩
  bot_le _ := rfl

end NormalState

namespace State

/-- The order of normal states is that of the stores that they allow, and their join is the least
state above both: commutative, associative, idempotent and neutral at the unreachable state. -/
theorem join_semilattice {a b c : State} (ha : a.Normal) (hb : b.Normal) (hc : c.Normal) :
    (a.implies b = true ↔ ∀ σ, a.Sat σ → b.Sat σ) ∧
      (a.implies b = true → b.implies a = true → a = b) ∧
      ((a.join b).Normal ∧ a.implies (a.join b) = true ∧ b.implies (a.join b) = true ∧
        (a.implies c = true → b.implies c = true → (a.join b).implies c = true)) ∧
      a.join b = b.join a ∧ (a.join b).join c = a.join (b.join c) ∧ a.join a = a ∧
      bottom.join a = a ∧ a.join bottom = a := by
  let s : NormalState := ⟨a, ha⟩
  let t : NormalState := ⟨b, hb⟩
  let r : NormalState := ⟨c, hc⟩
  have hleast : a.implies c = true → b.implies c = true → (a.join b).implies c = true :=
    sup_le (a := s) (b := t) (c := r)
  refine ⟨implies_iff_sat ha, implies_antisymm ha hb,
    ⟨normal_join ha hb, implies_join_left ha b, implies_join_right a hb, hleast⟩, ?_⟩
  exact ⟨congrArg NormalState.state (sup_comm s t), congrArg NormalState.state (sup_assoc s t r),
    congrArg NormalState.state (sup_idem s), congrArg NormalState.state (bot_sup_eq s),
    congrArg NormalState.state (sup_bot_eq s)⟩

/-- One variable is not negative. -/
def notBelowZero : State := top.set "x" (.atLeast .zero)

/-- The same variable is not positive, and another one is at most one. -/
def notAboveZero : State := (top.set "x" (.atMost .zero)).set "y" (.atMost .one)

/-- A join that drops both keys: one becomes unconstrained, and one is bound on one side only. -/
theorem join_semilattice_dropped :
    notBelowZero.join notAboveZero = top ∧ notBelowZero.join notAboveZero =
      notAboveZero.join notBelowZero ∧ ¬∀ σ, notBelowZero.Sat σ → notAboveZero.Sat σ := by
  have hbelow : notBelowZero.Normal := normal_set normal_top (Interval.ordered_make _ _) "x"
  have habove : notAboveZero.Normal :=
    normal_set (normal_set normal_top (Interval.ordered_make _ _) "x") (Interval.ordered_make _ _)
      "y"
  have h := join_semilattice hbelow habove normal_top
  exact ⟨by decide +kernel, h.2.2.2.1, fun hsat => absurd (h.1.2 hsat) (by decide +kernel)⟩

end State

end Demanded
