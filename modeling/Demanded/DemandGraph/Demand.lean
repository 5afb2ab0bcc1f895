import Demanded.DemandGraph.Skeleton
import Demanded.Event
import Demanded.Failure

/-!
# Demands

A demand computes the state at a location from the states on which it depends, and keeps every state
that it computes in a cell.

* A location where execution starts has the unconstrained state.
* Any other location joins what its statements make of the states at their sources.
* A loop head is widened once: its new state extrapolates from its last one, or from what enters the
  loop, to what enters and what loops back.  While this goes on, a demand for the head answers with
  its last state, the iterate.

A cell remembers the loop heads on whose iterates its state depends and that had not converged.  If
there are none, the state is final.  Otherwise it is used again only within the same demand.
-/

namespace Demanded

/-- A state that was computed. -/
structure Cell where
  value : State
  /-- The loop heads that had not converged and on whose iterates the state depends. -/
  pending : OrdSet Loc
  /-- The number of the demand that computed the state. -/
  pass : Nat
deriving DecidableEq

namespace Cell

/-- Whether the state will not change any more. -/
def isFinal (c : Cell) : Bool := OrdSet.isEmpty c.pending

end Cell

/-- How much work demands have done. -/
structure Stats where
  /-- Demands answered by a cell. -/
  hits : Nat
  /-- States computed. -/
  computed : Nat
  /-- Loop heads widened. -/
  widens : Nat
deriving DecidableEq

/-- What demands change. -/
structure Memo where
  /-- The states computed so far. -/
  cells : OrdMap Loc Cell
  /-- The loop heads that are being computed. -/
  visiting : OrdSet Loc
  /-- The work done so far. -/
  stats : Stats
  /-- What happened, in order. -/
  events : Array Event

namespace Memo

/-- Reports an event. -/
def note (m : Memo) (e : Event) : Memo := { m with events := m.events.push e }

/-- Reports divisions by zero. -/
def warn (m : Memo) (warnings : List Interval.ZeroDivisor) : Memo :=
  warnings.foldl (fun m w => m.note (.zeroDivisor w)) m

/-- Begins the computation of a loop head. -/
def enter (m : Memo) (loc : Loc) : Memo := { m with visiting := OrdSet.add m.visiting loc }

/-- Ends the computation of a loop head. -/
def leave (m : Memo) (loc : Loc) : Memo := { m with visiting := m.visiting.erase loc }

/-- Keeps a state. -/
def store (m : Memo) (loc : Loc) (c : Cell) : Memo := { m with cells := m.cells.insert loc c }

/-- The state kept for a location. -/
def value? (m : Memo) (loc : Loc) : Option State := (m.cells.get? loc).map Cell.value

/-- The cell that answers a demand with the given number, if there is one. -/
def usable? (m : Memo) (pass : Nat) (loc : Loc) : Option Cell :=
  (m.cells.get? loc).filter fun c => c.isFinal || decide (c.pass = pass)

/-- Counts an answer from a cell. -/
def countHit (m : Memo) : Memo := { m with stats := { m.stats with hits := m.stats.hits + 1 } }

/-- Counts a computed state. -/
def countComputed (m : Memo) : Memo :=
  { m with stats := { m.stats with computed := m.stats.computed + 1 } }

/-- Counts a widened loop head. -/
def countWiden (m : Memo) : Memo :=
  { m with stats := { m.stats with widens := m.stats.widens + 1 } }

end Memo

/-- The answer to a demand. -/
structure Answer where
  state : State
  /-- The loop heads that had not converged and on whose iterates the state depends. -/
  pending : OrdSet Loc

namespace Answer

/-- The unreachable state, which depends on nothing. -/
def bottom : Answer := ⟨.bottom, ∅⟩

/-- The unconstrained state, which depends on nothing. -/
def top : Answer := ⟨.top, ∅⟩

/-- Joins what a statement makes of an answer. -/
def absorb (acc pre : Answer) (stmt : Stmt) : Answer :=
  ⟨acc.state.join (pre.state.interpret stmt), acc.pending.union pre.pending⟩

end Answer

/-- Keeps a computed state and reports it together with the end of its demand. -/
def Memo.conclude (m : Memo) (pass depth : Nat) (loc : Loc) (answer : Answer) : Memo :=
  let m := m.note (.stateComputed depth answer.state answer.pending.toList)
  let m := m.countComputed.store loc ⟨answer.state, answer.pending, pass⟩
  m.note (.demandEnds depth loc)

/-- A way to demand the state at a location.  Also a demand that fails changes the memo. -/
abbrev Ask := Loc → Memo → Except Failure Answer × Memo

namespace Skeleton

/-- Joins what the statements of nodes make of the states at their sources. -/
def joinInputs (sk : Skeleton) (ask : Ask) : List NodeName → Answer → Memo →
    Except Failure Answer × Memo
  | [], acc, m => (.ok acc, m)
  | .state _ :: rest, acc, m => joinInputs sk ask rest acc m
  | .stmt src dst rank :: rest, acc, m =>
    match ask src m with
    | (.error e, m) => (.error e, m)
    | (.ok pre, m) =>
      match sk.stmts.get? (.stmt src dst rank) with
      | none => (.error (.danglingStmt (.stmt src dst rank)), m)
      | some stmt =>
        joinInputs sk ask rest (acc.absorb pre stmt) (m.warn (pre.state.interpretWarnings stmt))

/-- Computes the state at a location that is no loop head. -/
def computePlain (sk : Skeleton) (ask : Ask) (loc : Loc) (m : Memo) :
    Except Failure Answer × Memo :=
  if sk.isRoot loc then (.ok .top, m)
  else sk.joinInputs ask (sk.inputNodes loc fun _ => true) .bottom m

/-- Computes what enters a loop at its head. -/
def computeEntering (sk : Skeleton) (ask : Ask) (loc : Loc) (m : Memo) :
    Except Failure Answer × Memo :=
  if sk.isRoot loc then (.ok .top, m) else sk.joinInputs ask (sk.forwardNodes loc) .bottom m

/-- The answer for a loop head.  `seen` is its last state, `prev` the iterate from which `next` was
extrapolated.  The head itself is pending if it has not converged, and also if what enters the loop
was computed from the head before there was an iterate. -/
def headAnswer (loc : Loc) (seen : Option State) (prev next : State)
    (entering looping : OrdSet Loc) : Answer :=
  let pending := (entering.union looping).erase loc
  let unseeded := seen.isNone && entering.contains loc
  ⟨next, if unseeded || !next.implies prev then OrdSet.add pending loc else pending⟩

/-- Computes the state at a loop head by one widening. -/
def computeHead (sk : Skeleton) (pass : Nat) (ask : Ask) (loc : Loc) (m : Memo) :
    Except Failure Answer × Memo :=
  let seen := m.value? loc
  match sk.computeEntering ask loc (m.enter loc) with
  | (.error e, m) => (.error e, m.leave loc)
  | (.ok entering, m) =>
    let prev := seen.getD entering.state
    match sk.joinInputs ask (sk.backNodes loc) .bottom
        (m.store loc ⟨prev, OrdSet.singleton loc, pass⟩) with
    | (.error e, m) => (.error e, m.leave loc)
    | (.ok looping, m) =>
      let next := prev.widen (entering.state.join looping.state)
      (.ok (headAnswer loc seen prev next entering.pending looping.pending),
        (m.leave loc).countWiden)

/-- Computes the state at a location. -/
def compute (sk : Skeleton) (pass : Nat) (ask : Ask) (loc : Loc) (m : Memo) :
    Except Failure Answer × Memo :=
  if sk.heads.contains loc then sk.computeHead pass ask loc m else sk.computePlain ask loc m

/-- Demands the state at a location.  `depth` is the number of demands that wait for this one, and
`fuel` bounds how many more may be nested. -/
def demand (sk : Skeleton) (pass : Nat) : Nat → Nat → Ask
  | 0, _, loc, m => (.error (.unsettled (.state loc)), m)
  | fuel + 1, depth, loc, m =>
    let m := m.note (.demandStarts depth loc)
    if m.visiting.contains loc then
      (.ok ⟨(m.value? loc).getD .bottom, OrdSet.singleton loc⟩,
        (m.note (.iterateUsed depth)).note (.demandEnds depth loc))
    else
      match m.usable? pass loc with
      | some c =>
        (.ok ⟨c.value, c.pending⟩,
          ((m.note (.cellUsed depth)).countHit).note (.demandEnds depth loc))
      | none =>
        match sk.compute pass (demand sk pass fuel (depth + 1)) loc m with
        | (.error e, m) => (.error e, m.note (.demandEnds depth loc))
        | (.ok answer, m) => (.ok answer, m.conclude pass depth loc answer)

end Skeleton

end Demanded
