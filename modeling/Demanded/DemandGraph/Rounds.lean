import Demanded.DemandGraph.Basic

/-!
# Rounds of demands

One demand widens each loop head on its way once, so a state may need several demands until it is
stable.  `DemandGraph.getStable` repeats the demand of one node, `DemandGraph.fixpoint` demands a
list of locations in rounds and keeps a snapshot of each round.

On some nested loops widening never comes to rest.  So a number of rounds, the patience, is given
after which the work is abandoned.
-/

namespace Demanded

/-- The states of the targets after a round. -/
structure Snapshot where
  /-- The states, by location. -/
  states : OrdMap Loc State
  /-- Whether every target is stable. -/
  stable : Bool
deriving DecidableEq

namespace DemandGraph

/-- A patience that is ample for programs whose loops come to rest. -/
def ample : Nat := 100000

/-! ## One node -/

/-- Repeats a demand until the node is stable, `fuel` times at most.  `rounds` and `events` tell
what went before. -/
def settle (name : NodeName) : Nat → Nat → Array Event → DemandGraph → Outcome Resolved
  | 0, _, events, g => ⟨.error (.unsettled name), g, events⟩
  | fuel + 1, rounds, events, g =>
    let out := g.get name
    match out.result with
    | .error e => ⟨.error e, out.graph, events ++ out.events⟩
    | .ok resolved =>
      if out.graph.isStable name then
        ⟨.ok resolved, out.graph, (events ++ out.events).push (.settled name (rounds + 1))⟩
      else settle name fuel (rounds + 1) (events ++ out.events) out.graph

/-- Demands a node until it is stable. -/
def getStable (g : DemandGraph) (patience : Nat) (name : NodeName) : Outcome Resolved :=
  settle name patience 0 #[] g

/-- The stable state at a location. -/
def stateAt (g : DemandGraph) (patience : Nat) (loc : Loc) : Outcome State :=
  let out := g.getStable patience (.state loc)
  { result :=
      match out.result with
      | .error e => .error e
      | .ok (.state s) => .ok s
      | .ok (.stmt _) => .error (.notState loc)
    graph := out.graph
    events := out.events }

/-! ## Many locations -/

/-- Demands those of the targets that are not stable, one after the other. -/
def demandAll : List Loc → Array Event → DemandGraph → Outcome Unit
  | [], events, g => ⟨.ok (), g, events⟩
  | loc :: rest, events, g =>
    if g.isStable (.state loc) then demandAll rest events g
    else
      let out := g.get (.state loc)
      match out.result with
      | .error e => ⟨.error e, out.graph, events ++ out.events⟩
      | .ok _ => demandAll rest (events ++ out.events) out.graph

/-- The states of the targets as they are. -/
def snapshot (g : DemandGraph) (targets : List Loc) : Snapshot where
  states := .ofList (targets.filterMap fun loc => (g.cached? loc).map fun s => (loc, s))
  stable := targets.all fun loc => g.isStable (.state loc)

/-- Demands the targets in rounds until they are stable, for at most `fuel` rounds.  `history` has
the rounds so far.  `limited` tells whether the end of the fuel is a limit that was asked for. -/
def runRounds (targets : List Loc) (limited : Bool) :
    Nat → List Snapshot → Array Event → DemandGraph → Outcome (List Snapshot)
  | 0, history, events, g =>
    if limited then
      ⟨.ok history, g,
        (events.push (.limitReached history.length)).push (.roundsDone history.length)⟩
    else ⟨.error (.unsettled (.state (targets.headD .entry))), g, events⟩
  | fuel + 1, history, events, g =>
    let out := demandAll targets events g
    match out.result with
    | .error e => ⟨.error e, out.graph, out.events⟩
    | .ok () =>
      let shot := out.graph.snapshot targets
      let history := history ++ [shot]
      let events := out.events.push (.roundDone history.length targets.length shot.stable)
      if shot.stable then ⟨.ok history, out.graph, events.push (.roundsDone history.length)⟩
      else runRounds targets limited fuel history events out.graph

/-- Demands the targets in rounds until they are stable, up to a number of rounds if one is given.
The result has a snapshot of each round. -/
def fixpoint (g : DemandGraph) (patience : Nat) (targets : List Loc) (limit : Option Nat) :
    Outcome (List Snapshot) :=
  runRounds targets limit.isSome (limit.getD patience) [] #[] g

/-- Demands all locations in rounds. -/
def everywhere (g : DemandGraph) (patience : Nat) (limit : Option Nat) : Outcome (List Snapshot) :=
  g.fixpoint patience g.flow.locs limit

end DemandGraph

end Demanded
