import Reachability.Exploration.Basic

/-! Expanding one pair of the frontier.

First forced covering, if there is one, may discard the pair. Else the transfer
relation computes its successors, and each is adjusted, merged with the reached
states of its location, and published unless it is covered. A successor for which a
halt is requested is not merged: if it is covered the request is ignored, else it
is published and the run halts. A halt with successors left puts the expanded
pair back into the frontier, since expanding it again is what recovers them. -/
namespace Reachability

/-- Where to go on after a successor, or after an expansion. -/
inductive Flow where
  | onward
  | halt
  | abort (e : Abort)
deriving DecidableEq

namespace Exploration
variable {ω S P W : Type} [AbstractState S] [Waitlist W] [BEq S] [BEq P]

/-! ### Coverage -/

def isCovered (a : Analysis ω S P W) (s : S) (p : P) (x : Exploration ω S P W) :
    Except Abort Bool × Exploration ω S P W :=
  x.timed .stop fun x => x.ask (a.stop s (x.reached.statesAt s) p)

/-! ### Merging -/

/-- What became of the candidates: those that changed with what they changed into,
and the abort if not all of them were looked at. -/
structure Scan (ω S P W : Type) [AbstractState S] where
  changed : List (Handle × S) := []
  abort : Option Abort := none
  after : Exploration ω S P W

/-- Asks to merge a successor with each candidate in turn. -/
def scan (a : Analysis ω S P W) (s : S) (p : P) :
    List Handle → Exploration ω S P W → Scan ω S P W
  | [], x => { after := x }
  | h :: rest, x =>
    if x.shutdown.requested then { abort := some .interrupted, after := x }
    else
      match x.reached.state? h with
      | none => scan a s p rest x
      | some old =>
        match x.ask (a.merge.merge s old p) with
        | (.error e, x) => { abort := some e, after := x }
        | (.ok new, x) =>
          if new != old then
            let x := (x.note (.mergedWith h)).note (.merged s old new)
            let others := scan a s p rest x
            {others with changed := (h, new) :: others.changed}
          else scan a s p rest x

/-- Replaces the candidates that changed. -/
def replace (p : P) (changed : List (Handle × S)) (x : Exploration ω S P W) :
    Exploration ω S P W :=
  if changed.isEmpty then x
  else
    (x.tally fun s => {s with merges := s.merges + changed.length}).apply
      (.update (changed.map Prod.fst) (changed.map fun (_, s) => (s, p)))

/-- Merges a successor with the reached states of its location. What was merged
before an abort is kept. -/
def mergeInto (a : Analysis ω S P W) (s : S) (p : P) (x : Exploration ω S P W) :
    Option Abort × Exploration ω S P W :=
  let candidates := x.reached.handlesAt s
  if candidates.isEmpty then (none, x)
  else
    let scanned := scan a s p candidates ((x.note (.considering candidates.length)).start .merge)
    (scanned.abort, (replace p scanned.changed scanned.after).stop .merge)

/-! ### Successors -/

/-- Deals with a successor for which a halt is requested. -/
def settleHalt (a : Analysis ω S P W) (s : S) (p : P) (x : Exploration ω S P W) :
    Flow × Exploration ω S P W :=
  match isCovered a s p x with
  | (.error e, x) => (.abort e, x)
  | (.ok true, x) =>
    let x := x.tally fun s => {s with stops := s.stops + 1, coveredHalts := s.coveredHalts + 1}
    (.onward, x.note .haltIgnored)
  | (.ok false, x) =>
    let x := x.tally fun s => {s with halts := s.halts + 1}
    (.halt, (x.note .halting).publish s p)

/-- Publishes a successor unless it is covered. -/
def settle (a : Analysis ω S P W) (s : S) (p : P) (x : Exploration ω S P W) :
    Flow × Exploration ω S P W :=
  match isCovered a s p x with
  | (.error e, x) => (.abort e, x)
  | (.ok true, x) =>
    (.onward, (x.note .covered).tally fun s => {s with stops := s.stops + 1})
  | (.ok false, x) => (.onward, (x.note .uncovered).publish s p)

/-- Merges a successor, then settles it. If merging never changes anything, there is
nothing to scan for. -/
def mergeAndSettle (a : Analysis ω S P W) (s : S) (p : P) (x : Exploration ω S P W) :
    Flow × Exploration ω S P W :=
  if a.merge.separates then settle a s p x
  else
    match mergeInto a s p x with
    | (some e, x) => (.abort e, x)
    | (none, x) => settle a s p x

/-- Deals with one successor of a state. -/
def handleSuccessor (a : Analysis ω S P W) (source : S) (s : S) (p : P)
    (x : Exploration ω S P W) : Flow × Exploration ω S P W :=
  if x.shutdown.requested then (.abort .interrupted, x)
  else
    let x := x.note (.successor source s)
    match x.timed .adjust fun x => x.ask (a.adjust s p x.reached) with
    | (.error e, x) => (.abort e, x)
    | (.ok none, x) => (.onward, x.note .pruned)
    | (.ok (some ⟨s, p, .halt⟩), x) => settleHalt a s p x
    | (.ok (some ⟨s, p, .proceed⟩), x) => mergeAndSettle a s p x

/-- Deals with the successors of the pair named `h` in turn. -/
def handleSuccessors (a : Analysis ω S P W) (h : Handle) (source : S) :
    List (S × P) → Exploration ω S P W → Flow × Exploration ω S P W
  | [], x => (.onward, x)
  | (s, p) :: rest, x =>
    match handleSuccessor a source s p x with
    | (.onward, x) => handleSuccessors a h source rest x
    | (.halt, x) => (.halt, if rest.isEmpty then x else x.apply (.enqueue h))
    | (.abort e, x) => (.abort e, x)

/-! ### The pair itself -/

/-- Asks forced covering, if there is one. -/
def forceCover (a : Analysis ω S P W) (s : S) (p : P) (x : Exploration ω S P W) :
    Except Abort Bool × Exploration ω S P W :=
  match a.cover with
  | none => (.ok false, x)
  | some covering =>
    x.timed .cover fun x =>
      let attempt := covering.attempt s p x.reached x.memory
      (attempt.reply.result, attempt.operations.foldl apply (x.absorb attempt.reply))

/-- Computes the successors of a pair and deals with them. -/
def expandBy (a : Analysis ω S P W) (h : Handle) (s : S) (p : P) (x : Exploration ω S P W) :
    Flow × Exploration ω S P W :=
  match x.timed .transfer fun x => x.ask (a.transfer s p) with
  | (.error e, x) => (.abort e, x)
  | (.ok successors, x) =>
    let n := successors.length
    let x := (x.note (.succeeded h n)).tally fun s =>
      {s with successors := s.successors + n, maxSuccessors := max s.maxSuccessors n}
    handleSuccessors a h s successors x

/-- Expands the pair named `h`. A handle that names none has nothing to expand. -/
def expand (a : Analysis ω S P W) (h : Handle) (x : Exploration ω S P W) :
    Flow × Exploration ω S P W :=
  match x.reached.get? h with
  | none => (.onward, x)
  | some (s, p) =>
    match forceCover a s p (x.note (.expanding s p)) with
    | (.error e, x) => (.abort e, x)
    | (.ok true, x) =>
      (.onward, (x.note (.forciblyCovered h)).tally fun s => {s with forced := s.forced + 1})
    | (.ok false, x) => expandBy a h s p x

end Exploration
end Reachability
