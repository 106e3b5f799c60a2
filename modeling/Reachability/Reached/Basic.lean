import Reachability.Arena.Basic
import Reachability.Partitions
import Reachability.State
import Reachability.Waitlist.Order

/-! The reached set: every published pair of a state and a precision, and the
frontier of those still to be expanded.

Pairs live in an arena. The partition index lists, for each location, the pairs
published there, which are the candidates for merge and stop. The waitlist orders
the frontier; the flag of an entry says whether it is in it, so that a pair waits
at most once. Seeds are pairs that are not published yet: a run publishes them
before it looks at the waitlist.

Publishing a state that equals one already published replaces the precision of
the latter, and puts it back into the frontier only if the precision differs. -/
namespace Reachability

open AbstractState (Location)

structure Entry (S P : Type) where
  state : S
  precision : P
  waiting : Bool

structure Reached (S P W : Type) [AbstractState S] where
  arena : Arena (Entry S P) := {}
  partitions : Partitions (Location S) := {}
  waitlist : W
  seeds : List (S × P) := []
  first : Option Handle := none
  last : Option Handle := none

namespace Reached
variable {S P W : Type} [AbstractState S] [Waitlist W]

/-- Nothing reached yet, with a waitlist of one of the built-in orders. -/
def ofOrder (o : TraversalOrder) : Reached S P Frontier :=
  { waitlist := Frontier.ofOrder o }

/-- Why a waitlist is refused. -/
inductive Refusal where
  | waitlistNotEmpty

def Refusal.message : Refusal → String
  | waitlistNotEmpty => "Injected waitlist must be empty"

/-- Nothing reached yet, with a waitlist of the caller's. -/
def withWaitlist (w : W) : Except Refusal (Reached S P W) :=
  if Waitlist.isEmpty w then .ok { waitlist := w } else .error .waitlistNotEmpty

/-! ### Seeds -/

def addInitial (r : Reached S P W) (s : S) (p : P) : Reached S P W :=
  {r with seeds := r.seeds ++ [(s, p)]}

def hasSeeds (r : Reached S P W) : Bool :=
  !r.seeds.isEmpty

/-- The seeds, which are seeds no longer. -/
def takeSeeds (r : Reached S P W) : List (S × P) × Reached S P W :=
  (r.seeds, {r with seeds := []})

/-! ### Looking things up -/

def size (r : Reached S P W) : Nat :=
  r.arena.size

def isEmpty (r : Reached S P W) : Bool :=
  r.arena.isEmpty

def state? (r : Reached S P W) (h : Handle) : Option S :=
  (r.arena.get? h).map Entry.state

def precision? (r : Reached S P W) (h : Handle) : Option P :=
  (r.arena.get? h).map Entry.precision

def get? (r : Reached S P W) (h : Handle) : Option (S × P) :=
  (r.arena.get? h).map fun e => (e.state, e.precision)

/-- The handles published at the location of a state, in order of publication. -/
def handlesAt (r : Reached S P W) (s : S) : List Handle :=
  r.partitions.handles (AbstractState.location s)

/-- The states published at the location of a state: its merge and stop candidates. -/
def statesAt (r : Reached S P W) (s : S) : List S :=
  (r.handlesAt s).filterMap r.state?

def find? [BEq S] (r : Reached S P W) (s : S) : Option Handle :=
  (r.handlesAt s).find? fun h =>
    match r.state? h with
    | some t => t == s
    | none => false

def contains [BEq S] (r : Reached S P W) (s : S) : Bool :=
  (r.find? s).isSome

/-- All published pairs with their handles, in the order of the arena. -/
def entries (r : Reached S P W) : List (Handle × Entry S P) :=
  r.arena.toList

def states (r : Reached S P W) : List S :=
  r.entries.map fun (_, e) => e.state

def firstState? (r : Reached S P W) : Option S :=
  r.first.bind r.state?

/-- The state published most recently, unless it was removed since. -/
def lastState? (r : Reached S P W) : Option S :=
  r.last.bind r.state?

def partitionCount (r : Reached S P W) : Nat :=
  r.partitions.count

def maxPartitionSize (r : Reached S P W) : Nat :=
  r.partitions.maxSize

/-! ### The frontier -/

def hasWaiting (r : Reached S P W) : Bool :=
  !Waitlist.isEmpty r.waitlist

def waitlistSize (r : Reached S P W) : Nat :=
  Waitlist.size r.waitlist

def isWaiting (r : Reached S P W) (h : Handle) : Bool :=
  ((r.arena.get? h).map Entry.waiting).getD false

/-- The handles in the waitlist, in pop order. -/
def waiting (r : Reached S P W) : List Handle :=
  Waitlist.toList r.waitlist

def waitingStates (r : Reached S P W) : List S :=
  r.waiting.filterMap r.state?

/-- Puts a published pair into the frontier, unless it is there already. The flag
says whether the handle names a published pair. -/
def enqueue (r : Reached S P W) (h : Handle) : Bool × Reached S P W :=
  match r.arena.get? h with
  | none => (false, r)
  | some e =>
    if e.waiting then (true, r)
    else
      (true, {r with
        arena := r.arena.modify h fun e => {e with waiting := true}
        waitlist := Waitlist.push r.waitlist h (AbstractState.rank e.state)})

/-- The first handle to be popped that names a published pair, among the next `n`. -/
def popLive (arena : Arena (Entry S P)) : Nat → W → Option Handle × W
  | 0, w => (none, w)
  | n + 1, w =>
    match Waitlist.pop? w with
    | none => (none, w)
    | some (h, rest) => if arena.contains h then (some h, rest) else popLive arena n rest

/-- Takes the next pair out of the frontier. It stays published. -/
def pop (r : Reached S P W) : Option Handle × Reached S P W :=
  match popLive r.arena (Waitlist.size r.waitlist) r.waitlist with
  | (some h, w) =>
    (some h, {r with
      arena := r.arena.modify h fun e => {e with waiting := false}
      waitlist := w})
  | (none, w) => (none, {r with waitlist := w})

/-! ### Publishing and removing -/

/-- Replaces the precision of a published pair and leaves the frontier alone. -/
def setPrecision (r : Reached S P W) (h : Handle) (p : P) : Reached S P W :=
  {r with arena := r.arena.modify h fun e => {e with precision := p}}

/-- Publishes a pair whose state is not published yet. -/
def publish (r : Reached S P W) (s : S) (p : P) : Handle × Reached S P W :=
  let (h, arena) := r.arena.add { state := s, precision := p, waiting := false }
  let partitions := r.partitions.enter (AbstractState.location s) h
  let (_, r) := {r with arena, partitions}.enqueue h
  (h, {r with first := r.first <|> some h, last := some h})

/-- Publishes a pair. -/
def add [BEq S] [BEq P] (r : Reached S P W) (s : S) (p : P) : Handle × Reached S P W :=
  match r.find? s with
  | none => r.publish s p
  | some h =>
    let r :=
      match r.precision? h with
      | some q => if q != p then ((r.setPrecision h p).enqueue h).2 else r
      | none => r
    (h, {r with last := some h})

/-- Removes a pair wherever it is; `none` if the handle names none. -/
def removeHandle? (r : Reached S P W) (h : Handle) : Option ((S × P) × Reached S P W) :=
  match r.arena.remove? h with
  | none => none
  | some (e, arena) =>
    some ((e.state, e.precision), {r with
      arena
      partitions := r.partitions.leave (AbstractState.location e.state) h
      waitlist := if e.waiting then (Waitlist.remove r.waitlist h).2 else r.waitlist
      first := if r.first = some h then none else r.first
      last := if r.last = some h then none else r.last})

def removeHandle (r : Reached S P W) (h : Handle) : Reached S P W :=
  match r.removeHandle? h with
  | some (_, r) => r
  | none => r

/-- Removes the published state that equals the given one. The flag says whether
there was one. -/
def remove [BEq S] (r : Reached S P W) (s : S) : Bool × Reached S P W :=
  match (r.find? s).bind r.removeHandle? with
  | some (_, r) => (true, r)
  | none => (false, r)

/-- Removes a batch, then publishes a batch. -/
def update [BEq S] [BEq P] (r : Reached S P W) (gone : List Handle) (fresh : List (S × P)) :
    Reached S P W :=
  fresh.foldl (fun r (s, p) => (r.add s p).2) (gone.foldl removeHandle r)

/-- Replaces the precision of a published pair and puts it into the frontier. The
flag says whether the handle names a published pair. -/
def updatePrecision (r : Reached S P W) (h : Handle) (p : P) : Bool × Reached S P W :=
  if r.arena.contains h then (true, ((r.setPrecision h p).enqueue h).2) else (false, r)

/-- Forgets everything, the seeds included. -/
def clear (r : Reached S P W) : Reached S P W :=
  { arena := r.arena.clear, waitlist := Waitlist.clear r.waitlist }

end Reached
end Reachability
