import Reachability.Waitlist.Basic

/-! Topological order: the least rank leaves first, the oldest among equal ranks.

A handle is queued under the key (rank, serial number), and no serial number is
given twice, not even after clearing. So that a handle can be removed without
searching, `index` keeps the key a handle was last pushed under. Popping a handle
drops its index entry; a handle pushed twice therefore leaves its other key in
the queue, where it is popped in its turn but can no longer be removed. -/
namespace Reachability

/-- Where a handle stands in the queue. -/
structure Turn where
  rank : Nat
  serial : Nat
deriving DecidableEq

/-- Whether one turn comes before another: by rank, then by age. -/
def Turn.before (a b : Turn) : Bool :=
  a.rank < b.rank || (a.rank == b.rank && a.serial < b.serial)

structure Ranked where
  /-- In order of turns. -/
  queue : List (Turn × Handle) := []
  index : List (Handle × Turn) := []
  nextSerial : Nat := 0

namespace Ranked

/-- Enters a handle behind every turn that comes before its own. -/
def enter (t : Turn) (h : Handle) : List (Turn × Handle) → List (Turn × Handle)
  | [] => [(t, h)]
  | (u, g) :: rest => if u.before t then (u, g) :: enter t h rest else (t, h) :: (u, g) :: rest

def forget (h : Handle) (index : List (Handle × Turn)) : List (Handle × Turn) :=
  index.filter fun entry => entry.1 != h

def push (w : Ranked) (h : Handle) (rank : Nat) : Ranked :=
  let t : Turn := ⟨rank, w.nextSerial⟩
  { queue := enter t h w.queue
    index := (h, t) :: forget h w.index
    nextSerial := w.nextSerial + 1 }

def pop? (w : Ranked) : Option (Handle × Ranked) :=
  match w.queue with
  | (_, h) :: rest => some (h, {w with queue := rest, index := forget h w.index})
  | [] => none

def remove (w : Ranked) (h : Handle) : Bool × Ranked :=
  match w.index.lookup h with
  | some t =>
    (true, {w with queue := w.queue.filter (fun entry => entry.1 != t), index := forget h w.index})
  | none => (false, w)

def toList (w : Ranked) : List Handle :=
  w.queue.map Prod.snd

instance : Waitlist Ranked where
  push := push
  pop? := pop?
  remove := remove
  size w := w.queue.length
  toList := toList
  clear w := {w with queue := [], index := []}

theorem pop?_eq_some {w r : Ranked} {h : Handle} (e : w.pop? = some (h, r)) :
    w.toList = h :: r.toList := by
  obtain ⟨queue, index, next⟩ := w
  cases queue with
  | nil => cases e
  | cons entry rest =>
    simp only [pop?, Option.some.injEq, Prod.mk.injEq] at e
    obtain ⟨rfl, rfl⟩ := e
    rfl

theorem length_toList (w : Ranked) : w.toList.length = Waitlist.size w :=
  List.length_map _

theorem pop?_eq_none_iff (w : Ranked) : w.pop? = none ↔ w.toList = [] := by
  obtain ⟨queue, index, next⟩ := w
  cases queue <;> simp [pop?, toList]

end Ranked
end Reachability
