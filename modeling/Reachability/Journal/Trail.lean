import Reachability.Journal.Basic
import Reachability.Reached.Operation

/-! A reached set with the journal of what happens to it. Two things are noted, that
a pair was published and that one was removed, and both at the finest level. The
reached set itself does not depend on the journal. -/
namespace Reachability

namespace Reached
variable {S P W : Type} [AbstractState S] [Waitlist W] [BEq S] [BEq P]

def removalEvents (r : Reached S P W) : List Handle → List (Event S P)
  | [] => []
  | h :: rest =>
    (if r.arena.contains h then [.removed h] else []) ++ (r.removeHandle h).removalEvents rest

def additionEvents (r : Reached S P W) : List (S × P) → List (Event S P)
  | [] => []
  | (s, p) :: rest =>
    let (h, after) := r.add s p
    (if r.contains s then [] else [.published h]) ++ after.additionEvents rest

/-- What is worth noting about an operation. -/
def events (r : Reached S P W) : Operation S P → List (Event S P)
  | .add s p => r.additionEvents [(s, p)]
  | .removeHandle h => r.removalEvents [h]
  | .remove s => r.removalEvents (r.find? s).toList
  | .update gone fresh => r.removalEvents gone ++ (gone.foldl removeHandle r).additionEvents fresh
  | _ => []

end Reached

structure Trail (S P W : Type) [AbstractState S] where
  reached : Reached S P W
  journal : Journal S P := {}

namespace Trail
variable {S P W : Type} [AbstractState S] [Waitlist W] [BEq S] [BEq P]

def note (t : Trail S P W) (e : Event S P) : Trail S P W :=
  {t with journal := t.journal.note e}

def perform (t : Trail S P W) (op : Operation S P) : Answer S P × Trail S P W :=
  let journal :=
    if t.journal.keeps .trace then t.journal.noteAll (t.reached.events op) else t.journal
  let (a, reached) := t.reached.perform op
  (a, { reached, journal })

def apply (t : Trail S P W) (op : Operation S P) : Trail S P W :=
  (t.perform op).2

@[simp] theorem reached_apply (t : Trail S P W) (op : Operation S P) :
    (t.apply op).reached = (t.reached.perform op).2 := rfl

omit [Waitlist W] [BEq S] [BEq P] in
@[simp] theorem reached_note (t : Trail S P W) (e : Event S P) :
    (t.note e).reached = t.reached := rfl

end Trail
end Reachability
