import Reachability.Reached.Basic

/-! The operations on a reached set as data, with their answers.

A sequence of operations is all that a user of a reached set can do to it, and the
answers are all that the user learns besides its sizes. -/
namespace Reachability

inductive Operation (S P : Type) where
  | addInitial (s : S) (p : P)
  | takeSeeds
  | add (s : S) (p : P)
  | removeHandle (h : Handle)
  | remove (s : S)
  | update (gone : List Handle) (fresh : List (S × P))
  | updatePrecision (h : Handle) (p : P)
  | clear
  | pop
  | enqueue (h : Handle)
  | isWaiting (h : Handle)
  | get (h : Handle)
  | lookUp (s : S)
  | states
  | waitingStates

inductive Answer (S P : Type) where
  | done
  | flag (b : Bool)
  | handle (h : Handle)
  | handle? (h : Option Handle)
  | pair? (entry : Option (S × P))
  | pairs (entries : List (S × P))
  /-- The state, the precision and the pair behind a handle. -/
  | parts (state : Option S) (precision : Option P) (pair : Option (S × P))
  | states (states : List S)
  /-- The handle of an equal state, whether there is one, and the handles and
  states of the partition. -/
  | found (handle : Option Handle) (contained : Bool) (handles : List Handle) (states : List S)

namespace Reached
variable {S P W : Type} [AbstractState S] [Waitlist W] [BEq S] [BEq P]

def perform (r : Reached S P W) : Operation S P → Answer S P × Reached S P W
  | .addInitial s p => let r := r.addInitial s p; (.flag r.hasSeeds, r)
  | .takeSeeds => let (seeds, r) := r.takeSeeds; (.pairs seeds, r)
  | .add s p => let (h, r) := r.add s p; (.handle h, r)
  | .removeHandle h =>
    match r.removeHandle? h with
    | some (pair, r) => (.pair? (some pair), r)
    | none => (.pair? none, r)
  | .remove s => let (found, r) := r.remove s; (.flag found, r)
  | .update gone fresh => (.done, r.update gone fresh)
  | .updatePrecision h p => let (found, r) := r.updatePrecision h p; (.flag found, r)
  | .clear => (.done, r.clear)
  | .pop => let (h, r) := r.pop; (.handle? h, r)
  | .enqueue h => let (found, r) := r.enqueue h; (.flag found, r)
  | .isWaiting h => (.flag (r.isWaiting h), r)
  | .get h => (.parts (r.state? h) (r.precision? h) (r.get? h), r)
  | .lookUp s => (.found (r.find? s) (r.contains s) (r.handlesAt s) (r.statesAt s), r)
  | .states => (.states r.states, r)
  | .waitingStates => (.states r.waitingStates, r)

/-- The reached set after a sequence of operations. -/
def performAll (r : Reached S P W) (ops : List (Operation S P)) : Reached S P W :=
  ops.foldl (fun r op => (r.perform op).2) r

@[simp] theorem performAll_nil (r : Reached S P W) : r.performAll [] = r := rfl

@[simp] theorem performAll_cons (r : Reached S P W) (op : Operation S P) (ops : List (Operation S P)) :
    r.performAll (op :: ops) = (r.perform op).2.performAll ops := rfl

theorem performAll_append (r : Reached S P W) (ops others : List (Operation S P)) :
    r.performAll (ops ++ others) = (r.performAll ops).performAll others :=
  List.foldl_append

end Reached
end Reachability
