import Reachability.Waitlist.Operation
import Reachability.Waitlist.Order

/-! What a waitlist is to do, whatever the order.

A docket is a plain list of the handles that wait, each with its rank, in the order in which
they were pushed. Pushing, removing and clearing are the same for all orders; an order only says
which handle is the next to leave (`next?`, and in words `IsNext`). A handle is to be pushed
only while it is not on the docket (`Lawful`). -/
namespace Reachability

abbrev Docket := List (Handle × Nat)

namespace Docket

def handles (d : Docket) : List Handle :=
  d.map Prod.fst

def without (d : Docket) (h : Handle) : Docket :=
  d.filter fun x => x.1 != h

/-- The entry of least rank, and of these the oldest. -/
def least? : Docket → Option (Handle × Nat)
  | [] => none
  | x :: rest =>
    match least? rest with
    | some y => if y.2 < x.2 then some y else some x
    | none => some x

/-- The handle that leaves next. -/
def next? (o : TraversalOrder) (d : Docket) : Option Handle :=
  match o with
  | .breadthFirst => d.head?.map Prod.fst
  | .depthFirst => d.getLast?.map Prod.fst
  | .topological => d.least?.map Prod.fst

/-- The oldest handle, the newest one, or the one of least rank, the oldest among equal ranks. -/
def IsNext (o : TraversalOrder) (d : Docket) (h : Handle) : Prop :=
  match o with
  | .breadthFirst => ∃ rank later, d = (h, rank) :: later
  | .depthFirst => ∃ earlier rank, d = earlier ++ [(h, rank)]
  | .topological => ∃ earlier rank later, d = earlier ++ (h, rank) :: later ∧
      (∀ x ∈ earlier, rank < x.2) ∧ ∀ x ∈ later, rank ≤ x.2

def perform (o : TraversalOrder) (d : Docket) : Waitlist.Operation → Docket
  | .push h rank => d ++ [(h, rank)]
  | .pop =>
    match d.next? o with
    | some h => d.without h
    | none => d
  | .remove h => d.without h
  | .clear => []

/-- The docket after a sequence of operations. -/
def performAll (o : TraversalOrder) (d : Docket) (ops : List Waitlist.Operation) : Docket :=
  ops.foldl (perform o) d

def Admits (d : Docket) : Waitlist.Operation → Prop
  | .push h _ => h ∉ d.handles
  | _ => True

/-- No handle is pushed that waits already. -/
def Lawful (o : TraversalOrder) : Docket → List Waitlist.Operation → Prop
  | _, [] => True
  | d, op :: ops => d.Admits op ∧ Lawful o (d.perform o op) ops

instance (d : Docket) (op : Waitlist.Operation) : Decidable (d.Admits op) :=
  match op with
  | .push h _ => inferInstanceAs (Decidable (h ∉ d.handles))
  | .pop => isTrue trivial
  | .remove _ => isTrue trivial
  | .clear => isTrue trivial

instance decidableLawful (o : TraversalOrder) :
    (d : Docket) → (ops : List Waitlist.Operation) → Decidable (Lawful o d ops)
  | _, [] => isTrue trivial
  | d, op :: ops =>
    have := decidableLawful o (d.perform o op) ops
    inferInstanceAs (Decidable (d.Admits op ∧ Lawful o (d.perform o op) ops))

end Docket
end Reachability
