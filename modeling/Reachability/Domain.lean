/-! Abstract domains: an order on abstract states and a join.

Both are computations in a monad, so that what is built on them also fixes which
states are compared, and in which order. `Domain Id S` is a domain of plain
functions, and `lift` takes it to any other monad. -/
namespace Reachability

/-- An order on `S`: whether one element is below another. -/
structure Comparison (m : Type → Type) (S : Type) where
  le : S → S → m Bool

namespace Comparison
variable {m : Type → Type} [Monad m] {S : Type}

/-- The flat order: an element is below itself only. -/
def flat [BEq S] : Comparison m S :=
  ⟨fun a b => pure (a == b)⟩

/-- Each below the other. The second comparison is made only if the first holds. -/
def eq (c : Comparison m S) (a b : S) : m Bool := do
  if ← c.le a b then c.le b a else pure false

def lift (c : Comparison Id S) : Comparison m S :=
  ⟨fun a b => pure (c.le a b).run⟩

/-- Below, when the order is a plain function. -/
def Below (c : Comparison Id S) (a b : S) : Prop :=
  (c.le a b).run = true

instance (c : Comparison Id S) (a b : S) : Decidable (c.Below a b) :=
  inferInstanceAs (Decidable ((c.le a b).run = true))

theorem below_flat_iff [BEq S] (a b : S) : (flat : Comparison Id S).Below a b ↔ (a == b) = true :=
  Iff.rfl

end Comparison

/-- An order together with a join. -/
structure Domain (m : Type → Type) (S : Type) extends Comparison m S where
  join : S → S → m S

namespace Domain
variable {m : Type → Type} [Monad m] {S : Type}

/-- The join of a list, from the left; of nothing there is none. -/
def joinMany (d : Domain m S) : List S → m (Option S)
  | [] => pure none
  | a :: rest => some <$> rest.foldlM d.join a

def ofFunctions (le : S → S → Bool) (join : S → S → S) : Domain Id S where
  le a b := pure (le a b)
  join a b := pure (join a b)

def lift (d : Domain Id S) : Domain m S :=
  { d.toComparison.lift with join := fun a b => pure (d.join a b).run }

theorem toComparison_lift (d : Domain Id S) :
    (d.lift : Domain m S).toComparison = d.toComparison.lift := rfl

/-- The join of a list by a plain function, where nothing can go wrong. -/
theorem run_joinMany_cons (d : Domain Id S) (a : S) (rest : List S) :
    (d.joinMany (a :: rest)).run = some (rest.foldl (fun x y => (d.join x y).run) a) := by
  show some (rest.foldlM d.join a).run = _
  rw [List.idRun_foldlM]

end Domain
end Reachability
