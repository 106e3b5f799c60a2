import Reachability.Journal.Event

/-! A journal keeps the events that are grave enough for its reader, in order. A
journal with no threshold keeps nothing. -/
namespace Reachability

structure Journal (S P : Type) where
  threshold : Option Level := none
  events : Array (Event S P) := #[]

namespace Journal
variable {S P : Type}

/-- Whether events of this level are kept. -/
def keeps (j : Journal S P) (level : Level) : Bool :=
  match j.threshold with
  | some most => level.detail ≤ most.detail
  | none => false

def note (j : Journal S P) (e : Event S P) : Journal S P :=
  if j.keeps e.level then {j with events := j.events.push e} else j

def noteAll (j : Journal S P) (es : List (Event S P)) : Journal S P :=
  es.foldl note j

/-- The same reader's empty journal. -/
def blank (j : Journal S P) : Journal S P :=
  {j with events := #[]}

end Journal
end Reachability
