import Reachability.Operator.Ask
import Reachability.Scenario.Point

/-! Calls of scripted operators: what is recorded of them, and what may befall them.

Every call is recorded and counted. Those of the transfer relation and of forced
covering also spend fuel, and fail without. Then the first hook that fits the call, if
any, may make it fail, interrupt it, or request a shutdown and let it go on. -/
namespace Reachability.Scenario

inductive OperatorKind where
  | transfer
  | adjust
  | merge
  | stop
  | force
deriving DecidableEq

inductive Call where
  | transfer (s : Point) (p : Int64)
  /-- With the size of the reached set. -/
  | adjust (s : Point) (p : Int64) (reached : Nat)
  | merge (s reached : Point) (p : Int64)
  | stop (s : Point) (reached : List Point) (p : Int64)
  | force (s : Point) (p : Int64) (reached : Nat)
  | le (a b : Point)
  | join (a b : Point)

/-- An adjustment is shown the state twice, itself and as the analysis projects it. -/
def Call.text : Call → String
  | transfer s p => s!"transfer {s} {p}"
  | adjust s p n => s!"prec {s} {p} {s} n={n}"
  | merge s reached p => s!"merge {s} {reached} {p}"
  | stop s reached p => s!"stop {s} {reached} {p}"
  | force s p n => s!"force {s} {p} n={n}"
  | le a b => s!"le {a} {b}"
  | join a b => s!"join {a} {b}"

/-- How often each operator was called. -/
structure Counts where
  transfer : Nat := 0
  adjust : Nat := 0
  merge : Nat := 0
  stop : Nat := 0
  force : Nat := 0

namespace Counts

def get (c : Counts) : OperatorKind → Nat
  | .transfer => c.transfer
  | .adjust => c.adjust
  | .merge => c.merge
  | .stop => c.stop
  | .force => c.force

def increment (c : Counts) : OperatorKind → Counts
  | .transfer => {c with transfer := c.transfer + 1}
  | .adjust => {c with adjust := c.adjust + 1}
  | .merge => {c with merge := c.merge + 1}
  | .stop => {c with stop := c.stop + 1}
  | .force => {c with force := c.force + 1}

end Counts

/-- What scripted operators remember between calls. -/
structure Memory where
  fuel : Nat := 300
  counts : Counts := {}
  calls : Array Call := #[]

namespace Memory

def record (m : Memory) (c : Call) : Memory :=
  {m with calls := m.calls.push c}

def count (m : Memory) (k : OperatorKind) : Memory :=
  {m with counts := m.counts.increment k}

end Memory

inductive Mishap where
  /-- Fails, at the given place or else at the location of the state. -/
  | fail (place reason : Option String)
  | interrupt
  | shutdown (reason : Option String)

structure Hook where
  operator : OperatorKind
  loc : Option Int64 := none
  /-- Which of the operator's calls, counted from one. -/
  nth : Option Nat := none
  /-- Without one the call goes on, and no later hook is looked at. -/
  mishap : Option Mishap

def Hook.fits (h : Hook) (k : OperatorKind) (loc : Int64) (n : Nat) : Bool :=
  h.operator == k && h.loc.all (· == loc) && h.nth.all (· == n)

/-- Spends a unit of fuel. -/
def spendFuel : Ask Memory Unit := do
  let m ← Ask.memory
  match m.fuel with
  | 0 => Ask.fail (.transferFailed ⟨"fuel", "exhausted"⟩)
  | fuel + 1 => Ask.remember fun m => {m with fuel}

def Mishap.befall (loc : Int64) : Mishap → Ask Memory Unit
  | fail place reason =>
    Ask.fail (.transferFailed ⟨place.getD ("N" ++ toString loc), reason.getD "hook"⟩)
  | interrupt => Ask.fail .interrupted
  | shutdown reason => Ask.requestShutdown (reason.getD "hook")

/-- What precedes a call about a state at `loc`. -/
def enter (hooks : List Hook) (k : OperatorKind) (loc : Int64) (c : Call) : Ask Memory Unit := do
  Ask.remember fun m => (m.record c).count k
  if k = .transfer ∨ k = .force then spendFuel
  let m ← Ask.memory
  match (hooks.find? fun h => h.fits k loc (m.counts.get k)).bind Hook.mishap with
  | some mishap => mishap.befall loc
  | none => pure ()

end Reachability.Scenario
