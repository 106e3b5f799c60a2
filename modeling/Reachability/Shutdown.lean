import Reachability.Abort
import Reachability.Text.Record
import Reachability.Text.Quoted

/-! Cooperative cancellation.

A shutdown, once requested, stays requested: the first requester wins and later
reasons are dropped. Whoever explores asks at its check points and gives up
there. A `Board` is a set of switches with several holders, some of which share
a switch. -/
namespace Reachability

structure Shutdown where
  /-- The reason of the first requester. -/
  reason : Option String := none
deriving DecidableEq

namespace Shutdown

def requested (s : Shutdown) : Bool :=
  s.reason.isSome

/-- Whether this request is the first, and the switch afterwards. -/
def request (s : Shutdown) (reason : String) : Bool × Shutdown :=
  match s.reason with
  | some _ => (false, s)
  | none => (true, ⟨some reason⟩)

/-- A check point. -/
def check (s : Shutdown) : Except Abort Unit :=
  if s.requested then .error .interrupted else .ok ()

def describe (s : Shutdown) : String :=
  Text.Record.inline
    { name := "ShutdownNotifier"
      fields := [("requested", Text.flag s.requested),
        ("reason", Text.option (s.reason.map Text.Quoted.encode))] }

@[simp] theorem requested_request (s : Shutdown) (reason : String) :
    (s.request reason).2.requested = true := by
  cases h : s.reason <;> simp [request, requested, h]

/-- A request that comes too late changes nothing. -/
theorem request_of_requested {s : Shutdown} (h : s.requested = true) (reason : String) :
    s.request reason = (false, s) := by
  obtain ⟨reason', h'⟩ := Option.isSome_iff_exists.1 h
  simp [request, h']

end Shutdown

/-- Switches, and for each holder the number of the switch it holds. -/
structure Board where
  switches : List Shutdown := [{}]
  holders : List Nat := [0]

namespace Board

/-- The switch that holder `i` holds. -/
def held (b : Board) (i : Nat) : Shutdown :=
  (b.holders[i]?.bind fun k => b.switches[k]?).getD {}

/-- One more holder, of the switch that holder `i` holds. -/
def share (b : Board) (i : Nat) : Board :=
  {b with holders := b.holders ++ b.holders[i]?.toList}

/-- One more holder, of a switch of its own. -/
def addSwitch (b : Board) : Board :=
  { switches := b.switches ++ [{}], holders := b.holders ++ [b.switches.length] }

def request (b : Board) (i : Nat) (reason : String) : Bool × Board :=
  match b.holders[i]? with
  | none => (false, b)
  | some k =>
    ((b.held i).request reason |>.1,
      {b with switches := b.switches.modify k fun s => (s.request reason).2})

/-- What each holder sees. -/
def views (b : Board) : List Shutdown :=
  (List.range b.holders.length).map b.held

end Board
end Reachability
