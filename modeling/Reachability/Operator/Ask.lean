import Reachability.Abort

/-! Calls of the operators that an analysis supplies.

An operator is a black box to the exploration that asks it. It may remember things
between calls (`ω` is whatever it remembers), give up with an abort, take time, and
ask for a shutdown while it works. All of this is in its `Reply`. Since the first
request for a shutdown wins, one optional reason says all there is to say about
the requests made during a call. `Ask` is the monad of such calls. -/
namespace Reachability

structure Reply (ω α : Type) where
  result : Except Abort α
  memory : ω
  /-- The reason of a shutdown requested during the call. -/
  request : Option String := none
  /-- How long the call took, in nanoseconds. -/
  elapsed : Nat := 0

def Ask (ω α : Type) : Type :=
  ω → Reply ω α

namespace Ask
variable {ω α β : Type}

/-- Answers at once. -/
def answer (a : α) : Ask ω α :=
  fun w => ⟨.ok a, w, none, 0⟩

/-- Asks twice, the second time with the first answer in hand. -/
def andThen (x : Ask ω α) (f : α → Ask ω β) : Ask ω β :=
  fun w =>
    let first := x w
    match first.result with
    | .error e => ⟨.error e, first.memory, first.request, first.elapsed⟩
    | .ok a =>
      let second := f a first.memory
      ⟨second.result, second.memory, first.request <|> second.request,
        first.elapsed + second.elapsed⟩

instance : Monad (Ask ω) where
  pure := answer
  bind := andThen

def fail (e : Abort) : Ask ω α :=
  fun w => ⟨.error e, w, none, 0⟩

def memory : Ask ω ω :=
  fun w => ⟨.ok w, w, none, 0⟩

def remember (f : ω → ω) : Ask ω Unit :=
  fun w => ⟨.ok (), f w, none, 0⟩

def requestShutdown (reason : String) : Ask ω Unit :=
  fun w => ⟨.ok (), w, some reason, 0⟩

@[simp] theorem pure_apply (a : α) (w : ω) : (pure a : Ask ω α) w = ⟨.ok a, w, none, 0⟩ := rfl

theorem bind_apply (x : Ask ω α) (f : α → Ask ω β) (w : ω) :
    (x >>= f) w =
      match (x w).result with
      | .error e => ⟨.error e, (x w).memory, (x w).request, (x w).elapsed⟩
      | .ok a =>
        ⟨(f a (x w).memory).result, (f a (x w).memory).memory,
          (x w).request <|> (f a (x w).memory).request,
          (x w).elapsed + (f a (x w).memory).elapsed⟩ := rfl

end Ask
end Reachability
