import Reachability.Text.Record
import Reachability.Waitlist.Order

/-! The command line of the counting demonstration. -/
namespace Reachability.Counter

/-- A decimal number of 64 bits with an optional sign. -/
def parseWord (s : String) : Option Int64 :=
  let (negative, digits) := match s.toList with
    | '-' :: rest => (true, rest)
    | '+' :: rest => (false, rest)
    | digits => (false, digits)
  if digits.isEmpty || !digits.all Char.isDigit then none
  else
    let size : Nat := digits.foldl (fun n c => 10 * n + (c.toNat - '0'.toNat)) 0
    let n : Int := if negative then -size else size
    if Int64.minValue.toInt ≤ n && n ≤ Int64.maxValue.toInt then some (Int64.ofInt n) else none

structure Options where
  bound : Int64 := 10
  order : TraversalOrder := .breadthFirst
  /-- The value that jumps to the error location. -/
  error : Option Int64 := none
  /-- Merge states at the same location. -/
  join : Bool := false
  /-- Go on after the first error location is reached. -/
  allErrors : Bool := false

namespace Options

/-- What is on the command line, before any of it is read. -/
structure Given where
  bound : Option String := none
  order : Option String := none
  error : Option String := none
  join : Bool := false
  allErrors : Bool := false

namespace Given

/-- The bound may be given once. -/
def giveBound (g : Given) (value : String) : Option Given :=
  if g.bound.isSome then none else some {g with bound := some value}

def giveOrder (g : Given) (value : String) : Option Given :=
  if g.order.isSome then none else some {g with order := some value}

def giveError (g : Given) (value : String) : Option Given :=
  if g.error.isSome then none else some {g with error := some value}

/-- The value of an option written as one argument, `--name=value`. -/
def valueOf? (name arg : String) : Option String :=
  let key := name ++ "="
  if arg.startsWith key then some (arg.drop key.length).toString else none

/-- Behind a lone `--` nothing is an option any more. -/
def bounds (g : Given) : List String → Option Given
  | [] => some g
  | arg :: rest => (g.giveBound arg).bind fun g => g.bounds rest

/-- Whether an argument can only be meant as an option. -/
def looksLikeOption (arg : String) : Bool :=
  arg.startsWith "-" && arg != "-"

/-- Sorts out the arguments; `none` if they do not make sense. -/
def collect (g : Given) : List String → Option Given
  | [] => some g
  | "--" :: rest => g.bounds rest
  | "--join" :: rest => if g.join then none else collect {g with join := true} rest
  | "--all-errors" :: rest =>
    if g.allErrors then none else collect {g with allErrors := true} rest
  | "--order" :: value :: rest =>
    if looksLikeOption value then none else (g.giveOrder value).bind fun g => collect g rest
  | "--error" :: value :: rest =>
    if looksLikeOption value then none else (g.giveError value).bind fun g => collect g rest
  | arg :: rest =>
    match valueOf? "--order" arg, valueOf? "--error" arg with
    | some value, _ => (g.giveOrder value).bind fun g => collect g rest
    | _, some value => (g.giveError value).bind fun g => collect g rest
    | none, none =>
      if looksLikeOption arg then none
      else (g.giveBound arg).bind fun g => collect g rest

end Given

/-- Reads a value if there is one; a value that cannot be read is a failure. -/
def readWith {α : Type} (read : String → Option α) (default : α) : Option String → Option α
  | none => some default
  | some s => read s

def ofGiven (g : Given) : Option Options := do
  let bound ← readWith parseWord 10 g.bound
  let order ← readWith (fun s => (TraversalOrder.parse s).toOption) .breadthFirst g.order
  let error ← readWith (fun s => (parseWord s).map some) none g.error
  pure { bound, order, error, join := g.join, allErrors := g.allErrors }

/-- Reads the command line; `none` if it is not understood. -/
def ofArguments (args : List String) : Option Options :=
  (Given.collect {} args).bind ofGiven

def orderName : TraversalOrder → String
  | .breadthFirst => "Bfs"
  | .depthFirst => "Dfs"
  | .topological => "Topological"

def describe (o : Options) : String :=
  Text.Record.inline
    { name := "Cli"
      fields :=
        [("bound", toString o.bound), ("order", orderName o.order),
          ("error", Text.option (o.error.map toString)), ("join", Text.flag o.join),
          ("all_errors", Text.flag o.allErrors)] }

end Options
end Reachability.Counter
