import Reachability.Proofs.Reached.Consistent
import Reachability.Proofs.Run.Simulation

/-! Histories of a reached set: seeds are scheduled and runs are made, in any order.

A run in a history is one that ended, with whatever result. Each run may be made by
another analysis, as long as it is admitted; what its operators remember, whether a
shutdown was requested before or is requested meanwhile, the counters and the journal
are left open. To show that something holds after every history, `History.induct` asks
for the three things that can change the reached set between two expansions (a seed
scheduled, a seed published, an iteration). -/
namespace Reachability
variable {S P W : Type} [AbstractState S] [Waitlist W] [BEq S] [BEq P]

/-- From `origin`, scheduling `seeds` and running admitted analyses can lead here. -/
inductive History (admits : (ω : Type) → Analysis ω S P W → Prop) (origin : Reached S P W) :
    List (S × P) → Reached S P W → Prop
  | start : History admits origin [] origin
  | schedule {seeds : List (S × P)} {r : Reached S P W} (before : History admits origin seeds r)
      (s : S) (p : P) : History admits origin (seeds ++ [(s, p)]) (r.addInitial s p)
  | run {seeds : List (S × P)} {ω : Type} {a : Analysis ω S P W} {limit : Nat}
      {x y : Exploration ω S P W} {result : Except Abort Outcome}
      (before : History admits origin seeds x.reached) (admitted : admits ω a)
      (ended : x.run a limit = (some result, y)) : History admits origin seeds y.reached

/-- Histories whose last run was exhausted. -/
inductive Exhausted (admits : (ω : Type) → Analysis ω S P W → Prop) (origin : Reached S P W)
    (seeds : List (S × P)) : Reached S P W → Prop
  | last {ω : Type} {a : Analysis ω S P W} {limit : Nat} {x y : Exploration ω S P W}
      {outcome : Outcome} (before : History admits origin seeds x.reached)
      (admitted : admits ω a) (ended : x.run a limit = (some (.ok outcome), y))
      (exhausted : outcome.termination = .exhausted) : Exhausted admits origin seeds y.reached

/-- A run that has a result is part of a history. -/
theorem History.ran {admits : (ω : Type) → Analysis ω S P W → Prop} {origin : Reached S P W}
    {seeds : List (S × P)} {ω : Type} {a : Analysis ω S P W} {limit : Nat} {x : Exploration ω S P W}
    (before : History admits origin seeds x.reached) (admitted : admits ω a)
    (ended : (x.run a limit).1.isSome = true) :
    History admits origin seeds (x.run a limit).2.reached := by
  obtain ⟨result, hresult⟩ := Option.isSome_iff_exists.1 ended
  exact .run before admitted (Prod.ext hresult rfl)

theorem Exhausted.ran {admits : (ω : Type) → Analysis ω S P W → Prop} {origin : Reached S P W}
    {seeds : List (S × P)} {ω : Type} {a : Analysis ω S P W} {limit : Nat} {x : Exploration ω S P W}
    (before : History admits origin seeds x.reached) (admitted : admits ω a)
    (ended : ((x.run a limit).1.bind Except.toOption).map Outcome.termination = some .exhausted) :
    Exhausted admits origin seeds (x.run a limit).2.reached := by
  obtain ⟨outcome, hbind, hexhausted⟩ := Option.map_eq_some_iff.1 ended
  obtain ⟨result, hresult, hoption⟩ := Option.bind_eq_some_iff.1 hbind
  cases result with
  | error e => cases hoption
  | ok o =>
    cases hoption
    exact .last before admitted (Prod.ext hresult rfl) hexhausted

/-- What every iteration keeps, the iterations of a run keep. -/
theorem Effect.Iterated.preserves {ω : Type} {a : Analysis ω S P W} {r r' : Reached S P W}
    {result : Except Abort Termination} (h : Iterated a r result r') (Inv : Reached S P W → Prop)
    (hstep : ∀ r ended r', Inv r → Stepped a r ended r' → Inv r') (hr : Inv r) : Inv r' := by
  induction h with
  | ended step => exact hstep _ _ _ hr step
  | more step _ ih => exact ih (hstep _ _ _ hr step)

/-- What taking the seeds and publishing one of them keep, draining keeps. -/
theorem Reached.drain_preserves {Inv : Reached S P W → Prop} {r : Reached S P W}
    (htaken : Inv r.takeSeeds.2) (hadd : ∀ r s p, Inv r → Inv (r.add s p).2) : Inv r.drain := by
  unfold drain
  generalize r.takeSeeds.2 = taken at htaken
  induction r.seeds generalizing taken with
  | nil => exact htaken
  | cons pair rest ih => exact ih _ (hadd _ pair.1 pair.2 htaken)

theorem History.induct {admits : (ω : Type) → Analysis ω S P W → Prop} {origin r : Reached S P W}
    {seeds : List (S × P)} (h : History admits origin seeds r) (Inv : Reached S P W → Prop)
    (horigin : Inv origin) (hseeds : ∀ r seeds, Inv r → Inv {r with seeds := seeds})
    (hadd : ∀ r s p, Inv r → Inv (r.add s p).2)
    (hstep : ∀ {ω : Type} (a : Analysis ω S P W), admits ω a →
      ∀ r ended r', Inv r → Effect.Stepped a r ended r' → Inv r') : Inv r := by
  induction h with
  | start => exact horigin
  | schedule before s p ih => exact hseeds _ _ ih
  | @run seeds ω a limit x y result before admitted ended ih =>
    obtain ⟨t, hiterated, -⟩ := Exploration.run_effect a ended
    exact hiterated.preserves Inv (hstep a admitted) (Reached.drain_preserves (hseeds _ _ ih) hadd)

end Reachability
