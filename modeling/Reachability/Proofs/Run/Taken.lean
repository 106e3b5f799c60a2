import Reachability.Proofs.Run.Script

/-! What is taken out of the frontier, and what follows.

A sequence of operations is looked at from its pops (`Reached.takings`): which pair each of
them takes out of the frontier, the reached set right afterwards, and the operations that are
still to come. Without forced covering, dealing with a pair takes nothing out, so that a run
takes out one pair an iteration, the one that it expands (`step_cases`). -/
namespace Reachability

/-- A pair taken out of the frontier: its handle, the reached set then, and the operations
that follow. -/
structure Taking (S P W : Type) [AbstractState S] where
  handle : Handle
  after : Reached S P W
  rest : List (Operation S P)

/-- The state of the pair. -/
def Taking.state? {S P W : Type} [AbstractState S] (t : Taking S P W) : Option S :=
  t.after.state? t.handle

namespace Reached
variable {S P W : Type} [AbstractState S] [Waitlist W]

/-- What an operation takes out, if others follow it. -/
def takes (r : Reached S P W) (rest : List (Operation S P)) :
    Operation S P → List (Taking S P W)
  | .pop =>
    match r.pop with
    | (some h, r') => [⟨h, r', rest⟩]
    | (none, _) => []
  | _ => []

variable [BEq S] [BEq P]

/-- What a sequence of operations takes out, in this order. -/
def takings (r : Reached S P W) : List (Operation S P) → List (Taking S P W)
  | [] => []
  | op :: rest => r.takes rest op ++ (r.perform op).2.takings rest

/-- The states that a sequence of operations takes out, in this order. -/
def popped (r : Reached S P W) (ops : List (Operation S P)) : List S :=
  (r.takings ops).filterMap Taking.state?

variable {r r' : Reached S P W} {ops : List (Operation S P)}

theorem perform_pop {h : Option Handle} (e : r.pop = (h, r')) : (r.perform .pop).2 = r' :=
  congrArg Prod.snd e

theorem takings_pop {h : Handle} (e : r.pop = (some h, r')) (rest : List (Operation S P)) :
    r.takings (.pop :: rest) = ⟨h, r', rest⟩ :: r'.takings rest := by
  rw [takings, takes, e, perform_pop e]
  rfl

theorem takings_pop_none (e : r.pop = (none, r')) (rest : List (Operation S P)) :
    r.takings (.pop :: rest) = r'.takings rest := by
  rw [takings, takes, e, perform_pop e]
  rfl

/-- Only pops take anything out. -/
theorem takings_append (hnone : .pop ∉ ops) (rest : List (Operation S P)) :
    r.takings (ops ++ rest) = (r.performAll ops).takings rest := by
  induction ops generalizing r with
  | nil => rfl
  | cons op others ih =>
    obtain ⟨hop, hothers⟩ := not_or.1 (mt List.mem_cons.2 hnone)
    have htakes : r.takes (others ++ rest) op = [] := by
      cases op with
      | pop => exact absurd rfl hop
      | _ => rfl
    rw [List.cons_append, takings, htakes, ih hothers]
    rfl

theorem takings_eq_nil (hnone : .pop ∉ ops) : r.takings ops = [] := by
  have happend := takings_append (r := r) hnone []
  rwa [List.append_nil] at happend

/-- What is taken out, is taken out at some moment. -/
theorem exists_of_mem_takings {t : Taking S P W} (ht : t ∈ r.takings ops) :
    ∃ done, ops = done ++ .pop :: t.rest ∧ (r.performAll done).pop = (some t.handle, t.after) := by
  induction ops generalizing r with
  | nil => cases ht
  | cons op rest ih =>
    have hlater : t ∈ (r.perform op).2.takings rest → ∃ done,
        op :: rest = done ++ .pop :: t.rest ∧
          (r.performAll done).pop = (some t.handle, t.after) := fun hlater => by
      obtain ⟨done, hrest, hpop⟩ := ih hlater
      exact ⟨op :: done, by rw [hrest, List.cons_append], hpop⟩
    by_cases hop : op = .pop
    · subst hop
      generalize e : r.pop = popped at ht
      obtain ⟨h, r'⟩ := popped
      cases h with
      | none =>
        rw [takings_pop_none e] at ht
        exact hlater (by rwa [perform_pop e])
      | some h =>
        rw [takings_pop e] at ht
        rcases List.mem_cons.1 ht with rfl | ht
        · exact ⟨[], rfl, e⟩
        · exact hlater (by rwa [perform_pop e])
    · have hone : .pop ∉ [op] := fun hmem => hop (List.mem_singleton.1 hmem).symm
      rw [← List.singleton_append, takings_append hone] at ht
      exact hlater ht

/-- What holds throughout holds of what follows a pop. -/
theorem Throughout.of_mem_takings {Inv : Reached S P W → Prop} (hall : r.Throughout Inv ops)
    {t : Taking S P W} (ht : t ∈ r.takings ops) : t.after.Throughout Inv t.rest := by
  obtain ⟨done, rfl, hpop⟩ := exists_of_mem_takings ht
  intro more hmore
  have hinitial : done ++ .pop :: more <+: done ++ .pop :: t.rest :=
    (List.prefix_append_right_inj done).2 ((List.prefix_cons_inj _).2 hmore)
  have hmoment := hall _ hinitial
  rwa [performAll_append, performAll_cons, perform_pop hpop] at hmoment

end Reached

/-! ### The operations of a run -/

/-- A pair whose expansion was abandoned is put back. -/
def Flow.again {S P : Type} (h : Handle) : Flow → List (Operation S P)
  | .abort _ => [.enqueue h]
  | _ => []

namespace Exploration
variable {ω S P W : Type} [AbstractState S] [Waitlist W] [BEq S] [BEq P] (a : Analysis ω S P W)

omit [Waitlist W] [BEq S] [BEq P] in
theorem settling_of_mem_settleScript {s : S} {p : P} {x : Exploration ω S P W}
    {op : Operation S P} (hop : op ∈ settleScript a s p x) : op.Settling := by
  unfold settleScript at hop
  split at hop
  · rw [List.mem_singleton.1 hop]
    exact .publish s p
  · cases hop

omit [Waitlist W] [BEq P] in
theorem settling_of_mem_mergeScript {s : S} {p : P} {x : Exploration ω S P W}
    {op : Operation S P} (hop : op ∈ mergeScript a s p x) : op.Settling := by
  unfold mergeScript at hop
  split at hop
  · cases hop
  · rw [List.mem_singleton.1 hop]
    exact .merge _ _

theorem settling_of_mem_handleSuccessorScript {source s : S} {p : P} {x : Exploration ω S P W}
    {op : Operation S P} (hop : op ∈ handleSuccessorScript a source s p x) : op.Settling := by
  unfold handleSuccessorScript at hop
  split at hop
  · cases hop
  · generalize askAdjust a source s p x = asked at hop
    obtain ⟨answer, y⟩ := asked
    match answer with
    | .error e => cases hop
    | .ok none => cases hop
    | .ok (some ⟨t, q, .halt⟩) => exact settling_of_mem_settleScript a hop
    | .ok (some ⟨t, q, .proceed⟩) =>
      replace hop : op ∈ mergeAndSettleScript a t q y := hop
      unfold mergeAndSettleScript at hop
      split at hop
      · exact settling_of_mem_settleScript a hop
      · rcases List.mem_append.1 hop with hop | hop
        · exact settling_of_mem_mergeScript a hop
        · split at hop
          · cases hop
          · exact settling_of_mem_settleScript a hop

theorem expanding_of_mem_handleSuccessorsScript {h : Handle} {source : S}
    {successors : List (S × P)} {x : Exploration ω S P W} {op : Operation S P}
    (hop : op ∈ handleSuccessorsScript a h source successors x) : op.Expanding h := by
  induction successors generalizing x with
  | nil => cases hop
  | cons pair rest ih =>
    obtain ⟨s, p⟩ := pair
    unfold handleSuccessorsScript at hop
    rcases List.mem_append.1 hop with hop | hop
    · exact .settle (settling_of_mem_handleSuccessorScript a hop)
    · split at hop
      · exact ih hop
      · split at hop
        · cases hop
        · rw [List.mem_singleton.1 hop]
          exact .again
      · cases hop

/-- Without forced covering, expanding a pair takes no pair out. -/
theorem pop_not_mem_expandScript (hcover : a.cover = none) (h : Handle) (x : Exploration ω S P W) :
    .pop ∉ expandScript a h x := by
  intro hop
  unfold expandScript at hop
  split at hop
  · cases hop
  · rcases List.mem_append.1 hop with hop | hop
    · simp [forceCoverScript, hcover] at hop
    · split at hop
      · unfold expandByScript at hop
        split at hop
        · cases hop
        · -- A pop is none of the operations that deal with successors.
          cases expanding_of_mem_handleSuccessorsScript a hop with
          | settle settling => cases settling
      · cases hop

/-- An iteration that takes out the pair named `h`, which is expanded from `y` on. -/
structure Iteration (a : Analysis ω S P W) (x : Exploration ω S P W) (h : Handle)
    (y : Exploration ω S P W) (flow : Flow) (z : Exploration ω S P W) : Prop where
  popped : x.reached.pop = (some h, y.reached)
  expanded : expand a h y = (flow, z)
  script : stepScript a x = .pop :: (expandScript a h y ++ flow.again h)
  step : step a x = (flow.ending, (flow.again h).foldl apply z)

/-- An iteration takes out a pair and expands it, or it takes out nothing and ends the run, which
it does not halt. -/
theorem step_cases (x : Exploration ω S P W) :
    (∃ h y flow z, Iteration a x h y flow z) ∨
      (∃ result y, step a x = (some result, y) ∧ result ≠ .ok .halted) ∧
        (stepScript a x = [] ∨ stepScript a x = [.pop] ∧ x.reached.pop.1 = none) := by
  have hpopped : x.reached.pop = ((popNext x).1, (popNext x).2.reached) := rfl
  have hstep := step_eq a x
  have hscript : stepScript a x = stepScript a x := rfl
  conv_rhs at hscript => unfold stepScript
  cases hwaiting : x.reached.hasWaiting with
  | false =>
    rw [hwaiting] at hstep hscript
    exact .inr ⟨⟨_, _, hstep, by simp⟩, .inl hscript⟩
  | true =>
    cases hrequested : x.shutdown.requested with
    | true =>
      rw [hwaiting, hrequested] at hstep hscript
      exact .inr ⟨⟨_, _, hstep, by simp⟩, .inl hscript⟩
    | false =>
      rw [hwaiting, hrequested] at hstep hscript
      generalize popNext x = popped at hstep hscript hpopped
      obtain ⟨h, y⟩ := popped
      cases h with
      | none => exact .inr ⟨⟨_, _, hstep, by simp⟩, .inr ⟨hscript, congrArg Prod.fst hpopped⟩⟩
      | some h =>
        obtain ⟨flow, z, hexpanded⟩ : ∃ flow z, expand a h (y.note (.retrieved h)) = (flow, z) :=
          ⟨_, _, rfl⟩
        simp only [hexpanded] at hstep hscript
        refine .inl ⟨h, y.note (.retrieved h), flow, z, hpopped, hexpanded, ?_, ?_⟩
        · cases flow <;> exact hscript
        · cases flow <;> exact hstep

/-- An iteration that takes out nothing is the last, and does not halt the run. -/
theorem takings_iterateScript_eq_nil {x : Exploration ω S P W}
    (hended : ∃ result y, step a x = (some result, y) ∧ result ≠ .ok .halted)
    (hscript : stepScript a x = [] ∨ stepScript a x = [.pop] ∧ x.reached.pop.1 = none)
    (limit : Nat) :
    iterateScript a (limit + 1) x = stepScript a x ∧
      (iterate a (limit + 1) x).1 ≠ some (.ok .halted) ∧
      x.reached.takings (iterateScript a (limit + 1) x) = [] := by
  obtain ⟨result, y, hstep, hresult⟩ := hended
  have hlast : iterateScript a (limit + 1) x = stepScript a x := by
    rw [iterateScript, hstep, List.append_nil]
  refine ⟨hlast, ?_, ?_⟩
  · rw [iterate, hstep]
    exact fun h => hresult (Option.some.inj h)
  rw [hlast]
  rcases hscript with hscript | ⟨hscript, hpop⟩
  · rw [hscript]
    rfl
  · rw [hscript]
    have hnone : x.reached.pop = (none, x.reached.pop.2) := Prod.ext hpop rfl
    exact Reached.takings_pop_none hnone []

namespace Iteration
variable {a} {x y z : Exploration ω S P W} {h : Handle} {flow : Flow}

/-- The operations of the iteration after the pop. -/
theorem reached_step (hi : Iteration a x h y flow z) :
    (Exploration.step a x).2.reached =
      y.reached.performAll (expandScript a h y ++ flow.again h) := by
  rw [Exploration.reached_step, hi.script, Reached.performAll_cons,
    Reached.perform_pop hi.popped]

/-- No other pair is taken out in the iteration. -/
theorem pop_not_mem (hi : Iteration a x h y flow z) (hcover : a.cover = none) :
    .pop ∉ expandScript a h y ++ flow.again h := fun hop => by
  rcases List.mem_append.1 hop with hop | hop
  · exact pop_not_mem_expandScript a hcover h y hop
  · cases flow <;> simp [Flow.again] at hop

/-- A run goes on after an iteration that goes onward. -/
theorem takings_onward (hi : Iteration a x h y .onward z) (hcover : a.cover = none) (limit : Nat) :
    iterate a (limit + 1) x = iterate a limit z ∧
      z.reached = y.reached.performAll (expandScript a h y) ∧
      x.reached.takings (iterateScript a (limit + 1) x) =
        ⟨h, y.reached, expandScript a h y ++ iterateScript a limit z⟩ ::
          z.reached.takings (iterateScript a limit z) := by
  have hstep : Exploration.step a x = (none, z) := hi.step
  have hreached := hi.reached_step
  have hnone := hi.pop_not_mem hcover
  have hscript := hi.script
  rw [hstep] at hreached
  simp only [Flow.again, List.append_nil] at hreached hnone hscript
  refine ⟨by rw [iterate, hstep], hreached, ?_⟩
  rw [iterateScript, hscript, hstep, List.cons_append, Reached.takings_pop hi.popped,
    Reached.takings_append hnone, ← hreached]

/-- A run ends with an iteration that does not go onward. -/
theorem takings_ended (hi : Iteration a x h y flow z) (hcover : a.cover = none)
    (hflow : flow ≠ .onward) (limit : Nat) :
    (iterate a (limit + 1) x).1 = flow.ending ∧
      x.reached.takings (iterateScript a (limit + 1) x) =
        [⟨h, y.reached, expandScript a h y ++ flow.again h⟩] := by
  have hlast : iterateScript a (limit + 1) x = stepScript a x ∧
      (iterate a (limit + 1) x).1 = flow.ending := by
    rw [iterateScript, iterate, hi.step]
    cases flow with
    | onward => exact absurd rfl hflow
    | halt => exact ⟨List.append_nil _, rfl⟩
    | abort e => exact ⟨List.append_nil _, rfl⟩
  refine ⟨hlast.2, ?_⟩
  rw [hlast.1, hi.script, Reached.takings_pop hi.popped,
    Reached.takings_eq_nil (hi.pop_not_mem hcover)]

end Iteration

/-- The seeds are published before anything is taken out. -/
theorem takings_runScript (limit : Nat) (x : Exploration ω S P W) :
    x.reached.takings (runScript a limit x) =
      (x.start .total).publishSeeds.reached.takings
        (iterateScript a limit (x.start .total).publishSeeds) := by
  have hnone : .pop ∉ drainScript x.reached := fun hop => by
    rcases List.mem_cons.1 hop with hop | hop
    · cases hop
    · obtain ⟨⟨s, p⟩, -, hop⟩ := List.mem_map.1 hop
      cases hop
  rw [runScript, Reached.takings_append hnone, performAll_drainScript, reached_publishSeeds,
    reached_start]

end Exploration
end Reachability
