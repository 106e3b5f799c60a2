import Reachability.Proofs.Run.Evolution

/-! Runs without forced covering.

Such a run does three things to a reached set: it pops, it puts back what it popped, and
it deals with successors of published pairs. What these three keep, every iteration keeps
(`Stepped.preserves`). -/
namespace Reachability
variable {ω S P W : Type} [AbstractState S] [Waitlist W] [BEq S] [BEq P]

/-- What the parts of an iteration keep. Of a successor that is dealt with, `Q` may be
assumed if the transfer relation guarantees it. -/
structure Analysis.Keeps (a : Analysis ω S P W) (Q : S → Prop) (Inv : Reached S P W → Prop) :
    Prop where
  cover : a.cover = none
  pop : ∀ {r popped r'}, Inv r → r.pop = (popped, r') → Inv r'
  enqueue : ∀ {r} h, Inv r → Inv (r.enqueue h).2
  transfer : ∀ {r h s p w l}, Inv r → r.get? h = some (s, p) →
    (a.transfer s p w).result = .ok l → ∀ x ∈ l, Q x.1
  treat : ∀ {s p r flow r'}, Q s → Inv r → Effect.Treated a s p r flow r' → Inv r'

namespace Effect
open Reached

variable {a : Analysis ω S P W} {r r' : Reached S P W}

/-- Without forced covering, nothing is covered by force. -/
theorem Attempted.of_absent {s : S} {p : P} {verdict : Except Abort Bool} (hc : a.cover = none)
    (h : Attempted a s p r verdict r') : verdict = .ok false ∧ r' = r := by
  cases h with
  | absent installed => exact ⟨rfl, rfl⟩
  | made installed =>
    rw [hc] at installed
    cases installed

variable {Q : S → Prop} {Inv : Reached S P W → Prop}

theorem TreatedAll.preserves (ha : a.Keeps Q Inv) {h : Handle} {successors : List (S × P)}
    {flow : Flow} (hall : ∀ x ∈ successors, Q x.1) (hr : Inv r)
    (ht : TreatedAll a h successors r flow r') : Inv r' := by
  induction ht with
  | finished => exact hr
  | next first others ih =>
    obtain ⟨hfirst, hothers⟩ := List.forall_mem_cons.1 hall
    exact ih hothers (ha.treat hfirst hr first)
  | haltedLast first => exact ha.treat (hall _ (List.mem_cons_self ..)) hr first
  | halted first left => exact ha.enqueue h (ha.treat (hall _ (List.mem_cons_self ..)) hr first)
  | abandoned first => exact ha.treat (hall _ (List.mem_cons_self ..)) hr first

theorem Expanded.preserves (ha : a.Keeps Q Inv) {h : Handle} {flow : Flow} (hr : Inv r)
    (hx : Expanded a h r flow r') : Inv r' := by
  cases hx with
  | nothing pair => exact hr
  | unattempted pair cover => cases (cover.of_absent ha.cover).1
  | forced pair cover => cases (cover.of_absent ha.cover).1
  | failed pair cover transfer =>
    obtain ⟨-, rfl⟩ := cover.of_absent ha.cover
    exact hr
  | expanded pair cover transfer treated =>
    obtain ⟨-, rfl⟩ := cover.of_absent ha.cover
    exact treated.preserves ha (ha.transfer hr pair transfer) hr

theorem Stepped.preserves (ha : a.Keeps Q Inv) {ended : Option (Except Abort Termination)}
    (hr : Inv r) (h : Stepped a r ended r') : Inv r' := by
  cases h with
  | exhausted idle => exact hr
  | interrupted => exact hr
  | drained popped => exact ha.pop hr popped
  | onward popped expansion => exact expansion.preserves ha (ha.pop hr popped)
  | halted popped expansion => exact expansion.preserves ha (ha.pop hr popped)
  | abandoned popped expansion =>
    exact ha.enqueue _ (expansion.preserves ha (ha.pop hr popped))

end Effect

/-- What holds once the seeds are published holds when the run ends. -/
theorem Exploration.preserves_of_run {a : Analysis ω S P W} {Q : S → Prop}
    {Inv : Reached S P W → Prop} (ha : a.Keeps Q Inv) {limit : Nat} {x y : Exploration ω S P W}
    {result : Except Abort Outcome} (ended : x.run a limit = (some result, y))
    (hdrained : Inv x.reached.drain) : Inv y.reached := by
  obtain ⟨t, hiterated, -⟩ := run_effect a ended
  exact hiterated.preserves Inv (fun r ended r' hr hstep => hstep.preserves ha hr) hdrained

/-! ### Seeds -/

namespace Effect
open Reached

variable {a : Analysis ω S P W} {r r' : Reached S P W}

theorem Settled.seeds {s : S} {p : P} {after flow : Flow} (h : Settled a s p after r flow r') :
    r'.seeds = r.seeds := by
  cases h with
  | undecided stop => rfl
  | covered stop => rfl
  | published stop => exact seeds_add r s p

theorem Merged.seeds {s : S} {p : P} {abort : Option Abort} (h : Merged a s p r abort r') :
    r'.seeds = r.seeds := by
  cases h with
  | spared separates => rfl
  | scanned joins scan => exact seeds_update ..

theorem Treated.seeds {s : S} {p : P} {flow : Flow} (h : Treated a s p r flow r') :
    r'.seeds = r.seeds := by
  cases h with
  | interrupted => rfl
  | unadjusted adjust => rfl
  | pruned adjust => rfl
  | halting adjust settle => exact settle.seeds
  | unmerged adjust merge => exact merge.seeds
  | proceeding adjust merge settle => exact settle.seeds.trans merge.seeds

end Effect

/-- An iteration leaves the seeds alone. -/
theorem Analysis.keeps_seeds {a : Analysis ω S P W} (hcover : a.cover = none)
    (seeds : List (S × P)) : a.Keeps (fun _ => True) fun r => r.seeds = seeds where
  cover := hcover
  pop hr e := (Reached.seeds_of_pop e).trans hr
  enqueue h hr := (Reached.seeds_enqueue _ h).trans hr
  transfer _ _ _ _ _ := trivial
  treat _ hr ht := ht.seeds.trans hr

theorem Reached.seeds_drain (r : Reached S P W) : r.drain.seeds = [] :=
  Reached.seeds_addAll r.seeds _

/-- A run without forced covering leaves no seed behind. -/
theorem Exploration.seeds_of_run {a : Analysis ω S P W} (hcover : a.cover = none) {limit : Nat}
    {x y : Exploration ω S P W} {result : Except Abort Outcome}
    (ended : x.run a limit = (some result, y)) : y.reached.seeds = [] := by
  exact preserves_of_run (Analysis.keeps_seeds hcover []) ended x.reached.seeds_drain

end Reachability
