import Mathlib.Data.Set.Card
import Reachability.Proofs.Counter.Interval
import Reachability.Proofs.Join.Ascent
import Reachability.Proofs.Run.Ending

/-! A join analysis ends where nothing ascends for ever.

Merges put pairs back into the frontier, so its length says nothing by itself. But a merge
replaces states by higher ones, and a location that is occupied once stays occupied. So of
what is left to be done (`remaining`) each iteration leaves less: fewer locations without a
state, or no more of these and a stock that was raised, or the same published states and one
pair less that waits. If finitely many locations are ever occupied and no states of a location
ascend for ever, that cannot go on for ever (`exists_limit_of_ascending`). -/
namespace Reachability

open AbstractState (Location location)

variable {ω S P : Type} [AbstractState S]

/-! ### What is left to be done -/

/-- No states of a location ascend for ever. -/
def Domain.AscentsEnd (d : Domain Id S) : Prop :=
  ¬ ∃ chain : Nat → S, ∀ n, d.Climbs (chain n) (chain (n + 1))

theorem Domain.AscentsEnd.wellFounded [BEq S] {d : Domain Id S} (hd : Subsumption d.Below)
    (hends : d.AscentsEnd) : WellFounded fun after before => d.Raises before after := by
  let _ := Domain.climbing hd
  have hclimbs : WellFounded fun t s => d.Climbs s t :=
    wellFounded_iff_isEmpty_descending_chain.2 ⟨fun chain => hends ⟨chain.1, chain.2⟩⟩
  have : WellFoundedLT S := ⟨hclimbs⟩
  exact Multiset.wellFounded_isDershowitzMannaLT

namespace Reached
variable {d : Domain Id S} {locations : Set (Location S)} {r r₁ r' : Reached S P Frontier}

def occupied (r : Reached S P Frontier) : Set (Location S) :=
  {l | ∃ s ∈ r.states, location s = l}

/-- How many of the locations are not occupied, the stock, and how many pairs wait. -/
noncomputable def remaining (locations : Set (Location S)) (r : Reached S P Frontier) :
    Nat × Multiset S × Nat :=
  ((locations \ r.occupied).ncard, r.stock, r.waitlistSize)

/-- The first of these counts most, the last least. -/
def Precedes (d : Domain Id S) (locations : Set (Location S)) (r' r : Reached S P Frontier) :
    Prop :=
  Prod.Lex Nat.lt (Prod.Lex (fun after before => d.Raises before after) Nat.lt)
    (r'.remaining locations) (r.remaining locations)

theorem wellFounded_precedes [BEq S] (hd : Subsumption d.Below) (hends : d.AscentsEnd)
    (locations : Set (Location S)) :
    WellFounded (Precedes (P := P) d locations) :=
  InvImage.wf _ (Nat.lt_wfRel.wf.prod_lex ((hends.wellFounded hd).prod_lex Nat.lt_wfRel.wf))

theorem Consistent.waitlistSize_of_pop (hr : r.Consistent) {h : Handle}
    (e : r.pop = (some h, r')) : r'.waitlistSize < r.waitlistSize := by
  rw [hr.pop_eq] at e
  split at e
  · cases e
  · rename_i g rest hpop
    cases e
    have hlist := congrArg List.length (Frontier.pop?_eq_some hpop)
    rw [List.length_cons, Frontier.length_toList, Frontier.length_toList] at hlist
    show rest.size < r.waitlist.size
    omega

/-- What ascends after a pop leaves less to be done. -/
theorem Ascends.precedes (hfinite : locations.Finite) (hr : r.Consistent) {h : Handle}
    (popped : r.pop = (some h, r₁)) (hascends : r₁.Ascends d r')
    (hwithin : ∀ s ∈ r'.states, location s ∈ locations) : Precedes d locations r' r := by
  have hstock : r₁.stock = r.stock := stock_of_pop popped
  have hoccupied : r₁.occupied = r.occupied := by
    unfold Reached.occupied
    simp only [mem_states_of_pop popped]
  have hkept : r₁.occupied ⊆ r'.occupied := by
    rintro _ ⟨s, hs, rfl⟩
    exact hascends.occupied s hs
  have hvacant : locations \ r'.occupied ⊆ locations \ r₁.occupied :=
    Set.sdiff_subset_sdiff_right hkept
  unfold Precedes remaining
  rw [← hstock, ← hoccupied]
  rcases hascends.change with rfl | hraises | ⟨t, ht, hnew⟩
  · exact .right _ (.right _ (hr.waitlistSize_of_pop popped))
  · exact .right' _ (Set.ncard_le_ncard hvacant hfinite.sdiff) (.left _ _ hraises)
  · have hbefore : location t ∈ locations \ r₁.occupied :=
      ⟨hwithin t ht, fun ⟨s, hs, hst⟩ => hnew s hs hst⟩
    have hafter : location t ∉ locations \ r'.occupied := fun h => h.2 ⟨t, ht, rfl⟩
    have hfewer := hvacant.ssubset_of_mem_notMem hbefore hafter
    exact .left _ _ (Set.ncard_lt_ncard hfewer hfinite.sdiff)

end Reached

/-! ### Runs -/

variable [BEq S] [BEq P] [EquivBEq S]

/-- An iteration after which the run goes on leaves less to be done. -/
theorem Effect.Stepped.precedes {d : Domain Id S} {a : Analysis ω S P Frontier}
    {locations : Set (Location S)} {r r' : Reached S P Frontier} (hd : d.Bounding)
    (ha : a.JoinMerging d) (hfinite : locations.Finite) (hr : r.Consistent)
    (hwithin : ∀ s ∈ r'.states, location s ∈ locations) (h : Stepped a r none r') :
    r'.Precedes d locations r := by
  cases h with
  | onward popped expansion =>
    exact (expansion.ascends hd ha (hr.of_pop popped)).precedes hfinite hr popped hwithin

/-- **A join analysis ends**, whatever its transfer relation and its adjustment do and whatever
was reached before, if the locations ever occupied are finitely many and no states of a location
ascend for ever. Equality of states is an equivalence: a merge that changes nothing is known by
its answer being equal to the reached state. -/
theorem exists_limit_of_ascending {d : Domain Id S} {a : Analysis ω S P Frontier}
    {o : TraversalOrder} {x : Exploration ω S P Frontier} {locations : Set (Location S)}
    (hd : d.Bounding) (hends : d.AscentsEnd) (ha : a.JoinMerging d)
    (evolved : Reached.Evolves (.ofOrder o) x.reached) (hfinite : locations.Finite)
    (hwithin : ∀ n, (Exploration.iterate a n (x.start .total).publishSeeds).2.reached.Within
      fun s => location s ∈ locations) :
    ∃ limit, (x.run a limit).1.isSome = true := by
  simp only [Exploration.isSome_run]
  refine Exploration.exists_isSome_iterate
    (Reached.wellFounded_precedes hd.subsumption hends locations) fun {n y z} hbefore hlast => ?_
  have hstart : (x.start .total).publishSeeds.reached.Consistent := by
    rw [Exploration.reached_publishSeeds, Exploration.reached_start]
    exact (evolved.consistent (.ofOrder o)).drain
  have hy : y.reached.Consistent := (Exploration.evolves_iterate hbefore).consistent hstart
  have hz : z.reached.Within fun s => location s ∈ locations := by
    have hnext := hwithin (n + 1)
    rwa [Exploration.iterate_succ_of_none hbefore, hlast] at hnext
  have hstep := Effect.step_effect a y
  rw [hlast] at hstep
  exact hstep.precedes hd ha hfinite hy hz

/-! The demonstration with merging. Intervals widen at each merge, and there is room for
finitely many of them in a word. So the run ends, whatever the bound, and here the bound is too
large for the run to be followed. -/
namespace Counter

namespace Interval

theorem bounding : domain.Bounding :=
  ⟨subsumption, fun _ => rfl, fun _ => below_join_left .., below_join_right⟩

/-- By how much the ends can still move apart. -/
def room (s : Interval) : Nat :=
  (s.lo.toInt + 2 ^ 64 - s.hi.toInt).toNat

theorem room_lt {s t : Interval} (h : domain.Climbs s t) : t.room < s.room := by
  obtain ⟨hloc, hst, hts⟩ := h
  obtain ⟨-, hlo, hhi⟩ := below_iff.1 hst
  have hmoved : ¬ (s.lo ≤ t.lo ∧ t.hi ≤ s.hi) := fun hsame => hts (below_iff.2 ⟨hloc.symm, hsame⟩)
  rw [Int64.le_iff_toInt_le] at hlo hhi
  rw [Int64.le_iff_toInt_le, Int64.le_iff_toInt_le] at hmoved
  have hleast := Int64.le_toInt s.lo
  have hgreatest := Int64.toInt_lt s.hi
  unfold room
  omega

theorem ascentsEnd : domain.AscentsEnd := by
  rintro ⟨chain, hchain⟩
  exact (wellFounded_iff_isEmpty_descending_chain.1 Nat.lt_wfRel.wf).false
    ⟨fun n => (chain n).room, fun n => room_lt (hchain n)⟩

end Interval

theorem analysis_joinMerging (prog : Program) :
    (analysis prog true false : Analysis Unit Interval Unit Frontier).JoinMerging Interval.domain :=
  Analysis.joinMerging_of_join rfl rfl rfl

/-- Where the program is as long as there is no error value. -/
def regular : Set (AbstractState.Location Interval) :=
  {Counter.Location.start, Counter.Location.loop, Counter.Location.exit}

theorem finite_regular : regular.Finite := by
  unfold regular
  exact Set.toFinite _

/-- Without an error value the error location is not reached. -/
theorem analysis_confined {prog : Program} (hnone : prog.error = none) :
    (analysis prog true false : Analysis Unit Interval Unit Frontier).Confined
      fun s => location s ∈ regular where
  transfer := by
    intro s p w l _ hl x hx
    cases hl
    obtain ⟨t, ht, rfl⟩ := List.mem_map.1 hx
    unfold Program.successors at ht
    cases hloc : s.loc <;> simp [hloc, Program.countUp, hnone] at ht
    · exact ht ▸ .inr (.inl rfl)
    · rcases ht with ⟨-, rfl⟩ | ⟨-, rfl⟩
      · exact .inr (.inl rfl)
      · exact .inr (.inr rfl)
  merge := by
    intro _ s old p w new _ hs hold hnew
    rw [Merge.joins_join Interval.domain hnew]
    split
    · exact hold
    · exact hs
  adjust := by
    intro s p r w x hs hx
    cases hx
    exact hs
  cover := rfl

theorem million_ends :
    ∃ limit, ((initial { bound := 1000000, join := true }).run (analysis ⟨1000000, none⟩ true false)
      limit).1.isSome = true := by
  have hseeded : Reached.Evolves (.ofOrder .breadthFirst)
      (initial { bound := 1000000, join := true }).reached :=
    .perform _ (.addInitial seed ())
  have hwithin : ∀ n, (Exploration.iterate (analysis ⟨1000000, none⟩ true false) n
      ((initial { bound := 1000000, join := true }).start .total).publishSeeds).2.reached.Within
        fun s => location s ∈ regular :=
    Exploration.within_iterate (analysis_confined rfl) (hseeded.consistent (.ofOrder .breadthFirst))
      (fun s hs => (List.not_mem_nil hs).elim)
      (List.forall_mem_singleton.2 (.inl rfl))
  exact exists_limit_of_ascending Interval.bounding Interval.ascentsEnd
    (analysis_joinMerging _) hseeded finite_regular hwithin

end Counter
end Reachability
