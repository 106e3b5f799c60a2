import Reachability.Proofs.Coverage.Fixpoint
import Reachability.Proofs.Reached.Distinct
import Reachability.Proofs.Run.Published

/-! Explicit-state exploration is exact.

States are kept separate and are covered by equal ones only. Then coverage is membership
up to equality, so that an exhausted run has published everything reachable; nothing but
successors is ever published, so that there is nothing else; and publishing an equal state
again only replaces its precision, so that nothing is published twice. None of this depends
on the order of traversal or on how often a run was cut short. -/
namespace Reachability

open AbstractState (location)

variable {S P : Type} [AbstractState S] [BEq S]

/-- Separate merging, coverage by an equal state, an adjustment that keeps the state, and
no forced covering. -/
structure Analysis.Explicit {ω W : Type} (succs : S → List S) (a : Analysis ω S P W) : Prop where
  transfer : a.Yields succs
  merge : a.merge.separates = true
  stop : ∀ {s : S} {reached : List S} {p : P} {w : ω} {covered : Bool},
    (a.stop s reached p w).result = .ok covered → covered = reached.any (s == ·)
  adjust : ∀ {s : S} {p : P} {r : Reached S P W} {w : ω} {adjusted : Option (Adjusted S P)},
    (a.adjust s p r w).result = .ok adjusted → ∃ x, adjusted = some x ∧ (x.state == s) = true
  cover : a.cover = none

/-- The operators that come with the library for this. -/
theorem Analysis.explicit_of_separate {ω W : Type} {succs : S → List S} {a : Analysis ω S P W}
    (htransfer : a.Yields succs) (hmerge : a.merge = .separate) (hstop : a.stop = .separate .flat)
    (hadjust : ∀ {s p r w adjusted}, (a.adjust s p r w).result = .ok adjusted →
      ∃ x, adjusted = some x ∧ (x.state == s) = true)
    (hcover : a.cover = none) : a.Explicit succs where
  transfer := htransfer
  merge := by rw [hmerge]; rfl
  stop := by
    intro s reached p w covered h
    have hflat : a.stop s reached p w = ⟨.ok (reached.any (s == ·)), w, none, 0⟩ := by
      rw [hstop]
      exact Stop.separate_lift_apply Comparison.flat s reached p w
    rw [hflat] at h
    cases h
    rfl
  adjust := hadjust
  cover := hcover

namespace Analysis.Explicit
variable {ω : Type} {succs : S → List S}

theorem conservative [PartialEquivBEq S] {W : Type} {a : Analysis ω S P W} (ha : a.Explicit succs) :
    a.Conservative fun s t => (s == t) = true where
  merge joins := by
    rw [ha.merge] at joins
    cases joins
  stop := by
    intro s reached p w hstop
    obtain ⟨t, ht, hst⟩ := List.any_eq_true.1 (ha.stop hstop).symm
    exact ⟨t, ht, hst⟩
  adjust := by
    intro s p r w adjusted hadjusted
    obtain ⟨x, hx, hsame⟩ := ha.adjust hadjusted
    exact ⟨x, hx, PartialEquivBEq.symm hsame⟩
  cover := ha.cover

/-- What is reachable up to equality is not left. -/
theorem confined [EquivBEq S] {a : Analysis ω S P Frontier} (ha : a.Explicit succs)
    (seeds : List (S × P))
    (hsuccs : ∀ s t, (s == t) = true → SameStates (succs s) (succs t)) :
    a.Confined fun s => ∃ t, Reachable (fun s _ t => t ∈ succs s) seeds t ∧ (s == t) = true where
  transfer := by
    intro s p w l hs hl x hx
    obtain ⟨t, ⟨seed, hseed, hchain⟩, hst⟩ := hs
    obtain ⟨u, hu, hxu⟩ := (ha.transfer s p w l hl).1 x.1 (List.mem_map_of_mem hx)
    obtain ⟨v, hv, huv⟩ := (hsuccs s t hst).1 u hu
    exact ⟨v, ⟨seed, hseed, hchain.tail ⟨p, hv⟩⟩, PartialEquivBEq.trans hxu huv⟩
  merge joins := by
    rw [ha.merge] at joins
    cases joins
  adjust := by
    intro s p r w x hs hadjusted
    obtain ⟨t, ht, hst⟩ := hs
    obtain ⟨y, hy, hsame⟩ := ha.adjust hadjusted
    cases hy
    exact ⟨t, ht, PartialEquivBEq.trans hsame hst⟩
  cover := ha.cover

end Analysis.Explicit

/-! ### Nothing is published twice -/

variable [BEq P] [EquivBEq S]

theorem Analysis.Explicit.keeps_distinct {ω : Type} {succs : S → List S}
    {a : Analysis ω S P Frontier} (ha : a.Explicit succs)
    (hlocation : ∀ s t : S, (s == t) = true → location s = location t) :
    a.Keeps (fun _ => True) fun r => r.Consistent ∧ r.Distinct := by
  have hsettled : ∀ {s p after} {r r' : Reached S P Frontier} {flow}, r.Consistent ∧ r.Distinct →
      Effect.Settled a s p after r flow r' → r'.Distinct := by
    intro s p after r r' flow hr hs
    cases hs with
    | undecided stop => exact hr.2
    | covered stop => exact hr.2
    | published stop => exact hr.2.add hlocation hr.1 s p
  have hmerged : ∀ {s p abort} {r r' : Reached S P Frontier}, Effect.Merged a s p r abort r' →
      r' = r := by
    intro s p abort r r' hm
    cases hm with
    | spared separates => rfl
    | scanned joins scan =>
      rw [ha.merge] at joins
      cases joins
  refine ⟨ha.cover, fun hr e => ⟨hr.1.of_pop e, hr.2.pop e⟩,
    fun h hr => ⟨hr.1.enqueue h, hr.2.enqueue h⟩, fun _ _ _ _ _ => trivial, ?_⟩
  intro s p r flow r' _ hr ht
  refine ⟨ht.evolves.consistent hr.1, ?_⟩
  cases ht with
  | interrupted => exact hr.2
  | unadjusted adjust => exact hr.2
  | pruned adjust => exact hr.2
  | halting adjust settle => exact hsettled hr settle
  | unmerged adjust merge =>
    rw [hmerged merge]
    exact hr.2
  | proceeding adjust merge settle =>
    have hsame := hmerged merge
    subst hsame
    exact hsettled hr settle

theorem History.distinct {succs : S → List S} {o : TraversalOrder} {seeds : List (S × P)}
    {r : Reached S P Frontier}
    (hlocation : ∀ s t : S, (s == t) = true → location s = location t)
    (h : History (fun _ a => a.Explicit succs) (.ofOrder o) seeds r) : r.Distinct := by
  have hboth : r.Consistent ∧ r.Distinct := by
    refine h.induct (fun r => r.Consistent ∧ r.Distinct)
      ⟨.ofOrder o, .of_get?_eq_none (Reached.Consistent.get?_ofOrder o)⟩ (fun r seeds hr => ?_)
      (fun r s p hr => ?_) ?_
    · exact ⟨hr.1.congr rfl rfl rfl, hr.2⟩
    · exact ⟨hr.1.add s p, hr.2.add hlocation hr.1 s p⟩
    · intro ω a ha r ended r' hr hstep
      exact hstep.preserves (ha.keeps_distinct hlocation) hr
  exact hboth.2

/-! ### Exactness -/

/-- What is published is what is reachable from the seeds, up to equality and each once. -/
structure Reached.Exact (succs : S → List S) (seeds : List (S × P)) (r : Reached S P Frontier) :
    Prop where
  complete : ∀ t, Reachable (fun s _ t => t ∈ succs s) seeds t → ∃ s ∈ r.states, (t == s) = true
  sound : ∀ s ∈ r.states, ∃ t, Reachable (fun s _ t => t ∈ succs s) seeds t ∧ (s == t) = true
  distinct : r.states.Pairwise fun s t => (s == t) = false

/-- Any further run, of whatever analysis, is exhausted at once: it asks no operator, and
the reached set stays as it is. -/
def Reached.Final (r : Reached S P Frontier) : Prop :=
  ∀ (ω : Type) (a : Analysis ω S P Frontier) (limit : Nat) (x : Exploration ω S P Frontier),
    x.reached = r →
      x.run a (limit + 1) = (some (.ok ⟨a.status, .exhausted⟩),
        Exploration.conclude (.ok ⟨a.status, .exhausted⟩) (x.start .total)) ∧
      (x.run a (limit + 1)).2.reached = r ∧ (x.run a (limit + 1)).2.memory = x.memory

omit [EquivBEq S] in
theorem Exhausted.final {admits : (ω : Type) → Analysis ω S P Frontier → Prop}
    {origin r : Reached S P Frontier} {seeds : List (S × P)}
    (hadmits : ∀ ω (a : Analysis ω S P Frontier), admits ω a → a.cover = none)
    (horigin : origin.Consistent) (h : Exhausted admits origin seeds r) : r.Final := by
  have hidle := h.idle horigin
  have hwaiting : r.hasWaiting = false := by
    have hsize := Frontier.length_toList r.waitlist
    rw [hidle] at hsize
    show (!(r.waitlist.size == 0)) = false
    rw [← hsize]
    rfl
  have hseeds : r.seeds = [] := by
    obtain ⟨before, admitted, ended, -⟩ := h
    exact Exploration.seeds_of_run (hadmits _ _ admitted) ended
  intro ω a limit x hx
  subst hx
  have hrun := Exploration.run_of_idle a limit hseeds hwaiting
  rw [hrun]
  exact ⟨rfl, rfl, rfl⟩

theorem Exhausted.exact {succs : S → List S} {o : TraversalOrder} {seeds : List (S × P)}
    {r : Reached S P Frontier}
    (hlocation : ∀ s t : S, (s == t) = true → location s = location t)
    (hsuccs : ∀ s t, (s == t) = true → SameStates (succs s) (succs t))
    (h : Exhausted (fun _ a => a.Explicit succs) (.ofOrder o) seeds r) : r.Exact succs seeds := by
  have hle : Subsumption fun s t : S => (s == t) = true := .equality
  have hconsistent : (Reached.ofOrder o : Reached S P Frontier).Consistent := .ofOrder o
  constructor
  · have hfixpoint : r.Fixpoint _ (fun s _ t => t ∈ succs s) ([] ++ seeds) :=
      h.fixpoint hle (fun ω a ha => ⟨ha.conservative, ha.transfer.represents id⟩) hconsistent
        (Reached.closed_ofOrder o)
    intro t ht
    refine hfixpoint.covers hle (fun s t p q hst u hu => ?_) ht
    exact (hsuccs s t hst).1 u hu
  · have hwithin := h.history.within (fun ω a ha => ha.confined seeds hsuccs) hconsistent
      (fun s hs => ?_) (fun x hx => (List.not_mem_nil hx).elim) (fun x hx => ?_)
    · exact hwithin.1
    · rw [Reached.Consistent.states_ofOrder] at hs
      cases hs
    · exact ⟨x.1, ⟨x, hx, .refl⟩, BEq.refl x.1⟩
  · exact (h.history.distinct hlocation).pairwise.imp fun hne => by simpa using hne

/-- **Exploring explicit states is exact, whatever the order and whatever was cut short**:
once a run is exhausted, the published states are those reachable from the seeds, each
once. So any other exhausted exploration of these seeds ends with the same states, and
there is nothing left to do for a further run. -/
theorem explicit_exact {succs : S → List S} {o : TraversalOrder} {seeds : List (S × P)}
    {r : Reached S P Frontier}
    (hlocation : ∀ s t : S, (s == t) = true → location s = location t)
    (hsuccs : ∀ s t, (s == t) = true → SameStates (succs s) (succs t))
    (h : Exhausted (fun _ a => a.Explicit succs) (.ofOrder o) seeds r) :
    r.Exact succs seeds ∧
      (∀ o' r', Exhausted (fun _ a => a.Explicit succs) (.ofOrder o') seeds r' →
        SameStates r.states r'.states) ∧
      r.Final := by
  have hexact := h.exact hlocation hsuccs
  refine ⟨hexact, fun o' r' h' => ?_, h.final (fun ω a ha => ha.cover) (.ofOrder o)⟩
  have hexact' := h'.exact hlocation hsuccs
  constructor
  · intro s hs
    obtain ⟨t, ht, hst⟩ := hexact.sound s hs
    obtain ⟨u, hu, htu⟩ := hexact'.complete t ht
    exact ⟨u, hu, PartialEquivBEq.trans hst htu⟩
  · intro s hs
    obtain ⟨t, ht, hst⟩ := hexact'.sound s hs
    obtain ⟨u, hu, htu⟩ := hexact.complete t ht
    exact ⟨u, hu, PartialEquivBEq.trans hst htu⟩

/-! The demonstration with its states kept apart: interrupted at once, then resumed. -/
namespace Counter

def apart : Analysis Unit Interval Unit Frontier :=
  {analysis ⟨1, none⟩ false true with stop := .separate .flat}

theorem apart_explicit : apart.Explicit (Program.successors ⟨1, none⟩) := by
  have hyields : apart.Yields (Program.successors ⟨1, none⟩) :=
    analysis_yields (W := Frontier) ⟨1, none⟩ false true
  refine Analysis.explicit_of_separate hyields rfl rfl (fun hadjusted => ?_) rfl
  obtain ⟨x, hx, hstate⟩ := Adjustment.result_haltOnTarget hadjusted
  cases hx
  obtain ⟨y, rfl, hy⟩ := Option.map_eq_some_iff.1 hstate
  exact ⟨y, rfl, beq_iff_eq.2 hy⟩

def apartInterrupted : State :=
  (Exploration.run apart 5
    {initial once with shutdown := (({} : Shutdown).request "pause").2}).2

def apartResumed : State :=
  (Exploration.run apart 20 {apartInterrupted with shutdown := {}}).2

theorem apartResumed_exact :
    apartResumed.reached.Exact (Program.successors ⟨1, none⟩) [(seed, ())] ∧
      apartResumed.reached.Final := by
  have hinterrupted : History (fun _ a => a.Explicit (Program.successors ⟨1, none⟩))
      (.ofOrder .breadthFirst) [(seed, ())] apartInterrupted.reached :=
    .ran (.schedule .start seed ()) apart_explicit (by decide +kernel)
  have hresumed : Exhausted (fun _ a => a.Explicit (Program.successors ⟨1, none⟩))
      (.ofOrder .breadthFirst) [(seed, ())] apartResumed.reached :=
    .ran hinterrupted apart_explicit (by decide +kernel)
  obtain ⟨hexact, -, hfinal⟩ := explicit_exact
    (fun s t hst => congrArg Interval.loc (eq_of_beq hst))
    (fun s t hst => by
      rw [eq_of_beq hst]
      exact .refl _) hresumed
  exact ⟨hexact, hfinal⟩

end Counter
end Reachability
