import Mathlib.Data.Set.Basic
import Reachability.Proofs.Coverage.Fixpoint

/-! Coverage by the join of the candidates.

States describe sets of configurations of a concrete system, and the transfer relation has
a successor for each concrete step. A successor that is below the join of the candidates is
discarded. Where the join of states at one location describes no more than these states
together (`Domain.Exact`), everything the successor describes is described by some candidate,
and so an exhausted run describes all that the concrete system can reach
(`exists_describing_of_reachable`). Where the join describes more, configurations are lost:
for intervals, what lies between the candidates (`stopJoin_loses_configuration`). -/
namespace Reachability

open AbstractState (location)

variable {S P C : Type} [AbstractState S] [BEq S]

/-- Joining states of one location adds nothing to what they describe, and neither the order
nor equality is at odds with it. -/
structure Domain.Exact (d : Domain Id S) (γ : S → Set C) : Prop where
  mono : ∀ {s t}, d.Below s t → γ s ⊆ γ t
  of_beq : ∀ {s t}, (s == t) = true → γ s ⊆ γ t
  joinMany : ∀ {states : List S} {all : S},
    (∀ s ∈ states, ∀ t ∈ states, location s = location t) →
      (d.joinMany states).run = some all → ∀ c ∈ γ all, ∃ t ∈ states, c ∈ γ t

/-- Separate merging, coverage by the join of the candidates, pairs kept as they are, no
forced covering, and successors for every concrete step. -/
structure Analysis.JoinStopping {ω W : Type} (d : Domain Id S) (γ : S → Set C)
    (next : C → C → Prop) (a : Analysis ω S P W) : Prop where
  transfer : ∀ s p w l, (a.transfer s p w).result = .ok l →
    ∀ b ∈ γ s, ∀ c, next b c → ∃ y ∈ l, c ∈ γ y.1
  merge : a.merge = .separate
  stop : a.stop = .join d.lift
  adjust : a.adjust = Adjustment.keep
  cover : a.cover = none

/-- It is enough that two states at a time are joined exactly. -/
theorem Domain.exact_of_join {d : Domain Id S} {γ : S → Set C}
    (hmono : ∀ {s t}, d.Below s t → γ s ⊆ γ t) (hbeq : ∀ {s t : S}, (s == t) = true → γ s ⊆ γ t)
    (hlocation : ∀ s t, location s = location t → location (d.join s t).run = location s)
    (hjoin : ∀ s t, location s = location t → γ (d.join s t).run ⊆ γ s ∪ γ t) : d.Exact γ where
  mono := hmono
  of_beq := hbeq
  joinMany := by
    intro states all hsame hall
    cases states with
    | nil => cases hall
    | cons first rest =>
      rw [run_joinMany_cons, Option.some.injEq] at hall
      subst hall
      have hfirst : ∀ t ∈ rest, location t = location first := fun t ht =>
        hsame t (List.mem_cons_of_mem _ ht) first (List.mem_cons_self ..)
      clear hsame
      induction rest generalizing first with
      | nil => exact fun c hc => ⟨first, List.mem_singleton_self _, hc⟩
      | cons t rest ih =>
        obtain ⟨ht, hrest⟩ := List.forall_mem_cons.1 hfirst
        have hjoined := hlocation first t ht.symm
        intro c hc
        have hothers : ∀ u ∈ rest, location u = location (d.join first t).run := fun u hu =>
          (hrest u hu).trans hjoined.symm
        obtain ⟨u, hu, hcu⟩ := ih (d.join first t).run hothers c hc
        rcases List.mem_cons.1 hu with rfl | hu
        · rcases hjoin first t ht.symm hcu with hcf | hct
          · exact ⟨first, List.mem_cons_self .., hcf⟩
          · exact ⟨t, List.mem_cons_of_mem _ (List.mem_cons_self ..), hct⟩
        · exact ⟨u, List.mem_cons_of_mem _ (List.mem_cons_of_mem _ hu), hcu⟩

namespace Analysis.JoinStopping
variable {ω W : Type} {d : Domain Id S} {γ : S → Set C} {next : C → C → Prop} {a : Analysis ω S P W}

/-- Nothing that a state describes is lost. -/
theorem faithful (ha : a.JoinStopping d γ next) (hd : d.Exact γ) :
    a.Faithful fun c s => c ∈ γ s where
  merge joins := by
    rw [ha.merge] at joins
    cases joins
  stop := by
    intro s reached p w hsame hstop c hc
    rw [ha.stop] at hstop
    obtain ⟨all, hall, hbelow⟩ := Stop.below_of_join hstop
    have hone : ∀ t ∈ reached, ∀ u ∈ reached, location t = location u := fun t ht u hu =>
      (hsame t ht).trans (hsame u hu).symm
    exact hd.joinMany hone hall c (hd.mono hbelow hc)
  adjust := by
    intro s p r w adjusted hadjusted
    rw [ha.adjust] at hadjusted
    cases hadjusted
    exact ⟨_, rfl, fun c hc => hc⟩
  cover := ha.cover

omit [BEq S] in
theorem represents (ha : a.JoinStopping d γ next) :
    a.Represents (fun c s => c ∈ γ s) fun s _ c => ∃ b ∈ γ s, next b c := by
  rintro s p w l hl c ⟨b, hb, hnext⟩
  exact ha.transfer s p w l hl b hb c hnext

end Analysis.JoinStopping

variable [BEq P] [PartialEquivBEq S]

/-- **Coverage by the join is sound where joins are exact**: once a run is exhausted, every
configuration that the concrete system can reach from one that a seed describes is described
by a published state. -/
theorem exists_describing_of_reachable {d : Domain Id S} {γ : S → Set C} {next : C → C → Prop}
    (hd : d.Exact γ) {o : TraversalOrder} {seeds : List (S × P)} {r : Reached S P Frontier}
    (hr : Exhausted (fun _ a => a.JoinStopping d γ next) (.ofOrder o) seeds r) {x : S × P}
    (hx : x ∈ seeds) {b c : C} (hb : b ∈ γ x.1) (hreach : Relation.ReflTransGen next b c) :
    ∃ t ∈ r.states, c ∈ γ t := by
  have hle : Respects fun c s => c ∈ γ s := fun c s t hst hc => hd.of_beq hst hc
  have hconsistent : (Reached.ofOrder o : Reached S P Frontier).Consistent := .ofOrder o
  induction hreach with
  | refl => exact hr.covers_seed hle (fun ω a ha => ha.faithful hd) hconsistent hx hb
  | tail _ hnext ih =>
    obtain ⟨t, ht, hbt⟩ := ih
    obtain ⟨h, p, hpair⟩ := Reached.mem_states_iff_get?.1 ht
    exact hr.covers_succ hle (fun ω a ha => ⟨ha.faithful hd, ha.represents⟩) hconsistent
      (Reached.closed_ofOrder o) hpair ⟨_, hbt, hnext⟩

/-! Intervals of the demonstration. Lower ends alone are joined exactly, so that counting from
them loses nothing. Both ends together are not: 5 is lost below the join of 0 and 10. -/
namespace Counter

/-- A location and a value. -/
def Configuration : Type :=
  Location × Int64

/-- The values from the lower end on. -/
def Interval.upward (s : Interval) : Set Configuration :=
  {c | c.1 = s.loc ∧ s.lo ≤ c.2}

/-- The values of the interval. -/
def Interval.within (s : Interval) : Set Configuration :=
  {c | c.1 = s.loc ∧ s.lo ≤ c.2 ∧ c.2 ≤ s.hi}

theorem Interval.exact_upward : domain.Exact upward := by
  refine Domain.exact_of_join (fun {s t} hst c hc => ?_) (fun {s t} hst => ?_) (fun s t _ => rfl)
    fun s t hloc c hc => ?_
  · obtain ⟨hl, hlo, -⟩ := below_iff.1 hst
    exact ⟨hc.1.trans hl, Int64.le_trans hlo hc.2⟩
  · rw [eq_of_beq hst]
  · have hlo : min s.lo t.lo ≤ c.2 := hc.2
    rcases Std.min_eq_or (a := s.lo) (b := t.lo) with hmin | hmin
    · exact .inl ⟨hc.1, hmin ▸ hlo⟩
    · exact .inr ⟨hc.1.trans hloc, hmin ▸ hlo⟩

/-- Counting up to a bound, from zero. -/
def Configuration.counts (bound : Int64) (b c : Configuration) : Prop :=
  b.1 = .start ∧ c = (.loop, 0) ∨ b.1 = .loop ∧ b.2 < bound ∧ c = (.loop, b.2 + 1)

def counting : Analysis Unit Interval Unit Frontier :=
  {analysis ⟨2, none⟩ false false with stop := .join Interval.domain.lift}

theorem counting_joinStopping :
    counting.JoinStopping Interval.domain Interval.upward (Configuration.counts 2) := by
  refine ⟨fun s p w l hl b hb c hnext => ?_, rfl, rfl, rfl, rfl⟩
  cases hl
  obtain ⟨hloc, hlo⟩ := hb
  rcases hnext with ⟨hstart, rfl⟩ | ⟨hloop, hbelow, rfl⟩
  · rw [hstart] at hloc
    refine ⟨(⟨.loop, 0, 0⟩, ()), List.mem_map.2 ⟨_, ?_, rfl⟩, rfl, Int64.le_refl _⟩
    simp [Program.successors, ← hloc]
  · rw [hloop] at hloc
    have hs : s.lo < 2 := by grind
    refine ⟨(⟨.loop, s.lo + 1, min s.hi (2 - 1) + 1⟩, ()), List.mem_map.2 ⟨_, ?_, rfl⟩, rfl, ?_⟩
    · simp [Program.successors, ← hloc, hs, Program.countUp]
    · show s.lo + 1 ≤ b.2 + 1
      grind

def counted : State :=
  (Exploration.run counting 20 (initial { bound := 2 })).2

theorem counted_describes_two :
    ∃ t ∈ counted.reached.states, (.loop, 2) ∈ Interval.upward t := by
  have hcounted : Exhausted
      (fun _ a => a.JoinStopping Interval.domain Interval.upward (Configuration.counts 2))
      (.ofOrder .breadthFirst) [(seed, ())] counted.reached :=
    .ran (.schedule .start seed ()) counting_joinStopping (by decide +kernel)
  have hseed : (.start, 0) ∈ Interval.upward seed := ⟨rfl, Int64.le_refl _⟩
  have hreach : Relation.ReflTransGen (Configuration.counts 2) (.start, 0) (.loop, 2) := by
    refine .head (b := (.loop, 0)) (.inl ⟨rfl, rfl⟩) ?_
    refine .head (b := (.loop, 1)) (.inr ⟨rfl, by decide, rfl⟩) ?_
    exact .single (.inr ⟨rfl, by decide, rfl⟩)
  exact exists_describing_of_reachable Interval.exact_upward hcounted (List.mem_singleton_self _)
    hseed hreach

/-- The program starts with 0, with 10 or with 5. -/
def scattered : List Interval :=
  [⟨.loop, 0, 0⟩, ⟨.loop, 10, 10⟩, ⟨.loop, 5, 5⟩]

def Configuration.scatters (b c : Configuration) : Prop :=
  b.1 = .start ∧ ∃ t ∈ scattered, c ∈ t.within

def scattering : Analysis Unit Interval Unit Frontier where
  transfer s _ := pure (if s.loc = .start then scattered.map fun t => (t, ()) else [])
  merge := .separate
  stop := .join Interval.domain.lift

theorem scattering_joinStopping :
    scattering.JoinStopping Interval.domain Interval.within Configuration.scatters := by
  refine ⟨fun s p w l hl b hb c hnext => ?_, rfl, rfl, rfl, rfl⟩
  cases hl
  obtain ⟨hstart, t, ht, hc⟩ := hnext
  have hloc : s.loc = .start := hb.1.symm.trans hstart
  rw [if_pos hloc]
  exact ⟨(t, ()), List.mem_map.2 ⟨t, ht, rfl⟩, hc⟩

def scatteredOut : State :=
  (Exploration.run scattering 20 (initial { bound := 2 })).2

/-- A join that describes more than the candidates together covers what none of them
describes, whatever else is asked of the order. -/
theorem stopJoin_loses_configuration :
    ¬ ∀ (d : Domain Id Interval) (γ : Interval → Set Configuration)
      (next : Configuration → Configuration → Prop) (o : TraversalOrder)
      (seeds : List (Interval × Unit)) (r : Reached Interval Unit Frontier),
      Subsumption d.Below →
      (∀ s t, location s = location t → d.Below s (d.join s t).run ∧ d.Below t (d.join s t).run) →
      (∀ s t, d.Below s t → γ s ⊆ γ t) →
      Exhausted (fun _ a => a.JoinStopping d γ next) (.ofOrder o) seeds r →
      ∀ x ∈ seeds, ∀ b ∈ γ x.1, ∀ c, Relation.ReflTransGen next b c → ∃ t ∈ r.states, c ∈ γ t := by
  intro hsound
  have hscattered : Exhausted
      (fun _ a => a.JoinStopping Interval.domain Interval.within Configuration.scatters)
      (.ofOrder .breadthFirst) [(seed, ())] scatteredOut.reached :=
    .ran (.schedule .start seed ()) scattering_joinStopping (by decide +kernel)
  have hupper : ∀ s t : Interval, location s = location t →
      Interval.domain.Below s (Interval.domain.join s t).run ∧
        Interval.domain.Below t (Interval.domain.join s t).run := fun s t hloc =>
    ⟨Interval.below_join_left s t, Interval.below_join_right hloc⟩
  have hmono : ∀ s t, Interval.domain.Below s t → s.within ⊆ t.within := by
    intro s t hst c ⟨hloc, hlo, hhi⟩
    obtain ⟨hl, hlo', hhi'⟩ := Interval.below_iff.1 hst
    exact ⟨hloc.trans hl, Int64.le_trans hlo' hlo, Int64.le_trans hhi hhi'⟩
  have hlost : ∀ t ∈ scatteredOut.reached.states,
      ¬ (Location.loop = t.loc ∧ t.lo ≤ 5 ∧ (5 : Int64) ≤ t.hi) := by decide +kernel
  obtain ⟨t, ht, hdescribed⟩ := hsound Interval.domain Interval.within Configuration.scatters
    .breadthFirst [(seed, ())] scatteredOut.reached Interval.subsumption hupper hmono hscattered
    (seed, ()) (List.mem_singleton_self _) (.start, 0) (by exact ⟨rfl, by decide, by decide⟩)
    (.loop, 5) (.single ⟨rfl, ⟨.loop, 5, 5⟩, by decide, rfl, by decide, by decide⟩)
  exact hlost t ht hdescribed

end Counter
end Reachability
