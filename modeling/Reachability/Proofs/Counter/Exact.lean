import Reachability.Proofs.Counter.Successors
import Reachability.Proofs.Join.Independence
import Reachability.Proofs.Run.Shown

/-! What the demonstration finds.

As long as a run of the demonstration goes on, a single state waits, so the order of the frontier
makes no difference. The run counts up to the peak, with one iteration for each value, and then
reaches the error location or the exit. What is published after each iteration can be said exactly
(`counted`), and from this what is published in the end (`found`). -/
namespace Reachability.Counter

open Exploration Effect Counter.Interval

/-! ### The analysis -/

theorem analysis_adjust {W : Type} (prog : Program) (join halt : Bool) (s : Interval)
    (r : Reached Interval Unit W) (w : Unit) :
    (analysis prog join halt).adjust s () r w =
      ⟨.ok (some ⟨s, (), if halt && s.loc == .error then .halt else .proceed⟩), w, none, 0⟩ := by
  obtain ⟨loc, lo, hi⟩ := s
  cases halt with
  | false => rfl
  | true => cases loc <;> rfl

theorem analysis_faultless {W : Type} (prog : Program) (join halt : Bool) :
    (analysis prog join halt : Analysis Unit Interval Unit W).Faultless where
  transfer _ _ w := Ask.fine_pure _ w
  merge s old p w := by
    cases join with
    | false => exact Ask.fine_pure old w
    | true => exact Merge.fine_join Interval.domain s old p w
  stop := Stop.fine_separate Interval.domain.toComparison
  adjust s p r w := by
    rw [analysis_adjust]
    exact ⟨⟨_, rfl⟩, rfl⟩
  cover _ h := by cases h

namespace Options

/-- The analysis that is run. -/
def analysis (o : Options) : Analysis Unit Interval Unit Frontier :=
  Counter.analysis o.program o.join !o.allErrors

/-- Whether a state at this location halts the run. -/
def halts (o : Options) (l : Location) : Bool :=
  !o.allErrors && l == .error

variable {o : Options} {published waits : Set Interval} {x : State} {s t old : Interval}

theorem analysis_keeps (o : Options) (s : Interval) (r : Reached Interval Unit Frontier) (w : Unit) :
    (o.analysis.adjust s () r w).result =
      .ok (some ⟨s, (), if o.halts s.loc then .halt else .proceed⟩) :=
  congrArg Reply.result (analysis_adjust ..)

theorem analysis_merge (hjoin : o.join = true) :
    o.analysis.merge = .join Interval.domain.lift := by
  rw [analysis, Counter.analysis, hjoin]
  rfl

theorem analysis_separates (hjoin : o.join = false) : o.analysis.merge.separates = true := by
  rw [analysis, Counter.analysis, hjoin]
  rfl

/-! ### Single successors -/

section Treated
variable {r r' : Reached Interval Unit Frontier} {flow : Flow}

theorem treated_new (hr : r.Shows published waits)
    (hnew : ∀ u ∈ published, ¬ Interval.domain.Below t u)
    (hunmerged : o.join = false ∨ ∀ u ∈ published, u.loc ≠ t.loc)
    (hflow : ∀ e, flow ≠ .abort e) (h : Treated o.analysis t () r flow r') :
    flow = (if o.halts t.loc then .halt else .onward) ∧
      r'.Shows (insert t published) (insert t waits) := by
  obtain ⟨hflow', hshows⟩ := h.of_new located rfl hr hnew (hunmerged.imp_left analysis_separates)
    (analysis_keeps o t r) hflow
  refine ⟨hflow'.trans ?_, hshows⟩
  cases o.halts t.loc <;> rfl

theorem treated_covered (hjoin : o.join = true) (hr : r.Shows published waits)
    (hinj : published.InjOn loc) (hold : old ∈ published) (hbelow : Interval.domain.Below t old)
    (hproceeds : o.halts t.loc = false) (hflow : ∀ e, flow ≠ .abort e)
    (h : Treated o.analysis t () r flow r') : flow = .onward ∧ r' = r := by
  refine h.of_covered located rfl (analysis_merge hjoin) hr hinj hold hbelow (fun w => ?_) hflow
  rw [analysis_keeps, hproceeds]
  rfl

theorem treated_joined (hjoin : o.join = true) (hr : r.Shows published waits)
    (hinj : published.InjOn loc) (hold : old ∈ published) (hloc : t.loc = old.loc)
    (hnot : ¬ Interval.domain.Below t old) (hnew : t.join old ∉ published)
    (hproceeds : o.halts t.loc = false) (hflow : ∀ e, flow ≠ .abort e)
    (h : Treated o.analysis t () r flow r') :
    flow = .onward ∧
      r'.Shows (insert (t.join old) (published \ {old})) (insert (t.join old) waits) := by
  refine h.of_joined located rfl (analysis_merge hjoin) hr hinj hold hloc hnot hnew
    (fun w => ?_) hflow
  rw [analysis_keeps, hproceeds]
  rfl

/-- A successor that adds nothing to what is published. -/
structure Redundant (o : Options) (published : Set Interval) (t : Interval) : Prop where
  joins : o.join = true
  single : published.InjOn loc
  proceeds : o.halts t.loc = false
  below : ∃ old ∈ published, Interval.domain.Below t old

theorem treatedAll_redundant (hr : r.Shows published waits) {l rest : List Interval}
    (hall : ∀ u ∈ l, o.Redundant published u) (hflow : ∀ e, flow ≠ .abort e) {h : Handle}
    (ht : TreatedAll o.analysis h ((l ++ rest).map fun t => (t, ())) r flow r') :
    TreatedAll o.analysis h (rest.map fun t => (t, ())) r flow r' := by
  induction l with
  | nil => exact ht
  | cons u l ih =>
    obtain ⟨hu, hl⟩ := List.forall_mem_cons.1 hall
    obtain ⟨old, hold, hbelow⟩ := hu.below
    have hskips : ∀ {flow r₁}, Treated o.analysis u () r flow r₁ → (∀ e, flow ≠ .abort e) →
        flow = .onward ∧ r₁ = r := fun first hflow =>
      treated_covered hu.joins hr hu.single hold hbelow hu.proceeds hflow first
    rcases ht.of_cons hflow with ⟨r₁, first, others⟩ | ⟨-, r₁, first, -⟩
    · obtain ⟨-, rfl⟩ := hskips first Flow.onward_ne_abort
      exact ih hl others
    · cases (hskips first Flow.halt_ne_abort).1

end Treated

/-! ### Single iterations -/

/-- A moment of a run, between two iterations. -/
structure Stage (published waits : Set Interval) (x : State) : Prop where
  quiet : x.Quiet
  shows : x.reached.Shows published waits

theorem Stage.expand (o : Options) (hx : Stage published {s} x) (hs : s ∈ published) :
    ∃ h r flow y, r.Shows published ∅ ∧
      TreatedAll o.analysis h ((o.program.successors s).map fun t => (t, ())) r flow y.reached ∧
      (∀ e, flow ≠ .abort e) ∧ step o.analysis x = (flow.ending, y) ∧ y.Quiet := by
  have hfaultless : o.analysis.Faultless := analysis_faultless ..
  obtain ⟨h, r, p, w, l, flow, hr, hl, htreated, hended, hflow⟩ :=
    exists_treatedAll hfaultless rfl hx.quiet hx.shows hs
  cases hl
  exact ⟨h, r, flow, _, hr, htreated, hflow, Prod.ext hended rfl,
    (hx.quiet.step hfaultless).2⟩

theorem Stage.barren (hx : Stage published {s} x) (hs : s ∈ published)
    (hnone : o.program.successors s = []) :
    ∃ y, step o.analysis x = (none, y) ∧ Stage published ∅ y := by
  obtain ⟨h, r, flow, y, hr, htreated, -, hstep, hquiet⟩ := hx.expand o hs
  rw [hnone] at htreated
  cases htreated
  exact ⟨y, hstep, hquiet, hr⟩

/-- A new state that does not halt the run is the next to be expanded. -/
theorem Stage.reach (hx : Stage published {s} x) (hs : s ∈ published) (before : List Interval)
    (hlast : o.program.successors s = before ++ [t])
    (hbefore : ∀ u ∈ before, o.Redundant published u)
    (hnew : ∀ u ∈ published, ¬ Interval.domain.Below t u)
    (hunmerged : o.join = false ∨ ∀ u ∈ published, u.loc ≠ t.loc)
    (hproceeds : o.halts t.loc = false) :
    ∃ y, step o.analysis x = (none, y) ∧ Stage (insert t published) {t} y := by
  obtain ⟨h, r, flow, y, hr, htreated, hflow, hstep, hquiet⟩ := hx.expand o hs
  rw [hlast] at htreated
  have honly := treatedAll_redundant hr hbefore hflow htreated
  obtain ⟨rfl, hshows⟩ := treated_new hr hnew hunmerged hflow honly.singleton
  rw [hproceeds] at hstep
  rw [insert_empty_eq] at hshows
  exact ⟨y, hstep, hquiet, hshows⟩

/-- A state that is joined with the one before takes its place. -/
theorem Stage.grow (hjoin : o.join = true) (hx : Stage published {s} x) (hs : s ∈ published)
    (honly : o.program.successors s = [t]) (hinj : published.InjOn loc) (hloc : t.loc = s.loc)
    (hnot : ¬ Interval.domain.Below t s) (hnew : t.join s ∉ published)
    (hproceeds : o.halts t.loc = false) :
    ∃ y, step o.analysis x = (none, y) ∧
      Stage (insert (t.join s) (published \ {s})) {t.join s} y := by
  obtain ⟨h, r, flow, y, hr, htreated, hflow, hstep, hquiet⟩ := hx.expand o hs
  rw [honly] at htreated
  obtain ⟨rfl, hshows⟩ := treated_joined hjoin hr hinj hs hloc hnot hnew hproceeds hflow
    htreated.singleton
  rw [insert_empty_eq] at hshows
  exact ⟨y, hstep, hquiet, hshows⟩

/-- A first state at its location may halt the run. -/
theorem Stage.arrive (hx : Stage published {s} x) (hs : s ∈ published) {after : List Interval}
    (hfirst : o.program.successors s = t :: after)
    (hafter : ∀ u ∈ after, o.Redundant (insert t published) u)
    (hvacant : ∀ u ∈ published, u.loc ≠ t.loc) :
    ∃ y, y.Quiet ∧ if o.halts t.loc
      then step o.analysis x = (some (.ok .halted), y) ∧
        ∃ waits, y.reached.Shows (insert t published) waits
      else step o.analysis x = (none, y) ∧ y.reached.Shows (insert t published) {t} := by
  obtain ⟨h, r, flow, y, hr, htreated, hflow, hstep, hquiet⟩ := hx.expand o hs
  have hnew : ∀ {flow r₁}, Treated o.analysis t () r flow r₁ → (∀ e, flow ≠ .abort e) →
      flow = (if o.halts t.loc then .halt else .onward) ∧ r₁.Shows (insert t published) {t} := by
    intro flow r₁ first hflow
    have htreated := treated_new hr (fun u hu hbelow => hvacant u hu (below_iff.1 hbelow).1.symm)
      (.inr hvacant) hflow first
    rwa [insert_empty_eq] at htreated
  rw [hfirst] at htreated
  refine ⟨y, hquiet, ?_⟩
  rcases htreated.of_cons hflow with ⟨r₁, first, others⟩ | ⟨rfl, r₁, first, hput⟩
  · obtain ⟨honward, hshows⟩ := hnew first Flow.onward_ne_abort
    have hproceeds : o.halts t.loc = false := Bool.of_not_eq_true fun hhalts => by
      rw [hhalts] at honward
      cases honward
    rw [← List.append_nil after] at others
    have hrest := treatedAll_redundant hshows hafter hflow others
    obtain ⟨rfl, hsame⟩ := hrest.of_nil
    rw [hproceeds]
    exact ⟨hstep, hsame ▸ hshows⟩
  · obtain ⟨hhalt, hshows⟩ := hnew first Flow.halt_ne_abort
    have hhalts : o.halts t.loc = true := Bool.of_not_eq_false fun hproceeds => by
      rw [hproceeds] at hhalt
      cases hhalt
    rw [hhalts]
    refine ⟨hstep, ?_⟩
    rcases hput with hput | hput
    · exact ⟨_, hput ▸ hshows⟩
    · exact hput ▸ hshows.enqueue h

/-! ### Counting up -/

/-- The interval in the loop that waits, once `k` was counted up to. -/
def front (o : Options) (k : Int64) : Interval :=
  ⟨.loop, if o.join then 0 else k, k⟩

/-- What is published by then: one interval of all values, or one for each. -/
def counted (o : Options) (k : Int64) : Set Interval :=
  {s | s = seed ∨ s.loc = .loop ∧ if o.join then s.lo = 0 ∧ s.hi = k else
    s.lo = s.hi ∧ 0 ≤ s.lo ∧ s.lo ≤ k}

variable {k : Int64}

theorem front_of_join (hjoin : o.join = true) : o.front k = ⟨.loop, 0, k⟩ := by
  rw [front, if_pos hjoin]

theorem front_of_separate (hjoin : o.join = false) : o.front k = ⟨.loop, k, k⟩ := by
  rw [front, if_neg (ne_true_of_eq_false hjoin)]

theorem front_bounds (o : Options) (hk : 0 ≤ k) : 0 ≤ (o.front k).lo ∧ (o.front k).lo ≤ k := by
  unfold front
  cases o.join with
  | true => exact ⟨Int64.le_refl 0, hk⟩
  | false => exact ⟨hk, Int64.le_refl k⟩

theorem front_mem_counted (o : Options) (hk : 0 ≤ k) : o.front k ∈ o.counted k := by
  refine .inr ⟨rfl, ?_⟩
  unfold front
  cases o.join with
  | true => exact ⟨rfl, rfl⟩
  | false => exact ⟨rfl, hk, Int64.le_refl k⟩

theorem loc_of_mem_counted (hs : s ∈ o.counted k) : s.loc = .start ∨ s.loc = .loop := by
  rcases hs with rfl | ⟨hloc, -⟩
  · exact .inl rfl
  · exact .inr hloc

theorem mem_counted_iff (hjoin : o.join = true) :
    s ∈ o.counted k ↔ s = seed ∨ s = ⟨.loop, 0, k⟩ := by
  obtain ⟨loc, lo, hi⟩ := s
  simp [counted, hjoin]

/-- With merging, no location has two states. -/
theorem injOn_counted (hjoin : o.join = true) : (o.counted k).InjOn loc := by
  intro s hs t ht hloc
  rw [mem_counted_iff hjoin] at hs ht
  rcases hs with rfl | rfl <;> rcases ht with rfl | rfl
  · rfl
  · cases hloc
  · cases hloc
  · rfl

theorem counted_zero (o : Options) : insert ⟨.loop, 0, 0⟩ {seed} = o.counted 0 := by
  ext ⟨loc, lo, hi⟩
  cases hjoin : o.join with
  | true => simp [mem_counted_iff hjoin, or_comm]
  | false =>
    simp only [counted, hjoin, Set.mem_insert_iff, Set.mem_singleton_iff, Set.mem_ofPred_eq,
      Interval.mk.injEq, Bool.false_eq_true, if_false]
    grind

theorem counted_add_one (hjoin : o.join = false) (hk : 0 ≤ k) (hlt : k < o.peak) :
    insert ⟨.loop, k + 1, k + 1⟩ (o.counted k) = o.counted (k + 1) := by
  ext ⟨loc, lo, hi⟩
  simp only [counted, hjoin, Set.mem_insert_iff, Set.mem_ofPred_eq, Interval.mk.injEq,
    Bool.false_eq_true, if_false]
  grind

theorem counted_grow (hjoin : o.join = true) :
    insert ⟨.loop, 0, k + 1⟩ (o.counted k \ {⟨.loop, 0, k⟩}) = o.counted (k + 1) := by
  ext s
  simp only [Set.mem_insert_iff, Set.mem_sdiff, Set.mem_singleton_iff, mem_counted_iff hjoin]
  constructor
  · rintro (rfl | ⟨rfl | rfl, hne⟩)
    · exact .inr rfl
    · exact .inl rfl
    · exact absurd rfl hne
  · rintro (rfl | rfl)
    · exact .inr ⟨.inl rfl, nofun⟩
    · exact .inl rfl

theorem halts_eq_false {l : Location} (hl : l ≠ .error) : o.halts l = false := by
  unfold halts
  rw [beq_false_of_ne hl, Bool.and_false]

/-- From the seed the loop is entered. -/
theorem Stage.enter (o : Options) (hx : Stage {seed} {seed} x) :
    ∃ y, step o.analysis x = (none, y) ∧ Stage (o.counted 0) {o.front 0} y := by
  have hother : ∀ u ∈ ({seed} : Set Interval), u.loc ≠ .loop := fun u hu hloc => by
    rw [Set.mem_singleton_iff.1 hu] at hloc
    cases hloc
  have hfront : o.front 0 = ⟨.loop, 0, 0⟩ := by
    unfold front
    rw [ite_self]
  rw [hfront, ← counted_zero]
  exact hx.reach rfl [] rfl nofun
    (fun u hu hbelow => hother u hu (below_iff.1 hbelow).1.symm) (.inr hother)
    (halts_eq_false nofun)

/-- Below the peak an iteration counts up by one. -/
theorem Stage.count (hx : Stage (o.counted k) {o.front k} x) (hk : 0 ≤ k) (hlt : k < o.peak) :
    ∃ y, step o.analysis x = (none, y) ∧ Stage (o.counted (k + 1)) {o.front (k + 1)} y := by
  obtain ⟨hlo, hle⟩ := o.front_bounds hk
  have hmem := o.front_mem_counted hk
  have honly := successors_of_lt_peak hlo hle hlt
  cases hjoin : o.join with
  | false =>
    rw [front_of_separate hjoin] at hx hmem honly
    rw [front_of_separate hjoin, ← counted_add_one hjoin hk hlt]
    refine hx.reach hmem [] honly nofun ?_ (.inl hjoin) (halts_eq_false nofun)
    rintro u (rfl | ⟨-, hu⟩) hbelow
    · cases (below_iff.1 hbelow).1
    · obtain ⟨-, hlo', hhi'⟩ := below_iff.1 hbelow
      simp only [hjoin, Bool.false_eq_true, if_false] at hu hlo' hhi'
      grind
  | true =>
    rw [front_of_join hjoin] at hx hmem honly
    have hnext : Interval.join ⟨.loop, 0 + 1, k + 1⟩ ⟨.loop, 0, k⟩ = ⟨.loop, 0, k + 1⟩ := by
      have hmin : min (0 + 1 : Int64) 0 = 0 := rfl
      have hmax : max (k + 1) k = k + 1 := by
        rw [max_eq_ite]
        grind
      rw [Interval.join, hmin, hmax]
    rw [front_of_join hjoin, ← counted_grow hjoin, ← hnext]
    refine hx.grow hjoin hmem honly (injOn_counted hjoin) rfl (fun hbelow => ?_) (fun hin => ?_)
      (halts_eq_false nofun)
    · have hhi := (below_iff.1 hbelow).2.2
      simp only at hhi
      grind
    · rw [hnext, mem_counted_iff hjoin] at hin
      rcases hin with hin | hin
      · cases hin
      · have hhi := congrArg hi hin
        simp only at hhi
        grind

/-! ### At the peak -/

/-- The state after the loop: the error location at the error value, or the exit. -/
def ending (o : Options) : Interval :=
  match o.hit? with
  | some e => ⟨.error, e, e⟩
  | none => ⟨.exit, o.peak, o.peak⟩

/-- What a run publishes. -/
def found (o : Options) : Set Interval :=
  insert o.ending (o.counted o.peak)

/-- How a run ends. -/
def verdict (o : Options) : Termination :=
  if o.hit?.isSome && !o.allErrors then .halted else .exhausted

theorem ending_of_hit {e : Int64} (h : o.hit? = some e) : o.ending = ⟨.error, e, e⟩ := by
  rw [ending, h]

theorem ending_of_not_hit (h : o.hit? = none) : o.ending = ⟨.exit, o.peak, o.peak⟩ := by
  rw [ending, h]

theorem loc_ending (o : Options) : o.ending.loc = .error ∨ o.ending.loc = .exit := by
  unfold ending
  cases o.hit? with
  | some e => exact .inl rfl
  | none => exact .inr rfl

theorem loc_ne_ending (hs : s ∈ o.counted k) : s.loc ≠ o.ending.loc := by
  rcases loc_of_mem_counted hs with h | h <;> rcases o.loc_ending with h' | h' <;>
    exact fun hloc => Location.noConfusion (h.symm.trans (hloc.trans h'))

theorem injOn_found (hjoin : o.join = true) : o.found.InjOn loc := by
  refine (Set.injOn_insert fun hin => loc_ne_ending hin rfl).2 ⟨injOn_counted hjoin, ?_⟩
  rintro ⟨u, hu, hloc⟩
  exact loc_ne_ending hu hloc

/-- With merging, what is left of the loop at the peak is covered. -/
theorem redundant_loop (hjoin : o.join = true) (hin : o.counted o.peak ⊆ published)
    (hinj : published.InjOn loc) : o.Redundant published ⟨.loop, (o.front o.peak).lo + 1, o.peak⟩ := by
  refine ⟨hjoin, hinj, halts_eq_false nofun, o.front o.peak, hin (o.front_mem_counted o.peak_nonneg),
    below_iff.2 ⟨rfl, ?_, Int64.le_refl _⟩⟩
  simp [front_of_join hjoin]

/-- If the error value is not counted up to, the exit is reached. -/
theorem Stage.leave (hx : Stage (o.counted o.peak) {o.front o.peak} x) (h : o.hit? = none) :
    ∃ y, step o.analysis x = (none, y) ∧ Stage o.found {o.ending} y := by
  obtain ⟨hlo, hle⟩ := o.front_bounds o.peak_nonneg
  have hlast := successors_of_not_hit h hlo hle
  have hvacant : ∀ u ∈ o.counted o.peak, u.loc ≠ o.ending.loc := fun u hu => loc_ne_ending hu
  have hproceeds : o.halts o.ending.loc = false :=
    halts_eq_false (by rw [ending_of_not_hit h]; exact nofun)
  rw [← ending_of_not_hit h] at hlast
  refine hx.reach (o.front_mem_counted o.peak_nonneg) _ hlast (fun u hu => ?_)
    (fun u hu hbelow => hvacant u hu (below_iff.1 hbelow).1.symm) (.inr hvacant) hproceeds
  split at hu
  · rename_i hbelow
    rw [List.mem_singleton.1 hu]
    cases hjoin : o.join with
    | true => exact redundant_loop hjoin subset_rfl (injOn_counted hjoin)
    | false =>
      -- Without merging the front is at the bound.
      rw [front_of_separate hjoin, peak_of_not_hit h] at hbelow
      exact absurd (right_le_max 0 o.bound) (Int64.not_le.2 hbelow)
  · cases hu

/-- If it is, the error location is reached, which may halt the run. -/
theorem Stage.hit (hx : Stage (o.counted o.peak) {o.front o.peak} x) {e : Int64}
    (h : o.hit? = some e) :
    ∃ y, y.Quiet ∧ if o.halts .error
      then step o.analysis x = (some (.ok .halted), y) ∧ ∃ waits, y.reached.Shows o.found waits
      else step o.analysis x = (none, y) ∧ y.reached.Shows o.found {o.ending} := by
  obtain ⟨hlo, hle⟩ := o.front_bounds o.peak_nonneg
  have hvacant : ∀ u ∈ o.counted o.peak, u.loc ≠ o.ending.loc := fun u hu => loc_ne_ending hu
  have hfirst : o.program.successors (o.front o.peak) = o.ending ::
      if (o.front o.peak).lo + 1 < e then [⟨.loop, (o.front o.peak).lo + 1, o.peak⟩] else [] := by
    rw [peak_of_hit h] at hle ⊢
    rw [ending_of_hit h]
    exact successors_of_hit h hle
  have hloc : o.ending.loc = .error := by rw [ending_of_hit h]
  rw [← hloc]
  refine hx.arrive (o.front_mem_counted o.peak_nonneg) hfirst (fun u hu => ?_) hvacant
  split at hu
  · rename_i hbelow
    rw [List.mem_singleton.1 hu]
    cases hjoin : o.join with
    | true =>
      exact redundant_loop hjoin (Set.subset_insert ..) (injOn_found hjoin)
    | false =>
      rw [front_of_separate hjoin, peak_of_hit h] at hbelow
      grind
  · cases hu

/-! ### Runs -/

/-- Within so many iterations the run ends as it must. -/
def Ends (o : Options) (limit : Nat) (x : State) : Prop :=
  ∃ y waits, iterate o.analysis limit x = (some (.ok o.verdict), y) ∧
    y.reached.Shows o.found waits

theorem Ends.of_step {limit : Nat} {y : State} (hstep : step o.analysis x = (none, y))
    (hy : o.Ends limit y) : o.Ends (limit + 1) x := by
  obtain ⟨z, waits, hiterate, hshows⟩ := hy
  refine ⟨z, waits, ?_, hshows⟩
  rw [iterate, hstep]
  exact hiterate

/-- Behind the loop there is nothing to expand. -/
theorem Stage.ends_of_ending (hx : Stage o.found {o.ending} x) (hverdict : o.verdict = .exhausted)
    (limit : Nat) : o.Ends (limit + 2) x := by
  have hnone : o.program.successors o.ending = [] := by
    unfold Program.successors
    rcases o.loc_ending with h | h <;> rw [h]
  obtain ⟨y, hstep, hy⟩ := hx.barren (Set.mem_insert ..) hnone
  refine .of_step hstep ⟨y, ∅, ?_, hy.shows⟩
  rw [iterate, step_of_shows_empty hy.shows, hverdict]

theorem Stage.ends_at_peak (hx : Stage (o.counted o.peak) {o.front o.peak} x) (limit : Nat) :
    o.Ends (limit + 3) x := by
  cases h : o.hit? with
  | none =>
    obtain ⟨y, hstep, hy⟩ := hx.leave h
    have hverdict : o.verdict = .exhausted := by simp [verdict, h]
    exact .of_step hstep (hy.ends_of_ending hverdict limit)
  | some e =>
    obtain ⟨y, hquiet, hended⟩ := hx.hit h
    have hhalts : o.halts .error = !o.allErrors := by simp [halts]
    rw [hhalts] at hended
    cases hall : o.allErrors with
    | true =>
      rw [hall] at hended
      have hverdict : o.verdict = .exhausted := by simp [verdict, hall]
      exact .of_step hended.1 (Stage.ends_of_ending ⟨hquiet, hended.2⟩ hverdict limit)
    | false =>
      rw [hall] at hended
      obtain ⟨hstep, waits, hshows⟩ := hended
      have hverdict : o.verdict = .halted := by simp [verdict, h, hall]
      refine ⟨y, waits, ?_, hshows⟩
      rw [iterate, hstep, hverdict]

/-- From anywhere on the way up, the run ends as many iterations later as are left to count. -/
theorem Stage.ends (n limit : Nat) (hx : Stage (o.counted k) {o.front k} x) (hk : 0 ≤ k)
    (hleft : o.peak.toInt = k.toInt + n) : o.Ends (limit + 3 + n) x := by
  induction n generalizing k x with
  | zero =>
    have hpeak : k = o.peak := Int64.toInt_inj.1 (hleft.trans (Int.add_zero _)).symm
    rw [hpeak] at hx
    exact hx.ends_at_peak limit
  | succ n ih =>
    have hlt : k < o.peak := Int64.lt_iff_toInt_lt.2 (by omega)
    have hnext := toInt_add_one hlt
    obtain ⟨y, hstep, hy⟩ := hx.count hk hlt
    exact .of_step hstep (ih hy (by grind) (by omega))

theorem Stage.ends_of_seed (hx : Stage {seed} {seed} x) (limit : Nat) :
    o.Ends (limit + 3 + o.peak.toInt.toNat + 1) x := by
  obtain ⟨y, hstep, hy⟩ := hx.enter o
  have hpeak : 0 ≤ o.peak.toInt := Int64.le_iff_toInt_le.1 o.peak_nonneg
  refine .of_step hstep (hy.ends _ limit (Int64.le_refl 0) ?_)
  have hzero : (0 : Int64).toInt = 0 := rfl
  omega

theorem ends_initial (o : Options) :
    o.Ends (limit o) ((initial o).start .total).publishSeeds := by
  have hempty : (((initial o).start .total).publishSeeds).reached =
      ((Reached.ofOrder o.order : Reached Interval Unit Frontier).addInitial seed ()).drain :=
    reached_publishSeeds _
  have hshows : ((Reached.ofOrder o.order : Reached Interval Unit Frontier).addInitial seed
      ()).drain.Shows {seed} {seed} := by
    have hseeded := ((Reached.Shows.ofOrder o.order).withSeeds []).add
      (Set.notMem_empty seed) ()
    rwa [insert_empty_eq] at hseeded
  have hquiet : (((initial o).start .total).publishSeeds).Quiet :=
    congrArg (fun m : Unit × Shutdown => m.2.requested)
      (mind_publishSeeds ((initial o).start .total))
  have hends := Stage.ends_of_seed (o := o) ⟨hquiet, hempty ▸ hshows⟩
    (limit o - 4 - o.peak.toInt.toNat)
  have hpeak := o.toInt_peak_le
  have hlimit : limit o - 4 - o.peak.toInt.toNat + 3 + o.peak.toInt.toNat + 1 = limit o := by
    unfold limit
    omega
  rwa [hlimit] at hends

/-- Outside the loop, a run publishes its last state and nothing else. -/
theorem filter_states {r : Reached Interval Unit Frontier} (hr : r.Shows o.found waits)
    {l : Location} (hstart : l ≠ .start) (hloop : l ≠ .loop) :
    r.states.filter (fun s => s.loc == l) = if o.ending.loc = l then [o.ending] else [] := by
  have hmem : ∀ s ∈ r.states, s.loc = l → s = o.ending := fun s hs hloc => by
    rcases hr.states.1 hs with rfl | hcounted
    · rfl
    · rcases loc_of_mem_counted hcounted with h | h
      · exact absurd (hloc.symm.trans h) hstart
      · exact absurd (hloc.symm.trans h) hloop
  split
  · rename_i hending
    refine List.perm_singleton.1 ((List.perm_ext_iff_of_nodup (hr.nodup_states.filter _)
      (List.nodup_singleton _)).2 fun s => ?_)
    rw [List.mem_filter, List.mem_singleton, beq_iff_eq]
    constructor
    · exact fun hs => hmem s hs.1 hs.2
    · rintro rfl
      exact ⟨hr.states.2 (Set.mem_insert ..), hending⟩
  · rename_i hending
    refine List.filter_eq_nil_iff.2 fun s hs hloc => ?_
    have hsame := hmem s hs (beq_iff_eq.1 hloc)
    exact hending (hsame ▸ beq_iff_eq.1 hloc)

/-- The intervals in the loop are those counted, and cover what was counted up to. -/
theorem exists_mem_loop_iff (o : Options) (v : Int64) :
    (∃ s ∈ o.found, s.loc = .loop ∧ s.lo ≤ v ∧ v ≤ s.hi) ↔ 0 ≤ v ∧ v ≤ o.peak := by
  constructor
  · rintro ⟨s, rfl | rfl | ⟨-, hs⟩, hloc, hlo, hhi⟩
    · rcases o.loc_ending with h | h <;> cases h.symm.trans hloc
    · cases hloc
    · cases hjoin : o.join <;> simp only [hjoin, Bool.false_eq_true, if_true, if_false] at hs <;>
        grind
  · rintro ⟨hlo, hhi⟩
    cases hjoin : o.join with
    | true => exact ⟨⟨.loop, 0, o.peak⟩, .inr ((mem_counted_iff hjoin).2 (.inr rfl)), rfl, hlo, hhi⟩
    | false =>
      refine ⟨⟨.loop, v, v⟩, .inr (.inr ⟨rfl, ?_⟩), rfl, Int64.le_refl v, Int64.le_refl v⟩
      rw [hjoin]
      exact ⟨rfl, hlo, hhi⟩

end Options

/-- **The demonstration is exact.** Whatever the bound, the error value, the order, and whether
states are merged and all errors are looked for: no sum and no difference overflows, the run ends
without an abort, the intervals in the loop cover what the loop counts through, the error location
is published iff the loop gets to the error value, and the exit iff it does not. -/
theorem explore_exact (o : Options) :
    (∀ s, o.program.checkedSuccessors s = some (o.program.successors s)) ∧
    (explore o).1 = some (.ok
      ⟨.soundAndPrecise, if o.hit?.isSome && !o.allErrors then .halted else .exhausted⟩) ∧
    (∀ v, (∃ s ∈ (explore o).2.reached.states, s.loc = .loop ∧ s.lo ≤ v ∧ v ≤ s.hi) ↔
      0 ≤ v ∧ v ≤ o.peak) ∧
    (explore o).2.reached.states.filter (fun s => s.loc == .error) =
      o.hit?.toList.map (fun e => ⟨.error, e, e⟩) ∧
    (explore o).2.reached.states.filter (fun s => s.loc == .exit) =
      if o.hit?.isSome then [] else [⟨.exit, max 0 o.bound, max 0 o.bound⟩] := by
  obtain ⟨y, waits, hiterate, hshows⟩ := o.ends_initial
  have hrun := run_eq_iterate o.analysis (limit o) (initial o)
  rw [hiterate] at hrun
  obtain ⟨hresult, -, hreached, -⟩ := hrun
  have hshows' : (explore o).2.reached.Shows o.found waits := hreached ▸ hshows
  refine ⟨o.program.checkedSuccessors_eq, hresult, fun v => ?_, ?_, ?_⟩
  · simp only [hshows'.states]
    exact o.exists_mem_loop_iff v
  · rw [Options.filter_states (l := .error) hshows' nofun nofun]
    cases h : o.hit? with
    | none => rw [Options.ending_of_not_hit h]; rfl
    | some e => rw [Options.ending_of_hit h]; rfl
  · rw [Options.filter_states (l := .exit) hshows' nofun nofun]
    cases h : o.hit? with
    | none => rw [Options.ending_of_not_hit h, Options.peak_of_not_hit h]; rfl
    | some e => rw [Options.ending_of_hit h]; rfl

end Reachability.Counter
