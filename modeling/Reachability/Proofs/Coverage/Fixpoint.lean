import Mathlib.Logic.Relation
import Reachability.Proofs.Coverage.Closure

/-! What an exhausted run leaves behind covers everything reachable.

A seed is pending until the next run publishes it, and what was covered once stays
covered, through any number of merges and later runs. When a run is exhausted nothing
waits, so that what succeeds everything published is covered: the reached set is a
fixpoint. If larger states have larger successors, then coverage is passed on along every
chain of transfers. -/
namespace Reachability
variable {S P α : Type} [AbstractState S]

/-- Can be reached from a seed by a chain of transfers, under whatever precisions. -/
def Reachable (succ : S → P → S → Prop) (seeds : List (S × P)) (t : S) : Prop :=
  ∃ x ∈ seeds, Relation.ReflTransGen (fun s t => ∃ p, succ s p t) x.1 t

/-- The seeds and the successors of everything published are covered. -/
structure Reached.Fixpoint (le : S → S → Prop) (succ : S → P → S → Prop) (seeds : List (S × P))
    (r : Reached S P Frontier) : Prop where
  seeded : ∀ x ∈ seeds, r.Covers le x.1
  expanded : ∀ h s p, r.get? h = some (s, p) → ∀ t, succ s p t → r.Covers le t

/-- A fixpoint covers what is reachable if larger states have larger successors. -/
theorem Reached.Fixpoint.covers [BEq S] {le : S → S → Prop} {succ : S → P → S → Prop}
    {seeds : List (S × P)} {r : Reached S P Frontier} (hr : r.Fixpoint le succ seeds)
    (hle : Subsumption le)
    (hmono : ∀ s t p q, le s t → ∀ u, succ s p u → ∃ v, succ t q v ∧ le u v) {t : S}
    (ht : Reachable succ seeds t) : r.Covers le t := by
  obtain ⟨x, hx, hchain⟩ := ht
  induction hchain with
  | refl => exact hr.seeded x hx
  | tail _ hnext ih =>
    obtain ⟨p, hsucc⟩ := hnext
    obtain ⟨u, hu, hbelow⟩ := ih
    -- Some pair publishes what covers the last state; its successors are covered.
    obtain ⟨h, q, hpair⟩ := mem_states_iff_get?.1 hu
    obtain ⟨v, hv, habove⟩ := hmono _ _ p q hbelow _ hsucc
    exact (hr.expanded h u q hpair v hv).of_le hle habove

variable [BEq S] [BEq P] [PartialEquivBEq S]

/-! ### Along histories -/

section Faithful
variable {le : α → S → Prop} {succ : S → P → α → Prop}

theorem Reached.covers_drain (hle : Respects le) {r : Reached S P Frontier} {s : S × P} {x : α}
    (hx : le x s.1) (hs : s ∈ r.seeds ∨ r.Covers le x) : r.drain.Covers le x := by
  rcases hs with hs | hs
  · exact covers_addAll hle hs hx _
  · exact (advances_addAll le r.seeds _).covers x hs

section Runs
variable {ω : Type} {a : Analysis ω S P Frontier} {r r' : Reached S P Frontier}

/-- Whatever fails, no iteration uncovers anything. -/
theorem Analysis.Faithful.keeps (hle : Respects le) (ha : a.Faithful le) (x : α) :
    a.Keeps (fun _ => True) fun r => r.Consistent ∧ r.Covers le x where
  cover := ha.cover
  pop hr e := by
    obtain ⟨t, ht, hxt⟩ := hr.2
    exact ⟨hr.1.of_pop e, t, (Reached.mem_states_of_pop e).2 ht, hxt⟩
  enqueue h hr := ⟨hr.1.enqueue h, (Reached.advances_enqueue le _ h).covers x hr.2⟩
  transfer _ _ _ _ _ := trivial
  treat _ hr ht := ⟨ht.evolves.consistent hr.1, (ht.advances hle ha hr.1).1.covers x hr.2⟩

omit [PartialEquivBEq S] in
/-- When a run is exhausted, nothing waits. -/
theorem Effect.Iterated.idle (hr : r.Consistent) {result : Except Abort Termination}
    (h : Iterated a r result r') (hresult : result = .ok .exhausted) :
    r'.waitlist.toList = [] := by
  induction h with
  | ended step =>
    cases step with
    | exhausted idle => exact Reached.Consistent.not_hasWaiting_iff.1 idle
    | interrupted => cases hresult
    | drained popped =>
      obtain ⟨hnil, rfl⟩ := hr.toList_eq_nil_of_pop_eq_none popped
      exact hnil
    | halted popped expansion => cases hresult
    | abandoned popped expansion => cases hresult
  | more step rest ih => exact ih (step.evolves.consistent hr) hresult

end Runs

variable {admits : (ω : Type) → Analysis ω S P Frontier → Prop} {origin r : Reached S P Frontier}
  {seeds : List (S × P)}

/-- A run covers what is pending and what was covered. -/
theorem Exploration.covers_of_run {ω : Type} {a : Analysis ω S P Frontier} {limit : Nat}
    {x y : Exploration ω S P Frontier} {result : Except Abort Outcome} (hle : Respects le)
    (ha : a.Faithful le) (hx : x.reached.Consistent) (ended : x.run a limit = (some result, y))
    {s : S × P} {z : α} (hz : le z s.1) (hs : s ∈ x.reached.seeds ∨ x.reached.Covers le z) :
    y.reached.Covers le z :=
  (preserves_of_run (ha.keeps hle z) ended ⟨hx.drain, Reached.covers_drain hle hz hs⟩).2

/-- What a seed stands for that was ever scheduled is pending or covered. -/
theorem History.accounts (hle : Respects le)
    (hadmits : ∀ ω (a : Analysis ω S P Frontier), admits ω a → a.Faithful le)
    (horigin : origin.Consistent) (h : History admits origin seeds r) :
    ∀ s ∈ origin.seeds ++ seeds, ∀ x, le x s.1 → s ∈ r.seeds ∨ r.Covers le x := by
  induction h with
  | start =>
    intro s hs x hx
    rw [List.append_nil] at hs
    exact .inl hs
  | schedule before s p ih =>
    intro t ht x hx
    rw [← List.append_assoc, List.mem_append] at ht
    rcases ht with ht | ht
    · exact (ih t ht x hx).imp_left fun ht => List.mem_append_left _ ht
    · exact .inl (List.mem_append_right _ ht)
  | run before admitted ended ih =>
    intro s hs x hx
    have hconsistent := before.consistent horigin
    exact .inr (Exploration.covers_of_run hle (hadmits _ _ admitted) hconsistent ended hx
      (ih s hs x hx))

omit [PartialEquivBEq S] in
theorem Exhausted.history (h : Exhausted admits origin seeds r) : History admits origin seeds r := by
  obtain ⟨before, admitted, ended, -⟩ := h
  exact .run before admitted ended

omit [PartialEquivBEq S] in
theorem Exhausted.idle (horigin : origin.Consistent) (h : Exhausted admits origin seeds r) :
    r.waitlist.toList = [] := by
  obtain ⟨before, admitted, ended, exhausted⟩ := h
  obtain ⟨t, hiterated, hresult⟩ := Exploration.run_effect _ ended
  refine hiterated.idle (before.consistent horigin).drain ?_
  cases t with
  | error e => cases hresult
  | ok t =>
    cases hresult
    rw [← exhausted]

/-- Once a run was exhausted, what the seeds stand for is covered. -/
theorem Exhausted.covers_seed (hle : Respects le)
    (hadmits : ∀ ω (a : Analysis ω S P Frontier), admits ω a → a.Faithful le)
    (hconsistent : origin.Consistent) (h : Exhausted admits origin seeds r) {s : S × P}
    (hs : s ∈ origin.seeds ++ seeds) {x : α} (hx : le x s.1) : r.Covers le x := by
  obtain ⟨before, admitted, ended, -⟩ := h
  have haccounts := before.accounts hle hadmits hconsistent s hs x hx
  exact Exploration.covers_of_run hle (hadmits _ _ admitted) (before.consistent hconsistent)
    ended hx haccounts

/-- Once a run was exhausted, what succeeds a published pair is covered. -/
theorem Exhausted.covers_succ (hle : Respects le)
    (hadmits : ∀ ω (a : Analysis ω S P Frontier), admits ω a →
      a.Faithful le ∧ a.Represents le succ)
    (hconsistent : origin.Consistent) (hclosed : origin.Closed le succ)
    (h : Exhausted admits origin seeds r) {g : Handle} {s : S} {p : P}
    (pair : r.get? g = some (s, p)) {x : α} (hx : succ s p x) : r.Covers le x := by
  obtain ⟨waiting, hentry⟩ := Reached.get?_eq_some_iff.1 pair
  have hrests := (h.history.consistent hconsistent).not_waiting_of_toList_eq_nil
    (h.idle hconsistent) hentry
  simp only at hrests
  subst hrests
  exact h.history.closed_of_faithful hle hadmits hconsistent hclosed g s p hentry x hx

end Faithful

variable {le : S → S → Prop} {succ : S → P → S → Prop}
  {admits : (ω : Type) → Analysis ω S P Frontier → Prop} {origin r : Reached S P Frontier}
  {seeds : List (S × P)}

/-- Once a run was exhausted, the reached set is a fixpoint. -/
theorem Exhausted.fixpoint (hle : Subsumption le)
    (hadmits : ∀ ω (a : Analysis ω S P Frontier), admits ω a →
      a.Conservative le ∧ a.Represents le succ)
    (hconsistent : origin.Consistent) (hclosed : origin.Closed le succ)
    (h : Exhausted admits origin seeds r) : r.Fixpoint le succ (origin.seeds ++ seeds) where
  seeded s hs := h.covers_seed hle.respects (fun ω a ha => (hadmits ω a ha).1.faithful hle)
    hconsistent hs (hle.refl s.1)
  expanded _ _ _ pair _ ht := h.covers_succ hle.respects
    (fun ω a ha => ⟨(hadmits ω a ha).1.faithful hle, (hadmits ω a ha).2⟩) hconsistent hclosed
    pair ht

/-- **An exhausted run covers everything reachable** from the seeds, those of earlier runs
included, if larger states have larger successors. The earlier runs may have ended in
whatever way. -/
theorem exists_covering_of_reachable (hle : Subsumption le)
    {successors : S → P → List (S × P)}
    (hmono : ∀ s t p q, le s t → ∀ x ∈ successors s p, ∃ y ∈ successors t q, le x.1 y.1)
    {o : TraversalOrder}
    (hr : Exhausted (fun _ a => a.Computes successors ∧ a.Conservative le) (.ofOrder o) seeds r)
    {t : S} (ht : Reachable (Succeeds successors) seeds t) : ∃ u ∈ r.states, le t u := by
  have hfixpoint : r.Fixpoint le (Succeeds successors) ([] ++ seeds) :=
    hr.fixpoint hle (fun ω a ha => ⟨ha.2, ha.1.represents hle.refl⟩) (.ofOrder o)
      (Reached.closed_ofOrder o)
  refine hfixpoint.covers hle (fun s t p q hst u hu => ?_) ht
  obtain ⟨p', hp'⟩ := hu
  obtain ⟨⟨v, q'⟩, hv, huv⟩ := hmono s t p q hst (u, p') hp'
  exact ⟨v, ⟨q', hv⟩, huv⟩

/-! The demonstration again, counting to one: a first run is interrupted at once, and a
second one resumes it. -/
namespace Counter

def once : Options :=
  { bound := 1, join := true }

def interrupted : State :=
  (Exploration.run (analysis ⟨1, none⟩ true true) 5
    {initial once with shutdown := (({} : Shutdown).request "pause").2}).2

def resumed : State :=
  (Exploration.run (analysis ⟨1, none⟩ true true) 20 {interrupted with shutdown := {}}).2

theorem resumed_covers_exit :
    ∃ u ∈ resumed.reached.states, Interval.domain.Below ⟨.exit, 1, 1⟩ u := by
  have hinterrupted : History
      (fun _ a => a.Computes (edges ⟨1, none⟩) ∧ a.Conservative Interval.domain.Below)
      (.ofOrder .breadthFirst) [(seed, ())] interrupted.reached :=
    .ran (.schedule .start seed ()) ⟨analysis_computes _ _ _, analysis_conservative _ _ _⟩
      (by decide +kernel)
  have hresumed : Exhausted
      (fun _ a => a.Computes (edges ⟨1, none⟩) ∧ a.Conservative Interval.domain.Below)
      (.ofOrder .breadthFirst) [(seed, ())] resumed.reached :=
    .ran hinterrupted ⟨analysis_computes _ _ _, analysis_conservative _ _ _⟩ (by decide +kernel)
  have hmono : ∀ (s t : Interval) (p q : Unit), Interval.domain.Below s t →
      ∀ x ∈ edges ⟨1, none⟩ s p, ∃ y ∈ edges ⟨1, none⟩ t q, Interval.domain.Below x.1 y.1 := by
    intro s t p q hst x hx
    obtain ⟨u, hu, rfl⟩ := List.mem_map.1 hx
    obtain ⟨v, hv, huv⟩ := Program.successors_mono rfl hst hu
    exact ⟨(v, q), List.mem_map.2 ⟨v, hv, rfl⟩, huv⟩
  have hloop : Reachable (Succeeds (edges ⟨1, none⟩)) [(seed, ())] ⟨.exit, 1, 1⟩ := by
    refine ⟨_, List.mem_singleton_self _, ?_⟩
    refine .head (b := ⟨.loop, 0, 0⟩) ⟨(), (), by decide +kernel⟩ ?_
    refine .head (b := ⟨.loop, 1, 1⟩) ⟨(), (), by decide +kernel⟩ ?_
    exact .single ⟨(), (), by decide +kernel⟩
  exact exists_covering_of_reachable Interval.subsumption hmono hresumed hloop

end Counter
end Reachability
