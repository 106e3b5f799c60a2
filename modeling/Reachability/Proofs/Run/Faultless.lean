import Reachability.Proofs.Run.Lasting

/-! Runs in which nothing goes wrong.

If every operator answers whatever it is asked, and none requests a shutdown, then nothing can
abandon a run: no iteration fails (`Quiet.step`), as long as no shutdown was requested before. -/
namespace Reachability

variable {ω S P W α : Type}

/-- A call that was answered, and during which no shutdown was requested. -/
structure Reply.Fine (r : Reply ω α) : Prop where
  answers : ∃ v, r.result = .ok v
  unrequested : r.request = none

theorem Ask.fine_pure (v : α) (w : ω) : ((pure v : Ask ω α) w).Fine :=
  ⟨⟨v, rfl⟩, rfl⟩

theorem Merge.fine_join (d : Domain Id S) (s old : S) (p : P) (w : ω) :
    ((join d.lift).merge s old p w).Fine := by
  rw [join_lift_apply]
  exact ⟨⟨_, rfl⟩, rfl⟩

theorem Stop.fine_separate (c : Comparison Id S) (s : S) (reached : List S) (p : P) (w : ω) :
    (separate c.lift s reached p w).Fine := by
  rw [separate_lift_apply]
  exact ⟨⟨_, rfl⟩, rfl⟩

variable [AbstractState S]

/-- Operators that always answer and never request a shutdown. -/
structure Analysis.Faultless (a : Analysis ω S P W) : Prop where
  transfer : ∀ s p w, (a.transfer s p w).Fine
  merge : ∀ s old p w, (a.merge.merge s old p w).Fine
  stop : ∀ s reached p w, (a.stop s reached p w).Fine
  adjust : ∀ s p r w, (a.adjust s p r w).Fine
  cover : ∀ c, a.cover = some c → ∀ s p r w, (c.attempt s p r w).reply.Fine

namespace Exploration

/-- No shutdown was requested so far. -/
def Quiet (x : Exploration ω S P W) : Prop :=
  x.shutdown.requested = false

/-- A part of a run after which the run goes on or halts, and no shutdown is requested. -/
def Smooth (part : Flow × Exploration ω S P W) : Prop :=
  (part.1 = .onward ∨ part.1 = .halt) ∧ part.2.Quiet

theorem Quiet.absorb {x : Exploration ω S P W} (hx : x.Quiet) {r : Reply ω α} (hr : r.Fine) :
    (x.absorb r).Quiet := by
  have hrequested := requested_absorb x r
  rwa [hx, hr.unrequested] at hrequested

theorem Quiet.timed_ask {x : Exploration ω S P W} (hx : x.Quiet) (p : Phase)
    (question : Reached S P W → Ask ω α) (hq : ∀ r w, (question r w).Fine) :
    ∃ v y, x.timed p (fun x => x.ask (question x.reached)) = (.ok v, y) ∧ y.Quiet := by
  have hfine := hq x.reached x.memory
  obtain ⟨v, hv⟩ := hfine.answers
  exact ⟨v, _, Prod.ext hv rfl, Quiet.absorb (x := x.start p) hx hfine⟩

variable [Waitlist W] [BEq S] [BEq P] {a : Analysis ω S P W} {x : Exploration ω S P W}

/-! ### Successors -/

omit [Waitlist W] [BEq S] [BEq P] in
theorem Quiet.isCovered (hx : x.Quiet) (ha : a.Faultless) (s : S) (p : P) :
    ∃ covered y, Exploration.isCovered a s p x = (.ok covered, y) ∧ y.Quiet :=
  hx.timed_ask .stop (fun r => a.stop s (r.statesAt s) p) fun r w => ha.stop s (r.statesAt s) p w

theorem Quiet.settle (hx : x.Quiet) (ha : a.Faultless) (s : S) (p : P) :
    Smooth (Exploration.settle a s p x) := by
  obtain ⟨covered, y, hasked, hy⟩ := hx.isCovered ha s p
  unfold Exploration.settle
  rw [hasked]
  cases covered <;> exact ⟨.inl rfl, hy⟩

theorem Quiet.settleHalt (hx : x.Quiet) (ha : a.Faultless) (s : S) (p : P) :
    Smooth (Exploration.settleHalt a s p x) := by
  obtain ⟨covered, y, hasked, hy⟩ := hx.isCovered ha s p
  unfold Exploration.settleHalt
  rw [hasked]
  cases covered with
  | true => exact ⟨.inl rfl, hy⟩
  | false => exact ⟨.inr rfl, hy⟩

omit [Waitlist W] [BEq P] in
theorem Quiet.scan (hx : x.Quiet) (ha : a.Faultless) (s : S) (p : P) (candidates : List Handle) :
    (Exploration.scan a s p candidates x).abort = none ∧
      (Exploration.scan a s p candidates x).after.Quiet := by
  induction candidates generalizing x with
  | nil => exact ⟨rfl, hx⟩
  | cons h rest ih =>
    unfold Exploration.scan
    rw [if_neg (Bool.eq_false_iff.1 hx)]
    cases x.reached.state? h with
    | none => exact ih hx
    | some old =>
      have hfine := ha.merge s old p x.memory
      obtain ⟨new, hnew⟩ := hfine.answers
      have hasked : x.ask (a.merge.merge s old p) =
          (.ok new, x.absorb (a.merge.merge s old p x.memory)) := Prod.ext hnew rfl
      simp only [hasked]
      split
      · exact ih (Quiet.absorb hx hfine)
      · exact ih (Quiet.absorb hx hfine)

theorem Quiet.mergeInto (hx : x.Quiet) (ha : a.Faultless) (s : S) (p : P) :
    (Exploration.mergeInto a s p x).1 = none ∧ (Exploration.mergeInto a s p x).2.Quiet := by
  unfold Exploration.mergeInto
  simp only
  split
  · exact ⟨rfl, hx⟩
  · obtain ⟨habort, hafter⟩ := scan
      (x := (x.note (.considering (x.reached.handlesAt s).length)).start .merge) hx ha s p
      (x.reached.handlesAt s)
    refine ⟨habort, ?_⟩
    unfold replace
    split
    · exact hafter
    · exact hafter

theorem Quiet.mergeAndSettle (hx : x.Quiet) (ha : a.Faultless) (s : S) (p : P) :
    Smooth (Exploration.mergeAndSettle a s p x) := by
  obtain ⟨hnone, hmerged⟩ := hx.mergeInto ha s p
  unfold Exploration.mergeAndSettle
  split
  · exact hx.settle ha s p
  · generalize Exploration.mergeInto a s p x = merged at hnone hmerged
    obtain ⟨abort, y⟩ := merged
    cases hnone
    exact Quiet.settle hmerged ha s p

theorem Quiet.handleSuccessor (hx : x.Quiet) (ha : a.Faultless) (source s : S) (p : P) :
    Smooth (Exploration.handleSuccessor a source s p x) := by
  obtain ⟨adjusted, y, hasked, hy⟩ := Quiet.timed_ask (x := x.note (.successor source s)) hx .adjust
    (fun r => a.adjust s p r) fun r w => ha.adjust s p r w
  have hasked' : askAdjust a source s p x = (.ok adjusted, y) := hasked
  rw [handleSuccessor_eq, if_neg (Bool.eq_false_iff.1 hx), hasked']
  match adjusted with
  | none => exact ⟨.inl rfl, hy⟩
  | some ⟨t, q, .halt⟩ => exact hy.settleHalt ha t q
  | some ⟨t, q, .proceed⟩ => exact hy.mergeAndSettle ha t q

theorem Quiet.handleSuccessors (hx : x.Quiet) (ha : a.Faultless) (h : Handle) (source : S)
    (successors : List (S × P)) :
    Smooth (Exploration.handleSuccessors a h source successors x) := by
  induction successors generalizing x with
  | nil => exact ⟨.inl rfl, hx⟩
  | cons pair rest ih =>
    obtain ⟨hflow, hfirst⟩ := hx.handleSuccessor ha source pair.1 pair.2
    unfold Exploration.handleSuccessors
    generalize Exploration.handleSuccessor a source pair.1 pair.2 x = handled at hflow hfirst ⊢
    obtain ⟨flow, y⟩ := handled
    rcases hflow with rfl | rfl
    · exact ih hfirst
    · cases rest <;> exact ⟨.inr rfl, hfirst⟩

/-! ### Expansions -/

theorem Quiet.forceCover (hx : x.Quiet) (ha : a.Faultless) (s : S) (p : P) :
    ∃ covered y, Exploration.forceCover a s p x = (.ok covered, y) ∧ y.Quiet := by
  unfold Exploration.forceCover
  cases hcover : a.cover with
  | none => exact ⟨false, x, rfl, hx⟩
  | some c =>
    have hfine := ha.cover c hcover s p x.reached x.memory
    obtain ⟨covered, hcovered⟩ := hfine.answers
    have happlied : ∀ (ops : List (Operation S P)) (y : Exploration ω S P W), y.Quiet →
        (ops.foldl apply y).Quiet := fun ops => by
      induction ops with
      | nil => exact fun _ hy => hy
      | cons op rest ih => exact fun y hy => ih (y.apply op) hy
    exact ⟨covered, _, Prod.ext hcovered rfl,
      happlied _ _ (Quiet.absorb (x := x.start .cover) hx hfine)⟩

theorem Quiet.expandBy (hx : x.Quiet) (ha : a.Faultless) (h : Handle) (s : S) (p : P) :
    Smooth (Exploration.expandBy a h s p x) := by
  obtain ⟨successors, y, hasked, hy⟩ := hx.timed_ask .transfer
    (fun _ => a.transfer s p) fun _ w => ha.transfer s p w
  unfold Exploration.expandBy
  rw [hasked]
  refine handleSuccessors ?_ ha h s successors
  exact hy

theorem Quiet.expand (hx : x.Quiet) (ha : a.Faultless) (h : Handle) :
    Smooth (Exploration.expand a h x) := by
  unfold Exploration.expand
  cases x.reached.get? h with
  | none => exact ⟨.inl rfl, hx⟩
  | some pair =>
    obtain ⟨s, p⟩ := pair
    obtain ⟨covered, y, hasked, hy⟩ := forceCover (x := x.note (.expanding s p)) hx ha s p
    simp only [hasked]
    cases covered with
    | true => exact ⟨.inl rfl, hy⟩
    | false => exact hy.expandBy ha h s p

/-- An iteration does not fail. -/
theorem Quiet.step (hx : x.Quiet) (ha : a.Faultless) :
    (∀ e, (Exploration.step a x).1 ≠ some (.error e)) ∧ (Exploration.step a x).2.Quiet := by
  rw [step_eq]
  split
  · exact ⟨nofun, hx⟩
  · rw [if_neg (Bool.eq_false_iff.1 hx)]
    have hpopped : (popNext x).2.Quiet := hx
    generalize popNext x = popped at hpopped ⊢
    obtain ⟨h, y⟩ := popped
    cases h with
    | none => exact ⟨nofun, hpopped⟩
    | some h =>
      obtain ⟨hflow, hexpanded⟩ := expand (x := y.note (.retrieved h)) hpopped ha h
      simp only
      generalize Exploration.expand a h (y.note (.retrieved h)) = expanded at hflow hexpanded ⊢
      obtain ⟨flow, z⟩ := expanded
      rcases hflow with rfl | rfl
      · exact ⟨nofun, hexpanded⟩
      · exact ⟨nofun, hexpanded⟩

end Exploration
end Reachability
