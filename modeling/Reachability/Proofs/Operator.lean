import Reachability.Analysis

/-! What the operators that come with the library answer, when the domain consists of
plain functions.

Most of what is known of merging by the join depends on the answers alone. An operator with these
answers (`Merge.Joins`) may also fail, remember what it was asked, or request a shutdown in the
middle of a merge. -/
namespace Reachability

variable {ω S P R : Type}

/-- Covered is what a single reached state is above. -/
theorem Stop.covered_iff_of_separate {c : Comparison Id S} {s : S} {reached : List S} {p : P} {w : ω}
    {covered : Bool} (h : (separate c.lift s reached p w).result = .ok covered) :
    covered = true ↔ ∃ t ∈ reached, c.Below s t := by
  rw [separate_lift_apply, Except.ok.injEq] at h
  rw [← h]
  exact List.any_eq_true

/-- Joining plain states asks nobody. -/
theorem Domain.joinMany_lift_apply (d : Domain Id S) (states : List S) (w : ω) :
    (d.lift : Domain (Ask ω) S).joinMany states w = ⟨.ok (d.joinMany states).run, w, none, 0⟩ := by
  cases states with
  | nil => rfl
  | cons first rest =>
    have hfold : ((rest.foldlM (d.lift : Domain (Ask ω) S).join first : Ask ω S) w) =
        ⟨.ok (rest.foldl (fun x y => (d.join x y).run) first), w, none, 0⟩ := by
      induction rest generalizing first with
      | nil => rfl
      | cons t rest ih =>
        rw [List.foldlM_cons]
        show (Bind.bind _ _ : Ask ω S) w = _
        have hjoin : (d.lift : Domain (Ask ω) S).join first t w =
            ⟨.ok (d.join first t).run, w, none, 0⟩ := rfl
        rw [Ask.bind_apply, hjoin]
        simp [ih]
    rw [run_joinMany_cons]
    show (Bind.bind (rest.foldlM (d.lift : Domain (Ask ω) S).join first) _ : Ask ω (Option S)) w = _
    rw [Ask.bind_apply, hfold]
    rfl

/-- What coverage by the join answers when the domain consists of plain functions. -/
theorem Stop.join_lift_apply (d : Domain Id S) (s : S) (reached : List S) (p : P) (w : ω) :
    (join d.lift : Stop ω S P) s reached p w =
      ⟨.ok (match (d.joinMany reached).run with
        | some all => (d.le s all).run
        | none => false), w, none, 0⟩ := by
  show (Bind.bind ((d.lift : Domain (Ask ω) S).joinMany reached) _ : Ask ω Bool) w = _
  rw [Ask.bind_apply, Domain.joinMany_lift_apply]
  cases (d.joinMany reached).run <;> rfl

/-- Only what is below the join of all is covered by it. -/
theorem Stop.below_of_join {d : Domain Id S} {s : S} {reached : List S} {p : P} {w : ω}
    (h : (join d.lift s reached p w).result = .ok true) :
    ∃ all, (d.joinMany reached).run = some all ∧ d.Below s all := by
  rw [join_lift_apply] at h
  cases hall : (d.joinMany reached).run with
  | none =>
    rw [hall] at h
    cases h
  | some all =>
    rw [hall] at h
    exact ⟨all, rfl, Except.ok.inj h⟩

theorem Merge.result_join (d : Domain Id S) (s old : S) (p : P) (w : ω) :
    ((join d.lift).merge s old p w).result =
      .ok (if d.Below s old then old else (d.join s old).run) := by
  rw [join_lift_apply]

/-- The answers are those of merging by the join. -/
def Merge.Joins (d : Domain Id S) (m : Merge ω S P) : Prop :=
  ∀ ⦃s old : S⦄ ⦃p : P⦄ ⦃w : ω⦄ ⦃new : S⦄, (m.merge s old p w).result = .ok new →
    new = if d.Below s old then old else (d.join s old).run

theorem Merge.joins_join (d : Domain Id S) : (join d.lift : Merge ω S P).Joins d := by
  intro s old p w new hnew
  rw [result_join, Except.ok.injEq] at hnew
  exact hnew.symm

namespace Merge.Joins
variable {d : Domain Id S} {m : Merge ω S P} {s old new : S} {p : P} {w : ω}

/-- Whatever else it is, an upper bound is above. -/
theorem below (hm : m.Joins d) (hrefl : ∀ s, d.Below s s) (hupper : d.Below old (d.join s old).run)
    (hnew : (m.merge s old p w).result = .ok new) : d.Below old new := by
  rw [hm hnew]
  split
  · exact hrefl old
  · exact hupper

/-- What a successor is merged into covers it. -/
theorem covered (hm : m.Joins d) (hupper : d.Below s (d.join s old).run)
    (hnew : (m.merge s old p w).result = .ok new) : d.Below s new := by
  rw [hm hnew]
  split
  · assumption
  · exact hupper

/-- What is done first is of no account. -/
theorem after (hm : m.Joins d) (first : Ask ω Unit) (separates : Bool) :
    Joins d { merge := fun s old p => do first; m.merge s old p, separates } := by
  intro s old p w new hnew
  simp only [Ask.bind_apply] at hnew
  cases hfirst : (first w).result with
  | error e =>
    rw [hfirst] at hnew
    cases hnew
  | ok =>
    rw [hfirst] at hnew
    exact hm hnew

end Merge.Joins

/-- Merging by the join, coverage by a single state, and no forced covering, as far as the answers
show it. -/
structure Analysis.JoinMerging {W : Type} [AbstractState S] (d : Domain Id S)
    (a : Analysis ω S P W) : Prop where
  joins : a.merge.separates = false
  merge : a.merge.Joins d
  stop : ∀ {s : S} {reached : List S} {p : P} {w : ω} {covered : Bool},
    (a.stop s reached p w).result = .ok covered →
      (covered = true ↔ ∃ t ∈ reached, d.Below s t)
  cover : a.cover = none

/-- The operators that come with the library for this. -/
theorem Analysis.joinMerging_of_join {W : Type} [AbstractState S] {d : Domain Id S}
    {a : Analysis ω S P W} (hmerge : a.merge = .join d.lift)
    (hstop : a.stop = .separate d.toComparison.lift) (hcover : a.cover = none) :
    a.JoinMerging d where
  joins := by
    rw [hmerge]
    rfl
  merge := by
    rw [hmerge]
    exact Merge.joins_join d
  stop := by
    intro s reached p w covered h
    rw [hstop] at h
    exact Stop.covered_iff_of_separate h
  cover := hcover

/-- Halting at targets leaves the state as the inner adjustment made it. -/
theorem Adjustment.result_haltOnTarget [AbstractState S] {inner : Adjustment ω S P R} {s : S} {p : P}
    {r : R} {w : ω} {adjusted : Option (Adjusted S P)}
    (h : (haltOnTarget inner s p r w).result = .ok adjusted) :
    ∃ x, (inner s p r w).result = .ok x ∧ adjusted.map Adjusted.state = x.map Adjusted.state := by
  unfold haltOnTarget at h
  rw [Ask.bind_apply] at h
  cases hinner : (inner s p r w).result with
  | error e =>
    rw [hinner] at h
    cases h
  | ok x =>
    refine ⟨x, rfl, ?_⟩
    rw [hinner] at h
    cases x with
    | none =>
      cases h
      rfl
    | some x =>
      simp only at h
      split at h <;> cases h <;> rfl

end Reachability
