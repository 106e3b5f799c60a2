import Reachability.Proofs.Operator
import Reachability.Scenario.Basic

/-! Coverage by the join depends on which candidates there are, not on how they are listed.

The join of a list is taken from the left, and lists with the same elements have joins that
need not be equal. Where the join of two elements is their least upper bound
(`Domain.Semilattice`), the join of a list is below whatever all its elements are below
(`exists_joinMany`), and this says all that coverage asks of it: a state is covered if
there are candidates and every common upper bound of them is above the state
(`covered_iff_entails`). Merges list the candidates anew all the time, and so it is no matter that
they do (`coverage_by_least_bound`). -/
namespace Reachability

variable {ω S P : Type}

/-- The order is a preorder, and the join of two elements is their least upper bound. -/
structure Domain.Semilattice (d : Domain Id S) : Prop where
  refl : ∀ a, d.Below a a
  trans : ∀ {a b c}, d.Below a b → d.Below b c → d.Below a c
  join_left : ∀ a b, d.Below a (d.join a b).run
  join_right : ∀ a b, d.Below b (d.join a b).run
  join_least : ∀ {a b c}, d.Below a c → d.Below b c → d.Below (d.join a b).run c

/-- There are candidates, and what is above all of them is above the state. -/
def Domain.Entails (d : Domain Id S) (candidates : List S) (s : S) : Prop :=
  candidates ≠ [] ∧ ∀ z, (∀ t ∈ candidates, d.Below t z) → d.Below s z

theorem Domain.Entails.mono {d : Domain Id S} {candidates others : List S} {s : S}
    (h : d.Entails candidates s) (hsub : candidates ⊆ others) : d.Entails others s := by
  obtain ⟨hsome, habove⟩ := h
  refine ⟨fun hnil => hsome ?_, fun z hz => habove z fun t ht => hz t (hsub ht)⟩
  rw [hnil] at hsub
  exact List.subset_nil.1 hsub

theorem Domain.Entails.of_below {d : Domain Id S} {candidates : List S} {s t : S}
    (htrans : ∀ {a b c}, d.Below a b → d.Below b c → d.Below a c) (ht : t ∈ candidates)
    (hst : d.Below s t) : d.Entails candidates s :=
  ⟨List.ne_nil_of_mem ht, fun _ hz => htrans hst (hz t ht)⟩

namespace Domain.Semilattice
variable {d : Domain Id S} (hd : d.Semilattice)
include hd

theorem join_below_iff {a b c : S} : d.Below (d.join a b).run c ↔ d.Below a c ∧ d.Below b c := by
  constructor
  · intro h
    exact ⟨hd.trans (hd.join_left a b) h, hd.trans (hd.join_right a b) h⟩
  · rintro ⟨ha, hb⟩
    exact hd.join_least ha hb

theorem foldl_join_below_iff (first : S) (rest : List S) (z : S) :
    d.Below (rest.foldl (fun x y => (d.join x y).run) first) z ↔ ∀ s ∈ first :: rest, d.Below s z := by
  induction rest generalizing first with
  | nil => simp
  | cons t rest ih =>
    rw [List.foldl_cons, ih, List.forall_mem_cons, hd.join_below_iff, and_assoc,
      List.forall_mem_cons, List.forall_mem_cons]

/-- The join of a list that is not empty is its least upper bound. -/
theorem exists_joinMany {states : List S} (hsome : states ≠ []) :
    ∃ all, (d.joinMany states).run = some all ∧ ∀ z, d.Below all z ↔ ∀ s ∈ states, d.Below s z := by
  cases states with
  | nil => exact absurd rfl hsome
  | cons first rest =>
    refine ⟨rest.foldl (fun x y => (d.join x y).run) first, run_joinMany_cons d first rest, ?_⟩
    exact hd.foldl_join_below_iff first rest

/-- A state is below the join if and only if it is below every upper bound. -/
theorem covered_iff_entails (s : S) (candidates : List S) (p : P) (w : ω) :
    ((Stop.join d.lift : Stop ω S P) s candidates p w).result = .ok true ↔
      d.Entails candidates s := by
  rw [Stop.join_lift_apply, Except.ok.injEq]
  by_cases hsome : candidates = []
  · subst hsome
    simp [joinMany, Entails]
  · obtain ⟨all, hall, hbound⟩ := hd.exists_joinMany hsome
    rw [hall]
    constructor
    · intro (hbelow : d.Below s all)
      exact ⟨hsome, fun z hz => hd.trans hbelow ((hbound z).2 hz)⟩
    · intro h
      exact h.2 all ((hbound all).1 (hd.refl all))

end Domain.Semilattice

/-- The answers of coverage by the join. -/
structure Stop.ByBound (ω P : Type) (d : Domain Id S) : Prop where
  /-- The join of a list is below whatever all its elements are below, and nothing else. -/
  bound : ∀ states, states ≠ [] → ∃ all, (d.joinMany states).run = some all ∧
    ∀ z, d.Below all z ↔ ∀ s ∈ states, d.Below s z
  /-- There is an answer, which nobody else is asked for. -/
  answers : ∀ s candidates (p : P) (w : ω), ∃ covered,
    (join d.lift : Stop ω S P) s candidates p w = ⟨.ok covered, w, none, 0⟩
  /-- Neither order nor repetition of the candidates matters. -/
  relisted : ∀ s candidates others (p q : P) (v w : ω), (∀ t, t ∈ candidates ↔ t ∈ others) →
    ((join d.lift : Stop ω S P) s candidates p v).result =
      ((join d.lift : Stop ω S P) s others q w).result
  /-- What is covered stays covered if candidates are added. -/
  mono : ∀ s candidates others (p q : P) (v w : ω), candidates ⊆ others →
    ((join d.lift : Stop ω S P) s candidates p v).result = .ok true →
      ((join d.lift : Stop ω S P) s others q w).result = .ok true
  /-- What a single candidate covers, their join does. -/
  of_separate : ∀ s candidates (p q : P) (v w : ω),
    ((separate d.toComparison.lift : Stop ω S P) s candidates p v).result = .ok true →
      ((join d.lift : Stop ω S P) s candidates q w).result = .ok true
  /-- Without candidates nothing is covered. -/
  nil : ∀ s (p : P) (w : ω), ((join d.lift : Stop ω S P) s [] p w).result = .ok false ∧
    ((separate d.toComparison.lift : Stop ω S P) s [] p w).result = .ok false

/-- **Where the join is the least upper bound, coverage by the join of the candidates** depends on
which they are only, and grows with them. -/
theorem coverage_by_least_bound {d : Domain Id S} (hd : d.Semilattice) : Stop.ByBound ω P d where
  bound states hsome := hd.exists_joinMany hsome
  answers s candidates p w := ⟨_, Stop.join_lift_apply d s candidates p w⟩
  relisted s candidates others p q v w hsame := by
    have hiff : ((Stop.join d.lift : Stop ω S P) s candidates p v).result = .ok true ↔
        ((Stop.join d.lift : Stop ω S P) s others q w).result = .ok true := by
      rw [hd.covered_iff_entails, hd.covered_iff_entails]
      constructor
      · intro h
        exact h.mono fun t ht => (hsame t).1 ht
      · intro h
        exact h.mono fun t ht => (hsame t).2 ht
    rw [Stop.join_lift_apply, Stop.join_lift_apply, Except.ok.injEq, Except.ok.injEq] at hiff
    rw [Stop.join_lift_apply, Stop.join_lift_apply]
    exact congrArg Except.ok (Bool.eq_iff_iff.2 hiff)
  mono s candidates others p q v w hsub hcovered :=
    (hd.covered_iff_entails s others q w).2
      (((hd.covered_iff_entails s candidates p v).1 hcovered).mono hsub)
  of_separate s candidates p q v w hcovered := by
    obtain ⟨t, ht, hst⟩ := (Stop.covered_iff_of_separate hcovered).1 rfl
    exact (hd.covered_iff_entails s candidates q w).2 (.of_below hd.trans ht hst)
  nil _ _ _ := ⟨rfl, rfl⟩

/-! Sets of bits. Points that differ in their locations or tags alone are below each other, and
so the joins of two lists with the same elements are not equal in general. -/
namespace Scenario.DomainKind

/-- No bits outside, if and only if every bit is inside. -/
theorem and_not_eq_zero_iff {a b : Int64} :
    a &&& ~~~b = 0 ↔ ∀ i, a.toBitVec.getLsbD i = true → b.toBitVec.getLsbD i = true := by
  rw [← Int64.toBitVec_inj]
  show a.toBitVec &&& ~~~b.toBitVec = 0#64 ↔ _
  constructor
  · intro h i hi
    have hbit := congrArg (fun v => v.getLsbD i) h
    have hlt : i < 64 := BitVec.lt_of_getLsbD hi
    simpa [hi, hlt] using hbit
  · intro h
    apply BitVec.eq_of_getLsbD_eq
    intro i hlt
    have hi := h i
    cases ha : a.toBitVec.getLsbD i <;> simp_all

theorem bits_below_iff {a b : Point} : bits.domain.Below a b ↔
    ∀ i, a.lo.toBitVec.getLsbD i = true → b.lo.toBitVec.getLsbD i = true := by
  rw [← and_not_eq_zero_iff]
  exact beq_iff_eq

theorem bits_semilattice : bits.domain.Semilattice := by
  have hjoin : ∀ (a b : Point) i, (bits.domain.join a b).run.lo.toBitVec.getLsbD i =
      (a.lo.toBitVec.getLsbD i || b.lo.toBitVec.getLsbD i) := fun a b i => by
    show (a.lo ||| b.lo).toBitVec.getLsbD i = _
    rw [Int64.toBitVec_or, BitVec.getLsbD_or]
  constructor
  · intro a
    exact bits_below_iff.2 fun i hi => hi
  · intro a b c hab hbc
    exact bits_below_iff.2 fun i hi => bits_below_iff.1 hbc i (bits_below_iff.1 hab i hi)
  · intro a b
    exact bits_below_iff.2 fun i hi => by rw [hjoin, hi, Bool.true_or]
  · intro a b
    exact bits_below_iff.2 fun i hi => by rw [hjoin, hi, Bool.or_true]
  · intro a b c hac hbc
    refine bits_below_iff.2 fun i hi => ?_
    rw [hjoin, Bool.or_eq_true] at hi
    exact hi.elim (bits_below_iff.1 hac i) (bits_below_iff.1 hbc i)

/-- Two candidates with one bit each cover both bits, in whatever order they are listed. -/
theorem bits_coverage :
    bits.domain.Semilattice ∧ Stop.ByBound Unit Unit bits.domain ∧
      ((Stop.join bits.domain.lift : Stop Unit Point Unit) ⟨7, 3, 0, ""⟩
        [⟨2, 2, 5, "b"⟩, ⟨1, 1, 0, "a"⟩, ⟨2, 2, 5, "b"⟩] () ()).result = .ok true := by
  have hbound : Stop.ByBound Unit Unit bits.domain := coverage_by_least_bound bits_semilattice
  have hcovered : ((Stop.join bits.domain.lift : Stop Unit Point Unit) ⟨7, 3, 0, ""⟩
      [⟨1, 1, 0, "a"⟩, ⟨2, 2, 5, "b"⟩] () ()).result = .ok true := rfl
  refine ⟨bits_semilattice, hbound, ?_⟩
  rw [← hcovered]
  exact hbound.relisted _ _ _ () () () () fun t => by grind

end Scenario.DomainKind
end Reachability
