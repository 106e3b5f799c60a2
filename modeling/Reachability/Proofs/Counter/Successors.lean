import Reachability.Proofs.Counter.Interval

/-! What the demonstration counts up to, and how.

The error location is hit if the error value lies between one and the bound; then the loop is left
just before it, and else at the bound, or at zero if the bound is negative (`peak`). As long as an
interval in the loop ends below the peak, its only successor is the interval after it. At the peak
the error location, or the exit, is reached. None of the sums and differences on the way can
overflow: each is guarded by a comparison that leaves room for it. -/
namespace Reachability.Counter

/-! ### Arithmetic -/

/-- The sum, if it fits a word. -/
def checkedAdd (a b : Int64) : Option Int64 :=
  if a.toBitVec.saddOverflow b.toBitVec then none else some (a + b)

/-- The difference, if it fits a word. -/
def checkedSub (a b : Int64) : Option Int64 :=
  if a.toBitVec.ssubOverflow b.toBitVec then none else some (a - b)

/-- Below something there is room for one more. -/
theorem checkedAdd_one {a b : Int64} (h : a < b) : checkedAdd a 1 = some (a + 1) := by
  have hlt : a.toInt < b.toInt := Int64.lt_iff_toInt_lt.1 h
  have hb : b.toInt < 2 ^ 63 := b.toInt_lt
  have ha : -2 ^ 63 ≤ a.toInt := a.le_toInt
  have hfits : a.toBitVec.saddOverflow (1 : Int64).toBitVec = false := by
    have hone : (1 : Int64).toBitVec.toInt = 1 := rfl
    have htoInt : a.toBitVec.toInt = a.toInt := rfl
    simp only [BitVec.saddOverflow, hone, htoInt, Bool.or_eq_false_iff, decide_eq_false_iff_not]
    omega
  rw [checkedAdd, hfits]
  rfl

theorem toInt_add_one {a b : Int64} (h : a < b) : (a + 1).toInt = a.toInt + 1 := by
  have hlt : a.toInt < b.toInt := Int64.lt_iff_toInt_lt.1 h
  have hb : b.toInt < 2 ^ 63 := b.toInt_lt
  have ha : -2 ^ 63 ≤ a.toInt := a.le_toInt
  have hone : (1 : Int64).toInt = 1 := rfl
  rw [Int64.toInt_add, hone]
  exact Int.bmod_eq_of_le (by omega) (by omega)

/-- Above something there is room for one less. -/
theorem checkedSub_one {a b : Int64} (h : a < b) : checkedSub b 1 = some (b - 1) := by
  have hlt : a.toInt < b.toInt := Int64.lt_iff_toInt_lt.1 h
  have hb : b.toInt < 2 ^ 63 := b.toInt_lt
  have ha : -2 ^ 63 ≤ a.toInt := a.le_toInt
  have hfits : b.toBitVec.ssubOverflow (1 : Int64).toBitVec = false := by
    have hone : (1 : Int64).toBitVec.toInt = 1 := rfl
    have htoInt : b.toBitVec.toInt = b.toInt := rfl
    simp only [BitVec.ssubOverflow, hone, htoInt, Bool.or_eq_false_iff, decide_eq_false_iff_not]
    omega
  rw [checkedSub, hfits]
  rfl

theorem min_eq_ite (a b : Int64) : min a b = if a ≤ b then a else b := rfl

theorem max_eq_ite (a b : Int64) : max a b = if a ≤ b then b else a := rfl

namespace Program

/-- `countUp`, giving up if a sum or difference overflows. -/
def checkedCountUp (error : Option Int64) (lo hi : Int64) : Option (List Interval) :=
  match error with
  | some e =>
    if lo ≤ e && e ≤ hi then do
      let before ← (if lo < e then (checkedSub e 1).map fun x => [⟨.loop, lo, x⟩] else some [])
      let after ← (if e < hi then (checkedAdd e 1).map fun x => [⟨.loop, x, hi⟩] else some [])
      some ([⟨.error, e, e⟩] ++ before ++ after)
    else some [⟨.loop, lo, hi⟩]
  | none => some [⟨.loop, lo, hi⟩]

/-- `successors`, giving up if a sum or difference overflows. -/
def checkedSuccessors (prog : Program) (s : Interval) : Option (List Interval) :=
  match s.loc with
  | .start => some [⟨.loop, 0, 0⟩]
  | .loop => do
    let counted ←
      (if s.lo < prog.bound then do
        let lo ← checkedAdd s.lo 1
        let last ← checkedSub prog.bound 1
        let hi ← checkedAdd (min s.hi last) 1
        checkedCountUp prog.error lo hi
      else some [])
    some (counted ++
      if prog.bound ≤ s.hi then [⟨.exit, max s.lo prog.bound, s.hi⟩] else [])
  | .exit | .error => some []

theorem checkedCountUp_eq (error : Option Int64) (lo hi : Int64) :
    checkedCountUp error lo hi = some (countUp error lo hi) := by
  unfold checkedCountUp countUp
  cases error with
  | none => rfl
  | some e =>
    simp only
    split
    · have hbefore : (if lo < e then (checkedSub e 1).map fun x => [(⟨.loop, lo, x⟩ : Interval)]
          else some []) = some (if lo < e then [⟨.loop, lo, e - 1⟩] else []) := by
        split
        · rename_i h
          rw [checkedSub_one h]
          rfl
        · rfl
      have hafter : (if e < hi then (checkedAdd e 1).map fun x => [(⟨.loop, x, hi⟩ : Interval)]
          else some []) = some (if e < hi then [⟨.loop, e + 1, hi⟩] else []) := by
        split
        · rename_i h
          rw [checkedAdd_one h]
          rfl
        · rfl
      rw [hbefore, hafter]
      rfl
    · rfl

/-- No interval has successors that cannot be computed. -/
theorem checkedSuccessors_eq (prog : Program) (s : Interval) :
    prog.checkedSuccessors s = some (prog.successors s) := by
  unfold checkedSuccessors successors
  cases s.loc with
  | start => rfl
  | exit => rfl
  | error => rfl
  | loop =>
    by_cases hlo : s.lo < prog.bound
    · have hcap : min s.hi (prog.bound - 1) < prog.bound := by
        rw [min_eq_ite]
        grind
      simp only [if_pos hlo, checkedAdd_one hlo, checkedSub_one hlo, Option.bind_eq_bind,
        Option.bind_some, checkedAdd_one hcap, checkedCountUp_eq]
    · simp only [if_neg hlo, Option.bind_eq_bind, Option.bind_some]

/-- An interval that the error value is not in is not split. -/
theorem countUp_of_avoids {error : Option Int64} {lo hi : Int64}
    (h : ∀ e, error = some e → ¬ (lo ≤ e ∧ e ≤ hi)) : countUp error lo hi = [⟨.loop, lo, hi⟩] := by
  unfold countUp
  cases error with
  | none => rfl
  | some e =>
    have hout : (decide (lo ≤ e) && decide (e ≤ hi)) = false := by simpa using h e rfl
    simp only [hout]
    rfl

end Program

/-! ### Counting up -/

namespace Options

/-- The program under analysis. -/
def program (o : Options) : Program :=
  ⟨o.bound, o.error⟩

/-- The error value, if the loop gets there. -/
def hit? (o : Options) : Option Int64 :=
  o.error.filter fun e => 1 ≤ e && e ≤ o.bound

/-- The last value with which the loop is entered. -/
def peak (o : Options) : Int64 :=
  match o.hit? with
  | some e => e - 1
  | none => max 0 o.bound

variable {o : Options} {lo k e : Int64}

theorem hit?_eq_some_iff : o.hit? = some e ↔ o.error = some e ∧ 1 ≤ e ∧ e ≤ o.bound := by
  simp [hit?, Option.filter_eq_some_iff]

theorem peak_of_hit (h : o.hit? = some e) : o.peak = e - 1 := by
  rw [peak, h]

theorem peak_of_not_hit (h : o.hit? = none) : o.peak = max 0 o.bound := by
  rw [peak, h]

/-- If the error location is not hit, the error value is not counted up to. -/
theorem avoids_of_not_hit (h : o.hit? = none) {hi : Int64} (hlo : 0 ≤ lo) (hlt : lo < o.bound)
    (hhi : hi ≤ o.bound) (e : Int64) (he : o.error = some e) : ¬ (lo + 1 ≤ e ∧ e ≤ hi) := by
  rintro ⟨h₁, h₂⟩
  have hhit : o.hit? = some e := hit?_eq_some_iff.2 ⟨he, by grind, by grind⟩
  rw [h] at hhit
  cases hhit

theorem peak_nonneg (o : Options) : 0 ≤ o.peak := by
  cases h : o.hit? with
  | none =>
    rw [peak_of_not_hit h]
    exact Interval.left_le_max ..
  | some e =>
    obtain ⟨-, hone, -⟩ := hit?_eq_some_iff.1 h
    rw [peak_of_hit h]
    grind

theorem toInt_peak_le (o : Options) : o.peak.toInt ≤ o.bound.toInt.toNat := by
  have hle : o.peak ≤ max 0 o.bound := by
    cases h : o.hit? with
    | none =>
      rw [peak_of_not_hit h]
      exact Int64.le_refl _
    | some e =>
      obtain ⟨-, hone, hle⟩ := hit?_eq_some_iff.1 h
      rw [peak_of_hit h, max_eq_ite]
      grind
  have hmax : (max 0 o.bound).toInt ≤ o.bound.toInt.toNat := by
    have hzero : (0 : Int64).toInt = 0 := rfl
    rw [max_eq_ite]
    split <;> omega
  have htoInt := Int64.le_iff_toInt_le.1 hle
  omega

/-- Below the peak the loop goes on. -/
theorem successors_of_lt_peak (hlo : 0 ≤ lo) (hle : lo ≤ k) (hk : k < o.peak) :
    o.program.successors ⟨.loop, lo, k⟩ = [⟨.loop, lo + 1, k + 1⟩] := by
  have hbound : k < o.bound ∧ ∀ e, o.error = some e → ¬ (lo + 1 ≤ e ∧ e ≤ k + 1) := by
    cases h : o.hit? with
    | none =>
      rw [peak_of_not_hit h, max_eq_ite] at hk
      have hlt : k < o.bound := by grind
      exact ⟨hlt, avoids_of_not_hit h hlo (by grind) (by grind)⟩
    | some e =>
      obtain ⟨he, hone, hle'⟩ := hit?_eq_some_iff.1 h
      rw [peak_of_hit h] at hk
      refine ⟨by grind, fun e' he' => ?_⟩
      obtain rfl : e = e' := Option.some.inj (he.symm.trans he')
      grind
  have hbelow : lo < o.bound := by grind
  have habove : ¬ o.bound ≤ k := by grind
  have hmin : min k (o.bound - 1) = k := by
    rw [min_eq_ite]
    grind
  simp only [Program.successors, program, hbelow, habove, hmin, if_true, if_false,
    Program.countUp_of_avoids hbound.2, List.append_nil]

/-- Just before the error value, the error location is reached. -/
theorem successors_of_hit (h : o.hit? = some e) (hle : lo ≤ e - 1) :
    o.program.successors ⟨.loop, lo, e - 1⟩ =
      ⟨.error, e, e⟩ :: if lo + 1 < e then [⟨.loop, lo + 1, e - 1⟩] else [] := by
  obtain ⟨he, hone, hbound⟩ := hit?_eq_some_iff.1 h
  have hbelow : lo < o.bound := by grind
  have habove : ¬ o.bound ≤ e - 1 := by grind
  have hmin : min (e - 1) (o.bound - 1) + 1 = e := by
    rw [min_eq_ite]
    grind
  have hin : (decide (lo + 1 ≤ e) && decide (e ≤ e)) = true := by
    simp only [Bool.and_eq_true, decide_eq_true_eq]
    grind
  have hlast : ¬ e < e := Int64.lt_irrefl
  simp only [Program.successors, program, if_pos hbelow, if_neg habove, hmin, Program.countUp, he,
    if_pos hin, if_neg hlast, List.append_nil, List.singleton_append]

/-- At the bound, the exit is reached. -/
theorem successors_of_not_hit (h : o.hit? = none) (hlo : 0 ≤ lo) (hle : lo ≤ o.peak) :
    o.program.successors ⟨.loop, lo, o.peak⟩ =
      (if lo < o.bound then [⟨.loop, lo + 1, o.peak⟩] else []) ++ [⟨.exit, o.peak, o.peak⟩] := by
  rw [peak_of_not_hit h] at hle ⊢
  have habove : o.bound ≤ max 0 o.bound := Interval.right_le_max ..
  have hexit : max lo o.bound = max 0 o.bound := by
    rw [max_eq_ite] at hle ⊢
    rw [max_eq_ite]
    grind
  simp only [Program.successors, program, habove, hexit, if_true]
  by_cases hbelow : lo < o.bound
  · have hmin : min (max 0 o.bound) (o.bound - 1) + 1 = max 0 o.bound := by
      rw [max_eq_ite, min_eq_ite]
      grind
    have hmax : max 0 o.bound ≤ o.bound := by
      rw [max_eq_ite]
      grind
    simp only [hbelow, if_true, hmin,
      Program.countUp_of_avoids (avoids_of_not_hit h hlo hbelow hmax)]
  · simp only [hbelow, if_false]

end Options
end Reachability.Counter
