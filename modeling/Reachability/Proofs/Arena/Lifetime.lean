import Mathlib.Data.Set.Card
import Reachability.Proofs.Arena.Occupancy

/-! An arena is a map from handles to values, and how long a handle means the same value.

What the operations do to the map is the same in every arena that operations lead to (`Keyed`).
The handles themselves are given out for ever only up to a point: a cell has 2^32 generations,
so a handle whose value is gone names a later value of its cell once the cell was vacated 2^32
times since the handle was given out, or a multiple of that, and never before (`ComesRound`).
The bound is met: in `live_again_after_rounds` it happens. -/
namespace Reachability.Arena
variable {α : Type} {a b : Arena α}

/-- The live handles are the keys, and an operation touches what it is asked to and no more. -/
structure Keyed (a : Arena α) : Prop where
  /-- A value is added under a key that was not in use. -/
  add : ∀ v, a.contains (a.add v).1 = false ∧
    ∀ g, (a.add v).2.get? g = if g = (a.add v).1 then some v else a.get? g
  remove : ∀ h v, a.get? h = some v →
    ∃ b, a.remove? h = some (v, b) ∧ ∀ g, b.get? g = if g = h then none else a.get? g
  modify : ∀ h v, a.get? h = some v → a.access? h = some v ∧
    ∀ f g, (a.modify h f).get? g = if g = h then some (f v) else a.get? g
  clear : ∀ h, a.clear.contains h = false
  /-- A handle that is not live answers nothing and changes nothing. -/
  dead : ∀ h, a.contains h = false →
    a.get? h = none ∧ a.access? h = none ∧ a.remove? h = none ∧
      a.perform (.remove h) = a ∧ ∀ f, a.perform (.modify h f) = a
  /-- The ways to ask whether a handle is live agree. -/
  live : ∀ h, a.contains h = (a.get? h).isSome ∧ (a.access? h).isSome = (a.get? h).isSome
  size : a.size = {h | a.contains h = true}.ncard
  listed : ∀ h v, (h, v) ∈ a.toList ↔ a.get? h = some v
  ordered : a.toList.Pairwise fun x y => x.1.index < y.1.index

/-- What becomes of a handle `h` that this arena has just given out: once it is dead, it is
live exactly while its cell is occupied and was vacated a multiple of 2^32 times since. -/
def ComesRound (a : Arena α) (h : Handle) : Prop :=
  ∀ meanwhile later : List (Operation α), (a.performAll meanwhile).contains h = false →
    ((a.performAll (meanwhile ++ later)).contains h = true ↔
      (a.performAll (meanwhile ++ later)).occupied h.index = true ∧
        0 < a.vacatings h.index (meanwhile ++ later) ∧
        2 ^ 32 ∣ a.vacatings h.index (meanwhile ++ later)) ∧
    (a.vacatings h.index (meanwhile ++ later) ≤ 2 ^ 32 - 1 →
      (a.performAll (meanwhile ++ later)).contains h = false)

/-! ### The map -/

theorem access?_eq_get? (a : Arena α) (h : Handle) : a.access? h = a.get? h := by
  rw [get?_eq]
  unfold access? Cell.seenBy
  cases a.cells[h.index]? <;> rfl

theorem get?_eq_none_of_dead {h : Handle} (hdead : a.contains h = false) : a.get? h = none := by
  rwa [contains_eq, Option.isSome_eq_false_iff, Option.isNone_iff_eq_none] at hdead

/-- The handles on the list are the live ones, each of them once. -/
theorem ncard_live (a : Arena α) : {h | a.contains h = true}.ncard = a.toList.length := by
  have hlive : {h | a.contains h = true} = ((a.toList.map Prod.fst).toFinset : Set Handle) := by
    ext h
    simp only [Set.mem_ofPred_eq, List.coe_toFinset, mem_handles_iff]
  rw [hlive, Set.ncard_coe_finset, List.toFinset_card_of_nodup (nodup_handles a), List.length_map]

theorem counted_perform (ha : a.Counted) (op : Operation α) : (a.perform op).Counted := by
  cases op with
  | add v => exact ha.add v
  | remove h =>
    simp only [perform]
    split
    · rename_i hremoved
      exact ha.remove hremoved
    · exact ha
  | modify h f => exact ha.modify h f
  | clear => exact counted_clear a

theorem counted_performAll {ops : List (Operation α)} (ha : a.Counted) :
    (a.performAll ops).Counted := by
  induction ops generalizing a with
  | nil => exact ha
  | cons op rest ih => exact ih (counted_perform ha op)

theorem Counted.keyed (ha : a.Counted) : a.Keyed where
  add v := ⟨by rw [contains_eq, get?_add_fresh]; rfl, get?_add_eq a v⟩
  remove h v hv := by
    cases hremoved : a.remove? h with
    | none =>
      rw [remove?_eq_none_iff.1 hremoved] at hv
      cases hv
    | some removed =>
      obtain ⟨w, b⟩ := removed
      rw [(get?_remove hremoved).1, Option.some.injEq] at hv
      exact ⟨b, by rw [hv], get?_remove_eq hremoved⟩
  modify h v hv := by
    refine ⟨(access?_eq_get? a h).trans hv, fun f g => ?_⟩
    rw [get?_modify, hv]
    rfl
  clear h := by
    rw [contains_eq, get?_clear]
    rfl
  dead h hdead := by
    have hnone := get?_eq_none_of_dead hdead
    have hremoved : a.remove? h = none := remove?_eq_none_iff.2 hnone
    exact ⟨hnone, (access?_eq_get? a h).trans hnone, hremoved, by simp only [perform, hremoved],
      modify_of_get?_eq_none hnone⟩
  live h := ⟨contains_eq a h, by rw [access?_eq_get?]⟩
  size := by rw [ncard_live, ha]
  listed _ _ := mem_toList_iff
  ordered := pairwise_toList a

/-! ### The handles -/

theorem ofNat_eq_zero_iff {n : Nat} : UInt32.ofNat n = 0 ↔ 2 ^ 32 ∣ n := by
  rw [← UInt32.toNat_inj, UInt32.toNat_ofNat', Nat.dvd_iff_mod_eq_zero]
  rfl

/-- A handle that was live is live later on when its cell is occupied, and has made full turns. -/
theorem contains_performAll_iff {h : Handle} (hlive : a.contains h = true)
    (ops : List (Operation α)) :
    (a.performAll ops).contains h = true ↔
      (a.performAll ops).occupied h.index = true ∧ 2 ^ 32 ∣ a.vacatings h.index ops := by
  rw [contains_iff, generation_performAll, (contains_iff.1 hlive).2, ← ofNat_eq_zero_iff]
  simp

/-- It can only die if its cell is vacated. -/
theorem vacatings_pos_of_dead {h : Handle} (hlive : a.contains h = true)
    {ops : List (Operation α)} (hdead : (a.performAll ops).contains h = false) :
    0 < a.vacatings h.index ops := by
  refine Nat.pos_of_ne_zero fun hzero => ?_
  have hstays : (a.performAll ops).contains h = true :=
    (contains_performAll_iff hlive ops).2
      ⟨occupied_performAll (contains_iff.1 hlive).1 hzero, hzero ▸ Nat.dvd_zero _⟩
  rw [hdead] at hstays
  cases hstays

theorem comesRound_of_contains {h : Handle} (hlive : a.contains h = true) : a.ComesRound h := by
  intro meanwhile later hdead
  have hpos : 0 < a.vacatings h.index (meanwhile ++ later) := by
    rw [vacatings_append]
    exact Nat.add_pos_left (vacatings_pos_of_dead hlive hdead) _
  have hiff := contains_performAll_iff hlive (meanwhile ++ later)
  refine ⟨?_, fun hfew => ?_⟩
  · rw [hiff]
    exact and_congr_right fun _ => ⟨fun hturns => ⟨hpos, hturns⟩, And.right⟩
  · rw [← Bool.not_eq_true, hiff]
    rintro ⟨-, hturns⟩
    have hle := Nat.le_of_dvd hpos hturns
    omega

/-- **Whatever is done to an arena**, with handles that are live, out of date or made up, it is
a map from live handles to values, and a handle that died is live again only after full turns
of its cell. -/
theorem keyed_performAll (ops : List (Operation α)) :
    (empty.performAll ops).Keyed ∧
      ∀ v, ((empty.performAll ops).add v).2.ComesRound ((empty.performAll ops).add v).1 := by
  refine ⟨(counted_performAll counted_empty).keyed, fun v => comesRound_of_contains ?_⟩
  rw [contains_eq, get?_add_self]
  rfl

/-! ### A full turn -/

/-- One cell, filled and vacated a number of times. -/
def rounds : Nat → List (Operation Unit)
  | 0 => []
  | n + 1 => .add () :: .clear :: rounds n

/-- One vacant cell. -/
def vacantCell (g : UInt32) : Arena Unit :=
  { cells := #[⟨none, g⟩] }

theorem perform_clear_vacantCell (g : UInt32) :
    ((vacantCell g).perform (.add ())).perform .clear = vacantCell (g + 1) := by
  show ({ cells := #[⟨some (), g⟩], firstFree := 1, size := 1 } : Arena Unit).clear = _
  simp [clear, Cell.vacate, vacantCell]

theorem performAll_rounds (n : Nat) (g : UInt32) :
    (vacantCell g).performAll (rounds n) = vacantCell (g + UInt32.ofNat n) := by
  induction n generalizing g with
  | zero => simp [rounds]
  | succ n ih =>
    rw [rounds, performAll_cons, performAll_cons, perform_clear_vacantCell, ih, UInt32.ofNat_add,
      UInt32.add_assoc, UInt32.add_comm 1]
    rfl

theorem vacatings_rounds (n : Nat) (g : UInt32) : (vacantCell g).vacatings 0 (rounds n) = n := by
  induction n generalizing g with
  | zero => rfl
  | succ n ih =>
    have hfilled : (vacantCell g).vacates 0 (.add ()) = false := rfl
    have hvacated : ((vacantCell g).perform (.add ())).vacates 0 .clear = true := by
      rw [vacates, perform_clear_vacantCell]
      rfl
    rw [rounds, vacatings, vacatings, perform_clear_vacantCell, ih, hfilled, hvacated]
    simp only [Bool.false_eq_true, if_false, if_true]
    omega

theorem occupied_add_vacantCell (g : UInt32) :
    ((vacantCell g).performAll [.add ()]).occupied 0 = true := rfl

theorem vacatings_add_vacantCell (g : UInt32) : (vacantCell g).vacatings 0 [.add ()] = 0 := rfl

/-- The first handle of an arena dies when the arena is cleared. When its cell was vacated
2^32 times in all, the next value of the cell is given out under it again. -/
theorem live_again_after_rounds :
    (((empty : Arena Unit).add ()).2.performAll [.clear]).contains ⟨0, 0⟩ = false ∧
      (((empty : Arena Unit).add ()).2.performAll
        ([.clear] ++ (rounds (2 ^ 32 - 1) ++ [.add ()]))).contains ⟨0, 0⟩ = true := by
  have hcleared : ((empty : Arena Unit).add ()).2.performAll [.clear] = vacantCell 1 :=
    perform_clear_vacantCell 0
  have hdead : (((empty : Arena Unit).add ()).2.performAll [.clear]).contains ⟨0, 0⟩ = false := by
    rw [hcleared]
    rfl
  have hfirst : ((empty : Arena Unit).add ()).2.vacatings 0 [.clear] = 1 := by decide +kernel
  have hturn : ((empty : Arena Unit).add ()).2.vacatings (Handle.mk 0 0).index
      ([.clear] ++ (rounds (2 ^ 32 - 1) ++ [.add ()])) = 2 ^ 32 := by
    simp only [vacatings_append, hcleared, vacatings_rounds, performAll_rounds, hfirst,
      vacatings_add_vacantCell]
    omega
  have hround : ((empty : Arena Unit).add ()).2.ComesRound ⟨0, 0⟩ := (keyed_performAll []).2 ()
  obtain ⟨hiff, -⟩ := hround [.clear] (rounds (2 ^ 32 - 1) ++ [.add ()]) hdead
  rw [hturn] at hiff
  refine ⟨hdead, hiff.2 ⟨?_, Nat.two_pow_pos 32, Nat.dvd_refl _⟩⟩
  rw [performAll_append, performAll_append, hcleared, performAll_rounds]
  exact occupied_add_vacantCell _

end Reachability.Arena
