import Reachability.Waitlist.Ranked
import Mathlib.Data.List.Nodup

/-! What keeps a ranked waitlist together.

The queue goes up in turns, no serial number in it is as large as the next one, and
the index holds exactly the queue read backwards (`Intact`). A handle that is pushed
only while it does not wait keeps all of this, and then the three operations do to the
pop order what they do in the other policies: a push adds the handle, a pop takes the
head, and a removal erases the handle and nothing else. -/
namespace Reachability

namespace Turn

theorem before_irrefl (t : Turn) : t.before t = false := by
  simp [before]

theorem before_trans {t u v : Turn} (htu : t.before u = true) (huv : u.before v = true) :
    t.before v = true := by
  simp only [before, Bool.or_eq_true, decide_eq_true_eq, Bool.and_eq_true, beq_iff_eq] at *
  omega

/-- An older turn that does not come first comes after. -/
theorem before_of_not_before {t u : Turn} (hs : u.serial < t.serial) (h : u.before t = false) :
    t.before u = true := by
  simp only [before, Bool.or_eq_false_iff, decide_eq_false_iff_not, Bool.and_eq_false_iff,
    beq_eq_false_iff_ne, Bool.or_eq_true, decide_eq_true_eq, Bool.and_eq_true, beq_iff_eq] at *
  omega

end Turn

namespace Ranked

/-! ### Entering and forgetting -/

theorem perm_enter (t : Turn) (h : Handle) (queue : List (Turn × Handle)) :
    (enter t h queue).Perm ((t, h) :: queue) := by
  induction queue with
  | nil => exact .refl _
  | cons entry rest ih =>
    obtain ⟨u, g⟩ := entry
    simp only [enter]
    split
    · exact (ih.cons _).trans (.swap ..)
    · exact .refl _

theorem pairwise_enter {t : Turn} {queue : List (Turn × Handle)} (h : Handle)
    (ordered : queue.Pairwise fun x y => x.1.before y.1 = true)
    (fresh : ∀ x ∈ queue, x.1.serial < t.serial) :
    (enter t h queue).Pairwise fun x y => x.1.before y.1 = true := by
  induction queue with
  | nil => exact .cons (fun _ hx => by cases hx) .nil
  | cons entry rest ih =>
    obtain ⟨u, g⟩ := entry
    obtain ⟨hhead, hrest⟩ := List.pairwise_cons.1 ordered
    simp only [enter]
    split
    · rename_i hbefore
      refine .cons (fun x hx => ?_) (ih hrest fun x hx => fresh x (List.mem_cons_of_mem _ hx))
      rcases List.mem_cons.1 ((perm_enter t h rest).mem_iff.1 hx) with rfl | hx
      · exact hbefore
      · exact hhead x hx
    · rename_i hbefore
      have htu : t.before u = true :=
        Turn.before_of_not_before (fresh _ (List.mem_cons_self ..)) (by simpa using hbefore)
      refine .cons (fun x hx => ?_) ordered
      rcases List.mem_cons.1 hx with rfl | hx
      · exact htu
      · exact Turn.before_trans htu (hhead x hx)

theorem lookup_forget (h g : Handle) (index : List (Handle × Turn)) :
    (forget h index).lookup g = if g = h then none else index.lookup g := by
  induction index with
  | nil => simp [forget]
  | cons entry rest ih =>
    obtain ⟨k, t⟩ := entry
    have hrest : (rest.filter fun x => x.1 != h).lookup g =
        if g = h then none else rest.lookup g := ih
    by_cases hk : k = h
    · subst hk
      by_cases hg : g = k
      · subst hg
        simpa [forget] using hrest
      · have hb : (g == k) = false := beq_false_of_ne hg
        simpa [forget, hg, List.lookup_cons, hb] using hrest
    · by_cases hg : g = k
      · subst hg
        simp [forget, hk]
      · have hb : (g == k) = false := beq_false_of_ne hg
        simpa [forget, hk, List.lookup_cons, hb] using hrest

/-! ### The queue and its index -/

structure Intact (w : Ranked) : Prop where
  ordered : w.queue.Pairwise fun x y => x.1.before y.1 = true
  fresh : ∀ x ∈ w.queue, x.1.serial < w.nextSerial
  indexed : ∀ h t, w.index.lookup h = some t ↔ (t, h) ∈ w.queue

theorem intact_empty (n : Nat) : Intact { nextSerial := n } :=
  ⟨.nil, fun _ hx => (List.not_mem_nil hx).elim, fun _ _ => by simp⟩

namespace Intact
variable {w : Ranked}

theorem nodup_turns (hw : w.Intact) : (w.queue.map Prod.fst).Nodup :=
  List.pairwise_map.2 (hw.ordered.imp fun {x y} hxy he => by
    rw [he, Turn.before_irrefl] at hxy
    cases hxy)

/-- A handle has one turn. -/
theorem turn_unique (hw : w.Intact) {h : Handle} {t u : Turn} (ht : (t, h) ∈ w.queue)
    (hu : (u, h) ∈ w.queue) : t = u :=
  Option.some.inj (((hw.indexed h t).2 ht).symm.trans ((hw.indexed h u).2 hu))

/-- A turn has one handle. -/
theorem handle_unique (hw : w.Intact) {g h : Handle} {t : Turn} (hg : (t, g) ∈ w.queue)
    (hh : (t, h) ∈ w.queue) : g = h :=
  congrArg Prod.snd (List.inj_on_of_nodup_map hw.nodup_turns hg hh rfl)

theorem nodup_toList (hw : w.Intact) : w.toList.Nodup := by
  refine List.Nodup.map_on ?_ (hw.nodup_turns.of_map _)
  rintro ⟨t, h⟩ hx ⟨u, g⟩ hy rfl
  rw [hw.turn_unique hx hy]

theorem push (hw : w.Intact) {h : Handle} (hh : h ∉ w.toList) (rank : Nat) :
    (w.push h rank).Intact := by
  have hperm := perm_enter ⟨rank, w.nextSerial⟩ h w.queue
  refine ⟨pairwise_enter h hw.ordered hw.fresh, fun x hx => ?_, fun g t => ?_⟩
  · show x.1.serial < w.nextSerial + 1
    rcases List.mem_cons.1 (hperm.mem_iff.1 hx) with rfl | hx
    · exact Nat.lt_succ_self _
    · exact Nat.lt_succ_of_lt (hw.fresh x hx)
  · show ((h, _) :: forget h w.index).lookup g = some t ↔ (t, g) ∈ enter _ h w.queue
    rw [hperm.mem_iff, List.mem_cons]
    by_cases hg : g = h
    · subst hg
      have hout : ∀ u, (u, g) ∉ w.queue := fun u hu => hh (List.mem_map.2 ⟨_, hu, rfl⟩)
      simp [hout, eq_comm]
    · have hb : (g == h) = false := beq_false_of_ne hg
      simp [List.lookup_cons, hb, lookup_forget, hg, hw.indexed]

theorem pop {r : Ranked} {h : Handle} (hw : w.Intact) (e : w.pop? = some (h, r)) : r.Intact := by
  obtain ⟨queue, index, next⟩ := w
  cases queue with
  | nil => cases e
  | cons entry rest =>
    obtain ⟨t, k⟩ := entry
    simp only [pop?, Option.some.injEq, Prod.mk.injEq] at e
    obtain ⟨rfl, rfl⟩ := e
    obtain ⟨hhead, hrest⟩ := List.pairwise_cons.1 hw.ordered
    refine ⟨hrest, fun x hx => hw.fresh x (List.mem_cons_of_mem _ hx), fun g u => ?_⟩
    have hu : index.lookup g = some u ↔ (u, g) ∈ (t, k) :: rest := hw.indexed g u
    simp only [lookup_forget]
    by_cases hg : g = k
    · subst hg
      -- The popped handle is not further down: it has one turn only.
      have hout : (u, g) ∉ rest := fun hmem => by
        have htu : t = u :=
          hw.turn_unique (List.mem_cons_self ..) (List.mem_cons_of_mem _ hmem)
        have hbefore : t.before u = true := hhead _ hmem
        rw [htu, Turn.before_irrefl] at hbefore
        cases hbefore
      simp [hout]
    · simp [hg, hu]

/-- Removing by turn is removing by handle. -/
theorem queue_remove (hw : w.Intact) (h : Handle) :
    (w.remove h).2.queue = w.queue.filter fun x => x.2 != h := by
  unfold Ranked.remove
  split
  · rename_i t ht
    have hmem := (hw.indexed h t).1 ht
    refine List.filter_congr fun x hx => ?_
    have hiff : x.1 = t ↔ x.2 = h := by
      obtain ⟨u, g⟩ := x
      constructor
      · rintro rfl
        exact hw.handle_unique hx hmem
      · rintro rfl
        exact hw.turn_unique hx hmem
    simp only [bne, beq_eq_decide, hiff]
  · rename_i hnone
    refine (List.filter_eq_self.2 fun x hx => bne_iff_ne.2 ?_).symm
    rintro rfl
    rw [(hw.indexed x.2 x.1).2 hx] at hnone
    cases hnone

/-- Removing a handle erases it from the pop order. -/
theorem toList_remove (hw : w.Intact) (h : Handle) :
    (w.remove h).2.toList = w.toList.erase h := by
  rw [hw.nodup_toList.erase_eq_filter h]
  show (w.remove h).2.queue.map Prod.snd = (w.queue.map Prod.snd).filter fun g => g != h
  rw [hw.queue_remove, List.filter_map]
  rfl

/-- What is removed was there. -/
theorem remove_fst (hw : w.Intact) (h : Handle) : (w.remove h).1 = true ↔ h ∈ w.toList := by
  have hturn : h ∈ w.toList ↔ ∃ t, w.index.lookup h = some t := by
    simp only [hw.indexed, Ranked.toList, List.mem_map, Prod.exists, exists_eq_right]
  rw [hturn]
  unfold Ranked.remove
  cases w.index.lookup h <;> simp

theorem remove (hw : w.Intact) (h : Handle) : (w.remove h).2.Intact := by
  unfold Ranked.remove
  split
  · rename_i t ht
    have hmem := (hw.indexed h t).1 ht
    refine ⟨hw.ordered.filter _, fun x hx => hw.fresh x (List.mem_filter.1 hx).1, fun g u => ?_⟩
    simp only [lookup_forget, List.mem_filter, bne_iff_ne, ne_eq]
    by_cases hg : g = h
    · subst hg
      have hout : ¬ ((u, g) ∈ w.queue ∧ ¬ u = t) := fun hu => hu.2 (hw.turn_unique hu.1 hmem)
      simp [hout]
    · have hkept : (u, g) ∈ w.queue → ¬ u = t := by
        rintro hu rfl
        exact hg (hw.handle_unique hu hmem)
      simp only [if_neg hg, hw.indexed]
      exact ⟨fun hu => ⟨hu, hkept hu⟩, And.left⟩
  · exact hw

end Intact
end Ranked
end Reachability
