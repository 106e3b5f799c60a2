import Reachability.Proofs.Reached.Intact
import Reachability.Proofs.Reached.Removals

/-! Replacing a batch of published pairs by another.

The batch is removed first, and then the other is published under one precision. Seen by the
handles, that is simple, whatever the new states equal: a handle that was removed names
nothing, although its cell may be used again (`get?_update_of_mem`); one that was kept names
the state that it named, and if a new state equals it, it takes over the precision
(`Kept.get?_update_of_not_mem`); and any other handle names a new pair, which waits. -/
namespace Reachability

open AbstractState (location)

variable {S P : Type}

/-- What becomes of an entry when a state that equals its own is published. -/
def Entry.refresh [BEq P] (p : P) (e : Entry S P) : Entry S P :=
  if e.precision != p then {e with precision := p, waiting := true} else e

namespace Entry
variable [BEq P]

@[simp] theorem state_refresh (p : P) (e : Entry S P) : (e.refresh p).state = e.state := by
  unfold refresh
  split <;> rfl

theorem precision_refresh [ReflBEq P] (p : P) (e : Entry S P) :
    ((e.refresh p).precision == p) = true := by
  unfold refresh
  split
  · exact ReflBEq.rfl
  · rename_i hsame
    simpa [bne] using hsame

theorem waiting_refresh {p : P} {e : Entry S P} (hchanged : (e.precision != p) = true) :
    (e.refresh p).waiting = true := by
  rw [refresh, if_pos hchanged]

/-- Publishing it again with that precision changes nothing. -/
theorem refresh_of_beq {p : P} {e : Entry S P} (hsame : (e.precision == p) = true) :
    e.refresh p = e := by
  rw [refresh, bne, hsame]
  rfl

end Entry

namespace Reached

/-! ### Removing a batch -/

section
variable {W : Type} [AbstractState S] [Waitlist W]

theorem nodup_dropped (gone : List Handle) (r : Reached S P W) : (r.dropped gone).Nodup := by
  induction gone generalizing r with
  | nil => exact .nil
  | cons h rest ih =>
    rw [dropped]
    split
    · refine List.nodup_cons.2 ⟨fun hmem => ?_, ih _⟩
      -- It is dead by the time the others are removed.
      exact (contains_removeHandle.1 (mem_dropped_iff.1 hmem).2).1 rfl
    · exact ih _

/-- A batch of removals takes a cell to its next generation, and no further. -/
theorem aging_dropped {r : Reached S P W} {gone : List Handle} {h : Handle} (hmem : h ∈ gone)
    (hlive : r.arena.contains h = true) : aging (r.dropped gone) h.index = 1 := by
  have hdropped : h ∈ r.dropped gone := mem_dropped_iff.2 ⟨hmem, hlive⟩
  have hcells : ((r.dropped gone).map Handle.index).Nodup := by
    refine List.Nodup.map_on (fun g hg k hk hindex => ?_) (nodup_dropped gone r)
    have hg := (mem_dropped_iff.1 hg).2
    have hk := (mem_dropped_iff.1 hk).2
    rw [Arena.contains_eq] at hg hk
    obtain ⟨v, hv⟩ := Option.isSome_iff_exists.1 hg
    obtain ⟨w, hw⟩ := Option.isSome_iff_exists.1 hk
    exact Arena.eq_of_index_eq hv hw hindex
  rw [aging, List.count_eq_one_of_mem hcells (List.mem_map_of_mem hdropped)]
  rfl

variable [BEq S] [BEq P]

/-- A pair that was removed is gone for good: what is published afterwards may move into its
cell, but not under its handle. -/
theorem get?_update_of_mem {r : Reached S P W} {gone : List Handle} {h : Handle} {e : Entry S P}
    (hmem : h ∈ gone) (he : r.arena.get? h = some e) (fresh : List (S × P)) :
    (r.update gone fresh).arena.get? h = none := by
  have hlive : r.arena.contains h = true := by
    rw [Arena.contains_eq, he]
    rfl
  cases hafter : (r.update gone fresh).arena.get? h with
  | none => rfl
  | some e' =>
    have hage : (r.update gone fresh).arena.generation h.index =
        r.arena.generation h.index + aging (r.dropped gone) h.index := by
      rw [update, generation_addAll, generation_removeHandles]
    rw [Arena.generation_of_get? hafter, Arena.generation_of_get? he,
      aging_dropped hmem hlive] at hage
    simp at hage

/-! ### Publishing a batch -/

/-- What is published under a new handle waits. -/
theorem get?_add_of_none {r : Reached S P W} {h : Handle} {e : Entry S P} {s : S} {p : P}
    (hnone : r.arena.get? h = none) (he : (r.add s p).2.arena.get? h = some e) :
    e = ⟨s, p, true⟩ := by
  cases hfind : r.find? s with
  | none =>
    rw [add_of_find?_eq_none hfind, get?_publish] at he
    split at he
    · cases he
      rfl
    · rw [hnone] at he
      cases he
  | some k =>
    obtain ⟨-, t, ht, -⟩ := find?_eq_some hfind
    obtain ⟨⟨t, q, waiting⟩, hk, rfl⟩ := state?_eq_some_iff.1 ht
    have hne : h ≠ k := fun hh => by
      rw [hh, hk] at hnone
      cases hnone
    rw [get?_add_of_find?_eq_some hfind hk, if_neg hne, hnone] at he
    cases he

/-- Whatever is published is there afterwards, or something that equals it. -/
theorem exists_addAll [ReflBEq S] {fresh : List (S × P)} {x : S × P} (hx : x ∈ fresh)
    (r : Reached S P W) :
    ∃ h t, (fresh.foldl (fun r (s, p) => (r.add s p).2) r).state? h = some t ∧
      (t == x.1) = true := by
  induction fresh generalizing r with
  | nil => cases hx
  | cons pair rest ih =>
    rcases List.mem_cons.1 hx with rfl | hx
    · obtain ⟨t, ht, hsame⟩ := exists_mem_states_add r x.1 x.2
      obtain ⟨h, hh⟩ := mem_states_iff.1 ht
      rw [List.foldl_cons]
      refine ⟨h, t, state?_addAll hh, ?_⟩
      rcases hsame with rfl | hsame
      · exact ReflBEq.rfl
      · exact hsame
    · exact ih hx _

end

/-! ### What is kept -/

namespace Kept
variable [AbstractState S] [BEq S] [EquivBEq S] [BEq P] {r : Reached S P Frontier}
  (hlocation : ∀ s t : S, (s == t) = true → location s = location t)
include hlocation

/-- Publishing touches the one published pair that equals it, and no other. -/
theorem get?_add (hr : r.Kept) {h : Handle} {e : Entry S P} (he : r.arena.get? h = some e) (s : S)
    (p : P) : (r.add s p).2.arena.get? h = some (if e.state == s then e.refresh p else e) := by
  have hstate : r.state? h = some e.state := state?_eq_some_iff.2 ⟨e, he, rfl⟩
  cases hfind : r.find? s with
  | none =>
    have hnew : h ≠ r.nextHandle s p := fun heq => by
      rw [heq, get?_nextHandle] at he
      cases he
    have hdiffers := (hr.consistent.differs_of_find?_eq_none hlocation hfind e.state
      (mem_states_iff.2 ⟨h, hstate⟩)).2
    rw [add_of_find?_eq_none hfind, get?_publish, if_neg hnew, he, if_neg hdiffers]
  | some k =>
    obtain ⟨-, u, hu, hsame⟩ := find?_eq_some hfind
    obtain ⟨⟨u, q, waiting⟩, hk, rfl⟩ := state?_eq_some_iff.1 hu
    rw [get?_add_of_find?_eq_some hfind hk]
    by_cases hh : h = k
    · subst hh
      rw [he, Option.some.injEq] at hk
      subst hk
      rw [if_pos rfl, if_pos hsame, Entry.refresh]
    · have hdiffers : ¬ (e.state == s) = true := fun h' =>
        hh (hr.distinct h k e.state u hstate hu (BEq.trans h' (BEq.symm hsame)))
      rw [if_neg hh, he, if_neg hdiffers]

omit [BEq P] in
theorem removeHandles (hr : r.Kept) (gone : List Handle) :
    (gone.foldl Reached.removeHandle r).Kept :=
  (stable (S := S) (P := P) hlocation).removeHandles gone hr

variable [ReflBEq P]

theorem get?_addAll (hr : r.Kept) {h : Handle} {e : Entry S P} (he : r.arena.get? h = some e)
    {fresh : List (S × P)} {p : P} (hp : ∀ x ∈ fresh, x.2 = p) :
    (fresh.foldl (fun r (s, p) => (r.add s p).2) r).arena.get? h =
      some (if fresh.any fun x => e.state == x.1 then e.refresh p else e) := by
  induction fresh generalizing r e with
  | nil => exact he
  | cons pair rest ih =>
    obtain ⟨s, q⟩ := pair
    obtain rfl : q = p := hp _ (List.mem_cons_self ..)
    have hadded := hr.get?_add hlocation he s q
    have hrest := ih ((stable hlocation).add s q hr) hadded fun x hx =>
      hp x (List.mem_cons_of_mem _ hx)
    rw [List.foldl_cons, hrest, List.any_cons]
    by_cases hs : (e.state == s) = true
    · -- It has the precision already if another of the new states equals it, too.
      rw [if_pos hs, hs, Entry.refresh_of_beq (Entry.precision_refresh q e)]
      simp
    · rw [if_neg hs, eq_false_of_ne_true hs, Bool.false_or]

/-- What is new after a batch was published is of the batch, and waits. -/
theorem get?_addAll_of_none (hr : r.Kept) {h : Handle} {e : Entry S P} {fresh : List (S × P)}
    {p : P} (hp : ∀ x ∈ fresh, x.2 = p) (hnone : r.arena.get? h = none)
    (he : (fresh.foldl (fun r (s, p) => (r.add s p).2) r).arena.get? h = some e) :
    ∃ x ∈ fresh, e = ⟨x.1, p, true⟩ := by
  induction fresh generalizing r with
  | nil =>
    rw [List.foldl_nil, hnone] at he
    cases he
  | cons pair rest ih =>
    obtain ⟨s, q⟩ := pair
    obtain rfl : q = p := hp _ (List.mem_cons_self ..)
    have hrest : ∀ x ∈ rest, x.2 = q := fun x hx => hp x (List.mem_cons_of_mem _ hx)
    have hadded := (stable hlocation).add s q hr
    rw [List.foldl_cons] at he
    cases hnow : (r.add s q).2.arena.get? h with
    | none =>
      obtain ⟨x, hx, rfl⟩ := ih hadded hrest hnow he
      exact ⟨x, List.mem_cons_of_mem _ hx, rfl⟩
    | some e' =>
      obtain rfl := get?_add_of_none hnone hnow
      refine ⟨(s, q), List.mem_cons_self .., ?_⟩
      rw [hadded.get?_addAll hlocation hnow hrest, Option.some.injEq] at he
      rw [← he, Entry.refresh_of_beq (p := q) (e := ⟨s, q, true⟩) ReflBEq.rfl, ite_self]

/-! ### Replacing a batch -/

/-- A pair that is not removed keeps its state, and its precision unless an equal state is
published. -/
theorem get?_update_of_not_mem (hr : r.Kept) {gone : List Handle} {h : Handle} {e : Entry S P}
    (hout : h ∉ gone) (he : r.arena.get? h = some e) {fresh : List (S × P)} {p : P}
    (hp : ∀ x ∈ fresh, x.2 = p) :
    (r.update gone fresh).arena.get? h =
      some (if fresh.any fun x => e.state == x.1 then e.refresh p else e) := by
  refine (hr.removeHandles hlocation gone).get?_addAll hlocation ?_ hp
  rw [get?_removeHandles, if_neg hout, he]

/-- A handle that named nothing before names a new pair, which waits. -/
theorem get?_update_of_none (hr : r.Kept) {gone : List Handle} {h : Handle} {e : Entry S P}
    {fresh : List (S × P)} {p : P} (hp : ∀ x ∈ fresh, x.2 = p) (hnone : r.arena.get? h = none)
    (he : (r.update gone fresh).arena.get? h = some e) : ∃ x ∈ fresh, e = ⟨x.1, p, true⟩ := by
  refine (hr.removeHandles hlocation gone).get?_addAll_of_none hlocation hp ?_ he
  rw [get?_removeHandles]
  split
  · rfl
  · exact hnone

/-- Every state of the batch is published under its precision, and waits unless an equal
pair was published before. -/
theorem exists_update (hr : r.Kept) {gone : List Handle} {fresh : List (S × P)} {p : P}
    (hp : ∀ x ∈ fresh, x.2 = p) {x : S × P} (hx : x ∈ fresh) :
    ∃ h e, (r.update gone fresh).arena.get? h = some e ∧ (e.state == x.1) = true ∧
      (e.precision == p) = true ∧ (r.arena.get? h = none → e.waiting = true) ∧
      ∀ old, r.arena.get? h = some old → (old.precision != p) = true → e.waiting = true := by
  obtain ⟨h, t, ht, hsame⟩ := exists_addAll hx (gone.foldl Reached.removeHandle r)
  obtain ⟨e, he, rfl⟩ := state?_eq_some_iff.1 ht
  refine ⟨h, e, he, hsame, ?_⟩
  cases hold : r.arena.get? h with
  | none =>
    obtain ⟨y, -, rfl⟩ := hr.get?_update_of_none hlocation hp hold he
    exact ⟨ReflBEq.rfl, fun _ => rfl, fun _ hnone => (nomatch hnone)⟩
  | some old =>
    have hout : h ∉ gone := fun hmem => by
      have hdead := get?_update_of_mem hmem hold fresh
      rw [show (r.update gone fresh).arena.get? h = some e from he] at hdead
      cases hdead
    have hkept := hr.get?_update_of_not_mem hlocation hout hold hp
    rw [show (r.update gone fresh).arena.get? h = some e from he, Option.some.injEq] at hkept
    have hany : (fresh.any fun y => old.state == y.1) = true := by
      refine List.any_eq_true.2 ⟨x, hx, ?_⟩
      have hstate : e.state = old.state := by
        rw [hkept]
        split
        · exact Entry.state_refresh p old
        · rfl
      rw [← hstate]
      exact hsame
    rw [if_pos hany] at hkept
    subst hkept
    refine ⟨Entry.precision_refresh p old, fun hnone => (nomatch hnone), ?_⟩
    rintro _ ⟨⟩ hchanged
    exact Entry.waiting_refresh hchanged

end Kept
end Reached
end Reachability
