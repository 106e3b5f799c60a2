import Reachability.Proofs.Waitlist.Frontier

/-! Where a handle comes to stand that is popped and pushed again under its rank.

By rank, it comes behind the others of its rank and before those of a larger one
(`Ranked.Intact.push_of_pop`). For this the turns that were given out have to be known,
so `turns` says which they are, and the lemmas about it what the operations of a frontier
do to them; and none of these operations changes the order (`order`). -/
namespace Reachability

namespace Ranked

/-- Entering splits the queue into what comes before the turn and what comes after. -/
theorem exists_enter_eq {t : Turn} {queue : List (Turn × Handle)} (h : Handle)
    (ordered : queue.Pairwise fun x y => x.1.before y.1 = true)
    (fresh : ∀ x ∈ queue, x.1.serial < t.serial) :
    ∃ ahead behind, queue = ahead ++ behind ∧ enter t h queue = ahead ++ (t, h) :: behind ∧
      (∀ x ∈ ahead, x.1.before t = true) ∧ ∀ x ∈ behind, t.before x.1 = true := by
  induction queue with
  | nil => exact ⟨[], [], rfl, rfl, by simp, by simp⟩
  | cons entry rest ih =>
    obtain ⟨u, g⟩ := entry
    obtain ⟨hhead, hrest⟩ := List.pairwise_cons.1 ordered
    obtain ⟨hfirst, hothers⟩ := List.forall_mem_cons.1 fresh
    by_cases hbefore : u.before t = true
    · obtain ⟨ahead, behind, rfl, henter, hahead, hbehind⟩ := ih hrest hothers
      refine ⟨(u, g) :: ahead, behind, rfl, ?_, List.forall_mem_cons.2 ⟨hbefore, hahead⟩, hbehind⟩
      simp only [enter, if_pos hbefore, henter, List.cons_append]
    · have htu : t.before u = true := Turn.before_of_not_before hfirst (by simpa using hbefore)
      refine ⟨[], (u, g) :: rest, rfl, ?_, by simp,
        List.forall_mem_cons.2 ⟨htu, fun x hx => Turn.before_trans htu (hhead x hx)⟩⟩
      simp only [enter, if_neg hbefore, List.nil_append]

/-- What is pushed again under its rank comes behind the others of this rank, and before
those of a larger one. -/
theorem Intact.push_of_pop {w r : Ranked} {h : Handle} {rank : Nat} (hw : w.Intact)
    (e : w.pop? = some (h, r)) (hrank : ∀ t, (t, h) ∈ w.queue → t.rank = rank) :
    ∃ same larger : List (Turn × Handle), w.toList = h :: (same ++ larger).map Prod.snd ∧
      (r.push h rank).toList = same.map Prod.snd ++ h :: larger.map Prod.snd ∧
      (∀ x ∈ same, x ∈ w.queue ∧ x.1.rank = rank) ∧
      ∀ x ∈ larger, x ∈ w.queue ∧ rank < x.1.rank := by
  obtain ⟨queue, index, next⟩ := w
  cases queue with
  | nil => cases e
  | cons entry rest =>
    obtain ⟨t, g⟩ := entry
    cases e
    obtain ⟨hhead, hrest⟩ := List.pairwise_cons.1 hw.ordered
    have hfresh : ∀ x ∈ rest, x.1.serial < next := fun x hx =>
      hw.fresh x (List.mem_cons_of_mem _ hx)
    have ht : t.rank = rank := hrank t (List.mem_cons_self ..)
    obtain ⟨same, larger, rfl, henter, hahead, hbehind⟩ :=
      exists_enter_eq (t := ⟨rank, next⟩) h hrest hfresh
    refine ⟨same, larger, rfl, ?_, fun x hx => ?_, fun x hx => ?_⟩
    · show (enter ⟨rank, next⟩ h (same ++ larger)).map Prod.snd = _
      rw [henter, List.map_append, List.map_cons]
    · have hmem : x ∈ same ++ larger := List.mem_append_left _ hx
      refine ⟨List.mem_cons_of_mem _ hmem, ?_⟩
      have hfirst := hhead x hmem
      have hbefore := hahead x hx
      simp only [Turn.before, Bool.or_eq_true, decide_eq_true_eq, Bool.and_eq_true, beq_iff_eq]
        at hfirst hbefore
      omega
    · have hmem : x ∈ same ++ larger := List.mem_append_right _ hx
      refine ⟨List.mem_cons_of_mem _ hmem, ?_⟩
      have hserial := hfresh x hmem
      have hbefore := hbehind x hx
      simp only [Turn.before, Bool.or_eq_true, decide_eq_true_eq, Bool.and_eq_true, beq_iff_eq]
        at hbefore
      omega

end Ranked

namespace Frontier

def order : Frontier → TraversalOrder
  | fifo _ => .breadthFirst
  | lifo _ => .depthFirst
  | ranked _ => .topological

/-- The turns given out, where the order depends on them. -/
def turns : Frontier → List (Turn × Handle)
  | fifo _ => []
  | lifo _ => []
  | ranked w => w.queue

@[simp] theorem order_ofOrder (o : TraversalOrder) : (ofOrder o).order = o := by
  cases o <;> rfl

@[simp] theorem turns_ofOrder (o : TraversalOrder) : (ofOrder o).turns = [] := by
  cases o <;> rfl

@[simp] theorem order_push (w : Frontier) (h : Handle) (rank : Nat) :
    (w.push h rank).order = w.order := by
  cases w <;> rfl

theorem order_of_pop? {w r : Frontier} {h : Handle} (e : w.pop? = some (h, r)) :
    r.order = w.order := by
  cases w <;> obtain ⟨⟨g, v⟩, -, he⟩ := Option.map_eq_some_iff.1 e <;> cases he <;> rfl

@[simp] theorem order_remove (w : Frontier) (h : Handle) : (w.remove h).2.order = w.order := by
  cases w <;> rfl

@[simp] theorem order_clear (w : Frontier) : w.clear.order = w.order := by
  cases w <;> rfl

@[simp] theorem turns_clear (w : Frontier) : w.clear.turns = [] := by
  cases w <;> rfl

theorem mem_toList_of_mem_turns {w : Frontier} {x : Turn × Handle} (hx : x ∈ w.turns) :
    x.2 ∈ w.toList := by
  cases w with
  | ranked w => exact List.mem_map_of_mem hx
  | _ => cases hx

theorem mem_turns_push {w : Frontier} {h : Handle} {rank : Nat} {x : Turn × Handle}
    (hx : x ∈ (w.push h rank).turns) : x ∈ w.turns ∨ x.2 = h ∧ x.1.rank = rank := by
  cases w with
  | ranked w =>
    rcases List.mem_cons.1 ((Ranked.perm_enter _ h w.queue).mem_iff.1 hx) with rfl | hx
    · exact .inr ⟨rfl, rfl⟩
    · exact .inl hx
  | _ => cases hx

theorem mem_turns_of_pop? {w r : Frontier} {h : Handle} (e : w.pop? = some (h, r))
    {x : Turn × Handle} (hx : x ∈ r.turns) : x ∈ w.turns := by
  cases w with
  | ranked w =>
    obtain ⟨⟨g, v⟩, hpop, he⟩ := Option.map_eq_some_iff.1 e
    cases he
    obtain ⟨queue, index, next⟩ := w
    cases queue with
    | nil => cases hpop
    | cons entry rest =>
      cases hpop
      exact List.mem_cons_of_mem _ hx
  | _ =>
    obtain ⟨⟨g, v⟩, -, he⟩ := Option.map_eq_some_iff.1 e
    cases he
    cases hx

theorem mem_turns_remove {w : Frontier} {h : Handle} {x : Turn × Handle}
    (hx : x ∈ (w.remove h).2.turns) : x ∈ w.turns := by
  cases w with
  | ranked w =>
    have hqueue : x ∈ (w.remove h).2.queue := hx
    unfold Ranked.remove at hqueue
    split at hqueue
    · exact (List.mem_filter.1 hqueue).1
    · exact hqueue
  | _ => cases hx

end Frontier
end Reachability
