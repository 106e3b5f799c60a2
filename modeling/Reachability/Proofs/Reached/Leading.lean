import Mathlib.Data.List.Induction
import Reachability.Proofs.Reached.Publication

/-! Whose state is the first.

What happens to the pairs of a reached set is a chronicle of publications and removals. The pair
published first leads, until it is removed; then nobody leads until the next pair is published,
and this one leads in its turn (`Deed.Leads`). The first state is that of the leader
(`leads_performAll`). So it need not be the state that was published first of all, and once that
one is removed there may be a first state again (`Counter.succeeded_not_firstEver`). -/
namespace Reachability

/-- What happens to pairs. -/
inductive Deed (S : Type) where
  | published (h : Handle) (s : S)
  | removed (h : Handle)
deriving DecidableEq

namespace Deed
variable {S : Type}

/-- Nothing is published. -/
def Quiet (ds : List (Deed S)) : Prop :=
  ∀ h s, published h s ∉ ds

/-- Who leads after the deeds: nobody before the first publication; then the pair published
first, or, if that is removed, whoever leads by the deeds after its removal. -/
inductive Leads : List (Deed S) → Option (Handle × S) → Prop where
  | vacant {ds} (hquiet : Quiet ds) : Leads ds none
  | reigns {before after h s} (hquiet : Quiet before) (hstays : removed h ∉ after) :
      Leads (before ++ published h s :: after) (some (h, s))
  | succeeded {before reign after h s leader} (hquiet : Quiet before) (hstays : removed h ∉ reign)
      (hafter : Leads after leader) :
      Leads (before ++ published h s :: (reign ++ removed h :: after)) leader

/-- The first state is that of the pair published first of all, until this pair is removed, and
from then on there is none. -/
def FirstEver (ds : List (Deed S)) (first : Option S) : Prop :=
  ∀ before h s after, ds = before ++ published h s :: after → Quiet before →
    (removed h ∉ after → first = some s) ∧ (removed h ∈ after → first = none)

/-- The leader after one more deed. -/
def succeed : Option (Handle × S) → Deed S → Option (Handle × S)
  | none, published h s => some (h, s)
  | none, removed _ => none
  | some leader, published _ _ => some leader
  | some leader, removed h => if h = leader.1 then none else some leader

/-! ### The leader is determined by the deeds -/

theorem quiet_append_iff {ds es : List (Deed S)} : Quiet (ds ++ es) ↔ Quiet ds ∧ Quiet es := by
  simp only [Quiet, List.mem_append, not_or, forall_and]

theorem quiet_removed (gone : List Handle) : Quiet (gone.map removed : List (Deed S)) := by
  simp [Quiet]

theorem foldl_succeed_of_quiet {ds : List (Deed S)} (hquiet : Quiet ds) :
    ds.foldl succeed none = none := by
  induction ds with
  | nil => rfl
  | cons d rest ih =>
    rw [← List.singleton_append, quiet_append_iff] at hquiet
    cases d with
    | published h s => exact absurd (List.mem_singleton_self _) (hquiet.1 h s)
    | removed h => exact ih hquiet.2

theorem foldl_succeed_of_stays {ds : List (Deed S)} {h : Handle} (hstays : removed h ∉ ds) (s : S) :
    ds.foldl succeed (some (h, s)) = some (h, s) := by
  induction ds with
  | nil => rfl
  | cons d rest ih =>
    rw [List.mem_cons, not_or] at hstays
    cases d with
    | published g t => exact ih hstays.2
    | removed g =>
      have hne : g ≠ h := fun hgh => hstays.1 (hgh ▸ rfl)
      rw [List.foldl_cons, succeed, if_neg hne]
      exact ih hstays.2

theorem Leads.foldl_eq {ds : List (Deed S)} {leader : Option (Handle × S)} (hleads : Leads ds leader) :
    ds.foldl succeed none = leader := by
  induction hleads with
  | vacant hquiet => exact foldl_succeed_of_quiet hquiet
  | reigns hquiet hstays =>
    rw [List.foldl_append, foldl_succeed_of_quiet hquiet, List.foldl_cons]
    exact foldl_succeed_of_stays hstays _
  | succeeded hquiet hstays _ ih =>
    rw [List.foldl_append, foldl_succeed_of_quiet hquiet, List.foldl_cons, List.foldl_append, succeed,
      foldl_succeed_of_stays hstays, List.foldl_cons, succeed, if_pos rfl]
    exact ih

/-- One more deed, and who leads then. -/
theorem Leads.succeed {ds : List (Deed S)} {leader : Option (Handle × S)} (hleads : Leads ds leader)
    (d : Deed S) : Leads (ds ++ [d]) (succeed leader d) := by
  induction hleads with
  | @vacant ds hquiet =>
    cases d with
    | published h s => exact .reigns hquiet List.not_mem_nil
    | removed h => exact .vacant (quiet_append_iff.2 ⟨hquiet, quiet_removed [h]⟩)
  | @reigns before after h s hquiet hstays =>
    rw [List.append_assoc, List.cons_append]
    cases d with
    | published g t => exact .reigns hquiet (by simpa using hstays)
    | removed g =>
      rw [Deed.succeed]
      split
      · rename_i hgh
        subst hgh
        exact .succeeded hquiet hstays (.vacant fun _ _ => List.not_mem_nil)
      · rename_i hne
        exact .reigns hquiet (by simpa [Ne.symm hne] using hstays)
  | succeeded hquiet hstays _ ih =>
    rw [List.append_assoc, List.cons_append, List.append_assoc, List.cons_append]
    exact .succeeded hquiet hstays ih

theorem leads_foldl (ds : List (Deed S)) : Leads ds (ds.foldl Deed.succeed none) := by
  induction ds using List.reverseRecOn with
  | nil => exact .vacant fun _ _ => List.not_mem_nil
  | append_singleton ds d ih =>
    rw [List.foldl_append]
    exact ih.succeed d

/-- There is one leader or none, and the deeds say who. -/
theorem leads_iff {ds : List (Deed S)} {leader : Option (Handle × S)} :
    Leads ds leader ↔ ds.foldl succeed none = leader :=
  ⟨Leads.foldl_eq, fun heq => heq ▸ leads_foldl ds⟩

/-- A leader whose pair is removed leads no longer. -/
theorem foldl_succeed_of_removed {gone : List Handle} {leader : Handle × S}
    (hmem : leader.1 ∈ gone) : (gone.map removed).foldl succeed (some leader) = none := by
  induction gone with
  | nil => cases hmem
  | cons h rest ih =>
    rw [List.map_cons, List.foldl_cons, succeed]
    by_cases hl : h = leader.1
    · rw [if_pos hl]
      exact foldl_succeed_of_quiet (quiet_removed rest)
    · rw [if_neg hl]
      exact ih ((List.mem_cons.1 hmem).resolve_left (Ne.symm hl))

end Deed

namespace Reached
variable {S P W : Type} [AbstractState S] [Waitlist W] [BEq S] [BEq P]

/-- What an operation that is no batch does to pairs. -/
def deeds (r : Reached S P W) : Operation S P → List (Deed S)
  | .add s p => if r.arena.contains (r.add s p).1 then [] else [.published (r.add s p).1 s]
  | op => (r.removed op).map .removed

/-- The deeds of operations that are no batches. -/
def deedsOf (r : Reached S P W) : List (Operation S P) → List (Deed S)
  | [] => []
  | op :: ops => r.deeds op ++ (r.perform op).2.deedsOf ops

/-- What a sequence of operations does to pairs, batches taken apart. -/
def chronicle (r : Reached S P W) (ops : List (Operation S P)) : List (Deed S) :=
  r.deedsOf (ops.flatMap Operation.parts)

/-- The leader gives the first state. -/
def LedBy (r : Reached S P W) (leader : Option (Handle × S)) : Prop :=
  r.first = leader.map Prod.fst ∧ r.firstState? = leader.map Prod.snd

/-! ### One operation after the other -/

section
variable {r r' : Reached S P W} {leader : Option (Handle × S)}

omit [Waitlist W] [BEq S] [BEq P]

theorem LedBy.unique {other : Option (Handle × S)} (hr : r.LedBy leader) (hother : r.LedBy other) :
    leader = other := by
  have hhandle := hr.1.symm.trans hother.1
  have hstate := hr.2.symm.trans hother.2
  cases leader <;> cases other <;> simp_all [Prod.ext_iff]

theorem ledBy_none_iff : r.LedBy none ↔ r.first = none := by
  constructor
  · exact And.left
  · intro hfirst
    exact ⟨hfirst, by rw [firstState?, hfirst]; rfl⟩

theorem ledBy_some_iff {h : Handle} {s : S} :
    r.LedBy (some (h, s)) ↔ r.first = some h ∧ r.state? h = some s := by
  refine and_congr_right fun hfirst => ?_
  have hname : r.first = some h := hfirst
  rw [firstState?, hname]
  rfl

/-- Who led, leads, if nothing happens to the leader's pair. -/
theorem LedBy.congr (hr : r.LedBy leader) (hfirst : r'.first = r.first)
    (hpairs : ∀ h, r'.state? h = r.state? h) : r'.LedBy leader := by
  have hview : r'.state? = r.state? := funext hpairs
  rw [LedBy, firstState?, hfirst, hview]
  exact hr

end

section
variable {r r' : Reached S P W} {leader : Option (Handle × S)}

omit [BEq S] [BEq P]

theorem LedBy.publish (hr : r.LedBy leader) (s : S) (p : P) :
    (r.publish s p).2.LedBy (Deed.succeed leader (.published (r.nextHandle s p) s)) := by
  have hview : ∀ h, (r.publish s p).2.state? h =
      if h = r.nextHandle s p then some s else r.state? h := fun h => by
    simp only [state?, get?_publish]
    split <;> rfl
  have hfirst := (ends_publish r s p).1
  cases leader with
  | none =>
    rw [ledBy_none_iff] at hr
    exact ledBy_some_iff.2 ⟨by rw [hfirst, hr]; rfl, by rw [hview, if_pos rfl]⟩
  | some l =>
    obtain ⟨hl, hs⟩ := ledBy_some_iff.1 hr
    have hold : l.1 ≠ r.nextHandle s p := fun heq => by
      rw [heq, state?, get?_nextHandle] at hs
      cases hs
    exact ledBy_some_iff.2 ⟨by rw [hfirst, hl]; rfl, by rw [hview, if_neg hold, hs]⟩

theorem first_removeHandle {h : Handle} (hlive : r.arena.contains h = true) :
    (r.removeHandle h).first = if r.first = some h then none else r.first := by
  unfold removeHandle removeHandle?
  cases hrem : r.arena.remove? h with
  | none =>
    rw [Arena.contains_eq, Arena.remove?_eq_none_iff.1 hrem] at hlive
    cases hlive
  | some removed => rfl

theorem removeHandle_eq_self {h : Handle} (hdead : r.arena.contains h = false) :
    r.removeHandle h = r := by
  have hnone : r.arena.remove? h = none := Arena.remove?_eq_none_iff.2 (by
    rwa [Arena.contains_eq, Option.isSome_eq_false_iff, Option.isNone_iff_eq_none] at hdead)
  unfold removeHandle removeHandle?
  rw [hnone]

theorem LedBy.removeHandle (hr : r.LedBy leader) {h : Handle} (hlive : r.arena.contains h = true) :
    (r.removeHandle h).LedBy (Deed.succeed leader (.removed h)) := by
  have hfirst := first_removeHandle hlive
  cases leader with
  | none =>
    rw [ledBy_none_iff] at hr
    exact ledBy_none_iff.2 (by rw [hfirst, hr, ite_self])
  | some l =>
    obtain ⟨hl, hs⟩ := ledBy_some_iff.1 hr
    rw [Deed.succeed]
    by_cases hlh : h = l.1
    · rw [if_pos (hl.trans (congrArg some hlh.symm))] at hfirst
      rw [if_pos hlh]
      exact ledBy_none_iff.2 hfirst
    · have hother : r.first ≠ some h := fun heq => hlh (Option.some.inj (heq.symm.trans hl))
      rw [if_neg hother] at hfirst
      rw [if_neg hlh]
      exact ledBy_some_iff.2
        ⟨hfirst.trans hl, by rw [state?_removeHandle, if_neg (Ne.symm hlh), hs]⟩

theorem LedBy.removeHandles (gone : List Handle) (hr : r.LedBy leader) :
    (gone.foldl Reached.removeHandle r).LedBy
      (((r.dropped gone).map .removed).foldl Deed.succeed leader) := by
  induction gone generalizing r leader with
  | nil => exact hr
  | cons h rest ih =>
    rw [List.foldl_cons, dropped, List.map_append, List.foldl_append]
    refine ih ?_
    by_cases hlive : r.arena.contains h = true
    · rw [if_pos hlive]
      exact hr.removeHandle hlive
    · rw [if_neg hlive, removeHandle_eq_self (by simpa using hlive)]
      exact hr

/-- Whoever led is forgotten with the rest. -/
theorem LedBy.clear (hr : r.LedBy leader) :
    r.clear.LedBy (((r.entries.map Prod.fst).map .removed).foldl Deed.succeed leader) := by
  have hnobody : ((r.entries.map Prod.fst).map .removed).foldl Deed.succeed leader = none := by
    cases leader with
    | none => exact Deed.foldl_succeed_of_quiet (Deed.quiet_removed _)
    | some l =>
      have hlive : r.arena.contains l.1 = true :=
        contains_iff_state?.2 ⟨l.2, (ledBy_some_iff.1 hr).2⟩
      exact Deed.foldl_succeed_of_removed (Arena.mem_handles_iff.2 hlive)
  rw [hnobody]
  exact ledBy_none_iff.2 rfl

end

section
variable {r : Reached S P W} {leader : Option (Handle × S)}

/-- Only a pair that is new may come to lead. -/
theorem LedBy.add (hr : r.LedBy leader) (s : S) (p : P) :
    (r.add s p).2.LedBy ((r.deeds (.add s p)).foldl Deed.succeed leader) := by
  cases hfind : r.find? s with
  | none =>
    have hnew : r.arena.contains (r.publish s p).1 = false := by
      rw [Arena.contains_eq]
      exact congrArg Option.isSome (get?_nextHandle r s p)
    simp only [deeds, add_of_find?_eq_none hfind, hnew]
    exact hr.publish s p
  | some h =>
    obtain ⟨-, t, ht, -⟩ := find?_eq_some hfind
    have hknown : r.arena.contains h = true := contains_iff_state?.2 ⟨t, ht⟩
    simp only [deeds, Reached.add, hfind, hknown, if_true, List.foldl_nil]
    split
    · split
      · exact hr.congr (ends_enqueue ..).1 fun _ => (state?_enqueue ..).trans (state?_setPrecision ..)
      · exact hr.congr rfl fun _ => rfl
    · exact hr.congr rfl fun _ => rfl

theorem LedBy.perform (hr : r.LedBy leader) {op : Operation S P} (hsingle : op.parts = [op]) :
    (r.perform op).2.LedBy ((r.deeds op).foldl Deed.succeed leader) := by
  cases op with
  | add s p => exact hr.add s p
  | removeHandle h =>
    rw [perform_removeHandle]
    exact hr.removeHandles [h]
  | remove s =>
    rw [perform_remove]
    exact hr.removeHandles _
  | update gone fresh => cases Operation.not_mem_parts_update (hsingle ▸ List.mem_singleton_self _)
  | updatePrecision h p =>
    simp only [Reached.perform, updatePrecision]
    split
    · exact hr.congr (ends_enqueue ..).1 fun _ => (state?_enqueue ..).trans (state?_setPrecision ..)
    · exact hr
  | clear => exact hr.clear
  | pop => exact hr.congr (ends_of_pop rfl).1 (state?_of_pop rfl)
  | enqueue h => exact hr.congr (ends_enqueue r h).1 (state?_enqueue r h)
  | _ => exact hr.congr rfl fun _ => rfl

theorem LedBy.performAll (hr : r.LedBy leader) {ops : List (Operation S P)}
    (hsingle : ∀ op ∈ ops, op.parts = [op]) :
    (r.performAll ops).LedBy ((r.deedsOf ops).foldl Deed.succeed leader) := by
  induction ops generalizing r leader with
  | nil => exact hr
  | cons op rest ih =>
    obtain ⟨hop, hrest⟩ := List.forall_mem_cons.1 hsingle
    rw [deedsOf, List.foldl_append]
    exact ih (hr.perform hop) hrest

end

/-- **Whatever operations are performed on an empty reached set**, with whatever waitlist, the
first handle and the first state are those of the pair that leads by the chronicle, and there are
none while nobody leads. -/
theorem leads_performAll (w : W) (ops : List (Operation S P)) (leader : Option (Handle × S)) :
    Deed.Leads (({ waitlist := w } : Reached S P W).chronicle ops) leader ↔
      (({ waitlist := w } : Reached S P W).performAll ops).first = leader.map Prod.fst ∧
      (({ waitlist := w } : Reached S P W).performAll ops).firstState? = leader.map Prod.snd := by
  have hled := (ledBy_none_iff (r := ({ waitlist := w } : Reached S P W)).2 rfl).performAll
    (Operation.single_parts ops)
  rw [performAll_flatMap_parts] at hled
  rw [Deed.leads_iff]
  constructor
  · intro hleader
    exact hleader ▸ hled
  · intro hleader
    exact hled.unique hleader

end Reached

/-! Intervals of the demonstration. The state that was published first of all is removed, and
the next that is published takes its place, ahead of one that has been there for longer. -/
namespace Counter

def succession : List (Operation Interval Unit) :=
  [.add ⟨.loop, 0, 0⟩ (), .add ⟨.loop, 1, 1⟩ (), .removeHandle ⟨0, 0⟩, .add ⟨.loop, 2, 2⟩ ()]

theorem succeeded_not_firstEver : ¬ ∀ ops : List (Operation Interval Unit), Operation.clear ∉ ops →
    Deed.FirstEver ((Reached.ofOrder .breadthFirst : Reached Interval Unit Frontier).chronicle ops)
      ((Reached.ofOrder .breadthFirst : Reached Interval Unit Frontier).performAll ops).firstState? := by
  intro hfirstEver
  have hchronicle : (Reached.ofOrder .breadthFirst : Reached Interval Unit Frontier).chronicle
      succession = [] ++ .published ⟨0, 0⟩ ⟨.loop, 0, 0⟩ :: [.published ⟨1, 0⟩ ⟨.loop, 1, 1⟩,
        .removed ⟨0, 0⟩, .published ⟨0, 1⟩ ⟨.loop, 2, 2⟩] := by
    decide +kernel
  have hnone := (hfirstEver succession (by simp [succession]) _ _ _ _ hchronicle
    fun _ _ => List.not_mem_nil).2 (by simp)
  have hfirst : ((Reached.ofOrder .breadthFirst : Reached Interval Unit Frontier).performAll
      succession).firstState? = some ⟨.loop, 2, 2⟩ := by
    decide +kernel
  rw [hfirst] at hnone
  cases hnone

end Counter
end Reachability
