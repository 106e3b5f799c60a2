import Mathlib.Algebra.GroupWithZero.Nat
import Mathlib.Data.List.Perm.Subperm
import Reachability.Proofs.Explicit

/-! Lists of states in which no two are equal.

Equality is the domain's own, so such lists are not compared by membership but by matching: if
each state of one list has an equal in another, then it has a partner of its own there
(`Differing.exists_partners`). So the first list is no longer than the second, and what is added
up over states, as long as it does not tell equal ones apart, is the same for both if each has
its equals in the other. The nodes of a finite graph, each listed once, are such a list. -/
namespace Reachability

variable {S P : Type} [BEq S]

/-- No two of the states are equal. -/
def Differing (l : List S) : Prop :=
  l.Pairwise fun s t => (s == t) = false

namespace Differing
variable {l m : List S}

theorem sublist {l' : List S} (hl : Differing l) (h : l'.Sublist l) : Differing l' :=
  List.Pairwise.sublist h hl

/-- States that differ have partners of their own among their equals. -/
theorem exists_partners [PartialEquivBEq S] (hl : Differing l)
    (hequal : ∀ s ∈ l, ∃ t ∈ m, (s == t) = true) :
    ∃ n : List S, n.Subperm m ∧ (∀ t ∈ n, ∃ s ∈ l, (s == t) = true) ∧
      ∀ f : S → Nat, (∀ s t, (s == t) = true → f s = f t) → l.map f = n.map f := by
  induction l with
  | nil => exact ⟨[], List.nil_subperm, fun _ ht => (List.not_mem_nil ht).elim, fun _ _ => rfl⟩
  | cons s rest ih =>
    obtain ⟨hdiffers, hrest⟩ := List.pairwise_cons.1 hl
    obtain ⟨⟨t, ht, hst⟩, hothers⟩ := List.forall_mem_cons.1 hequal
    obtain ⟨n, hn, hpartners, hmap⟩ := ih hrest hothers
    have hfree : t ∉ n := fun hmem => by
      obtain ⟨u, hu, hut⟩ := hpartners t hmem
      have hsame := PartialEquivBEq.trans hst (PartialEquivBEq.symm hut)
      rw [hdiffers u hu] at hsame
      cases hsame
    refine ⟨t :: n, List.cons_subperm_of_not_mem_of_mem hfree ht hn, fun u hu => ?_, fun f hf => ?_⟩
    · rcases List.mem_cons.1 hu with rfl | hu
      · exact ⟨s, List.mem_cons_self .., hst⟩
      · obtain ⟨v, hv, hvu⟩ := hpartners u hu
        exact ⟨v, List.mem_cons_of_mem s hv, hvu⟩
    · rw [List.map_cons, List.map_cons, hf s t hst, hmap f hf]

theorem length_le [PartialEquivBEq S] (hl : Differing l)
    (hequal : ∀ s ∈ l, ∃ t ∈ m, (s == t) = true) : l.length ≤ m.length := by
  obtain ⟨n, hn, -, hmap⟩ := hl.exists_partners hequal
  have hlength := congrArg List.length (hmap (fun _ => 0) fun _ _ _ => rfl)
  rw [List.length_map, List.length_map] at hlength
  rw [hlength]
  exact hn.length_le

end Differing

namespace SameStates
variable {l m n : List S} [PartialEquivBEq S]

omit [PartialEquivBEq S] in
theorem symm (h : SameStates l m) : SameStates m l :=
  ⟨h.2, h.1⟩

theorem trans (h₁ : SameStates l m) (h₂ : SameStates m n) : SameStates l n := by
  constructor
  · intro s hs
    obtain ⟨t, ht, hst⟩ := h₁.1 s hs
    obtain ⟨u, hu, htu⟩ := h₂.1 t ht
    exact ⟨u, hu, PartialEquivBEq.trans hst htu⟩
  · intro u hu
    obtain ⟨t, ht, hut⟩ := h₂.2 u hu
    obtain ⟨s, hs, hts⟩ := h₁.2 t ht
    exact ⟨s, hs, PartialEquivBEq.trans hut hts⟩

theorem length_eq (h : SameStates l m) (hl : Differing l) (hm : Differing m) :
    l.length = m.length :=
  Nat.le_antisymm (hl.length_le h.1) (hm.length_le h.2)

theorem sum_eq (h : SameStates l m) (hl : Differing l) (hm : Differing m) {f : S → Nat}
    (hf : ∀ s t, (s == t) = true → f s = f t) : (l.map f).sum = (m.map f).sum := by
  obtain ⟨n, hn, -, hmap⟩ := hl.exists_partners h.1
  have hlength := congrArg List.length (hmap f hf)
  rw [List.length_map, List.length_map] at hlength
  have hperm : n.Perm m :=
    hn.perm_of_length_le (Nat.le_of_eq (hlength ▸ (h.length_eq hl hm).symm))
  rw [hmap f hf]
  exact (hperm.map f).sum_nat

end SameStates

/-! ### The first of each kind -/

section First
variable [EquivBEq S]

theorem sameStates_eraseDups (l : List S) : SameStates l.eraseDups l := by
  match l with
  | [] => exact .refl []
  | s :: rest =>
    obtain ⟨hsound, hcomplete⟩ := sameStates_eraseDups (rest.filter fun t => !t == s)
    rw [List.eraseDups_cons]
    constructor
    · intro t ht
      rcases List.mem_cons.1 ht with rfl | ht
      · exact ⟨t, List.mem_cons_self .., BEq.refl t⟩
      · obtain ⟨u, hu, htu⟩ := hsound t ht
        exact ⟨u, List.mem_cons_of_mem s (List.mem_of_mem_filter hu), htu⟩
    · intro t ht
      cases hts : t == s with
      | true => exact ⟨s, List.mem_cons_self .., hts⟩
      | false =>
        have hmem : t ∈ rest := (List.mem_cons.1 ht).resolve_left fun heq => by
          rw [heq, BEq.refl] at hts
          cases hts
        obtain ⟨u, hu, htu⟩ := hcomplete t (List.mem_filter.2 ⟨hmem, by rw [hts]; rfl⟩)
        exact ⟨u, List.mem_cons_of_mem s hu, htu⟩
termination_by l.length
decreasing_by exact Nat.lt_succ_of_le (List.length_filter_le ..)

theorem differing_eraseDups (l : List S) : Differing l.eraseDups := by
  match l with
  | [] => exact .nil
  | s :: rest =>
    rw [List.eraseDups_cons]
    refine List.pairwise_cons.2 ⟨fun t ht => ?_, differing_eraseDups _⟩
    obtain ⟨u, hu, htu⟩ := (sameStates_eraseDups _).1 t ht
    have hdiffers := (List.mem_filter.1 hu).2
    cases hst : s == t with
    | false => rfl
    | true =>
      have hsame := PartialEquivBEq.symm (PartialEquivBEq.trans hst htu)
      rw [hsame] at hdiffers
      cases hdiffers
termination_by l.length
decreasing_by exact Nat.lt_succ_of_le (List.length_filter_le ..)

end First

/-! ### Nodes -/

/-- These are the states reachable from the seeds, each once up to equality. -/
structure Lists (succs : S → List S) (seeds : List (S × P)) (nodes : List S) : Prop where
  complete : ∀ t, Reachable (fun s _ t => t ∈ succs s) seeds t → ∃ s ∈ nodes, (t == s) = true
  sound : ∀ s ∈ nodes, ∃ t, Reachable (fun s _ t => t ∈ succs s) seeds t ∧ (s == t) = true
  differing : Differing nodes

theorem Reached.Exact.lists [AbstractState S] {succs : S → List S} {seeds : List (S × P)}
    {r : Reached S P Frontier} (hr : r.Exact succs seeds) : Lists succs seeds r.states :=
  ⟨hr.complete, hr.sound, hr.distinct⟩

/-- What is published exactly is what is listed. -/
theorem Reached.Exact.sameStates [AbstractState S] [EquivBEq S] {succs : S → List S}
    {seeds : List (S × P)} {r : Reached S P Frontier} {nodes : List S} (hr : r.Exact succs seeds)
    (hnodes : Lists succs seeds nodes) : SameStates r.states nodes := by
  constructor
  · intro s hs
    obtain ⟨t, ht, hst⟩ := hr.sound s hs
    obtain ⟨u, hu, htu⟩ := hnodes.complete t ht
    exact ⟨u, hu, PartialEquivBEq.trans hst htu⟩
  · intro s hs
    obtain ⟨t, ht, hst⟩ := hnodes.sound s hs
    obtain ⟨u, hu, htu⟩ := hr.complete t ht
    exact ⟨u, hu, PartialEquivBEq.trans hst htu⟩

end Reachability
