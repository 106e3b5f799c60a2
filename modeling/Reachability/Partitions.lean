import Reachability.Handle

/-! The partition index: which handles were published at each location, in the
order of publication. A location with no handles is not in the index. -/
namespace Reachability

/-- Locations with their handles. -/
structure Partitions (L : Type) where
  groups : List (L × List Handle) := []

namespace Partitions
variable {L : Type} [DecidableEq L]

def enterGroup (l : L) (h : Handle) : List (L × List Handle) → List (L × List Handle)
  | [] => [(l, [h])]
  | (k, hs) :: rest => if k = l then (k, hs ++ [h]) :: rest else (k, hs) :: enterGroup l h rest

def leaveGroup (l : L) (h : Handle) : List (L × List Handle) → List (L × List Handle)
  | [] => []
  | (k, hs) :: rest =>
    if k = l then
      match hs.filter fun g => g != h with
      | [] => rest
      | kept => (k, kept) :: rest
    else (k, hs) :: leaveGroup l h rest

/-- The handles at a location. -/
def handles (p : Partitions L) (l : L) : List Handle :=
  (p.groups.lookup l).getD []

def enter (p : Partitions L) (l : L) (h : Handle) : Partitions L :=
  ⟨enterGroup l h p.groups⟩

def leave (p : Partitions L) (l : L) (h : Handle) : Partitions L :=
  ⟨leaveGroup l h p.groups⟩

/-- How many locations are occupied. -/
def count (p : Partitions L) : Nat :=
  p.groups.length

/-- The size of the largest group. -/
def maxSize (p : Partitions L) : Nat :=
  p.groups.foldr (fun group most => max group.2.length most) 0

@[simp] theorem handles_empty (l : L) : ({} : Partitions L).handles l = [] := rfl

theorem lookup_enterGroup (l k : L) (h : Handle) (groups : List (L × List Handle)) :
    ((enterGroup l h groups).lookup k).getD [] =
      if k = l then (groups.lookup l).getD [] ++ [h] else (groups.lookup k).getD [] := by
  induction groups with
  | nil =>
    by_cases hkl : k = l
    · simp [enterGroup, hkl]
    · have hb : (k == l) = false := beq_false_of_ne hkl
      simp [enterGroup, List.lookup_cons, hb, hkl]
  | cons group rest ih =>
    obtain ⟨m, hs⟩ := group
    by_cases hm : m = l
    · subst hm
      by_cases hkm : k = m
      · subst hkm
        simp [enterGroup]
      · have hb : (k == m) = false := beq_false_of_ne hkm
        simp [enterGroup, List.lookup_cons, hb, hkm]
    · have hlm : (l == m) = false := beq_false_of_ne (Ne.symm hm)
      by_cases hkm : k = m
      · subst hkm
        simp [enterGroup, hm]
      · have hb : (k == m) = false := beq_false_of_ne hkm
        simp only [enterGroup, if_neg hm, List.lookup_cons, hb, hlm]
        exact ih

/-- Entering a handle puts it behind the others of its location. -/
theorem handles_enter (p : Partitions L) (l k : L) (h : Handle) :
    (p.enter l h).handles k = if k = l then p.handles l ++ [h] else p.handles k :=
  lookup_enterGroup l k h p.groups

end Partitions
end Reachability
