import Reachability.Proofs.Reached.View

/-! Operations are made of elementary changes.

A pair is published, removed or given another precision, enters or leaves the frontier,
becomes the latest, or everything is forgotten. What each of these changes keeps
(`Stable`), every operation keeps, and so does every sequence of operations. -/
namespace Reachability.Reached
variable {S P W : Type} [AbstractState S] [Waitlist W] [BEq S]

/-- What the elementary changes keep. A state is published only where no equal one is
found, and only a published pair becomes the latest. -/
structure Stable (Inv : Reached S P W → Prop) : Prop where
  seeds : ∀ {r} seeds, Inv r → Inv {r with seeds := seeds}
  latest : ∀ {r h s}, Inv r → r.state? h = some s → Inv {r with last := some h}
  enqueue : ∀ {r} h, Inv r → Inv (r.enqueue h).2
  pop : ∀ {r popped r'}, Inv r → r.pop = (popped, r') → Inv r'
  setPrecision : ∀ {r} h p, Inv r → Inv (r.setPrecision h p)
  publish : ∀ {r s} p, Inv r → r.find? s = none → Inv (r.publish s p).2
  removeHandle : ∀ {r} h, Inv r → Inv (r.removeHandle h)
  clear : ∀ {r}, Inv r → Inv r.clear

omit [BEq S] in
theorem removeHandle?_snd (r : Reached S P W) (h : Handle) :
    ((r.removeHandle? h).map Prod.snd).getD r = r.removeHandle h := by
  unfold removeHandle
  cases r.removeHandle? h <;> rfl

namespace Stable
variable {Inv : Reached S P W → Prop} {r : Reached S P W}

theorem removeHandles (hInv : Stable Inv) (gone : List Handle) (hr : Inv r) :
    Inv (gone.foldl Reached.removeHandle r) := by
  induction gone generalizing r with
  | nil => exact hr
  | cons h rest ih => exact ih (hInv.removeHandle h hr)

theorem remove (hInv : Stable Inv) (s : S) (hr : Inv r) : Inv (r.remove s).2 := by
  unfold Reached.remove
  cases hfind : r.find? s with
  | none => exact hr
  | some h =>
    have hremoved := hInv.removeHandle h hr
    rw [← removeHandle?_snd] at hremoved
    simp only [Option.bind_some]
    cases hrem : r.removeHandle? h with
    | none => exact hr
    | some removed => simpa [hrem] using hremoved

theorem updatePrecision (hInv : Stable Inv) (h : Handle) (p : P) (hr : Inv r) :
    Inv (r.updatePrecision h p).2 := by
  unfold Reached.updatePrecision
  split
  · exact hInv.enqueue h (hInv.setPrecision h p hr)
  · exact hr

variable [BEq P]

theorem add (hInv : Stable Inv) (s : S) (p : P) (hr : Inv r) : Inv (r.add s p).2 := by
  cases hfind : r.find? s with
  | none =>
    rw [add_of_find?_eq_none hfind]
    exact hInv.publish p hr hfind
  | some h =>
    obtain ⟨-, t, ht, -⟩ := find?_eq_some hfind
    have hraised : ((r.setPrecision h p).enqueue h).2.state? h = some t := by
      rw [state?_enqueue, state?_setPrecision, ht]
    unfold Reached.add
    simp only [hfind]
    split
    · split
      · exact hInv.latest (hInv.enqueue h (hInv.setPrecision h p hr)) hraised
      · exact hInv.latest hr ht
    · exact hInv.latest hr ht

theorem addAll (hInv : Stable Inv) (fresh : List (S × P)) (hr : Inv r) :
    Inv (fresh.foldl (fun r (s, p) => (r.add s p).2) r) := by
  induction fresh generalizing r with
  | nil => exact hr
  | cons pair rest ih => exact ih (hInv.add pair.1 pair.2 hr)

theorem perform (hInv : Stable Inv) (op : Operation S P) (hr : Inv r) : Inv (r.perform op).2 := by
  cases op with
  | addInitial s p => exact hInv.seeds _ hr
  | takeSeeds => exact hInv.seeds _ hr
  | add s p => exact hInv.add s p hr
  | removeHandle h =>
    have hremoved := hInv.removeHandle h hr
    rw [← removeHandle?_snd] at hremoved
    simp only [Reached.perform]
    cases hrem : r.removeHandle? h with
    | none => exact hr
    | some removed => simpa [hrem] using hremoved
  | remove s => exact hInv.remove s hr
  | update gone fresh => exact hInv.addAll fresh (hInv.removeHandles gone hr)
  | updatePrecision h p => exact hInv.updatePrecision h p hr
  | clear => exact hInv.clear hr
  | pop => exact hInv.pop hr rfl
  | enqueue h => exact hInv.enqueue h hr
  | isWaiting h => exact hr
  | get h => exact hr
  | lookUp s => exact hr
  | states => exact hr
  | waitingStates => exact hr

theorem performAll (hInv : Stable Inv) (ops : List (Operation S P)) (hr : Inv r) :
    Inv (r.performAll ops) := by
  induction ops generalizing r with
  | nil => exact hr
  | cons op rest ih => exact ih (hInv.perform op hr)

end Stable

/-! ### Every moment of a sequence -/

/-- Something holds before the operations, after them, and after each but the last. -/
def Throughout [BEq P] (Inv : Reached S P W → Prop) (r : Reached S P W)
    (ops : List (Operation S P)) : Prop :=
  ∀ done, done <+: ops → Inv (r.performAll done)

namespace Throughout
variable [BEq P] {Inv : Reached S P W → Prop} {r : Reached S P W} {ops rest : List (Operation S P)}

theorem nil (hr : Inv r) : Throughout Inv r [] := by
  intro done hdone
  rw [List.prefix_nil.1 hdone]
  exact hr

theorem last (h : Throughout Inv r ops) : Inv (r.performAll ops) :=
  h ops (List.prefix_refl ops)

theorem append (h : Throughout Inv r ops) (hrest : Throughout Inv (r.performAll ops) rest) :
    Throughout Inv r (ops ++ rest) := by
  intro done hdone
  rcases List.prefix_or_prefix_of_prefix hdone (List.prefix_append ops rest) with hshort | hlong
  · exact h done hshort
  · obtain ⟨more, rfl⟩ := hlong
    rw [performAll_append]
    exact hrest more ((List.prefix_append_right_inj ops).1 hdone)

theorem singleton {op : Operation S P} (hr : Inv r) (hop : Inv (r.perform op).2) :
    Throughout Inv r [op] := by
  intro done hdone
  rcases List.prefix_cons_iff.1 hdone with rfl | ⟨more, rfl, hmore⟩
  · exact hr
  · rw [List.prefix_nil.1 hmore]
    exact hop

theorem cons {op : Operation S P} (hr : Inv r) (h : Throughout Inv (r.perform op).2 ops) :
    Throughout Inv r (op :: ops) :=
  append (singleton hr (h [] (List.nil_prefix))) h

theorem mono {Other : Reached S P W → Prop} (h : Throughout Inv r ops)
    (hInv : ∀ r, Inv r → Other r) : Throughout Other r ops :=
  fun done hdone => hInv _ (h done hdone)

end Throughout

end Reachability.Reached
