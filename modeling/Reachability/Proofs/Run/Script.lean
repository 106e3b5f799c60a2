import Reachability.Proofs.Run.Evolution

/-! The script of a run: the operations that it performs, in order.

A run touches its reached set by operations only. Which ones they are is computed here part by
part, along the functions of an exploration: what a part leaves behind is what performing its
script leads to (`reached_run`). So the moments of a run are the beginnings of its script, and
`Throughout` says that something holds at each of them. -/
namespace Reachability

namespace Exploration
variable {ω S P W : Type} [AbstractState S] [Waitlist W] [BEq S] [BEq P] (a : Analysis ω S P W)

/-! ### Successors -/

/-- An uncovered successor is published. -/
def settleScript (s : S) (p : P) (x : Exploration ω S P W) : List (Operation S P) :=
  match (isCovered a s p x).1 with
  | .ok false => [.add s p]
  | _ => []

omit [Waitlist W] [BEq S] [BEq P] in
@[simp] theorem reached_isCovered (s : S) (p : P) (x : Exploration ω S P W) :
    (isCovered a s p x).2.reached = x.reached :=
  reached_ask (x.start .stop) _

theorem reached_settle (s : S) (p : P) (x : Exploration ω S P W) :
    (settle a s p x).2.reached = x.reached.performAll (settleScript a s p x) := by
  have hreached := reached_isCovered a s p x
  unfold settle settleScript
  generalize isCovered a s p x = asked at hreached ⊢
  obtain ⟨answer, y⟩ := asked
  simp only at hreached
  match answer with
  | .error e => exact hreached
  | .ok true => exact hreached
  | .ok false => exact congrArg (fun r => (r.add s p).2) hreached

theorem reached_settleHalt (s : S) (p : P) (x : Exploration ω S P W) :
    (settleHalt a s p x).2.reached = x.reached.performAll (settleScript a s p x) := by
  have hreached := reached_isCovered a s p x
  unfold settleHalt settleScript
  generalize isCovered a s p x = asked at hreached ⊢
  obtain ⟨answer, y⟩ := asked
  simp only at hreached
  match answer with
  | .error e => exact hreached
  | .ok true => exact hreached
  | .ok false => exact congrArg (fun r => (r.add s p).2) hreached

/-- What a successor changes among the candidates for a merge. -/
def changedBy (s : S) (p : P) (x : Exploration ω S P W) : List (Handle × S) :=
  let candidates := x.reached.handlesAt s
  (scan a s p candidates ((x.note (.considering candidates.length)).start .merge)).changed

/-- The candidates that changed are replaced. -/
def mergeScript (s : S) (p : P) (x : Exploration ω S P W) : List (Operation S P) :=
  match changedBy a s p x with
  | [] => []
  | changed => [.update (changed.map Prod.fst) (changed.map fun c => (c.2, p))]

theorem reached_mergeInto (s : S) (p : P) (x : Exploration ω S P W) :
    (mergeInto a s p x).2.reached = x.reached.performAll (mergeScript a s p x) := by
  unfold mergeInto mergeScript changedBy
  simp only
  split
  · rename_i hempty
    rw [List.isEmpty_iff.1 hempty]
    rfl
  · have hafter := (Effect.scan_effect a s p (x.reached.handlesAt s)
      ((x.note (.considering (x.reached.handlesAt s).length)).start .merge)).2
    generalize scan a s p (x.reached.handlesAt s)
      ((x.note (.considering (x.reached.handlesAt s).length)).start .merge) = scanned at hafter ⊢
    rw [reached_stop, Effect.reached_replace, hafter]
    cases scanned.changed <;> rfl

def mergeAndSettleScript (s : S) (p : P) (x : Exploration ω S P W) : List (Operation S P) :=
  if a.merge.separates then settleScript a s p x
  else
    mergeScript a s p x ++
      match mergeInto a s p x with
      | (some _, _) => []
      | (none, y) => settleScript a s p y

theorem reached_mergeAndSettle (s : S) (p : P) (x : Exploration ω S P W) :
    (mergeAndSettle a s p x).2.reached = x.reached.performAll (mergeAndSettleScript a s p x) := by
  have hmerged := reached_mergeInto a s p x
  unfold mergeAndSettle mergeAndSettleScript
  split
  · exact reached_settle a s p x
  · rw [Reached.performAll_append, ← hmerged]
    generalize mergeInto a s p x = merged
    obtain ⟨abort, y⟩ := merged
    cases abort with
    | some e => rfl
    | none => exact reached_settle a s p y

/-- The adjustment of a successor, asked. -/
def askAdjust (source s : S) (p : P) (x : Exploration ω S P W) :
    Except Abort (Option (Adjusted S P)) × Exploration ω S P W :=
  (x.note (.successor source s)).timed .adjust fun x => x.ask (a.adjust s p x.reached)

omit [Waitlist W] [BEq S] [BEq P] in
@[simp] theorem reached_askAdjust (source s : S) (p : P) (x : Exploration ω S P W) :
    (askAdjust a source s p x).2.reached = x.reached :=
  reached_ask ((x.note (.successor source s)).start .adjust) _

def handleSuccessorScript (source s : S) (p : P) (x : Exploration ω S P W) :
    List (Operation S P) :=
  if x.shutdown.requested then []
  else
    match askAdjust a source s p x with
    | (.ok (some ⟨t, q, .halt⟩), y) => settleScript a t q y
    | (.ok (some ⟨t, q, .proceed⟩), y) => mergeAndSettleScript a t q y
    | _ => []

theorem handleSuccessor_eq (source s : S) (p : P) (x : Exploration ω S P W) :
    handleSuccessor a source s p x =
      if x.shutdown.requested then (.abort .interrupted, x)
      else
        match askAdjust a source s p x with
        | (.error e, y) => (.abort e, y)
        | (.ok none, y) => (.onward, y.note .pruned)
        | (.ok (some ⟨t, q, .halt⟩), y) => settleHalt a t q y
        | (.ok (some ⟨t, q, .proceed⟩), y) => mergeAndSettle a t q y := rfl

theorem reached_handleSuccessor (source s : S) (p : P) (x : Exploration ω S P W) :
    (handleSuccessor a source s p x).2.reached =
      x.reached.performAll (handleSuccessorScript a source s p x) := by
  have hreached := reached_askAdjust a source s p x
  rw [handleSuccessor_eq]
  unfold handleSuccessorScript
  split
  · rfl
  · generalize askAdjust a source s p x = asked at hreached ⊢
    obtain ⟨answer, y⟩ := asked
    simp only at hreached
    rw [← hreached]
    match answer with
    | .error e => rfl
    | .ok none => rfl
    | .ok (some ⟨t, q, .halt⟩) => exact reached_settleHalt a t q y
    | .ok (some ⟨t, q, .proceed⟩) => exact reached_mergeAndSettle a t q y

def handleSuccessorsScript (h : Handle) (source : S) :
    List (S × P) → Exploration ω S P W → List (Operation S P)
  | [], _ => []
  | (s, p) :: rest, x =>
    handleSuccessorScript a source s p x ++
      match handleSuccessor a source s p x with
      | (.onward, y) => handleSuccessorsScript h source rest y
      | (.halt, _) => if rest.isEmpty then [] else [.enqueue h]
      | (.abort _, _) => []

theorem reached_handleSuccessors (h : Handle) (source : S) (successors : List (S × P))
    (x : Exploration ω S P W) :
    (handleSuccessors a h source successors x).2.reached =
      x.reached.performAll (handleSuccessorsScript a h source successors x) := by
  induction successors generalizing x with
  | nil => rfl
  | cons pair rest ih =>
    obtain ⟨s, p⟩ := pair
    unfold handleSuccessors handleSuccessorsScript
    rw [Reached.performAll_append, ← reached_handleSuccessor]
    generalize handleSuccessor a source s p x = handled
    obtain ⟨flow, y⟩ := handled
    cases flow with
    | onward => exact ih y
    | halt => cases rest <;> rfl
    | abort e => rfl

/-! ### Expansions -/

/-- The operations that forced covering names. -/
def forceCoverScript (s : S) (p : P) (x : Exploration ω S P W) : List (Operation S P) :=
  match a.cover with
  | none => []
  | some covering => (covering.attempt s p x.reached x.memory).operations

theorem reached_forceCover (s : S) (p : P) (x : Exploration ω S P W) :
    (forceCover a s p x).2.reached = x.reached.performAll (forceCoverScript a s p x) := by
  unfold forceCover forceCoverScript
  cases a.cover with
  | none => rfl
  | some covering =>
    simp only [timed, reached_stop, reached_applyAll, reached_absorb, reached_start]
    rfl

def expandByScript (h : Handle) (s : S) (p : P) (x : Exploration ω S P W) :
    List (Operation S P) :=
  match x.timed .transfer fun x => x.ask (a.transfer s p) with
  | (.error _, _) => []
  | (.ok successors, y) =>
    handleSuccessorsScript a h s successors
      ((y.note (.succeeded h successors.length)).tally fun s =>
        {s with successors := s.successors + successors.length
                maxSuccessors := max s.maxSuccessors successors.length})

theorem reached_expandBy (h : Handle) (s : S) (p : P) (x : Exploration ω S P W) :
    (expandBy a h s p x).2.reached = x.reached.performAll (expandByScript a h s p x) := by
  obtain ⟨y, hasked, hreached⟩ := exists_timed_ask x .transfer fun _ => a.transfer s p
  unfold expandBy expandByScript
  simp only [hasked]
  rw [← hreached]
  cases (a.transfer s p x.memory).result with
  | error e => rfl
  | ok successors => exact reached_handleSuccessors a h s successors _

def expandScript (h : Handle) (x : Exploration ω S P W) : List (Operation S P) :=
  match x.reached.get? h with
  | none => []
  | some (s, p) =>
    forceCoverScript a s p x ++
      match forceCover a s p (x.note (.expanding s p)) with
      | (.ok false, y) => expandByScript a h s p y
      | _ => []

theorem reached_expand (h : Handle) (x : Exploration ω S P W) :
    (expand a h x).2.reached = x.reached.performAll (expandScript a h x) := by
  unfold expand expandScript
  cases x.reached.get? h with
  | none => rfl
  | some pair =>
    obtain ⟨s, p⟩ := pair
    have hcovered : (forceCover a s p (x.note (.expanding s p))).2.reached =
        x.reached.performAll (forceCoverScript a s p x) :=
      reached_forceCover a s p (x.note (.expanding s p))
    simp only
    rw [Reached.performAll_append, ← hcovered]
    generalize forceCover a s p (x.note (.expanding s p)) = covered
    obtain ⟨verdict, y⟩ := covered
    match verdict with
    | .error e => rfl
    | .ok true => rfl
    | .ok false => exact reached_expandBy a h s p y

/-! ### Runs -/

/-- The exploration once the next pair was taken out of the frontier, and that pair. -/
def popNext (x : Exploration ω S P W) : Option Handle × Exploration ω S P W :=
  x.countIteration.timed .choose pop

omit [BEq S] [BEq P] in
@[simp] theorem reached_popNext (x : Exploration ω S P W) :
    (popNext x).2.reached = x.reached.pop.2 := rfl

def stepScript (x : Exploration ω S P W) : List (Operation S P) :=
  if !x.reached.hasWaiting then []
  else if x.shutdown.requested then []
  else
    .pop ::
      match popNext x with
      | (none, _) => []
      | (some h, y) =>
        expandScript a h (y.note (.retrieved h)) ++
          match expand a h (y.note (.retrieved h)) with
          | (.abort _, _) => [.enqueue h]
          | _ => []

theorem step_eq (x : Exploration ω S P W) :
    step a x =
      if !x.reached.hasWaiting then (some (.ok .exhausted), x)
      else if x.shutdown.requested then (some (.error .interrupted), x)
      else
        match popNext x with
        | (none, y) => (some (.ok .exhausted), y)
        | (some h, y) =>
          match expand a h (y.note (.retrieved h)) with
          | (.onward, z) => (none, z)
          | (.halt, z) => (some (.ok .halted), z)
          | (.abort e, z) => (some (.error e), z.apply (.enqueue h)) := rfl

theorem reached_step (x : Exploration ω S P W) :
    (step a x).2.reached = x.reached.performAll (stepScript a x) := by
  rw [step_eq]
  unfold stepScript
  split
  · rfl
  · split
    · rfl
    · have hpop : (x.reached.perform .pop).2 = (popNext x).2.reached := rfl
      rw [Reached.performAll_cons, hpop]
      generalize popNext x = popped
      obtain ⟨h, y⟩ := popped
      cases h with
      | none => rfl
      | some h =>
        simp only
        have hexpanded : (expand a h (y.note (.retrieved h))).2.reached =
            y.reached.performAll (expandScript a h (y.note (.retrieved h))) := reached_expand a h _
        rw [Reached.performAll_append, ← hexpanded]
        generalize expand a h (y.note (.retrieved h)) = expanded
        obtain ⟨flow, z⟩ := expanded
        cases flow <;> rfl

def iterateScript : Nat → Exploration ω S P W → List (Operation S P)
  | 0, _ => []
  | limit + 1, x =>
    stepScript a x ++
      match step a x with
      | (some _, _) => []
      | (none, y) => iterateScript limit y

theorem reached_iterate (limit : Nat) (x : Exploration ω S P W) :
    (iterate a limit x).2.reached = x.reached.performAll (iterateScript a limit x) := by
  induction limit generalizing x with
  | zero => rfl
  | succ limit ih =>
    unfold iterate iterateScript
    rw [Reached.performAll_append, ← reached_step]
    generalize step a x = stepped
    obtain ⟨ended, y⟩ := stepped
    cases ended with
    | some result => rfl
    | none => exact ih y

/-- The operations that publish the seeds. -/
def drainScript (r : Reached S P W) : List (Operation S P) :=
  .takeSeeds :: r.seeds.map fun (s, p) => .add s p

/-- All operations of a run: its seeds are published, then it iterates. -/
def runScript (limit : Nat) (x : Exploration ω S P W) : List (Operation S P) :=
  drainScript x.reached ++ iterateScript a limit (x.start .total).publishSeeds

theorem performAll_drainScript (r : Reached S P W) : r.performAll (drainScript r) = r.drain := by
  have hadd : ∀ (seeds : List (S × P)) (taken : Reached S P W),
      taken.performAll (seeds.map fun (s, p) => .add s p) =
        seeds.foldl (fun r (s, p) => (r.add s p).2) taken := fun seeds => by
    induction seeds with
    | nil => exact fun _ => rfl
    | cons pair rest ih => exact fun taken => ih _
  exact hadd r.seeds r.takeSeeds.2

theorem publishSeeds_eq (x : Exploration ω S P W) :
    x.publishSeeds = (drainScript x.reached).foldl apply x := by
  rw [drainScript, List.foldl_cons, List.foldl_map]
  rfl

theorem reached_run (limit : Nat) (x : Exploration ω S P W) :
    (x.run a limit).2.reached = x.reached.performAll (runScript a limit x) := by
  have hiterated := reached_iterate a limit (x.start .total).publishSeeds
  rw [runScript, Reached.performAll_append, performAll_drainScript]
  rw [reached_publishSeeds, reached_start] at hiterated
  rw [← hiterated]
  unfold run
  generalize iterate a limit (x.start .total).publishSeeds = iterated
  obtain ⟨ended, y⟩ := iterated
  cases ended with
  | none => rfl
  | some result => exact reached_conclude _ _

end Exploration

/-! ### What holds throughout -/

/-- What every operation of a run keeps that has no forced covering. A successor may be settled
right after it was merged, if the merge went through. -/
structure Analysis.KeepsThroughout {ω S P W : Type} [AbstractState S] [Waitlist W] [BEq S] [BEq P]
    (a : Analysis ω S P W) (Inv : Reached S P W → Prop) : Prop where
  cover : a.cover = none
  pop : ∀ {r}, Inv r → Inv r.pop.2
  enqueue : ∀ {r} h, Inv r → Inv (r.enqueue h).2
  halt : ∀ {s p r w t q flow r'}, Inv r →
    (a.adjust s p r w).result = .ok (some ⟨t, q, .halt⟩) → Effect.Settled a t q .halt r flow r' →
      Inv r'
  merge : ∀ {s p r w t q abort r'}, Inv r →
    (a.adjust s p r w).result = .ok (some ⟨t, q, .proceed⟩) → Effect.Merged a t q r abort r' →
      Inv r'
  settle : ∀ {s p r w t q r₁ flow r₂}, Inv r →
    (a.adjust s p r w).result = .ok (some ⟨t, q, .proceed⟩) → Effect.Merged a t q r none r₁ →
      Effect.Settled a t q .onward r₁ flow r₂ → Inv r₂

/-- What the operations keep that deal with one successor, whatever pair it is one of. -/
structure Analysis.KeepsSuccessor {ω S P W : Type} [AbstractState S] [Waitlist W] [BEq S] [BEq P]
    (a : Analysis ω S P W) (Inv : Reached S P W → Prop) (s : S) (p : P) : Prop where
  halt : ∀ {r w t q flow r'}, Inv r →
    (a.adjust s p r w).result = .ok (some ⟨t, q, .halt⟩) → Effect.Settled a t q .halt r flow r' →
      Inv r'
  merge : ∀ {r w t q abort r'}, Inv r →
    (a.adjust s p r w).result = .ok (some ⟨t, q, .proceed⟩) → Effect.Merged a t q r abort r' →
      Inv r'
  settle : ∀ {r w t q r₁ flow r₂}, Inv r →
    (a.adjust s p r w).result = .ok (some ⟨t, q, .proceed⟩) → Effect.Merged a t q r none r₁ →
      Effect.Settled a t q .onward r₁ flow r₂ → Inv r₂

theorem Analysis.KeepsThroughout.successor {ω S P W : Type} [AbstractState S] [Waitlist W] [BEq S]
    [BEq P] {a : Analysis ω S P W} {Inv : Reached S P W → Prop} (ha : a.KeepsThroughout Inv) (s : S)
    (p : P) : a.KeepsSuccessor Inv s p :=
  ⟨ha.halt, ha.merge, ha.settle⟩

namespace Exploration
variable {ω S P W : Type} [AbstractState S] [Waitlist W] [BEq S] [BEq P] {a : Analysis ω S P W}
  {Inv : Reached S P W → Prop} {x : Exploration ω S P W}

/-- A script of one operation at most has no moment but its beginning and its end. -/
theorem throughout_settleScript {s : S} {p : P} (hx : Inv x.reached)
    (hsettled : Inv (x.reached.performAll (settleScript a s p x))) :
    x.reached.Throughout Inv (settleScript a s p x) := by
  unfold settleScript at hsettled ⊢
  split at hsettled
  · exact .singleton hx hsettled
  · exact .nil hx

theorem throughout_mergeScript {s : S} {p : P} (hx : Inv x.reached)
    (hmerged : Inv (x.reached.performAll (mergeScript a s p x))) :
    x.reached.Throughout Inv (mergeScript a s p x) := by
  unfold mergeScript at hmerged ⊢
  split at hmerged
  · exact .nil hx
  · exact .singleton hx hmerged

theorem throughout_handleSuccessor {s : S} {p : P} (ha : a.KeepsSuccessor Inv s p) (source : S)
    (hx : Inv x.reached) : x.reached.Throughout Inv (handleSuccessorScript a source s p x) := by
  unfold handleSuccessorScript
  split
  · exact .nil hx
  · obtain ⟨y, hasked, hreached⟩ :=
      exists_timed_ask (x.note (.successor source s)) .adjust (a.adjust s p)
    have hy : askAdjust a source s p x =
        ((a.adjust s p y.reached x.memory).result, y) := by
      rw [hreached]
      exact hasked
    rw [hy]
    rw [reached_note] at hreached
    rw [← hreached] at hx ⊢
    cases hadjust : (a.adjust s p y.reached x.memory).result with
    | error e => exact .nil hx
    | ok adjusted =>
      match adjusted with
      | none => exact .nil hx
      | some ⟨t, q, .halt⟩ =>
        refine throughout_settleScript hx ?_
        rw [← reached_settleHalt]
        exact ha.halt hx hadjust (Effect.settleHalt_effect a t q y)
      | some ⟨t, q, .proceed⟩ =>
        show y.reached.Throughout Inv (mergeAndSettleScript a t q y)
        unfold mergeAndSettleScript
        split
        · rename_i hseparates
          refine throughout_settleScript hx ?_
          rw [← reached_settle]
          exact ha.settle hx hadjust (.spared hseparates) (Effect.settle_effect a t q y)
        · rename_i hjoins
          have hmerge := Effect.mergeInto_effect a (by simpa using hjoins) t q y
          have hafter := ha.merge hx hadjust hmerge
          refine .append (throughout_mergeScript hx ?_) ?_
          · rwa [← reached_mergeInto]
          · rw [← reached_mergeInto]
            generalize mergeInto a t q y = merged at hmerge hafter ⊢
            obtain ⟨abort, z⟩ := merged
            cases abort with
            | some e => exact .nil hafter
            | none =>
              refine throughout_settleScript hafter ?_
              rw [← reached_settle]
              exact ha.settle hx hadjust hmerge (Effect.settle_effect a t q z)

/-- The pair that is expanded is put back if the run halts with successors left. -/
theorem throughout_handleSuccessors {h : Handle} {source : S} {successors : List (S × P)}
    (ha : ∀ y ∈ successors, a.KeepsSuccessor Inv y.1 y.2)
    (hagain : (handleSuccessors a h source successors x).1 = .halt →
      ∀ {r}, Inv r → Inv (r.enqueue h).2) (hx : Inv x.reached) :
    x.reached.Throughout Inv (handleSuccessorsScript a h source successors x) := by
  induction successors generalizing x with
  | nil => exact .nil hx
  | cons pair rest ih =>
    obtain ⟨s, p⟩ := pair
    have hfirst := throughout_handleSuccessor (ha _ (List.mem_cons_self ..)) source hx
    have hafter := hfirst.last
    unfold handleSuccessors at hagain
    unfold handleSuccessorsScript
    refine hfirst.append ?_
    rw [← reached_handleSuccessor] at hafter ⊢
    generalize handleSuccessor a source s p x = handled at hagain hafter ⊢
    obtain ⟨flow, y⟩ := handled
    cases flow with
    | onward => exact ih (fun y hy => ha y (List.mem_cons_of_mem _ hy)) hagain hafter
    | halt =>
      cases rest with
      | nil => exact .nil hafter
      | cons next others => exact .singleton hafter (hagain rfl hafter)
    | abort e => exact .nil hafter

theorem throughout_expand {h : Handle} (hcover : a.cover = none)
    (ha : ∀ {s p w l}, x.reached.get? h = some (s, p) → (a.transfer s p w).result = .ok l →
      ∀ y ∈ l, a.KeepsSuccessor Inv y.1 y.2)
    (hagain : (expand a h x).1 = .halt → ∀ {r}, Inv r → Inv (r.enqueue h).2) (hx : Inv x.reached) :
    x.reached.Throughout Inv (expandScript a h x) := by
  unfold expand at hagain
  unfold expandScript
  cases hpair : x.reached.get? h with
  | none => exact .nil hx
  | some pair =>
    obtain ⟨s, p⟩ := pair
    have hnone : ∀ y : Exploration ω S P W, forceCoverScript a s p y = [] ∧
        forceCover a s p y = (.ok false, y) := fun y => by
      simp only [forceCoverScript, forceCover, hcover, and_self]
    simp only [hpair, (hnone _).2] at hagain
    simp only [(hnone _).1, (hnone _).2, List.nil_append]
    obtain ⟨y, hasked, hreached⟩ := exists_timed_ask (x.note (.expanding s p)) .transfer
      fun _ => a.transfer s p
    unfold expandBy at hagain
    unfold expandByScript
    simp only [hasked] at hagain ⊢
    rw [reached_note] at hreached
    rw [← hreached] at hx ⊢
    cases htransfer : (a.transfer s p (x.note (.expanding s p)).memory).result with
    | error e => exact .nil hx
    | ok successors =>
      rw [htransfer] at hagain
      exact throughout_handleSuccessors (ha hpair htransfer) hagain hx

variable (ha : a.KeepsThroughout Inv)
include ha

theorem throughout_step (hx : Inv x.reached) : x.reached.Throughout Inv (stepScript a x) := by
  unfold stepScript
  split
  · exact .nil hx
  · split
    · exact .nil hx
    · have hpopped := ha.pop hx
      refine .cons hx ?_
      show (popNext x).2.reached.Throughout Inv _
      rw [← reached_popNext] at hpopped
      generalize popNext x = popped at hpopped ⊢
      obtain ⟨h, y⟩ := popped
      cases h with
      | none => exact .nil hpopped
      | some h =>
        have hexpanded : y.reached.Throughout Inv (expandScript a h (y.note (.retrieved h))) :=
          throughout_expand ha.cover (fun _ _ y _ => ha.successor y.1 y.2) (fun _ => ha.enqueue h)
            hpopped
        have hafter := hexpanded.last
        refine hexpanded.append ?_
        have hreached : y.reached.performAll (expandScript a h (y.note (.retrieved h))) =
            (expand a h (y.note (.retrieved h))).2.reached :=
          (reached_expand a h (y.note (.retrieved h))).symm
        simp only [hreached] at hafter ⊢
        generalize expand a h (y.note (.retrieved h)) = expanded at hafter ⊢
        obtain ⟨flow, z⟩ := expanded
        cases flow with
        | onward => exact .nil hafter
        | halt => exact .nil hafter
        | abort e => exact .singleton hafter (ha.enqueue h hafter)

/-- What the operations of a run keep, one by one, holds throughout the run. -/
theorem throughout_iterate (limit : Nat) (hx : Inv x.reached) :
    x.reached.Throughout Inv (iterateScript a limit x) := by
  induction limit generalizing x with
  | zero => exact .nil hx
  | succ limit ih =>
    have hstep := throughout_step ha hx
    have hafter := hstep.last
    unfold iterateScript
    refine hstep.append ?_
    rw [← reached_step] at hafter ⊢
    generalize step a x = stepped at hafter ⊢
    obtain ⟨ended, y⟩ := stepped
    cases ended with
    | some result => exact .nil hafter
    | none => exact ih hafter

end Exploration
end Reachability
