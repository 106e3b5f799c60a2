import Reachability.Proofs.Graph.Listing
import Reachability.Proofs.Reached.Intact
import Reachability.Proofs.Run.Counters
import Reachability.Proofs.Run.Ending

/-! Iterations over an explicit graph.

If the transfer never fails and states are kept apart, what an iteration does can be said
exactly. One pair comes to rest, the one that is expanded (`Toured`). Each of its successors is
either published, and then it waits, or it is covered by an equal state and counted as a stop;
so the size of the reached set and the stops together grow by the number of successors. An
iteration that halts has published a state that differs from all others (`Found`). The pairs
that rest are a ledger of the iterations that were made since none did. -/
namespace Reachability

open AbstractState (location)

variable {ω S P : Type} [AbstractState S]

/-! ### Analyses of explicit graphs -/

/-- Keeps every pair, and halts at the states of a set. -/
def Adjustment.haltOn {R : Type} (halts : S → Bool) : Adjustment ω S P R :=
  fun s p _ => pure (some ⟨s, p, if halts s then .halt else .proceed⟩)

omit [AbstractState S] in
theorem Adjustment.keep_eq_haltOn {R : Type} :
    (keep : Adjustment ω S P R) = haltOn fun _ => false := rfl

/-- The transfer always answers, with successors that are known in advance up to equality, and
requests no shutdown. States are kept separate, and are covered by equal ones only. -/
structure Analysis.Steady [BEq S] {W : Type} (succs : S → List S) (a : Analysis ω S P W) : Prop where
  transfer : ∀ s p w, ∃ l, (a.transfer s p w).result = .ok l ∧
    SameStates (l.map Prod.fst) (succs s) ∧ l.length = (succs s).length
  quiet : ∀ s p w, (a.transfer s p w).request = none
  merge : a.merge = .separate
  stop : a.stop = .separate .flat
  cover : a.cover = none

theorem Analysis.Steady.explicit [BEq S] [ReflBEq S] {W : Type} {succs : S → List S}
    {a : Analysis ω S P W} (ha : a.Steady succs) {halts : S → Bool}
    (hadjust : a.adjust = .haltOn halts) : a.Explicit succs := by
  refine Analysis.explicit_of_separate (fun s p w l hl => ?_) ha.merge ha.stop
    (fun {s p r w adjusted} h => ?_) ha.cover
  · obtain ⟨m, hm, hsame, -⟩ := ha.transfer s p w
    rw [hl] at hm
    cases hm
    exact hsame
  · rw [hadjust] at h
    cases h
    exact ⟨_, rfl, BEq.refl s⟩

/-! ### Reached sets that grow -/

namespace Reached
variable {r r₁ r₂ : Reached S P Frontier}

/-- A pair is published under this handle, and does not wait. -/
def Resting (r : Reached S P Frontier) (h : Handle) : Prop :=
  ∃ s p, r.Rests h s p

/-- The pairs at rest are listed, each once. -/
structure Ledger (r : Reached S P Frontier) (done : List Handle) : Prop where
  nodup : done.Nodup
  mem_iff : ∀ h, h ∈ done ↔ r.Resting h

/-- More is published, and what is new waits. -/
structure Grown (r r' : Reached S P Frontier) : Prop where
  state : ∀ {h s}, r.state? h = some s → r'.state? h = some s
  resting : ∀ h, r'.Resting h ↔ r.Resting h

theorem Grown.refl (r : Reached S P Frontier) : r.Grown r :=
  ⟨id, fun _ => Iff.rfl⟩

theorem Grown.trans (h₁ : r.Grown r₁) (h₂ : r₁.Grown r₂) : r.Grown r₂ :=
  ⟨fun hs => h₂.state (h₁.state hs), fun h => (h₂.resting h).trans (h₁.resting h)⟩

theorem Grown.ledger (h : r.Grown r₁) {done : List Handle} (hr : r.Ledger done) :
    r₁.Ledger done :=
  ⟨hr.nodup, fun g => (hr.mem_iff g).trans (h.resting g).symm⟩

theorem grown_publish (r : Reached S P Frontier) (s : S) (p : P) : r.Grown (r.publish s p).2 := by
  constructor
  · intro h t ht
    obtain ⟨e, he, hstate⟩ := state?_eq_some_iff.1 ht
    have hne : h ≠ r.nextHandle s p := fun heq => by
      rw [heq, get?_nextHandle] at he
      cases he
    exact state?_eq_some_iff.2 ⟨e, by rw [get?_publish, if_neg hne, he], hstate⟩
  · intro h
    unfold Resting Rests
    rw [get?_publish]
    split
    · rename_i heq
      rw [heq, get?_nextHandle]
      constructor <;> rintro ⟨t, q, h⟩ <;> cases h
    · exact Iff.rfl

theorem size_enqueue (r : Reached S P Frontier) (h : Handle) : (r.enqueue h).2.size = r.size := by
  unfold enqueue
  split
  · rfl
  · split
    · rfl
    · exact Arena.size_modify ..

theorem size_publish (r : Reached S P Frontier) (s : S) (p : P) :
    (r.publish s p).2.size = r.size + 1 := by
  unfold publish
  exact (size_enqueue _ _).trans (Arena.size_add ..)

/-- As long as something waits, a pair can be popped, and then it rests. -/
theorem Consistent.exists_pop (hr : r.Consistent) (hwaiting : r.hasWaiting = true) :
    ∃ h s p r', r.pop = (some h, r') ∧ r.get? h = some (s, p) ∧ r'.get? h = some (s, p) ∧
      r'.size = r.size ∧ ∀ {done}, r.Ledger done → r'.Ledger (done ++ [h]) := by
  have hpop := hr.pop_eq
  cases hnext : r.waitlist.pop? with
  | none =>
    rw [Consistent.not_hasWaiting_iff.2 ((Frontier.pop?_eq_none_iff _).1 hnext)] at hwaiting
    cases hwaiting
  | some popped =>
    obtain ⟨h, rest⟩ := popped
    rw [hnext] at hpop
    have hmem : h ∈ r.waitlist.toList := by
      rw [Frontier.pop?_eq_some hnext]
      exact List.mem_cons_self ..
    obtain ⟨⟨s, p, waiting⟩, he, hwait⟩ := (hr.waits h).1 hmem
    simp only at hwait
    subst hwait
    obtain ⟨e, he', hview⟩ := pop_eq_some hpop
    rw [he] at he'
    cases he'
    have hlast := hview h
    rw [if_pos rfl] at hlast
    refine ⟨h, s, p, _, hpop, get?_eq_some_iff.2 ⟨_, he⟩, get?_eq_some_iff.2 ⟨_, hlast⟩,
      Arena.size_modify .., fun hx => ⟨?_, fun g => ?_⟩⟩
    · refine List.nodup_append.2 ⟨hx.nodup, List.nodup_singleton h, fun g hg k hk heq => ?_⟩
      rw [List.mem_singleton] at hk
      subst hk heq
      obtain ⟨t, q, hrests⟩ := (hx.mem_iff g).1 hg
      rw [Rests, he] at hrests
      cases hrests
    · rw [List.mem_append, List.mem_singleton, hx.mem_iff]
      unfold Resting Rests
      rw [hview]
      by_cases hg : g = h
      · subst hg
        rw [if_pos rfl]
        exact ⟨fun _ => ⟨s, p, rfl⟩, fun _ => .inr rfl⟩
      · rw [if_neg hg]
        exact ⟨fun h => h.resolve_right hg, .inl⟩

/-- A state is contained if an equal one is published at its location. -/
theorem any_statesAt [BEq S] [PartialEquivBEq S] (r : Reached S P Frontier) (s : S) :
    (r.statesAt s).any (s == ·) = r.contains s := by
  rw [statesAt, List.any_filterMap, contains, find?, List.isSome_find?]
  congr
  funext h
  cases r.state? h with
  | none => rfl
  | some t => exact BEq.comm

end Reached

/-! ### Successors -/

namespace Exploration
variable {α : Type} {x y z : Exploration ω S P Frontier}

/-- Nothing but the clock, the timers and the journal went on. -/
structure Unmoved (x y : Exploration ω S P Frontier) : Prop where
  reached : y.reached = x.reached
  mind : y.mind = x.mind
  counts : y.counts = x.counts

/-- An answer that is given at once moves nothing. -/
theorem exists_unmoved (p : Phase) (question : Reached S P Frontier → Ask ω α) {answer : α}
    (hanswer : question x.reached x.memory = ⟨.ok answer, x.memory, none, 0⟩) :
    ∃ y, x.timed p (fun x => x.ask (question x.reached)) = (.ok answer, y) ∧ x.Unmoved y := by
  obtain ⟨y, hasked, hreached⟩ := exists_timed_ask x p question
  have hmind := mind_timed_ask x p question
  have hcounts := counts_timed_ask x p question
  rw [hasked, hanswer] at hmind
  rw [hasked] at hcounts
  rw [hanswer] at hasked
  exact ⟨y, hasked, hreached, hmind, hcounts⟩

section Successors
variable [BEq S] [BEq P] [PartialEquivBEq S] {succs : S → List S} {a : Analysis ω S P Frontier}
  {halts : S → Bool}

/-- A successor is published, unless an equal state is; then it counts as a stop. -/
structure Dealt (s : S) (p : P) (x y : Exploration ω S P Frontier) : Prop where
  reached : y.reached = if x.reached.contains s then x.reached else (x.reached.publish s p).2
  mind : y.mind = x.mind
  iterations : y.counts.iterations = x.counts.iterations
  successors : y.counts.successors = x.counts.successors
  stops : y.counts.stops = x.counts.stops + if x.reached.contains s then 1 else 0

omit [BEq P] in
theorem exists_isCovered (hstop : a.stop = .separate .flat) (s : S) (p : P)
    (x : Exploration ω S P Frontier) :
    ∃ y, isCovered a s p x = (.ok (x.reached.contains s), y) ∧ x.Unmoved y := by
  refine exists_unmoved .stop (fun r => a.stop s (r.statesAt s) p) ?_
  rw [hstop, ← Reached.any_statesAt]
  exact Stop.separate_lift_apply Comparison.flat s (x.reached.statesAt s) p x.memory

omit [PartialEquivBEq S] in
/-- What is said of a successor holds if no more than a stop is counted for it. -/
theorem Unmoved.dealt {s : S} {p : P} {y' : Exploration ω S P Frontier} (hy : x.Unmoved y)
    (hreached : y'.reached = if x.reached.contains s then y.reached else (y.reached.add s p).2)
    (hmind : y'.mind = y.mind) (hiterations : y'.counts.iterations = y.counts.iterations)
    (hsuccessors : y'.counts.successors = y.counts.successors)
    (hstops : y'.counts.stops = y.counts.stops + if x.reached.contains s then 1 else 0) :
    Dealt s p x y' := by
  refine ⟨?_, hmind.trans hy.mind, by rw [hiterations, hy.counts], by rw [hsuccessors, hy.counts],
    by rw [hstops, hy.counts]⟩
  rw [hreached, hy.reached]
  cases hcontains : x.reached.contains s with
  | true => rfl
  | false =>
    have hfind : x.reached.find? s = none := by
      rwa [Reached.contains, Option.isSome_eq_false_iff, Option.isNone_iff_eq_none] at hcontains
    rw [Reached.add_of_find?_eq_none hfind]

omit [BEq P] [PartialEquivBEq S] in
theorem Unmoved.trans_dealt {s : S} {p : P} (hy : x.Unmoved y) (hz : Dealt s p y z) :
    Dealt s p x z where
  reached := by rw [hz.reached, hy.reached]
  mind := hz.mind.trans hy.mind
  iterations := by rw [hz.iterations, hy.counts]
  successors := by rw [hz.successors, hy.counts]
  stops := by rw [hz.stops, hy.reached, hy.counts]

theorem exists_settle (hstop : a.stop = .separate .flat) (s : S) (p : P)
    (x : Exploration ω S P Frontier) : ∃ y, settle a s p x = (.onward, y) ∧ Dealt s p x y := by
  obtain ⟨y, hcovered, hy⟩ := exists_isCovered hstop s p x
  unfold settle
  rw [hcovered]
  cases hcontains : x.reached.contains s with
  | true => exact ⟨_, rfl, hy.dealt (by rw [hcontains]; rfl) rfl rfl rfl (by rw [hcontains]; rfl)⟩
  | false =>
    have hcounts := counts_publish (y.note .uncovered) s p
    refine ⟨_, rfl, hy.dealt (by rw [hcontains]; rfl) rfl ?_ ?_ ?_⟩
    · rw [hcounts, counts_note]
    · rw [hcounts, counts_note]
    · rw [hcontains, hcounts, counts_note]
      rfl

theorem exists_settleHalt (hstop : a.stop = .separate .flat) (s : S) (p : P)
    (x : Exploration ω S P Frontier) :
    ∃ y, settleHalt a s p x = (if x.reached.contains s then .onward else .halt, y) ∧
      Dealt s p x y := by
  obtain ⟨y, hcovered, hy⟩ := exists_isCovered hstop s p x
  unfold settleHalt
  rw [hcovered]
  cases hcontains : x.reached.contains s with
  | true => exact ⟨_, rfl, hy.dealt (by rw [hcontains]; rfl) rfl rfl rfl (by rw [hcontains]; rfl)⟩
  | false =>
    refine ⟨_, rfl, hy.dealt (by rw [hcontains]; rfl) rfl ?_ ?_ ?_⟩
    · rw [counts_publish]
      rfl
    · rw [counts_publish]
      rfl
    · rw [hcontains, counts_publish]
      rfl

theorem exists_handleSuccessor (ha : a.Steady succs) (hadjust : a.adjust = .haltOn halts)
    (quiet : x.shutdown.requested = false) (source s : S) (p : P) :
    ∃ y, handleSuccessor a source s p x =
      (if halts s && !x.reached.contains s then .halt else .onward, y) ∧ Dealt s p x y := by
  have hanswer : a.adjust s p (x.note (.successor source s)).reached
      (x.note (.successor source s)).memory =
        ⟨.ok (some ⟨s, p, if halts s then .halt else .proceed⟩), x.memory, none, 0⟩ := by
    rw [hadjust]
    rfl
  obtain ⟨y, hasked, hy⟩ := exists_unmoved .adjust (a.adjust s p) hanswer
  have hy' : x.Unmoved y := ⟨hy.reached, hy.mind, hy.counts⟩
  rw [handleSuccessor_eq, quiet, if_neg Bool.false_ne_true, askAdjust, hasked]
  cases halts s with
  | true =>
    obtain ⟨z, hsettled, hz⟩ := exists_settleHalt ha.stop s p y
    rw [hy'.reached] at hsettled
    refine ⟨z, ?_, hy'.trans_dealt hz⟩
    simp only [if_true, hsettled, Bool.true_and]
    cases x.reached.contains s <;> rfl
  | false =>
    obtain ⟨z, hsettled, hz⟩ := exists_settle ha.stop s p y
    refine ⟨z, ?_, hy'.trans_dealt hz⟩
    have hseparates : a.merge.separates = true := by rw [ha.merge]; rfl
    simp only [Bool.false_eq_true, if_false, mergeAndSettle, hseparates, if_true, hsettled,
      Bool.false_and]

/-! ### Successors in turn -/

/-- So many successors were dealt with, and the run goes on. -/
structure Spread (n : Nat) (x y : Exploration ω S P Frontier) : Prop where
  grown : x.reached.Grown y.reached
  mind : y.mind = x.mind
  iterations : y.counts.iterations = x.counts.iterations
  successors : y.counts.successors = x.counts.successors
  balance : y.reached.size + y.counts.stops = x.reached.size + x.counts.stops + n

/-- The run halts at a state that differs from all that were published before. -/
structure Found (halts : S → Bool) (x y : Exploration ω S P Frontier) : Prop where
  kept : ∀ {h s}, x.reached.state? h = some s → y.reached.state? h = some s
  shutdown : y.shutdown = x.shutdown
  latest : ∃ s, y.reached.lastState? = some s ∧ halts s = true ∧
    ∀ t ∈ x.reached.states, (s == t) = false

omit [BEq S] [BEq P] [PartialEquivBEq S] in
theorem Spread.refl (x : Exploration ω S P Frontier) : Spread 0 x x :=
  ⟨.refl _, rfl, rfl, rfl, rfl⟩

omit [BEq S] [BEq P] [PartialEquivBEq S] in
theorem Spread.trans {m n : Nat} (h₁ : Spread m x y) (h₂ : Spread n y z) :
    Spread (m + n) x z where
  grown := h₁.grown.trans h₂.grown
  mind := h₂.mind.trans h₁.mind
  iterations := h₂.iterations.trans h₁.iterations
  successors := h₂.successors.trans h₁.successors
  balance := by rw [h₂.balance, h₁.balance, Nat.add_assoc]

omit [BEq P] [PartialEquivBEq S] in
theorem Dealt.spread {s : S} {p : P} (h : Dealt s p x y) : Spread 1 x y := by
  have hreached := h.reached
  have hstops := h.stops
  cases hcontains : x.reached.contains s with
  | true =>
    rw [hcontains, if_pos rfl] at hreached hstops
    exact ⟨hreached ▸ .refl _, h.mind, h.iterations, h.successors, by rw [hreached, hstops]; rfl⟩
  | false =>
    rw [hcontains, if_neg Bool.false_ne_true] at hreached hstops
    refine ⟨hreached ▸ Reached.grown_publish .., h.mind, h.iterations, h.successors, ?_⟩
    rw [hreached, hstops, Reached.size_publish]
    omega

omit [BEq P] in
theorem Dealt.found {s : S} {p : P}
    (hlocation : ∀ s t : S, (s == t) = true → location s = location t)
    (hr : x.reached.Consistent) (h : Dealt s p x y) (hhalts : halts s = true)
    (hnew : x.reached.contains s = false) : Found halts x y := by
  have hreached := h.reached
  rw [hnew, if_neg Bool.false_ne_true] at hreached
  have hfind : x.reached.find? s = none := by
    rwa [Reached.contains, Option.isSome_eq_false_iff, Option.isNone_iff_eq_none] at hnew
  refine ⟨fun hs => ?_, congrArg Prod.snd h.mind, s, ?_, hhalts, fun t ht => ?_⟩
  · rw [hreached]
    exact (Reached.grown_publish ..).state hs
  · rw [hreached, Reached.lastState?_publish]
  · exact Bool.eq_false_iff.2 (hr.differs_of_find?_eq_none hlocation hfind t ht).1

omit [BEq P] [PartialEquivBEq S] in
/-- What differs from all states that were published later differs from the earlier ones. -/
theorem Found.after (h : Found halts y z)
    (hkept : ∀ {h s}, x.reached.state? h = some s → y.reached.state? h = some s)
    (hshutdown : y.shutdown = x.shutdown) : Found halts x z := by
  obtain ⟨t, hlast, hhalts, hdiffers⟩ := h.latest
  refine ⟨fun hs => h.kept (hkept hs), h.shutdown.trans hshutdown, t, hlast, hhalts, fun u hu => ?_⟩
  obtain ⟨g, hg⟩ := Reached.mem_states_iff.1 hu
  exact hdiffers u (Reached.mem_states_iff.2 ⟨g, hkept hg⟩)

theorem exists_handleSuccessors (ha : a.Steady succs) (hadjust : a.adjust = .haltOn halts)
    (hlocation : ∀ s t : S, (s == t) = true → location s = location t) (h : Handle) (source : S)
    (l : List (S × P)) {x : Exploration ω S P Frontier} (hr : x.reached.Consistent)
    (quiet : x.shutdown.requested = false) :
    (∃ y, handleSuccessors a h source l x = (.onward, y) ∧ Spread l.length x y) ∨
      ∃ y, handleSuccessors a h source l x = (.halt, y) ∧ Found halts x y := by
  induction l generalizing x with
  | nil => exact .inl ⟨x, rfl, .refl x⟩
  | cons pair rest ih =>
    obtain ⟨s, p⟩ := pair
    obtain ⟨y, hfirst, hy⟩ := exists_handleSuccessor (x := x) ha hadjust quiet source s p
    have hspread := hy.spread
    unfold handleSuccessors
    rw [hfirst]
    cases hflow : halts s && !x.reached.contains s with
    | true =>
      obtain ⟨hhalts, hnew⟩ := Bool.and_eq_true_iff.1 hflow
      have hfound := hy.found hlocation hr hhalts (by simpa using hnew)
      refine .inr ?_
      cases rest with
      | nil => exact ⟨y, rfl, hfound⟩
      | cons next others =>
        obtain ⟨t, hlast, hlatest⟩ := hfound.latest
        refine ⟨y.apply (.enqueue h), rfl, fun hs => ?_, hfound.shutdown, t, ?_, hlatest⟩
        · exact (Reached.state?_enqueue ..).trans (hfound.kept hs)
        · show (y.reached.enqueue h).2.lastState? = some t
          rw [Reached.lastState?, (Reached.ends_enqueue ..).2]
          simp only [Reached.state?_enqueue]
          exact hlast
    | false =>
      have hr' : y.reached.Consistent := by
        rw [hy.reached]
        split
        · exact hr
        · exact hr.publish s p
      have hquiet : y.shutdown.requested = false := by
        rwa [show y.shutdown = x.shutdown from congrArg Prod.snd hy.mind]
      rcases ih hr' hquiet with ⟨z, hrest, hz⟩ | ⟨z, hrest, hz⟩
      · have hboth := hspread.trans hz
        rw [Nat.add_comm] at hboth
        exact .inl ⟨z, hrest, hboth⟩
      · exact .inr ⟨z, hrest, hz.after hspread.grown.state (congrArg Prod.snd hspread.mind)⟩

/-! ### Expansions -/

/-- The transfer was asked for the successors of a pair, and they were counted. -/
structure Computed (a : Analysis ω S P Frontier) (n : Nat) (s : S) (p : P)
    (x y : Exploration ω S P Frontier) : Prop where
  reached : y.reached = x.reached
  memory : y.memory = (a.transfer s p x.memory).memory
  shutdown : y.shutdown = x.shutdown
  iterations : y.counts.iterations = x.counts.iterations
  successors : y.counts.successors = x.counts.successors + n
  stops : y.counts.stops = x.counts.stops

theorem exists_expand (ha : a.Steady succs) (hadjust : a.adjust = .haltOn halts)
    (hlocation : ∀ s t : S, (s == t) = true → location s = location t) {h : Handle} {s : S} {p : P}
    (hr : x.reached.Consistent) (quiet : x.shutdown.requested = false)
    (hget : x.reached.get? h = some (s, p)) :
    ∃ y, Computed a (succs s).length s p x y ∧
      ((∃ z, expand a h x = (.onward, z) ∧ Spread (succs s).length y z) ∨
        ∃ z, expand a h x = (.halt, z) ∧ Found halts y z) := by
  obtain ⟨l, hl, -, hlength⟩ := ha.transfer s p x.memory
  obtain ⟨y, hasked, hreached⟩ :=
    exists_timed_ask (x.note (.expanding s p)) .transfer fun _ => a.transfer s p
  have hmind := mind_timed_ask (x.note (.expanding s p)) .transfer fun _ => a.transfer s p
  have hcounts := counts_timed_ask (x.note (.expanding s p)) .transfer fun _ => a.transfer s p
  have hresult : (a.transfer s p (x.note (.expanding s p)).memory).result = .ok l := hl
  rw [hasked] at hmind hcounts
  rw [hresult] at hasked
  have hheed : heed x.mind (a.transfer s p x.memory) =
      ((a.transfer s p x.memory).memory, x.shutdown) := by
    rw [heed, ha.quiet]
    rfl
  have hafter := hmind.trans hheed
  have hcomputed : Computed a (succs s).length s p x
      ((y.note (.succeeded h l.length)).tally fun s =>
        {s with successors := s.successors + l.length
                maxSuccessors := max s.maxSuccessors l.length}) := by
    have hsuccessors : y.counts.successors + l.length = x.counts.successors + l.length :=
      congrArg (fun c : Statistics => c.successors + l.length) hcounts
    have hiterations : y.counts.iterations = x.counts.iterations :=
      congrArg Statistics.iterations hcounts
    have hstops : y.counts.stops = x.counts.stops := congrArg Statistics.stops hcounts
    refine ⟨hreached, congrArg Prod.fst hafter, congrArg Prod.snd hafter, hiterations, ?_, hstops⟩
    rw [← hlength]
    exact hsuccessors
  refine ⟨_, hcomputed, ?_⟩
  have hexpand : expand a h x = handleSuccessors a h s l
      ((y.note (.succeeded h l.length)).tally fun s =>
        {s with successors := s.successors + l.length
                maxSuccessors := max s.maxSuccessors l.length}) := by
    unfold expand forceCover expandBy
    rw [hget, ha.cover]
    simp only
    rw [hasked]
  rw [hexpand, ← hlength]
  refine exists_handleSuccessors ha hadjust hlocation h s l ?_ ?_
  · rw [hcomputed.reached]
    exact hr
  · rw [hcomputed.shutdown]
    exact quiet

/-! ### Iterations -/

/-- The pairs named by `tour` were expanded, one an iteration, and now rest. -/
structure Toured (a : Analysis ω S P Frontier) (succs : S → List S) (tour : List Handle)
    (x y : Exploration ω S P Frontier) : Prop where
  ledger : ∀ {done}, x.reached.Ledger done → y.reached.Ledger (done ++ tour)
  kept : ∀ {h s}, x.reached.state? h = some s → y.reached.state? h = some s
  live : ∀ h ∈ tour, ∃ s, y.reached.state? h = some s
  shutdown : y.shutdown = x.shutdown
  /-- The transfer was asked for these pairs, in turn, and nobody else remembers anything. -/
  log : ∀ log : ω → List S, (∀ s p w, log (a.transfer s p w).memory = log w ++ [s]) →
    log y.memory = log x.memory ++ tour.filterMap y.reached.state?
  iterations : y.counts.iterations = x.counts.iterations + tour.length
  successors : y.counts.successors = x.counts.successors +
    ((tour.filterMap y.reached.state?).map fun s => (succs s).length).sum
  balance : y.reached.size + y.counts.stops + x.counts.successors =
    x.reached.size + x.counts.stops + y.counts.successors

omit [BEq S] [BEq P] [PartialEquivBEq S] in
theorem Toured.refl (a : Analysis ω S P Frontier) (succs : S → List S)
    (x : Exploration ω S P Frontier) : Toured a succs [] x x where
  ledger hx := by rwa [List.append_nil]
  kept := id
  live _ hmem := (List.not_mem_nil hmem).elim
  shutdown := rfl
  log _ _ := (List.append_nil _).symm
  iterations := rfl
  successors := rfl
  balance := rfl

omit [BEq S] [BEq P] [PartialEquivBEq S] in
theorem Toured.trans {tour others : List Handle} (h₁ : Toured a succs tour x y)
    (h₂ : Toured a succs others y z) : Toured a succs (tour ++ others) x z := by
  have hsame : tour.filterMap z.reached.state? = tour.filterMap y.reached.state? :=
    List.filterMap_congr fun h hmem => by
      obtain ⟨s, hs⟩ := h₁.live h hmem
      rw [hs, h₂.kept hs]
  constructor
  · intro done hx
    rw [← List.append_assoc]
    exact h₂.ledger (h₁.ledger hx)
  · exact fun hs => h₂.kept (h₁.kept hs)
  · intro h hmem
    rcases List.mem_append.1 hmem with hmem | hmem
    · obtain ⟨s, hs⟩ := h₁.live h hmem
      exact ⟨s, h₂.kept hs⟩
    · exact h₂.live h hmem
  · exact h₂.shutdown.trans h₁.shutdown
  · intro log hlog
    rw [h₂.log log hlog, h₁.log log hlog, List.filterMap_append, hsame, List.append_assoc]
  · rw [h₂.iterations, h₁.iterations, List.length_append, Nat.add_assoc]
  · rw [h₂.successors, h₁.successors, List.filterMap_append, hsame, List.map_append,
      List.sum_append, Nat.add_assoc]
  · have hfirst := h₁.balance
    have hsecond := h₂.balance
    omega

/-- An iteration that does not end the run expands one pair. One that does ends it by a halt, if
something waits. -/
theorem exists_step (ha : a.Steady succs) (hadjust : a.adjust = .haltOn halts)
    (hlocation : ∀ s t : S, (s == t) = true → location s = location t)
    (hr : x.reached.Consistent) (quiet : x.shutdown.requested = false)
    (hwaiting : x.reached.hasWaiting = true) :
    (∃ h y, step a x = (none, y) ∧ Toured a succs [h] x y) ∨
      ∃ y, step a x = (some (.ok .halted), y) ∧ Found halts x y := by
  obtain ⟨h, s, p, r, hpop, hget, hget', hsize, hledger⟩ := hr.exists_pop hwaiting
  have hfirst : x.reached.pop.1 = some h := by rw [hpop]
  have hpopped : popNext x = (some h, (popNext x).2) := Prod.ext hfirst rfl
  have hreached : ((popNext x).2.note (.retrieved h)).reached = r := congrArg Prod.snd hpop
  have hkept : ∀ {g t}, x.reached.state? g = some t → r.state? g = some t :=
    fun ht => by rw [Reached.state?_of_pop hpop, ht]
  have hcounts : (popNext x).2.counts.iterations = x.counts.iterations + 1 ∧
      (popNext x).2.counts.successors = x.counts.successors ∧
      (popNext x).2.counts.stops = x.counts.stops := by
    rw [popNext, counts_timed, counts_pop, counts_start]
    exact ⟨rfl, rfl, rfl⟩
  obtain ⟨y, hy, hexpanded⟩ := exists_expand (x := (popNext x).2.note (.retrieved h)) ha hadjust
    hlocation (hreached ▸ hr.of_pop hpop) quiet (hreached ▸ hget')
  have hsame : y.reached = r := hy.reached.trans hreached
  rw [step_eq, hwaiting, quiet, hpopped]
  simp only [Bool.not_true, Bool.false_eq_true, if_false]
  rcases hexpanded with ⟨z, hexpand, hz⟩ | ⟨z, hexpand, hz⟩
  · rw [hexpand]
    have hgrown : r.Grown z.reached := hsame ▸ hz.grown
    have hstate : z.reached.state? h = some s := hgrown.state (by
      obtain ⟨waiting, he⟩ := Reached.get?_eq_some_iff.1 hget'
      exact Reached.state?_eq_some_iff.2 ⟨_, he, rfl⟩)
    have htour : [h].filterMap z.reached.state? = [s] := by
      rw [List.filterMap_cons, hstate, List.filterMap_nil]
    refine .inl ⟨h, z, rfl, fun hx => hgrown.ledger (hledger hx), fun hs => hgrown.state (hkept hs),
      fun g hg => ⟨s, by rw [List.mem_singleton.1 hg, hstate]⟩, ?_, fun log hlog => ?_, ?_, ?_, ?_⟩
    · exact (congrArg Prod.snd hz.mind).trans hy.shutdown
    · rw [htour, ← hlog s p x.memory]
      exact congrArg log ((congrArg Prod.fst hz.mind).trans hy.memory)
    · rw [hz.iterations, hy.iterations]
      exact hcounts.1
    · rw [htour, hz.successors, hy.successors]
      exact congrArg (· + (succs s).length) hcounts.2.1
    · rw [hz.balance, hz.successors, hy.successors, hy.stops, hsame, hsize]
      simp only [counts_note, hcounts.2.1, hcounts.2.2]
      omega
  · rw [hexpand]
    exact .inr ⟨z, rfl, hz.after (fun hs => hsame ▸ hkept hs) hy.shutdown⟩

end Successors

end Exploration
end Reachability
