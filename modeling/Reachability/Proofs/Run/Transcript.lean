import Reachability.Proofs.Run.Overlay

/-! The transcript of a run: what its operators were asked, and what they answered.

An analysis may keep a transcript of the calls of its operators beside what they remember
(`Analysis.transcribed`), and as nobody else looks at it, its run is the run without one
(`mirrored_transcribed_run`). What each part of an expansion adds to the transcript is said
here as far as requests to halt go: only an adjustment makes one, so that the other parts add
nothing of the kind (`Calm`). -/
namespace Reachability

open Exploration

/-- A call of an operator, with the answer. -/
inductive Exchange (S P W : Type) [AbstractState S] where
  | transfer (s : S) (p : P) (answer : Except Abort (List (S × P)))
  | adjust (s : S) (p : P) (reached : Reached S P W)
      (answer : Except Abort (Option (Adjusted S P)))
  | merge (s old : S) (p : P) (answer : Except Abort S)
  | stop (s : S) (candidates : List S) (p : P) (answer : Except Abort Bool)
  | cover (s : S) (p : P) (reached : Reached S P W) (answer : Except Abort Bool)

/-- What is remembered beside a transcript, and the transcript. -/
abbrev WithTranscript (ω S P W : Type) [AbstractState S] : Type :=
  ω × List (Exchange S P W)

variable {ω S P W α : Type} [AbstractState S]

/-- An adjustment that requests a halt. -/
def Exchange.halts : Exchange S P W → Bool
  | .adjust _ _ _ (.ok (some ⟨_, _, .halt⟩)) => true
  | _ => false

/-- The reply, with the exchange added to the transcript. -/
def Reply.transcribe (exchange : Except Abort α → Exchange S P W) (log : List (Exchange S P W))
    (r : Reply ω α) : Reply (WithTranscript ω S P W) α :=
  ⟨r.result, (r.memory, log ++ [exchange r.result]), r.request, r.elapsed⟩

def Ask.transcribed (exchange : Except Abort α → Exchange S P W) (question : Ask ω α) :
    Ask (WithTranscript ω S P W) α :=
  fun w => (question w.1).transcribe exchange w.2

/-- The same operators, with a transcript of their calls. -/
def Analysis.transcribed (a : Analysis ω S P W) : Analysis (WithTranscript ω S P W) S P W where
  transfer s p := (a.transfer s p).transcribed (.transfer s p)
  merge :=
    { merge := fun s old p => (a.merge.merge s old p).transcribed (.merge s old p)
      separates := a.merge.separates }
  stop s reached p := (a.stop s reached p).transcribed (.stop s reached p)
  adjust s p r := (a.adjust s p r).transcribed (.adjust s p r)
  cover := a.cover.map fun c =>
    { attempt := fun s p r w =>
        { reply := (c.attempt s p r w.1).reply.transcribe (.cover s p r) w.2
          operations := (c.attempt s p r w.1).operations }
      blocks := fun w => c.blocks w.1 }
  status := a.status

theorem Analysis.mirrors_transcribed (a : Analysis ω S P W) : a.Mirrors Prod.fst a.transcribed where
  transfer _ _ _ := rfl
  stop _ _ _ _ := rfl
  adjust _ _ _ _ := rfl
  cover := by
    unfold Analysis.transcribed
    cases a.cover with
    | none => exact .none
    | some c => exact .some fun _ _ _ _ => ⟨rfl, rfl⟩
  status := rfl
  separates := rfl
  merge _ _ _ _ := rfl

namespace Exploration

/-- The exploration, with nothing in the transcript yet. -/
def untranscribed (x : Exploration ω S P W) : Exploration (WithTranscript ω S P W) S P W :=
  ⟨x.trail, (x.memory, []), x.shutdown, x.statistics, x.clock⟩

def transcript (x : Exploration (WithTranscript ω S P W) S P W) : List (Exchange S P W) :=
  x.memory.2

/-- A run with a transcript is the run. -/
theorem mirrored_transcribed_run [Waitlist W] [BEq S] [BEq P] (a : Analysis ω S P W) (limit : Nat)
    (x : Exploration ω S P W) :
    Matches (Mirrored Prod.fst) (x.run a limit) (x.untranscribed.run a.transcribed limit) :=
  Mirrored.run a.mirrors_transcribed ⟨rfl, rfl, rfl, rfl, rfl⟩ limit

theorem overlaid_transcribed_run [Waitlist W] [BEq S] [BEq P] (a : Analysis ω S P W) (limit : Nat)
    (x : Exploration ω S P W) :
    Matches (Overlaid Prod.fst) (x.run a limit) (x.untranscribed.run a.transcribed limit) :=
  (mirrored_transcribed_run a limit x).mono Mirrored.overlaid

variable {x y z : Exploration (WithTranscript ω S P W) S P W}

theorem transcript_congr (h : y.mind = x.mind) : y.transcript = x.transcript :=
  congrArg (fun m : (WithTranscript ω S P W) × Shutdown => m.1.2) h

theorem transcript_absorb (x : Exploration (WithTranscript ω S P W) S P W)
    (r : Reply (WithTranscript ω S P W) α) : (x.absorb r).transcript = r.memory.2 :=
  congrArg (fun m : (WithTranscript ω S P W) × Shutdown => m.1.2) (mind_absorb x r)

/-- Nothing was added that requests a halt. -/
def Calm (x y : Exploration (WithTranscript ω S P W) S P W) : Prop :=
  ∃ more, y.transcript = x.transcript ++ more ∧ ∀ e ∈ more, e.halts = false

namespace Calm

theorem of_eq (h : y.transcript = x.transcript) : Calm x y :=
  ⟨[], by rw [h, List.append_nil], fun e he => (List.not_mem_nil he).elim⟩

theorem trans (hxy : Calm x y) (hyz : Calm y z) : Calm x z := by
  obtain ⟨first, hfirst, hnone⟩ := hxy
  obtain ⟨second, hsecond, hnone'⟩ := hyz
  refine ⟨first ++ second, by rw [hsecond, hfirst, List.append_assoc], ?_⟩
  exact List.forall_mem_append.2 ⟨hnone, hnone'⟩

/-- A call that requests no halt. -/
theorem call {e : Exchange S P W} (h : y.transcript = x.transcript ++ [e])
    (he : e.halts = false) : Calm x y :=
  ⟨[e], h, List.forall_mem_singleton.2 he⟩

end Calm

variable (a : Analysis ω S P W)

/-! ### Parts of an expansion -/

theorem transcript_isCovered (s : S) (p : P) (x : Exploration (WithTranscript ω S P W) S P W) :
    (isCovered a.transcribed s p x).2.transcript = x.transcript ++
      [.stop s (x.reached.statesAt s) p (isCovered a.transcribed s p x).1] :=
  transcript_absorb (x.start .stop) _

theorem transcript_askAdjust (source s : S) (p : P)
    (x : Exploration (WithTranscript ω S P W) S P W) :
    (askAdjust a.transcribed source s p x).2.transcript = x.transcript ++
      [.adjust s p x.reached (askAdjust a.transcribed source s p x).1] :=
  transcript_absorb ((x.note (.successor source s)).start .adjust) _

theorem calm_transfer (s : S) (p : P) (x : Exploration (WithTranscript ω S P W) S P W) :
    Calm x (x.timed .transfer fun x => x.ask (a.transcribed.transfer s p)).2 :=
  .call (transcript_absorb (x.start .transfer) _) rfl

variable [Waitlist W] [BEq S] [BEq P]

theorem calm_settle (s : S) (p : P) (x : Exploration (WithTranscript ω S P W) S P W) :
    Calm x (settle a.transcribed s p x).2 := by
  have hasked := transcript_isCovered a s p x
  unfold settle
  generalize isCovered a.transcribed s p x = asked at hasked ⊢
  obtain ⟨answer, y⟩ := asked
  match answer with
  | .error e => exact .call hasked rfl
  | .ok true => exact .call hasked rfl
  | .ok false => exact .call hasked rfl

omit [Waitlist W] [BEq P] in
theorem calm_scan (s : S) (p : P) (candidates : List Handle)
    (x : Exploration (WithTranscript ω S P W) S P W) :
    Calm x (scan a.transcribed s p candidates x).after := by
  induction candidates generalizing x with
  | nil => exact .of_eq rfl
  | cons h rest ih =>
    unfold scan
    split
    · exact .of_eq rfl
    · cases x.reached.state? h with
      | none => exact ih x
      | some old =>
        have hasked : Calm x (x.ask (a.transcribed.merge.merge s old p)).2 :=
          .call (transcript_absorb x _) rfl
        simp only
        generalize x.ask (a.transcribed.merge.merge s old p) = asked at hasked ⊢
        obtain ⟨answer, y⟩ := asked
        cases answer with
        | error e => exact hasked
        | ok new =>
          simp only
          split
          · exact hasked.trans (ih ((y.note (.mergedWith h)).note (.merged s old new)))
          · exact hasked.trans (ih y)

theorem calm_mergeInto (s : S) (p : P) (x : Exploration (WithTranscript ω S P W) S P W) :
    Calm x (mergeInto a.transcribed s p x).2 := by
  unfold mergeInto
  simp only
  split
  · exact .of_eq rfl
  · have hscanned := calm_scan a s p (x.reached.handlesAt s)
      ((x.note (.considering (x.reached.handlesAt s).length)).start .merge)
    refine Calm.trans hscanned (.of_eq (transcript_congr ?_))
    unfold replace
    split <;> rfl

theorem calm_mergeAndSettle (s : S) (p : P) (x : Exploration (WithTranscript ω S P W) S P W) :
    Calm x (mergeAndSettle a.transcribed s p x).2 := by
  have hmerged := calm_mergeInto a s p x
  unfold mergeAndSettle
  split
  · exact calm_settle a s p x
  · generalize mergeInto a.transcribed s p x = merged at hmerged ⊢
    obtain ⟨abort, y⟩ := merged
    cases abort with
    | some e => exact hmerged
    | none => exact hmerged.trans (calm_settle a s p y)

theorem calm_forceCover (s : S) (p : P) (x : Exploration (WithTranscript ω S P W) S P W) :
    Calm x (forceCover a.transcribed s p x).2 := by
  unfold forceCover
  cases hcover : a.cover with
  | none =>
    simp only [Analysis.transcribed, hcover, Option.map_none]
    exact .of_eq rfl
  | some c =>
    simp only [Analysis.transcribed, hcover, Option.map_some]
    have hasked : Calm x ((x.start .cover).absorb
        ((c.attempt s p x.reached x.memory.1).reply.transcribe (.cover s p x.reached) x.memory.2)) :=
      .call (transcript_absorb (x.start .cover) _) rfl
    exact hasked.trans (.of_eq (transcript_congr (mind_applyAll _ _)))

end Exploration
end Reachability
