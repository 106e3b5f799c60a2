import Reachability.Statistics.Basic

/-! The statistics as a block of text with a heading. Values stand in a column of
their own. Before the first iteration there is nothing to say but that. -/
namespace Reachability

/-- A named block of text in a report. -/
structure Block where
  name : String
  text : String

namespace Statistics

/-- A label, with blanks up to the column of its value. -/
def labelled (column : Nat) (label value : String) : String :=
  label ++ "".pushn ' ' (column - label.length) ++ value

def countLine (label : String) (n : Nat) : String :=
  labelled 33 label (toString n)

def timeLine (label : String) (t : Timer) : String :=
  labelled 34 label t.text

/-- A forced covering is reported if one was ever tried, and merging if anything
was ever considered for it. -/
def ifUsed (t : Timer) (line : String) : List String :=
  if t.intervals > 0 then [line] else []

def counterLines (s : Statistics) : List String :=
  [countLine "Number of iterations:" s.iterations,
    countLine "Max size of waitlist:" s.maxWaitlist,
    countLine "Average size of waitlist:" s.averageWaitlist,
    countLine "Number of computed successors:" s.successors,
    countLine "Max successors for one state:" s.maxSuccessors,
    countLine "Number of times merged:" s.merges,
    countLine "Number of times stopped:" s.stops,
    countLine "Number of times breaked:" s.halts,
    countLine "Number of ignored breaks:" s.coveredHalts] ++
  ifUsed s.timers.cover (countLine "Number of forced coverings:" s.forced)

def timerLines (s : Statistics) : List String :=
  [timeLine "Total time for CPA algorithm:" s.timers.total ++
      " (Max: " ++ Timer.seconds s.timers.total.max ++ ")",
    timeLine "  Time for choose from waitlist:" s.timers.choose] ++
  ifUsed s.timers.cover (timeLine "  Time for forced covering:" s.timers.cover) ++
  [timeLine "  Time for precision adjustment:" s.timers.adjust,
    timeLine "  Time for transfer relation:" s.timers.transfer] ++
  ifUsed s.timers.merge (timeLine "  Time for merge operator:" s.timers.merge) ++
  [timeLine "  Time for stop operator:" s.timers.stop,
    timeLine "  Time for adding to reached set:" s.timers.add]

def text (s : Statistics) : String :=
  if s.iterations = 0 then countLine "Number of iterations:" s.iterations ++ "\n"
  else "\n".intercalate (s.counterLines ++ [""] ++ s.timerLines)

def block (s : Statistics) : Block :=
  ⟨"CPA algorithm", s.text⟩

end Statistics
end Reachability
