import Reachability.Waitlist.Fifo

/-! First in, first out, with removal put off: a removal request is declined, and
the handle comes out in its turn, when whoever pops it finds that it names
nothing. -/
namespace Reachability

structure Deferred where
  queue : Fifo := {}

namespace Deferred

instance : Waitlist Deferred where
  push w h _ := ⟨w.queue.push h⟩
  pop? w := w.queue.pop?.map fun (h, q) => (h, ⟨q⟩)
  remove w _ := (false, w)
  size w := w.queue.size
  toList w := w.queue.toList
  clear _ := {}

end Deferred
end Reachability
