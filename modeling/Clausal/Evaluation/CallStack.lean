import Clausal.Evaluation.Failure

/-!
The stack of active calls. It takes a call only while there is room, and shows its innermost calls
when something fails.
-/

namespace Clausal

structure CallStack where
  /-- The active calls, the most recent one first. -/
  frames : List Frame
  /-- How many calls may be active at once; no limit when absent. -/
  limit : Option Nat
  depth : Nat
  depth_eq : depth = frames.length

namespace CallStack

/-- How many calls fit into an address space of 64 bits at most. -/
def addressable : Nat := UInt64.size

/-- How many calls the stack takes. Without a limit only the address space bounds it. -/
def capacity (s : CallStack) : Nat := s.limit.getD addressable

/-- How many calls a backtrace shows. -/
def shown : Nat := 16

def empty (limit : Option Nat) : CallStack := ⟨[], limit, 0, rfl⟩

def isEmpty (s : CallStack) : Bool := s.depth == 0

def push? (s : CallStack) (f : Frame) : Option CallStack :=
  if s.depth < s.capacity then
    some ⟨f :: s.frames, s.limit, s.depth + 1, by rw [s.depth_eq, List.length_cons]⟩
  else none

def overflow (s : CallStack) : EvalError := .ofCause (.stackOverflow s.capacity)

def pop (s : CallStack) : CallStack :=
  ⟨s.frames.tail, s.limit, s.depth - 1, by rw [s.depth_eq, List.length_tail]⟩

def clear (s : CallStack) : CallStack := empty s.limit

/-- The active calls as an error shows them. -/
def capture (s : CallStack) : Backtrace := ⟨s.frames.take shown, s.depth - shown⟩

/-- Records the active calls in an error that has none recorded. -/
def attach (s : CallStack) (e : EvalError) : EvalError := e.orBacktrace s.capture

theorem pop_push? {s t : CallStack} {f : Frame} (h : s.push? f = some t) : t.pop = s := by
  unfold push? at h
  split at h
  · rw [← Option.some.inj h]
    rfl
  · contradiction

theorem depth_push? {s t : CallStack} {f : Frame} (h : s.push? f = some t) :
    t.depth = s.depth + 1 ∧ t.capacity = s.capacity ∧ s.depth < s.capacity := by
  unfold push? at h
  split at h
  · next room =>
    rw [← Option.some.inj h]
    exact ⟨rfl, rfl, room⟩
  · contradiction

theorem limit_push? {s t : CallStack} {f : Frame} (h : s.push? f = some t) :
    t.limit = s.limit := by
  unfold push? at h
  split at h
  · rw [← Option.some.inj h]
  · contradiction

theorem frames_push? {s t : CallStack} {f : Frame} (h : s.push? f = some t) :
    t.frames = f :: s.frames := by
  unfold push? at h
  split at h
  · rw [← Option.some.inj h]
  · contradiction

theorem full_of_push? {s : CallStack} {f : Frame} (h : s.push? f = none) :
    s.capacity ≤ s.depth := by
  unfold push? at h
  split at h
  · contradiction
  · next full => exact Nat.not_lt.mp full

/-- An error keeps its cause when the active calls are recorded in it. -/
theorem cause_attach (s : CallStack) (e : EvalError) : (s.attach e).cause = e.cause := by
  unfold attach EvalError.orBacktrace
  split <;> rfl

/-- It keeps its place as well. -/
theorem span_attach (s : CallStack) (e : EvalError) : (s.attach e).span = e.span := by
  unfold attach EvalError.orBacktrace
  split <;> rfl

end CallStack

end Clausal
