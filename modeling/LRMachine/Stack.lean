import LRMachine.Error

/-!
# The state stack

A stack has a base frame, which is never popped, and the frames above it, the newest first. The
height is kept beside the list, so that a push costs the same at every height.
-/

namespace LRMachine

/-- A frame of the stack. -/
structure Frame where
  state : StateId
  /-- Where the content of the frame begins. -/
  start : Nat
  /-- The number of pending items below the content of the frame. -/
  base : Nat
  /-- How many of those, at their end, are skipped content. -/
  tail : Nat
deriving DecidableEq, Repr

/-- The state stack of one automaton. -/
structure Stack where
  bottom : Frame
  above : List Frame
  height : Nat
  /-- The most frames that a push may lead to, the base frame included. -/
  limit : Nat
  height_eq : height = above.length := by simp
deriving Repr

namespace Stack

/-- The stack of a start state at a position. -/
def new (start : StateId) (position limit : Nat) : Stack where
  bottom := ⟨start, position, 0, 0⟩
  above := []
  height := 0
  limit

/-- The frames, newest first. -/
def frames (s : Stack) : List Frame := s.above ++ [s.bottom]

/-- The newest frame. -/
def top (s : Stack) : Frame := s.above.headD s.bottom

/-- The state on top. -/
def state (s : Stack) : StateId := s.top.state

/-- The number of frames, the base frame included. -/
def length (s : Stack) : Nat := s.height + 1

/-- The states from the base up. -/
def states (s : Stack) : List StateId := s.frames.reverse.map Frame.state

/-- The stack with one more frame on top. -/
def raise (s : Stack) (f : Frame) : Stack where
  bottom := s.bottom
  above := f :: s.above
  height := s.height + 1
  limit := s.limit
  height_eq := by simp [s.height_eq]

/-- Puts a frame on top. -/
def push (s : Stack) (f : Frame) : Except Error Stack :=
  if s.limit ≤ s.length then .error (.stackOverflow s.limit) else .ok (s.raise f)

/-- The stack without its `n` newest frames; the base frame stays. -/
def lower (s : Stack) (n : Nat) : Stack where
  bottom := s.bottom
  above := s.above.drop n
  height := s.height - n
  limit := s.limit
  height_eq := by simp [s.height_eq]

/-- Takes the `depth` newest frames away and gives the lowest of them. -/
def pop (s : Stack) (depth : Nat) : Except Error (Frame × Stack) :=
  match depth with
  | 0 => .error (.stackUnderflow 0 s.height)
  | n + 1 =>
    match s.above[n]? with
    | none => .error (.stackUnderflow (n + 1) s.height)
    | some lowest => .ok (lowest, s.lower (n + 1))

/-! ## The operations on the frames -/

theorem length_frames (s : Stack) : s.frames.length = s.length := by
  simp [frames, length, s.height_eq]

@[simp] theorem frames_new (start : StateId) (position limit : Nat) :
    (new start position limit).frames = [⟨start, position, 0, 0⟩] := rfl

@[simp] theorem frames_raise (s : Stack) (f : Frame) : (s.raise f).frames = f :: s.frames := rfl

@[simp] theorem top_raise (s : Stack) (f : Frame) : (s.raise f).top = f := rfl

/-- The state on top is that of the newest frame. -/
theorem state_of_frames {s : Stack} {state : StateId} {below : List StateId}
    (h : s.frames.map Frame.state = state :: below) : s.state = state := by
  unfold frames at h
  unfold Stack.state top
  cases habove : s.above with
  | nil =>
    rw [habove] at h
    exact (List.cons.inj h).1
  | cons f older =>
    rw [habove] at h
    exact (List.cons.inj h).1

theorem frames_lower (s : Stack) {n : Nat} (h : n ≤ s.height) :
    (s.lower n).frames = s.frames.drop n := by
  have := s.height_eq
  rw [frames, frames, List.drop_append_of_le_length (by omega)]
  rfl

theorem push_eq_ok_iff (s : Stack) (f : Frame) (r : Stack) :
    s.push f = .ok r ↔ s.length < s.limit ∧ r = s.raise f := by
  unfold push
  split
  · simp; omega
  · simp [eq_comm]; omega

theorem pop_eq_ok_iff (s : Stack) (depth : Nat) (f : Frame) (r : Stack) :
    s.pop depth = .ok (f, r) ↔
      0 < depth ∧ depth ≤ s.height ∧ s.frames[depth - 1]? = some f ∧ r = s.lower depth := by
  have hh := s.height_eq
  cases depth with
  | zero => simp [pop]
  | succ n =>
    simp only [pop, Nat.add_sub_cancel, frames]
    by_cases hn : n < s.above.length
    · rw [List.getElem?_append_left hn, List.getElem?_eq_getElem hn]
      simp only [Except.ok.injEq, Prod.mk.injEq, Option.some.injEq]
      constructor
      · rintro ⟨rfl, rfl⟩
        exact ⟨by omega, by omega, rfl, rfl⟩
      · rintro ⟨-, -, rfl, rfl⟩
        exact ⟨rfl, rfl⟩
    · rw [List.getElem?_eq_none (by omega)]
      constructor
      · intro h
        simp at h
      · rintro ⟨-, h, -⟩
        omega

end Stack

end LRMachine
