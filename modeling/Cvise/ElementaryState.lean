import Mathlib.Data.Nat.Basic
import Mathlib.Tactic.Ring
import Mathlib.Tactic.Linarith

namespace Cvise
set_option autoImplicit true

/-- `BinaryState`: the window `[index, index + chunk)` of the instances. -/
structure BinaryState where
  instances : Nat
  chunk : Nat
  index : Nat
  chunk_pos : 0 < chunk
deriving DecidableEq

namespace BinaryState

def create (instances : Nat) : Option BinaryState :=
  if h : 0 < instances then some ⟨instances, instances, 0, h⟩ else none

def «end» (s : BinaryState) : Nat := min (s.index + s.chunk) s.instances

def realChunk (s : BinaryState) : Nat := s.end - s.index

def advance (s : BinaryState) : Option BinaryState :=
  if s.index + s.chunk ≥ s.instances then
    if h : 0 < s.chunk / 2 then some ⟨s.instances, s.chunk / 2, 0, h⟩ else none
  else some { s with index := s.index + s.chunk }

def advanceOnSuccess (s : BinaryState) (instances : Nat) : Option BinaryState :=
  if instances = 0 then none
  else
    let s' := { s with instances := instances }
    if s'.index ≥ instances then s'.advance else some s'

def stepsLeft (s : BinaryState) : Nat := s.chunk * (s.instances + 1) + (s.instances - s.index)

theorem stepsLeft_pos (s : BinaryState) : 0 < s.stepsLeft :=
  Nat.add_pos_left (Nat.mul_pos s.chunk_pos (Nat.succ_pos _)) _

theorem advance_stepsLeft {s s' : BinaryState} (h : s.advance = some s') :
    s'.stepsLeft < s.stepsLeft := by
  have hpos := s.chunk_pos
  rw [advance] at h
  split at h
  · split at h
    · cases h
      have hhalf : s.chunk / 2 + 1 ≤ s.chunk := by omega
      have hmul := Nat.mul_le_mul_right (s.instances + 1) hhalf
      rw [Nat.add_mul] at hmul
      simp only [stepsLeft]
      omega
    · cases h
  · cases h
    simp only [stepsLeft]
    omega

end BinaryState

/-- `SubsegmentState`: all windows with chunks up to a maximum, each round from a random start. -/
structure SubsegmentState where
  instances : Nat
  chunk : Nat
  maxChunk : Nat
  index : Nat
  start : Nat
deriving DecidableEq

namespace SubsegmentState

/-- `random.randint(0, n)` as a function of the random number `rnd`. -/
def randint (rnd n : Nat) : Nat := rnd % (n + 1)

/-- The last argument is the assertion on the chunk. -/
def create (rnd instances minChunk maxChunk : Nat) (_ : 0 < minChunk) : Option SubsegmentState :=
  if minChunk > instances ∨ minChunk > maxChunk then none
  else
    let start := randint rnd (instances - minChunk)
    some ⟨instances, minChunk, maxChunk, start, start⟩

def «end» (s : SubsegmentState) : Nat := s.index + s.chunk

def realChunk (s : SubsegmentState) : Nat := s.chunk

def advance (rnd : Nat) (s : SubsegmentState) : Option SubsegmentState :=
  let toStart := s.index + 1 = s.start
  let toWrapover := s.index + 1 + s.chunk > s.instances
  if toStart ∨ (toWrapover ∧ s.start = 0) then
    create rnd s.instances (s.chunk + 1) s.maxChunk (Nat.succ_pos _)
  else some { s with index := if toWrapover then 0 else s.index + 1 }

def advanceOnSuccess (rnd : Nat) (s : SubsegmentState) (instances : Nat) : Option SubsegmentState :=
  if s.chunk > instances then none
  else
    let wrapover := s.index + s.chunk > instances
    if wrapover ∧ (s.index < s.start ∨ s.start = 0) then
      create rnd instances (s.chunk + 1) s.maxChunk (Nat.succ_pos _)
    else some
      { s with
        instances := instances
        index := if wrapover then 0 else s.index
        start := if s.start + s.chunk > instances then 0 else s.start }

end SubsegmentState

/-- The enumeration state of the hints of one type. -/
inductive ElementaryState where
  | binary (s : BinaryState)
  | subsegment (s : SubsegmentState)
deriving DecidableEq

namespace ElementaryState

def index : ElementaryState → Nat
  | .binary s => s.index
  | .subsegment s => s.index

def «end» : ElementaryState → Nat
  | .binary s => s.end
  | .subsegment s => s.end

def realChunk : ElementaryState → Nat
  | .binary s => s.realChunk
  | .subsegment s => s.realChunk

def advance (rnd : Nat) : ElementaryState → Option ElementaryState
  | .binary s => s.advance.map .binary
  | .subsegment s => (s.advance rnd).map .subsegment

def advanceOnSuccess (rnd : Nat) (instances : Nat) : ElementaryState → Option ElementaryState
  | .binary s => (s.advanceOnSuccess instances).map .binary
  | .subsegment s => (s.advanceOnSuccess rnd instances).map .subsegment

def stepsLeft : ElementaryState → Nat
  | .binary s => s.stepsLeft
  | .subsegment _ => 0

end ElementaryState

end Cvise
