import Mathlib.Data.List.Basic

/-! Waiting inside system calls, at the granularity where the code between two
waits is one step. -/

namespace TinyOS

abbrev ThreadId := Nat

inductive ThreadState
  | init
  | ready
  | running
  | stopped
  | exited
deriving DecidableEq

/-- The threads asleep on a condition variable, in arrival order. A thread that
blocked in `kernel_wait` and has left the wait set was signalled. -/
structure CondVar where
  waitset : List ThreadId
deriving DecidableEq

def condInit : CondVar := ⟨[]⟩

def kernelWait (cv : CondVar) (t : ThreadId) : CondVar := ⟨cv.waitset ++ [t]⟩

def kernelSignal (cv : CondVar) : CondVar := ⟨cv.waitset.tail⟩

def kernelBroadcast (_ : CondVar) : CondVar := ⟨[]⟩

def CondVar.expire (cv : CondVar) (t : ThreadId) : CondVar := ⟨cv.waitset.erase t⟩

end TinyOS
