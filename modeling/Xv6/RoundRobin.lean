import Xv6.OneCpu

/-! The CPUs go round the process table: how many others each of them picks while a process is
RUNNABLE. -/
namespace Xv6.Scheduler
open Function Xv6.Machine Xv6.Proc
variable {κ : Type} {s t : Sys κ} {c d : κ} {p q me : Slot} {ok : Bool}

/-- The slots from slot `i` of the table on, and round it, before `p`. -/
def ahead (p : Slot) (i : Nat) : Nat := if i ≤ p then p-i else p+(nproc-i)

/-- The slots that the loop of `scheduler` on a CPU has before it until it comes to `p`. -/
def left (p : Slot) (k : Cpu κ) : Nat :=
  match k.regs.ra with
  | .scan i => ahead p i
  | .check q => ahead p q
  | .setProc q | .swtch q | .clearProc q | .release q => ahead p (q+1)
  | _ => k.proc.elim 0 fun me => ahead p (me+1)

def Label.cpu : Label κ → κ
  | .exec c _ | .call c _ | .yield c => c

variable [DecidableEq κ]

/-- The CPU picks a process in this step. -/
def picked (c : κ) (s : Sys κ) (l : Label κ) : Bool :=
  match (s.cpu c).regs.ra with
  | .check q => l.cpu=c ∧ s.state q=.runnable
  | _ => false

end Xv6.Scheduler
