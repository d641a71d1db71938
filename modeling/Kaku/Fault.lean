-- SUMMARY: The ways kernel code fails to return.
import Kaku.Lib.Except

namespace Kaku

/-- How kernel code fails to return. -/
inductive Fault
  /-- `kernel_panic` and page faults taken in kernel mode: the machine halts. -/
  | panic (msg : String)
  /-- An access through a pointer to freed memory, an index past the end of an
  array, or a write the caller directed into the kernel half of the address space. -/
  | wild
  /-- A loop that never ends. -/
  | hang
  deriving DecidableEq, Repr

abbrev K := Except Fault

end Kaku
