import KRover.MainLoop

/-! # The entry point

`processAt` runs a system call. `rsi` points to the `pt_regs` of the call, which have
its number and the arguments that become symbols.

`none` is a failed assertion, an exit or a fault.
-/

set_option autoImplicit false

namespace KRover

/-- The arguments of `declareSymbolicObject`. An address, a size, a sign, whether there is a
seed, the seed and a name. -/
structure SymbolDecl where
  addr : BitVec 64
  size : Nat
  isSigned : Bool
  hasSeed : Bool
  conVal : BitVec 64
  name : String
deriving DecidableEq, Repr

namespace VMState

/-- `declareSymbolicObject`. Nobody looks at its result. A declaration that is refused
leaves the object in the registry all the same. -/
def declareSymbolicObject (vm : VMState) (P : SymbolDecl) : Option VMState :=
  if mapped P.addr.toNat P.size then
    (vm.createSYMemObject P.addr.toNat P.size P.isSigned P.hasSeed P.conVal P.name).map (·.2)
  else none

/-- Calls of `declareSymbolicObject` one after the other. -/
def declareSymbolicObjects (vm : VMState) (L : List SymbolDecl) : Option VMState :=
  L.foldlM declareSymbolicObject vm

end VMState

/-- The system calls that the switch has a case for. Each of them has its own list of input
that becomes symbolic. -/
inductive Scall where
  | getpriority | setpriority | write | lseek | socket | access | pipe | dup | dup2 | alarm
  | fcntl | stat | truncate | getcwd | chdir | rename | mkdir | rmdir | creat | umask
  | getrlimit | setrlimit | link | unlink | symlink | chmod | mknod | sysfs | schGetPrioMax
deriving DecidableEq, Repr

namespace Scall

/-- The system calls that have a case, in the order of the source. -/
def all : List Scall :=
  [getpriority, setpriority, write, lseek, socket, access, pipe, dup, dup2, alarm, fcntl, stat,
   truncate, getcwd, chdir, rename, mkdir, rmdir, creat, umask, getrlimit, setrlimit, link,
   unlink, symlink, chmod, mknod, sysfs, schGetPrioMax]

end Scall

end KRover
