import Mathlib.Logic.Function.Basic
import Mathlib.Data.BitVec
import KRover.Lib.Bisect

/-! # The fat controller

`CFattCtrl`, as far as it prepares the code of the target: the table of the
call instructions of every function, the pool of pages, the code pages that
are redirected into it, and the probes that are put into the copies.

What the target fetches from a redirected page is the hypervisor's business and
not modelled; the memory here is that of the engine. `none` is the hypercall
that gives up, or a fault.
-/

set_option autoImplicit false

namespace KRover

/-- `MAX_INT3`. -/
def maxInt3 : Nat := 30

/-- `MAX_Redir_Code_Page`. -/
def maxRedirCodePage : Nat := 8

/-! ## The table of functions -/

/-- `call_insn`. `orig_bytes` is neither read nor written. -/
structure CallInsn where
  addr : BitVec 64
  dest : BitVec 64
  len : Int
deriving DecidableEq, Repr

/-- `CallInAllFuncs`; `num_call` is the length of the list. -/
structure CallInAllFuncs where
  funcAddr : BitVec 64
  callInsts : List CallInsn
deriving DecidableEq, Repr

/-- `m_func_call`. It has 44020 entries, and the search relies on their being sorted by
address. -/
abbrev FuncDB := Fin 44020 → CallInAllFuncs

/-- `midVal` as it is compared: the address cut down to an `int`, which the comparison with
an `unsigned long` widens again with its sign. In the top two gigabytes that changes
nothing, and elsewhere it is another number. -/
def midVal (addr : BitVec 64) : BitVec 64 := (addr.setWidth 32).signExtend 64

/-- `FindFuncCallInfo`. A bisection over all entries, whose result is an index or `-1`. -/
def findFuncCallInfo (funcCall : FuncDB) (addr : BitVec 64) : Int :=
  Bisect.find (fun mid => (midVal (funcCall mid).funcAddr).toNat) addr.toNat 0 44019
    (by decide) (by decide)

/-- `m_func_call[func_idx].call_insts` of the index that was found, which is
not `-1`. -/
def callInstsAt (funcCall : FuncDB) (funcIdx : Int) : List CallInsn :=
  if h : funcIdx.toNat < 44020 then (funcCall ⟨funcIdx.toNat, h⟩).callInsts else []

/-! ## The page pool -/

/-- `POOL`; `stop` is its `end`. It hands out memory from `next` up to its end and takes
none back. -/
structure Pool where
  init : BitVec 64
  next : BitVec 64
  stop : BitVec 64
deriving DecidableEq, Repr

/-- `PoolInit`, with what `valloc` returned. The first page is left out. -/
def poolInit (temp size : BitVec 64) : Pool := ⟨temp + 0x1000, temp + 0x1000, temp + size⟩

/-- `PoolCheckAvail`. -/
def poolCheckAvail (p : Pool) : BitVec 64 := p.stop - p.next

/-- `PoolAlloc`. A request for more than there is gets the null pointer, and the pool stays.
-/
def poolAlloc (p : Pool) (size : BitVec 64) : BitVec 64 × Pool :=
  if poolCheckAvail p < size then (0, p) else (p.next, { p with next := p.next + size })

/-! ## Redirected pages and probes -/

/-- `redir_page_info`. A page, its copy, and the distance between the two. -/
structure RedirPageInfo where
  origTPageAddr : BitVec 64
  newAnaPageAddr : BitVec 64
  offset : BitVec 64
deriving DecidableEq, Repr

/-- `hook_info`. The address of a probe, the destination of its call, the byte at the
address and the length of the call. -/
structure HookInfo where
  addr : BitVec 64
  dest : BitVec 64
  origBytes : BitVec 8
  len : Int
deriving DecidableEq, Repr

/-- `CFattCtrl` with the memory it copies code in. The tables have an index each for the
next free entry; `crtRedirIdx` is the page that was used last. -/
structure FattCtrl where
  pagePool : Pool
  crtMaxRedirIdx : Nat
  crtRedirIdx : Nat
  redirCodePages : Nat → RedirPageInfo
  probeOrigInst : Nat → HookInfo
  crtInt3Idx : Nat
  mem : BitVec 64 → BitVec 8

namespace FattCtrl

/-- The constructor and `InitRediPagePool`, with what `valloc` returned and the
probes that `malloc` left. -/
def new (temp : BitVec 64) (probes : Nat → HookInfo) (mem : BitVec 64 → BitVec 8) : FattCtrl where
  pagePool := poolInit temp (0x1000 * BitVec.ofNat 64 maxRedirCodePage)
  crtMaxRedirIdx := 0
  crtRedirIdx := 0
  redirCodePages := fun _ => ⟨0, 0, 0⟩
  probeOrigInst := probes
  crtInt3Idx := 0
  mem := fun b =>
    if b - temp < 0x1000 * BitVec.ofNat 64 maxRedirCodePage then 0 else mem b

/-- `memcpy (dst, src, size)` of a run that does not overlap itself. -/
def memcpy (mem : BitVec 64 → BitVec 8) (dst src size : BitVec 64) : BitVec 64 → BitVec 8 :=
  fun b => if b - dst < size then mem (src + (b - dst)) else mem b

/-- `RedirCodePageHyperCall`. A copy to the null pointer faults. The guard counts eight
pages, while the pool has room for seven copies. -/
def redirCodePageHyperCall (s : FattCtrl) (kerAddr : BitVec 64) : Option FattCtrl :=
  if s.crtMaxRedirIdx = maxRedirCodePage then none
  else
    let (newVa, pool) := poolAlloc s.pagePool 0x1000
    if newVa = 0 then none
    else
      some { s with
        pagePool := pool
        mem := memcpy s.mem newVa kerAddr 0x1000
        redirCodePages := Function.update s.redirCodePages s.crtMaxRedirIdx
          ⟨kerAddr, newVa, kerAddr - newVa⟩
        crtRedirIdx := s.crtMaxRedirIdx
        crtMaxRedirIdx := s.crtMaxRedirIdx + 1 }

/-- The loop of `update_crt_redir_idx` from `i` on: where it ends, and the
index of the page if it saw it. -/
def seekRedirIdx (s : FattCtrl) (tempAddr : BitVec 64) (i crtRedirIdx : Nat) : Nat × Nat :=
  if i < s.crtMaxRedirIdx then
    s.seekRedirIdx tempAddr (i + 1)
      (if tempAddr = (s.redirCodePages i).origTPageAddr then i else crtRedirIdx)
  else (i, crtRedirIdx)
termination_by s.crtMaxRedirIdx - i

/-- `update_crt_redir_idx`. The loop runs to its end in any case, so the page is redirected. -/
def updateCrtRedirIdx (s : FattCtrl) (tempAddr : BitVec 64) : Option FattCtrl :=
  let (i, crtRedirIdx) := s.seekRedirIdx tempAddr 0 s.crtRedirIdx
  let s := { s with crtRedirIdx := crtRedirIdx }
  if i = s.crtMaxRedirIdx then s.redirCodePageHyperCall tempAddr else some s

/-- `InstallPerInt3`. The byte of the code is saved, and the probe goes into the copy of the
page that is current. The table is checked when its entry was written. -/
def installPerInt3 (s : FattCtrl) (addr : BitVec 64) (len : Int) (dest : BitVec 64) :
    Option FattCtrl :=
  let hook : HookInfo := ⟨addr, dest, s.mem addr, len⟩
  let s := { s with
    probeOrigInst := Function.update s.probeOrigInst s.crtInt3Idx hook
    mem := Function.update s.mem (addr - (s.redirCodePages s.crtRedirIdx).offset) 0xcc
    crtInt3Idx := s.crtInt3Idx + 1 }
  if s.crtInt3Idx ≥ maxInt3 then none else some s

/-- `addr & ~0xfff`. -/
def pageOf (addr : BitVec 64) : BitVec 64 := addr &&& ~~~0xfff#64

/-- The loop of `InstallInt3ForFunc`, which looks the page up only when it changes. It keeps
the page of the call before, and leaves the current entry alone while that page lasts. -/
def installEach (s : FattCtrl) : List CallInsn → Option FattCtrl
  | [] => some s
  | c :: cs => do
    let s ←
      if pageOf c.addr ≠ (s.redirCodePages s.crtRedirIdx).origTPageAddr then
        s.updateCrtRedirIdx (pageOf c.addr)
      else some s
    let s ← s.installPerInt3 c.addr c.len c.dest
    s.installEach cs

/-- `InstallInt3ForFunc`. The first call instruction is read even when there is none. A
function that is not in the table is passed over. -/
def installInt3ForFunc (s : FattCtrl) (funcCall : FuncDB) (funcAddr : BitVec 64) :
    Option FattCtrl :=
  let funcIdx := findFuncCallInfo funcCall funcAddr
  if funcIdx = -1 then some s
  else
    match callInstsAt funcCall funcIdx with
    | [] => none
    | c :: cs => do
      let s ← s.updateCrtRedirIdx (pageOf c.addr)
      let s ← s.installPerInt3 c.addr c.len c.dest
      s.installEach cs

/-- `MoniStartOfSE`. The probe is put there as one of a call of five bytes with a fixed
destination, whatever the code has at the address. -/
def moniStartOfSE (s : FattCtrl) (addr : BitVec 64) : Option FattCtrl := do
  let s ← s.updateCrtRedirIdx (pageOf addr)
  s.installPerInt3 addr 5 0xffffffff810b6080

/-- What the engine is asked to put probes at. -/
inductive ProbeRequest where
  | moniStartOfSE (addr : BitVec 64)
  | installInt3ForFunc (funcAddr : BitVec 64)
deriving DecidableEq, Repr

/-- A request is the call of one of the two functions. -/
def probe (s : FattCtrl) (funcCall : FuncDB) : ProbeRequest → Option FattCtrl
  | .moniStartOfSE addr => s.moniStartOfSE addr
  | .installInt3ForFunc funcAddr => s.installInt3ForFunc funcCall funcAddr

/-- One request after the other. -/
def probeAll (s : FattCtrl) (funcCall : FuncDB) : List ProbeRequest → Option FattCtrl
  | [] => some s
  | r :: rs => do
    let s ← s.probe funcCall r
    s.probeAll funcCall rs

/-- Pages redirected one after the other. -/
def redirectAll (s : FattCtrl) : List (BitVec 64) → Option FattCtrl
  | [] => some s
  | kerAddr :: pages => do
    let s ← s.redirCodePageHyperCall kerAddr
    s.redirectAll pages

end FattCtrl

end KRover
