import KRover.Proofs.ProbeCopies

/-! # The target with probes and without

The target runs natively until it comes to a probe, which stands where the target has a
call. The handler carries the call out and puts probes into the function that is
called, and the target goes on there. Other requests for probes may come in between.

The page tables that the hypervisor keeps are not known here. So an address of a
page that was redirected is fetched from the page itself or from any of its copies, and
each time from another one. What the target reads as data comes from the page itself.

* `Processor`, `Target`, `alone`: the target without the engine;
* `Engine`, `Engine.Run`: the target with the engine;
* `Hides`: what the engine keeps;
* `run_eq_alone`: the registers of the two are the same after as many instructions, and
  so is the memory that is not the engine's.
-/

set_option autoImplicit false

namespace KRover.FattCtrl

/-! ## The target -/

/-- The target: its registers and its memory. -/
@[ext] structure Target where
  regs : MacReg
  mem : BitVec 64 → BitVec 8

/-- What the instruction at `rip` does, whose bytes are fetched with the first argument. -/
abbrev Processor := (BitVec 64 → BitVec 8) → Target → Target

namespace Target

/-- The program counter of the target. -/
def rip (t : Target) : BitVec 64 := t.regs .rip

/-- A call of `dest` that returns to `ret`. -/
def callTo (t : Target) (ret dest : BitVec 64) : Target where
  regs := Function.update (Function.update t.regs .rsp (t.regs .rsp - 8)) .rip dest
  mem := storeLong t.mem (t.regs .rsp - 8) ret

/-- The target without the engine. -/
def alone (P : Processor) (t : Target) : Nat → Target
  | 0 => t
  | n + 1 => P (alone P t n).mem (alone P t n)

end Target

/-- The code of the target: where it lies, its bytes, where its instructions start
and how long they are, and the calls with their lengths and their destinations. -/
structure TargetCode where
  inCode : BitVec 64 → Prop
  byte : BitVec 64 → BitVec 8
  start : BitVec 64 → Prop
  size : BitVec 64 → BitVec 64
  call : BitVec 64 → Option (Int × BitVec 64)

namespace TargetCode

/-- An entry of the table of functions: it is not inside another instruction, and its
destination if there is one is that of the call. -/
def Lists (K : TargetCode) (c : CallInsn) : Prop :=
  (∀ a, K.start a → c.addr - a < K.size a → c.addr = a) ∧
  (c.dest ≠ 0 → K.call c.addr = some (c.len, c.dest))

/-- The code of the target as the probes see it: what lies in it, its bytes and its listed
calls. -/
def code (K : TargetCode) : Code := ⟨K.inCode, K.byte, K.Lists⟩

/-- The bytes of the instruction at `a` are fetched. -/
def Fetched (K : TargetCode) (f : BitVec 64 → BitVec 8) (a : BitVec 64) : Prop :=
  ∀ b, b - a < K.size a → f b = K.byte b

end TargetCode

/-- What is known of the processor: the bytes of an instruction decide what it does, and a
call is one. -/
structure Processor.Law (P : Processor) (K : TargetCode) : Prop where
  bytes : ∀ f t, K.Fetched f t.rip → P f t = P K.byte t
  call : ∀ t len dest, K.call t.rip = some (len, dest) →
    P K.byte t = t.callTo (t.rip + BitVec.ofInt 64 len) dest

/-- What the next instruction of the target does: it is one of the code and leaves the
code as it is, and of the memory that is hidden it sees and writes nothing. -/
structure Behaves (P : Processor) (K : TargetCode) (hidden : BitVec 64 → Prop) (t : Target) :
    Prop where
  start : K.start t.rip
  inCode : ∀ b, b - t.rip < K.size t.rip → K.inCode b
  kept : ∀ a, K.inCode a → (P K.byte t).mem a = t.mem a
  regs : ∀ t' : Target, t'.regs = t.regs → (∀ b, ¬ hidden b → t'.mem b = t.mem b) →
    (P K.byte t').regs = (P K.byte t).regs
  mem : ∀ t' : Target, t'.regs = t.regs → (∀ b, ¬ hidden b → t'.mem b = t.mem b) →
    ∀ b, ¬ hidden b → (P K.byte t').mem b = (P K.byte t).mem b
  blind : ∀ t' : Target, t'.regs = t.regs → (∀ b, ¬ hidden b → t'.mem b = t.mem b) →
    ∀ b, hidden b → (P K.byte t').mem b = t'.mem b

/-! ## The target with the engine -/

/-- The controller with the memory, and the registers of the target. -/
structure Engine where
  ctrl : FattCtrl
  regs : MacReg

/-- The target may fetch a byte: from the page itself or from a copy of it. -/
def Fetches (s : FattCtrl) (a : BitVec 64) (b : BitVec 8) : Prop :=
  b = s.mem a ∨ ∃ i < s.crtMaxRedirIdx, (s.redirCodePages i).origTPageAddr = pageOf a ∧
    b = s.mem ((s.redirCodePages i).newAnaPageAddr + (a - pageOf a))

/-- Words one behind the other. -/
def storeLongs (mem : BitVec 64 → BitVec 8) (addr : BitVec 64) :
    List (BitVec 64) → BitVec 64 → BitVec 8
  | [] => mem
  | v :: vs => storeLong (storeLongs mem (addr + 8) vs) addr v

/-- The processor at an `int3`: the target is pushed to the stack of the exception. -/
def trap (e : Engine) (tInt3Stack : BitVec 64) : FattCtrl :=
  { e.ctrl with
    mem := storeLongs e.ctrl.mem (tInt3Stack - 0x28)
      [e.regs .rip + 1, e.regs .cs, e.regs .efl, e.regs .rsp, e.regs .ss] }

/-- The target as the engine has it. -/
def Engine.target (e : Engine) : Target := ⟨e.regs, e.ctrl.mem⟩

/-- The registers that the handler gets: those that were not pushed are the target's. -/
def Entered (regs entered : MacReg) : Prop :=
  ∀ i, i ≠ .rip → i ≠ .rsp → i ≠ .efl → entered i = regs i

/-- A run of the engine through some instructions of the target, with the requests that
come in between. -/
inductive Engine.Run (P : Processor) (funcCall : FuncDB) (tInt3Stack : BitVec 64)
    (asked : ProbeRequest → Prop) (e₀ : Engine) : Nat → Engine → Prop
  | start : Run P funcCall tInt3Stack asked e₀ 0 e₀
  | native {n : Nat} {e : Engine} (f : BitVec 64 → BitVec 8)
      (h : Run P funcCall tInt3Stack asked e₀ n e) (hf : ∀ a, Fetches e.ctrl a (f a))
      (hint3 : f (e.regs .rip) ≠ 0xcc) :
      Run P funcCall tInt3Stack asked e₀ (n + 1)
        ⟨{ e.ctrl with mem := (P f e.target).mem }, (P f e.target).regs⟩
  | probe {n : Nat} {e e' : Engine} (entered : MacReg)
      (h : Run P funcCall tInt3Stack asked e₀ n e) (hf : Fetches e.ctrl (e.regs .rip) 0xcc)
      (hregs : Entered e.regs entered)
      (hst : (trap e tInt3Stack).int3Handler funcCall tInt3Stack entered
        = some (e'.ctrl, e'.regs)) :
      Run P funcCall tInt3Stack asked e₀ (n + 1) e'
  | request {n : Nat} {e : Engine} (r : ProbeRequest) {ctrl : FattCtrl}
      (h : Run P funcCall tInt3Stack asked e₀ n e) (hr : asked r)
      (hst : e.ctrl.probe funcCall r = some ctrl) :
      Run P funcCall tInt3Stack asked e₀ n ⟨ctrl, e.regs⟩

/-- The stack of the exception. -/
def InFrame (tInt3Stack b : BitVec 64) : Prop := b - (tInt3Stack - 0x28) < 0x28

/-- The memory that is the engine's. -/
def Hidden (temp tInt3Stack b : BitVec 64) : Prop := InPool temp b ∨ InFrame tInt3Stack b

/-- The target with the engine is the target without it. -/
structure Hides (temp tInt3Stack : BitVec 64) (K : TargetCode) (e : Engine) (t : Target) :
    Prop where
  regs : e.regs = t.regs
  mem : ∀ b, ¬ Hidden temp tInt3Stack b → e.ctrl.mem b = t.mem b
  loaded : ∀ a, K.inCode a → t.mem a = K.byte a
  shows : ∃ v, Shows temp K.code e.ctrl.mem e.ctrl v

/-! ## Words in the memory -/

/-- A byte from eight bytes on behind the start of a stored word is as it was. The distance
is taken around the end of memory. -/
theorem storeLong_of_le (mem : BitVec 64 → BitVec 8) {addr b : BitVec 64} (v : BitVec 64)
    (h : 8 ≤ b - addr) : storeLong mem addr v b = mem b :=
  if_neg (BitVec.not_lt.2 h)

/-- The eight bytes at the address are those of the word. -/
theorem storeLong_add (mem : BitVec 64 → BitVec 8) (addr v : BitVec 64) {k : Nat} (hk : k < 8) :
    storeLong mem addr v (addr + BitVec.ofNat 64 k) = Bytes.byteOf v.toNat k := by
  have hsub : addr + BitVec.ofNat 64 k - addr = BitVec.ofNat 64 k := by
    rw [BitVec.add_comm, BitVec.add_sub_cancel]
  have hnat : (BitVec.ofNat 64 k).toNat = k := by
    rw [BitVec.toNat_ofNat]
    omega
  have hlt : BitVec.ofNat 64 k < 8 := by
    rw [BitVec.lt_def, hnat]
    exact hk
  rw [storeLong, hsub, if_pos hlt, hnat]

/-- A word that was stored is loaded again. -/
theorem loadLong_storeLong (mem : BitVec 64 → BitVec 8) (addr v : BitVec 64) :
    loadLong (storeLong mem addr v) addr = v := by
  have hbytes : (List.range 8).map (fun k => storeLong mem addr v (addr + BitVec.ofNat 64 k))
      = Bytes.bytesOf v.toNat 8 :=
    List.map_congr_left fun k hk => storeLong_add mem addr v (List.mem_range.1 hk)
  have hlt : v.toNat < 256 ^ 8 := v.isLt
  rw [loadLong, hbytes, Bytes.ofBytes_bytesOf, Nat.mod_eq_of_lt hlt, BitVec.ofNat_toNat,
    BitVec.setWidth_eq]

/-- A word behind another one. -/
theorem loadLong_storeLong_add (mem : BitVec 64 → BitVec 8) (addr v : BitVec 64) {d : Nat}
    (hd : 8 ≤ d) (hd' : d < 2 ^ 63) :
    loadLong (storeLong mem addr v) (addr + BitVec.ofNat 64 d)
      = loadLong mem (addr + BitVec.ofNat 64 d) := by
  have hbytes : ∀ k ∈ List.range 8,
      storeLong mem addr v (addr + BitVec.ofNat 64 d + BitVec.ofNat 64 k)
        = mem (addr + BitVec.ofNat 64 d + BitVec.ofNat 64 k) := by
    intro k hk
    have hk8 := List.mem_range.1 hk
    refine storeLong_of_le mem v ?_
    have hsub : addr + BitVec.ofNat 64 d + BitVec.ofNat 64 k - addr = BitVec.ofNat 64 (d + k) := by
      rw [BitVec.ofNat_add]
      ring
    rw [hsub, BitVec.le_def, BitVec.toNat_ofNat]
    show 8 ≤ _
    omega
  rw [loadLong, List.map_congr_left hbytes, loadLong]

/-- So is each of a list of words, which must not reach around the memory. -/
theorem loadLong_storeLongs (mem : BitVec 64 → BitVec 8) {vs : List (BitVec 64)} {v : BitVec 64}
    {i : Nat} (addr : BitVec 64) (hlen : 8 * vs.length < 2 ^ 63) (hi : vs[i]? = some v) :
    loadLong (storeLongs mem addr vs) (addr + BitVec.ofNat 64 (8 * i)) = v := by
  induction vs generalizing addr i with
  | nil => simp at hi
  | cons w vs ih =>
    rw [List.length_cons] at hlen
    rw [storeLongs]
    cases i with
    | zero =>
      obtain rfl := Option.some.inj hi
      rw [Nat.mul_zero, BitVec.ofNat_eq_ofNat, BitVec.add_zero, loadLong_storeLong]
    | succ i =>
      rw [List.getElem?_cons_succ] at hi
      have hlt : i < vs.length := (List.getElem?_eq_some_iff.1 hi).1
      have hnext : addr + BitVec.ofNat 64 (8 * (i + 1)) = addr + 8 + BitVec.ofNat 64 (8 * i) := by
        rw [Nat.mul_succ, BitVec.ofNat_add, BitVec.add_assoc, BitVec.add_comm (8 : BitVec 64)]
        rfl
      rw [loadLong_storeLong_add _ addr w (by omega) (by omega), hnext]
      exact ih (addr + 8) (by omega) hi

/-- A byte behind all of the words is as it was. -/
theorem storeLongs_of_le (mem : BitVec 64 → BitVec 8) {vs : List (BitVec 64)} {addr b : BitVec 64}
    (h : 8 * vs.length ≤ (b - addr).toNat) : storeLongs mem addr vs b = mem b := by
  induction vs generalizing addr with
  | nil => rfl
  | cons w vs ih =>
    rw [List.length_cons] at h
    have hle : 8 ≤ b - addr := by
      rw [BitVec.le_def]
      show 8 ≤ _
      omega
    have hnext : (b - (addr + 8)).toNat = (b - addr).toNat - 8 := by
      rw [← BitVec.sub_sub, BitVec.toNat_sub_of_le hle]
      rfl
    rw [storeLongs, storeLong_of_le _ _ hle]
    exact ih (by omega)

/-! ## The handler -/

/-- The entry that is found is that of the probe, and has a destination. -/
theorem findProbeIdx_eq_some {s : FattCtrl} {rip : BitVec 64} {i k : Nat}
    (h : s.findProbeIdx rip i = some k) :
    k < s.crtInt3Idx ∧ (s.probeOrigInst k).addr = rip ∧ (s.probeOrigInst k).dest ≠ 0 := by
  fun_induction findProbeIdx s rip i with
  | case1 i hlt haddr hdest =>
    obtain rfl := Option.some.inj h
    exact ⟨hlt, haddr, hdest⟩
  | case2 i hlt haddr hdest => simp at h
  | case3 i hlt haddr ih => exact ih h
  | case4 i hge => simp at h

/-- The loop stops at the first entry of the address: it is found when it has a
destination, and the handler gives up when it has none. -/
theorem findProbeIdx_of_first {s : FattCtrl} {rip : BitVec 64} {i k : Nat}
    (hfirst : ∀ j, i ≤ j → j < k → (s.probeOrigInst j).addr ≠ rip) (hik : i ≤ k)
    (hk : k < s.crtInt3Idx) (haddr : (s.probeOrigInst k).addr = rip) :
    s.findProbeIdx rip i = if (s.probeOrigInst k).dest = 0 then none else some k := by
  fun_induction findProbeIdx s rip i with
  | case1 i hlt hi hdest =>
    -- an entry with the address can only be `k` itself
    have heq : i = k := Nat.le_antisymm hik (Nat.le_of_not_lt fun h => hfirst i le_rfl h hi)
    rw [heq] at hdest ⊢
    rw [if_neg hdest]
  | case2 i hlt hi hdest =>
    have heq : i = k := Nat.le_antisymm hik (Nat.le_of_not_lt fun h => hfirst i le_rfl h hi)
    rw [heq] at hdest
    rw [if_pos (not_not.1 hdest)]
  | case3 i hlt hi ih =>
    have hne : i ≠ k := by
      rintro rfl
      exact hi haddr
    exact ih (fun j hj => hfirst j (Nat.le_of_succ_le hj)) (Nat.lt_of_le_of_ne hik hne)
  | case4 i hge => exact absurd (Nat.lt_of_le_of_lt hik hk) hge

/-- The entry that the handler comes to for an address of the table: the first with this
address. -/
theorem exists_findProbeIdx {s : FattCtrl} {a : BitVec 64}
    (h : ∃ k < s.crtInt3Idx, (s.probeOrigInst k).addr = a) :
    ∃ k < s.crtInt3Idx, (s.probeOrigInst k).addr = a ∧
      s.findProbeIdx a 0 = if (s.probeOrigInst k).dest = 0 then none else some k := by
  have hfound := Nat.find_spec h
  refine ⟨Nat.find h, hfound.1, hfound.2, ?_⟩
  refine findProbeIdx_of_first (fun j _ hj hsame => ?_) (Nat.zero_le _) hfound.1 hfound.2
  exact Nat.find_min h hj ⟨hj.trans hfound.1, hsame⟩

variable {temp tInt3Stack : BitVec 64} {K : TargetCode} {funcCall : FuncDB} {e : Engine}

/-- The registers that the handler leaves. -/
theorem callTo_regs_eq {regs entered : MacReg} (hregs : Entered regs entered)
    (mem : BitVec 64 → BitVec 8) (ret dest : BitVec 64) :
    Function.update (Function.update (Function.update entered .rsp (regs .rsp - 8)) .efl
      (regs .efl)) .rip dest = ((⟨regs, mem⟩ : Target).callTo ret dest).regs := by
  funext i
  show _ = Function.update (Function.update regs .rsp (regs .rsp - 8)) .rip dest i
  by_cases hrip : i = .rip
  · rw [hrip, Function.update_self, Function.update_self]
  · rw [Function.update_of_ne hrip, Function.update_of_ne hrip]
    by_cases hefl : i = .efl
    · rw [hefl, Function.update_self, Function.update_of_ne (by decide)]
    · rw [Function.update_of_ne hefl]
      by_cases hrsp : i = .rsp
      · rw [hrsp, Function.update_self, Function.update_self]
      · rw [Function.update_of_ne hrsp, Function.update_of_ne hrsp, hregs i hrip hrsp hefl]

/-- The target that the handler leaves is the one that the call leads to. -/
theorem emulCall_eq {entered : MacReg} (hregs : Entered e.regs entered) {dest : BitVec 64}
    {s : FattCtrl} {regs : MacReg}
    (hst : (trap e tInt3Stack).emulCall tInt3Stack entered = some (dest, s, regs))
    {v : View} (hshows : Shows temp K.code e.ctrl.mem e.ctrl v) :
    ∃ len, K.call (e.regs .rip) = some (len, dest) ∧
      regs = ((⟨e.regs, (trap e tInt3Stack).mem⟩ : Target).callTo
        (e.regs .rip + BitVec.ofInt 64 len) dest).regs ∧
      s = { e.ctrl with mem := ((⟨e.regs, (trap e tInt3Stack).mem⟩ : Target).callTo
        (e.regs .rip + BitVec.ofInt 64 len) dest).mem } := by
  have hload : ∀ i v, [e.regs .rip + 1, e.regs .cs, e.regs .efl, e.regs .rsp, e.regs .ss][i]?
      = some v → loadLong (trap e tInt3Stack).mem
        (tInt3Stack - 0x28 + BitVec.ofNat 64 (8 * i)) = v :=
    fun i v hi => loadLong_storeLongs e.ctrl.mem _ (show 8 * 5 < 2 ^ 63 by decide) hi
  have hrip : loadLong (trap e tInt3Stack).mem (tInt3Stack - 0x28) - 1 = e.regs .rip := by
    have hzero : tInt3Stack - 0x28 + BitVec.ofNat 64 (8 * 0) = tInt3Stack - 0x28 :=
      BitVec.add_zero _
    rw [← hzero, hload 0 _ rfl, BitVec.add_sub_cancel]
  have hefl : loadLong (trap e tInt3Stack).mem (tInt3Stack - 0x28 + 16) = e.regs .efl :=
    hload 2 _ rfl
  have hrsp : loadLong (trap e tInt3Stack).mem (tInt3Stack - 0x28 + 24) = e.regs .rsp :=
    hload 3 _ rfl
  simp only [emulCall, hrip, hefl, hrsp] at hst
  obtain ⟨k, hk, hst⟩ := Option.bind_eq_some_iff.1 hst
  obtain ⟨hlt, haddr, hdest⟩ := findProbeIdx_eq_some hk
  obtain ⟨hdest', heq⟩ := Prod.mk.inj (Option.some.inj hst)
  obtain ⟨hs, hregs'⟩ := Prod.mk.inj heq
  -- the table of the probes lists calls of the code
  have hcall : K.call (e.ctrl.probeOrigInst k).addr
      = some ((e.ctrl.probeOrigInst k).len, (e.ctrl.probeOrigInst k).dest) :=
    (hshows.table k hlt).2 hdest
  have haddr' : (e.ctrl.probeOrigInst k).addr = e.regs .rip := haddr
  have hdest'' : (e.ctrl.probeOrigInst k).dest = dest := hdest'
  rw [haddr', hdest''] at hcall
  refine ⟨_, hcall, ?_, hs.symm⟩
  rw [← hregs', hdest']
  exact callTo_regs_eq hregs _ _ _

/-! ## What the target fetches -/

/-- A byte of the code is fetched as it is, or it is the `int3` of a probe. -/
theorem Shows.fetches {C : Code} {mem : BitVec 64 → BitVec 8} {s : FattCtrl} {v : View}
    (h : Shows temp C mem s v) (hcode : ∀ a, C.inCode a → ¬ InPool temp a)
    (hload : ∀ a, C.inCode a → mem a = C.byte a) {a : BitVec 64} (ha : C.inCode a) {b : BitVec 8}
    (hb : Fetches s a b) :
    b = C.byte a ∨ b = 0xcc ∧ ∃ k < s.crtInt3Idx, (s.probeOrigInst k).addr = a := by
  rcases hb with rfl | ⟨i, hi, hpage, rfl⟩
  · exact .inl ((h.kept a (hcode a ha)).trans (hload a ha))
  · -- from a copy of the page
    rw [h.count, ← List.length_reverse] at hi
    obtain ⟨⟨p, as⟩, hget⟩ : ∃ entry, v.reverse[i]? = some entry :=
      ⟨_, List.getElem?_eq_getElem hi⟩
    obtain ⟨hentry, hbytes⟩ := h.copies.get hget
    rw [hentry] at hpage ⊢
    obtain rfl : p = pageOf a := hpage
    have hself : pageOf a + (a - pageOf a) = a := by
      rw [BitVec.add_comm, BitVec.sub_add_cancel]
    have hbyte := hbytes _ (sub_pageOf_lt a) (by rwa [hself])
    rw [hself] at hbyte
    by_cases hput : a ∈ as
    · rw [if_pos hput] at hbyte
      exact .inr ⟨hbyte, h.probes _ (List.mem_reverse.1 (List.mem_of_getElem? hget)) a hput⟩
    · rw [if_neg hput] at hbyte
      exact .inl hbyte

/-- What a state shows over some memory it shows over its own. -/
theorem Shows.self {C : Code} {mem : BitVec 64 → BitVec 8} {s : FattCtrl} {v : View}
    (h : Shows temp C mem s v) : Shows temp C s.mem s v :=
  { h with kept := fun _ _ => rfl }

/-! ## Steps and runs -/

variable {P : Processor} {t : Target}

/-- The code of the target is in place while the probes are hidden. -/
theorem Hides.code_mem (h : Hides temp tInt3Stack K e t)
    (hcode : ∀ a, K.inCode a → ¬ Hidden temp tInt3Stack a) {a : BitVec 64} (ha : K.inCode a) :
    e.ctrl.mem a = K.byte a :=
  (h.mem a (hcode a ha)).trans (h.loaded a ha)

/-- The step of the target without the engine. -/
theorem Hides.alone_step (h : Hides temp tInt3Stack K e t) (hP : P.Law K)
    (hb : Behaves P K (Hidden temp tInt3Stack) t) : P t.mem t = P K.byte t :=
  hP.bytes t.mem t fun b hb' => h.loaded b (hb.inCode b hb')

/-- An instruction of the target in a memory that differs from the engine's in the stack of the
exception only. -/
theorem Hides.exec (h : Hides temp tInt3Stack K e t) (hv : Valloc temp poolSize) (hP : P.Law K)
    (hb : Behaves P K (Hidden temp tInt3Stack) t) {m : BitVec 64 → BitVec 8}
    (hm : ∀ b, ¬ Hidden temp tInt3Stack b → m b = e.ctrl.mem b)
    (hpool : ∀ b, InPool temp b → m b = e.ctrl.mem b) :
    Hides temp tInt3Stack K ⟨{ e.ctrl with mem := (P K.byte ⟨e.regs, m⟩).mem },
      (P K.byte ⟨e.regs, m⟩).regs⟩ (P t.mem t) := by
  have hsame : ∀ b, ¬ Hidden temp tInt3Stack b → m b = t.mem b :=
    fun b hb' => (hm b hb').trans (h.mem b hb')
  rw [h.alone_step hP hb]
  constructor
  · exact hb.regs ⟨e.regs, m⟩ h.regs hsame
  · exact hb.mem ⟨e.regs, m⟩ h.regs hsame
  · intro a ha
    rw [hb.kept a ha, h.loaded a ha]
  · obtain ⟨v, hshows⟩ := h.shows
    refine ⟨v, hshows.congr_mem hv fun b hb' => ?_⟩
    exact (hb.blind ⟨e.regs, m⟩ h.regs hsame b (.inl hb')).trans (hpool b hb')

/-- New probes. -/
theorem Hides.install (h : Hides temp tInt3Stack K e t) {ctrl : FattCtrl} {v : View}
    (hshows : Shows temp K.code e.ctrl.mem ctrl v) :
    Hides temp tInt3Stack K ⟨ctrl, e.regs⟩ t where
  regs := h.regs
  mem b hb := (hshows.kept b fun hpool => hb (.inl hpool)).trans (h.mem b hb)
  loaded := h.loaded
  shows := ⟨v, hshows.self⟩

/-- The target runs an instruction that is not probed. -/
theorem Hides.native (h : Hides temp tInt3Stack K e t) (hv : Valloc temp poolSize)
    (hcode : ∀ a, K.inCode a → ¬ Hidden temp tInt3Stack a) (hP : P.Law K)
    (hb : Behaves P K (Hidden temp tInt3Stack) t) {f : BitVec 64 → BitVec 8}
    (hf : ∀ a, Fetches e.ctrl a (f a)) (hint3 : f (e.regs .rip) ≠ 0xcc) :
    Hides temp tInt3Stack K ⟨{ e.ctrl with mem := (P f e.target).mem }, (P f e.target).regs⟩
      (P t.mem t) := by
  have hrip : e.regs .rip = t.rip := congrFun h.regs _
  obtain ⟨v, hshows⟩ := h.shows
  have hfetched : K.Fetched f e.target.rip := by
    intro b hb'
    rw [show e.target.rip = t.rip from hrip] at hb'
    have hin := hb.inCode b hb'
    have hpool : ∀ a, K.inCode a → ¬ InPool temp a := fun a ha hp => hcode a ha (.inl hp)
    rcases hshows.fetches hpool (fun a ha => h.code_mem hcode ha) hin (hf b) with
      hsame | ⟨hcc, k, hk, haddr⟩
    · exact hsame
    · -- a probe inside of an instruction is at its first byte
      have hstart : (e.ctrl.probeOrigInst k).addr - t.rip < K.size t.rip →
          (e.ctrl.probeOrigInst k).addr = t.rip := (hshows.table k hk).1 _ hb.start
      rw [haddr] at hstart
      rw [hstart hb', ← hrip] at hcc
      exact absurd hcc hint3
  rw [hP.bytes f e.target hfetched]
  exact h.exec hv hP hb (fun _ _ => rfl) fun _ _ => rfl

/-- The target comes to a probe. -/
theorem Hides.probe (h : Hides temp tInt3Stack K e t) (hv : Valloc temp poolSize)
    (hframe : ∀ b, InFrame tInt3Stack b → ¬ InPool temp b)
    (hcode : ∀ a, K.inCode a → ¬ Hidden temp tInt3Stack a) (hP : P.Law K)
    (hb : Behaves P K (Hidden temp tInt3Stack) t)
    (hcalls : ∀ a, ∀ c ∈ callsOf funcCall (.installInt3ForFunc a), K.Lists c)
    {entered : MacReg} (hregs : Entered e.regs entered) {ctrl : FattCtrl} {regs : MacReg}
    (hst : (trap e tInt3Stack).int3Handler funcCall tInt3Stack entered = some (ctrl, regs)) :
    Hides temp tInt3Stack K ⟨ctrl, regs⟩ (P t.mem t) := by
  obtain ⟨v, hshows⟩ := h.shows
  obtain ⟨⟨dest, s, regs'⟩, hcall, hst⟩ := Option.bind_eq_some_iff.1 hst
  obtain ⟨s', hinstall, hst⟩ := Option.bind_eq_some_iff.1 hst
  obtain ⟨rfl, rfl⟩ := Prod.mk.inj (Option.some.inj hst)
  obtain ⟨len, hlen, rfl, rfl⟩ := emulCall_eq hregs hcall hshows
  -- the trap writes nothing but the stack of the exception
  have htrap : ∀ b, ¬ InFrame tInt3Stack b → (trap e tInt3Stack).mem b = e.ctrl.mem b :=
    fun b hb' => storeLongs_of_le _ (Nat.le_of_not_lt hb')
  have hexec := h.exec hv hP hb (m := (trap e tInt3Stack).mem)
    (fun b hb' => htrap b fun hin => hb' (.inr hin))
    fun b hb' => htrap b fun hin => hframe b hin hb'
  rw [hP.call ⟨e.regs, (trap e tInt3Stack).mem⟩ len dest hlen] at hexec
  obtain ⟨v', hshows'⟩ := hexec.shows
  have hpool : ∀ a, K.inCode a → ¬ InPool temp a := fun a ha hp => hcode a ha (.inl hp)
  exact hexec.install (hshows'.installInt3ForFunc hv hpool
    (fun a ha => hexec.code_mem hcode ha) (hcalls dest) hinstall)

/-- The engine is asked for probes. -/
theorem Hides.request (h : Hides temp tInt3Stack K e t) (hv : Valloc temp poolSize)
    (hcode : ∀ a, K.inCode a → ¬ Hidden temp tInt3Stack a) {r : ProbeRequest}
    (hcalls : ∀ c ∈ callsOf funcCall r, K.Lists c) {ctrl : FattCtrl}
    (hst : e.ctrl.probe funcCall r = some ctrl) :
    Hides temp tInt3Stack K ⟨ctrl, e.regs⟩ t := by
  obtain ⟨v, hshows⟩ := h.shows
  have hpool : ∀ a, K.inCode a → ¬ InPool temp a := fun a ha hp => hcode a ha (.inl hp)
  exact h.install (hshows.probe hv hpool (fun a ha => h.code_mem hcode ha) hcalls hst)

/-- A run of the engine. -/
theorem Engine.Run.hides (hv : Valloc temp poolSize)
    (hframe : ∀ b, InFrame tInt3Stack b → ¬ InPool temp b)
    (hcode : ∀ a, K.inCode a → ¬ Hidden temp tInt3Stack a) (hP : P.Law K)
    (hcalls : ∀ a, ∀ c ∈ callsOf funcCall (.installInt3ForFunc a), K.Lists c)
    {asked : ProbeRequest → Prop} (hasked : ∀ r, asked r → ∀ c ∈ callsOf funcCall r, K.Lists c)
    {e₀ : Engine} {n : Nat} (h₀ : Hides temp tInt3Stack K e₀ t)
    (hb : ∀ m < n, Behaves P K (Hidden temp tInt3Stack) (t.alone P m))
    (hrun : Engine.Run P funcCall tInt3Stack asked e₀ n e) :
    Hides temp tInt3Stack K e (t.alone P n) := by
  induction hrun with
  | start => exact h₀
  | @native n e f _ hf hint3 ih =>
    have hn := ih fun m hm => hb m (Nat.lt_succ_of_lt hm)
    exact hn.native hv hcode hP (hb n (Nat.lt_succ_self n)) hf hint3
  | @probe n e e' entered _ hf hregs hst ih =>
    have hn := ih fun m hm => hb m (Nat.lt_succ_of_lt hm)
    exact hn.probe hv hframe hcode hP (hb n (Nat.lt_succ_self n)) hcalls hregs hst
  | request r _ hr hst ih => exact (ih hb).request hv hcode (hasked r hr) hst

/-- The target does with the probes what it does without them, whatever copies it fetches its
code from and whenever probes are asked for: after as many instructions it has the
same registers and, apart from the pool and the stack of the exception, the same
memory. What it fetches from its code is its own, or the `int3` of a probe: the handler
finds the first entry of the table with this address, and gives up only where that entry
has no destination. -/
theorem run_eq_alone (hv : Valloc temp poolSize)
    (hframe : ∀ b, InFrame tInt3Stack b → ¬ InPool temp b)
    (hcode : ∀ a, K.inCode a → ¬ Hidden temp tInt3Stack a) (hP : P.Law K)
    (hcalls : ∀ a, ∀ c ∈ callsOf funcCall (.installInt3ForFunc a), K.Lists c)
    {asked : ProbeRequest → Prop} (hasked : ∀ r, asked r → ∀ c ∈ callsOf funcCall r, K.Lists c)
    (hload : ∀ a, K.inCode a → t.mem a = K.byte a) (probes : Nat → HookInfo) {n : Nat}
    (hb : ∀ m < n, Behaves P K (Hidden temp tInt3Stack) (t.alone P m))
    (hrun : Engine.Run P funcCall tInt3Stack asked ⟨new temp probes t.mem, t.regs⟩ n e) :
    e.regs = (t.alone P n).regs ∧
    (∀ b, ¬ Hidden temp tInt3Stack b → e.ctrl.mem b = (t.alone P n).mem b) ∧
    ∀ a, K.inCode a → ∀ b, Fetches e.ctrl a b →
      b = K.byte a ∨ b = 0xcc ∧ ∃ k < e.ctrl.crtInt3Idx, (e.ctrl.probeOrigInst k).addr = a ∧
        e.ctrl.findProbeIdx a 0 = if (e.ctrl.probeOrigInst k).dest = 0 then none else some k := by
  have h₀ : Hides temp tInt3Stack K ⟨new temp probes t.mem, t.regs⟩ t :=
    ⟨rfl, fun b hb => if_neg fun hp => hb (.inl hp), hload,
      [], (shows_new temp K.code probes t.mem).self⟩
  have h := hrun.hides hv hframe hcode hP hcalls hasked h₀ hb
  obtain ⟨v, hshows⟩ := h.shows
  refine ⟨h.regs, h.mem, fun a ha b hfetch => ?_⟩
  have hpool : ∀ a, K.inCode a → ¬ InPool temp a := fun a ha hp => hcode a ha (.inl hp)
  have hbyte := hshows.fetches hpool (fun a ha => h.code_mem hcode ha) ha hfetch
  exact hbyte.imp_right fun ⟨hcc, hentry⟩ => ⟨hcc, exists_findProbeIdx hentry⟩

/-! ## A call -/

/-- `call 0xffffffff810b6080` at `0xffffffff81c00087`. -/
def callBytes (a : BitVec 64) : BitVec 8 :=
  [0xe8, 0xf4, 0x5f, 0x4b, 0xff].getD (a - 0xffffffff81c00087).toNat 0

/-- A target whose code is one call at `0x1000`. -/
def callCode : TargetCode where
  inCode a := a - 0xffffffff81c00087 < 5
  byte := callBytes
  start a := a = 0xffffffff81c00087
  size a := if callBytes a = 0xe8 then 5 else 1
  call a := if a = 0xffffffff81c00087 then some (5, 0xffffffff810b6080) else none

/-- A processor that knows `call rel32` and halts at another instruction. -/
def callProcessor : Processor := fun f t =>
  if f t.rip = 0xe8 then
    t.callTo (t.rip + 5) (t.rip + 5 +
      (f (t.rip + 4) ++ f (t.rip + 3) ++ f (t.rip + 2) ++ f (t.rip + 1)).signExtend 64)
  else t

/-- It stands before that call, with its stack at `0x7e0000001000`. -/
def callTarget : Target where
  regs := Function.update (Function.update (fun _ => 0) .rip 0xffffffff81c00087) .rsp
    0xffff888000002000
  mem := callBytes

/-- The processor of the example writes a push where it should, and nothing else. -/
theorem callProcessor_law : callProcessor.Law callCode where
  bytes f t h := by
    have hfirst : f t.rip = callBytes t.rip := by
      refine h t.rip ?_
      rw [BitVec.sub_self]
      show (0 : BitVec 64) < if callBytes t.rip = 0xe8 then 5 else 1
      split <;> decide
    by_cases hcall : callBytes t.rip = 0xe8
    · have hrest : ∀ d : BitVec 64, d < 5 → f (t.rip + d) = callBytes (t.rip + d) := by
        intro d hd
        refine h _ ?_
        rw [BitVec.add_comm, BitVec.add_sub_cancel]
        show d < if callBytes t.rip = 0xe8 then 5 else 1
        rwa [if_pos hcall]
      rw [callProcessor, callProcessor, hfirst, hrest 4 (by decide), hrest 3 (by decide),
        hrest 2 (by decide), hrest 1 (by decide)]
      rfl
    · rw [callProcessor, callProcessor, if_neg (by rwa [hfirst])]
      exact (if_neg hcall).symm
  call t len dest h := by
    by_cases hrip : t.rip = 0xffffffff81c00087
    · rw [callCode] at h
      simp only [hrip, if_true, Option.some.injEq, Prod.mk.injEq] at h
      obtain ⟨rfl, rfl⟩ := h
      show (if callBytes t.rip = 0xe8 then _ else t) = _
      rw [hrip]
      rfl
    · rw [callCode] at h
      simp only at h
      rw [if_neg hrip] at h
      simp at h

/-- The pushed word is neither hidden nor in the code. -/
theorem callTarget_behaves :
    Behaves callProcessor callCode (Hidden 0x7f0000000000 0x7e0000001000) callTarget := by
  have hstep : ∀ t : Target, t.regs = callTarget.regs → callProcessor callCode.byte t
      = t.callTo 0xffffffff81c0008c 0xffffffff810b6080 := by
    intro t ht
    have hrip : t.rip = 0xffffffff81c00087 := congrFun ht .rip
    show (if callBytes t.rip = 0xe8 then _ else t) = _
    rw [hrip]
    rfl
  have hpush : ∀ t : Target, t.regs = callTarget.regs →
      (callProcessor callCode.byte t).mem
        = storeLong t.mem 0xffff888000001ff8 0xffffffff81c0008c := by
    intro t ht
    rw [hstep t ht, Target.callTo, ht]
    rfl
  constructor
  · rfl
  · exact fun b hb => hb
  · intro a ha
    rw [hpush callTarget rfl]
    refine storeLong_of_le _ _ ?_
    have hlt : (a - 0xffffffff81c00087).toNat < 5 := ha
    rw [BitVec.toNat_sub] at hlt
    show 8 ≤ (a - 0xffff888000001ff8).toNat
    rw [BitVec.toNat_sub]
    simp only [BitVec.reduceToNat] at hlt ⊢
    omega
  · intro t ht _
    rw [hstep t ht, hstep callTarget rfl, Target.callTo, ht]
    rfl
  · intro t ht hmem b hb
    rw [hpush t ht, hpush callTarget rfl, storeLong, storeLong, hmem b hb]
  · intro t ht _ b hb
    rw [hpush t ht]
    refine storeLong_of_le _ _ ?_
    show 8 ≤ (b - 0xffff888000001ff8).toNat
    rcases hb with hb | hb
    · have hlt : (b - 0x7f0000000000).toNat < 0x8000 := hb
      rw [BitVec.toNat_sub] at hlt ⊢
      simp only [BitVec.reduceToNat] at hlt ⊢
      omega
    · have hlt : (b - (0x7e0000001000 - 0x28)).toNat < 0x28 := hb
      rw [BitVec.toNat_sub] at hlt ⊢
      simp only [BitVec.reduceSub, BitVec.reduceToNat] at hlt ⊢
      omega

/-- The start of the engine, at the call. -/
def startOfCall : ProbeRequest := .moniStartOfSE 0xffffffff81c00087

/-- The engine with the probe. -/
def probedCall : Option FattCtrl :=
  (new 0x7f0000000000 (fun _ => ⟨0, 0, 0, 0⟩) callTarget.mem).probe noCalls startOfCall

/-- Its frame is not in the pool of the probe pages. -/
theorem frame_not_inPool (b : BitVec 64) (hb : InFrame 0x7e0000001000 b) :
    ¬ InPool 0x7f0000000000 b := by
  intro hpool
  have hlt : (b - (0x7e0000001000 - 0x28)).toNat < 0x28 := hb
  have hlt' : (b - 0x7f0000000000).toNat < 0x8000 := hpool
  rw [BitVec.toNat_sub] at hlt hlt'
  simp only [BitVec.reduceSub, BitVec.reduceToNat] at hlt hlt'
  omega

/-- Its code lies neither in the pool nor on the stack of the probes. -/
theorem callCode_not_hidden (a : BitVec 64) (ha : callCode.inCode a) :
    ¬ Hidden 0x7f0000000000 0x7e0000001000 a := by
  have hlt : (a - 0xffffffff81c00087).toNat < 5 := ha
  rw [BitVec.toNat_sub] at hlt
  rintro (hpool | hframe)
  · have hlt' : (a - 0x7f0000000000).toNat < 0x8000 := hpool
    rw [BitVec.toNat_sub] at hlt'
    simp only [BitVec.reduceToNat] at hlt hlt'
    omega
  · have hlt' : (a - (0x7e0000001000 - 0x28)).toNat < 0x28 := hframe
    rw [BitVec.toNat_sub] at hlt'
    simp only [BitVec.reduceSub, BitVec.reduceToNat] at hlt hlt'
    omega

/-- A request that places no probe needs no listed call. -/
theorem noCalls_lists (a : BitVec 64) (c : CallInsn)
    (hc : c ∈ callsOf noCalls (.installInt3ForFunc a)) : callCode.Lists c := by
  have hnone : callsOf noCalls (.installInt3ForFunc a) = [] := by
    simp [callsOf, callInstsAt, noCalls]
  rw [hnone] at hc
  exact absurd hc List.not_mem_nil

/-- The request of the example places its probe at the listed call. -/
theorem startOfCall_lists (r : ProbeRequest) (hr : r = startOfCall) (c : CallInsn)
    (hc : c ∈ callsOf noCalls r) : callCode.Lists c := by
  subst hr
  obtain rfl := List.mem_singleton.1 hc
  exact ⟨fun a ha _ => Eq.symm ha, fun _ => rfl⟩

/-- The call is carried out by the handler, and is the target's. -/
theorem run_eq_alone_call :
    ∃ e, Engine.Run callProcessor noCalls 0x7e0000001000 (· = startOfCall)
        ⟨new 0x7f0000000000 (fun _ => ⟨0, 0, 0, 0⟩) callTarget.mem, callTarget.regs⟩ 1 e ∧
      e.regs = (callTarget.alone callProcessor 1).regs ∧
      ∀ b, ¬ Hidden 0x7f0000000000 0x7e0000001000 b →
        e.ctrl.mem b = (callTarget.alone callProcessor 1).mem b := by
  have hprobe : probedCall.isSome = true := by decide +kernel
  obtain ⟨ctrl, hctrl⟩ := Option.isSome_iff_exists.1 hprobe
  have hfetch : probedCall.any (fun s => decide (0 < s.crtMaxRedirIdx ∧
      (s.redirCodePages 0).origTPageAddr = pageOf 0xffffffff81c00087 ∧
      0xcc = s.mem ((s.redirCodePages 0).newAnaPageAddr
        + (0xffffffff81c00087 - pageOf 0xffffffff81c00087)))) = true := by decide +kernel
  rw [hctrl] at hfetch
  have hhandled : (probedCall.bind fun s => (trap ⟨s, callTarget.regs⟩ 0x7e0000001000).int3Handler
      noCalls 0x7e0000001000 callTarget.regs).isSome = true := by decide +kernel
  rw [hctrl, Option.bind_some] at hhandled
  obtain ⟨⟨ctrl', regs'⟩, hst⟩ := Option.isSome_iff_exists.1 hhandled
  have hrun : Engine.Run callProcessor noCalls 0x7e0000001000 (· = startOfCall)
      ⟨new 0x7f0000000000 (fun _ => ⟨0, 0, 0, 0⟩) callTarget.mem, callTarget.regs⟩ 1
      ⟨ctrl', regs'⟩ :=
    .probe callTarget.regs (.request startOfCall .start rfl hctrl)
      (.inr ⟨0, of_decide_eq_true hfetch⟩) (fun _ _ _ _ => rfl) hst
  have hsame := run_eq_alone valloc_example frame_not_inPool callCode_not_hidden
    callProcessor_law noCalls_lists startOfCall_lists (fun _ _ => rfl) _ ?_ hrun
  · exact ⟨_, hrun, hsame.1, hsame.2.1⟩
  · intro m hm
    obtain rfl := Nat.lt_one_iff.1 hm
    exact callTarget_behaves

end KRover.FattCtrl
