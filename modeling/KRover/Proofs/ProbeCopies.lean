import KRover.Int3Handler
import KRover.Proofs.ProbePages

/-! # What the copies of the code hold

A page is looked up again and again, and each time it is copied as the target has it,
without the probes that an earlier copy got. So a probe is in one copy, and the copies
after it hold the instruction of the target.

* `View`: the copies with the probes in each of them;
* `Shows`: the state of the controller that has these copies;
* `Shows.look`, `Shows.put`: the steps of a request;
* `probeAll_shows`: the copies after a run of requests.
-/

set_option autoImplicit false

namespace KRover.FattCtrl

/-! ## The copies and their probes -/

/-- The copies with their probes, the last one first. -/
abbrev View := List (BitVec 64 × List (BitVec 64))

namespace View

/-- A page is looked up, which makes a copy. -/
def look (v : View) (p : BitVec 64) : View := (p, []) :: v

/-- A probe is put into the last copy. -/
def put (a : BitVec 64) : View → View
  | [] => []
  | (p, as) :: v => (p, a :: as) :: v

/-- The probes of a function behind its first one: the page is looked up when it
changes. -/
def installEach (v : View) : List (BitVec 64) → View
  | [] => v
  | a :: as =>
    installEach (put a (if v.head?.map (·.1) = some (pageOf a) then v else v.look (pageOf a))) as

/-- The probes of one request. -/
def install (v : View) : List (BitVec 64) → View
  | [] => v
  | a :: as => installEach (put a (v.look (pageOf a))) as

/-- The probes of a run of requests. -/
def installAll (v : View) (funcCall : FuncDB) (rs : List ProbeRequest) : View :=
  rs.foldl (fun v r => v.install (probesOf funcCall r)) v

end View

/-- The pages of the pool. -/
def InPool (temp b : BitVec 64) : Prop := b - temp < poolSize

/-- The pool is a range of addresses. -/
instance (temp b : BitVec 64) : Decidable (InPool temp b) :=
  inferInstanceAs (Decidable (_ < _))

/-- The calls that a request puts probes at. -/
def callsOf (funcCall : FuncDB) : ProbeRequest → List CallInsn
  | .moniStartOfSE addr => [⟨addr, 0xffffffff810b6080, 5⟩]
  | .installInt3ForFunc funcAddr =>
    let funcIdx := findFuncCallInfo funcCall funcAddr
    if funcIdx = -1 then [] else callInstsAt funcCall funcIdx

/-- A request places one probe at each of its calls. -/
theorem probesOf_eq (funcCall : FuncDB) (r : ProbeRequest) :
    probesOf funcCall r = (callsOf funcCall r).map (·.addr) := by
  cases r with
  | moniStartOfSE addr => rfl
  | installInt3ForFunc funcAddr =>
    by_cases hfound : findFuncCallInfo funcCall funcAddr = -1
    · simp [probesOf, callsOf, hfound]
    · simp [probesOf, callsOf, hfound]

/-- The code of the target: where it lies, its bytes, and the calls that the table of
functions may list in it. -/
structure Code where
  inCode : BitVec 64 → Prop
  byte : BitVec 64 → BitVec 8
  lists : CallInsn → Prop

/-- The copies have the code with their probes. -/
def Copies (temp : BitVec 64) (K : Code) (s : FattCtrl) : View → Prop
  | [] => True
  | (p, as) :: v =>
    (s.redirCodePages v.length = ⟨p, copyAt temp v.length, p - copyAt temp v.length⟩ ∧
      ∀ off, off < 0x1000 → K.inCode (p + off) →
        s.mem (copyAt temp v.length + off) = if p + off ∈ as then 0xcc else K.byte (p + off)) ∧
    Copies temp K s v

/-- The state of the controller with these copies, outside of which the memory is `mem`.
Every probe is in the table, and the table has calls that are listed. -/
structure Shows (temp : BitVec 64) (K : Code) (mem : BitVec 64 → BitVec 8) (s : FattCtrl)
    (v : View) : Prop where
  redirected : Redirected temp s (v.reverse.map (·.1))
  current : ∀ p as v', v = (p, as) :: v' → s.crtRedirIdx = v'.length
  copies : Copies temp K s v
  kept : ∀ b, ¬ InPool temp b → s.mem b = mem b
  probes : ∀ e ∈ v, ∀ a ∈ e.2, ∃ k < s.crtInt3Idx, (s.probeOrigInst k).addr = a
  table : ∀ k < s.crtInt3Idx, K.lists
    ⟨(s.probeOrigInst k).addr, (s.probeOrigInst k).dest, (s.probeOrigInst k).len⟩

section Steps

variable {temp : BitVec 64} {K : Code} {mem : BitVec 64 → BitVec 8} {s s' : FattCtrl} {v : View}

/-- What is copied so far stays so if the entries and the bytes of the copies do. -/
theorem Copies.congr (h : Copies temp K s v)
    (hentry : ∀ i < v.length, s'.redirCodePages i = s.redirCodePages i)
    (hmem : ∀ i < v.length, ∀ off, off < 0x1000 →
      s'.mem (copyAt temp i + off) = s.mem (copyAt temp i + off)) : Copies temp K s' v := by
  induction v with
  | nil => trivial
  | cons e v ih =>
    obtain ⟨⟨hpage, hbytes⟩, hrest⟩ := h
    refine ⟨⟨?_, fun off hoff hin => ?_⟩, ih hrest (fun i hi => hentry i ?_) fun i hi => hmem i ?_⟩
    · rw [hentry _ (Nat.lt_succ_self _), hpage]
    · rw [hmem _ (Nat.lt_succ_self _) off hoff, hbytes off hoff hin]
    · exact Nat.lt_succ_of_lt hi
    · exact Nat.lt_succ_of_lt hi

/-- A new controller shows the code as it is. -/
theorem shows_new (temp : BitVec 64) (K : Code) (probes : Nat → HookInfo)
    (mem : BitVec 64 → BitVec 8) : Shows temp K mem (new temp probes mem) [] where
  redirected := redirected_new temp probes mem
  current _ _ _ h := by simp at h
  copies := trivial
  kept _ hb := if_neg hb
  probes _ h := absurd h List.not_mem_nil
  table _ hk := absurd hk (Nat.not_lt_zero _)

/-- No more than seven pages are shown. -/
theorem Shows.length_le (h : Shows temp K mem s v) : v.length ≤ 7 := by
  have hle := h.redirected.le
  rwa [List.length_map, List.length_reverse] at hle

/-- The controller counts them. -/
theorem Shows.count (h : Shows temp K mem s v) : s.crtMaxRedirIdx = v.length := by
  rw [h.redirected.count, List.length_map, List.length_reverse]

variable (hv : Valloc temp poolSize)

include hv in
/-- The copies lie in the pool. -/
theorem inPool_copyAt {i : Nat} (hi : i < 7) {off : BitVec 64} (hoff : off < 0x1000) :
    InPool temp (copyAt temp i + off) := by
  have hfits : temp.toNat + 0x8000 < 2 ^ 64 := hv.fits
  have hoff' : off.toNat < 0x1000 := hoff
  show (copyAt temp i + off - temp).toNat < 0x8000
  rw [BitVec.toNat_sub, BitVec.toNat_add, copyAt_toNat hv (by omega)]
  omega

include hv in
/-- The memory changes outside the pool and the code. -/
theorem Shows.congr_mem (h : Shows temp K mem s v) {mem' : BitVec 64 → BitVec 8}
    (hpool : ∀ b, InPool temp b → mem' b = s.mem b) :
    Shows temp K mem' { s with mem := mem' } v where
  redirected := h.redirected.congr rfl rfl rfl
  current := h.current
  copies := by
    refine h.copies.congr (fun _ _ => rfl) fun i hi off hoff => ?_
    have hle := h.length_le
    exact hpool _ (inPool_copyAt hv (by omega) hoff)
  kept _ _ := rfl
  probes := h.probes
  table := h.table

/-- The copy of a page that is looked up, from the start of the copy on. -/
theorem memcpy_at (m : BitVec 64 → BitVec 8) (dst src off : BitVec 64) (hoff : off < 0x1000) :
    memcpy m dst src 0x1000 (dst + off) = m (src + off) := by
  have hsub : dst + off - dst = off := by
    rw [BitVec.add_comm, BitVec.add_sub_cancel]
  rw [memcpy, hsub, if_pos hoff]

include hv

/-- A copy leaves the memory outside the pool. -/
theorem memcpy_kept (m : BitVec 64 → BitVec 8) {i : Nat} (hi : i < 7) (src : BitVec 64)
    {b : BitVec 64} (hb : ¬ InPool temp b) : memcpy m (copyAt temp i) src 0x1000 b = m b := by
  refine if_neg fun hin => hb ?_
  have hpool := inPool_copyAt hv hi hin
  rwa [BitVec.add_comm, BitVec.sub_add_cancel] at hpool

variable (hcode : ∀ a, K.inCode a → ¬ InPool temp a) (hload : ∀ a, K.inCode a → mem a = K.byte a)

include hcode hload

/-- A page is looked up. -/
theorem Shows.look (h : Shows temp K mem s v) {p : BitVec 64}
    (hst : s.updateCrtRedirIdx p = some s') : Shows temp K mem s' (v.look p) := by
  have hred : Redirected temp
      { s with crtRedirIdx := (s.seekRedirIdx p 0 s.crtRedirIdx).2 } (v.reverse.map (·.1)) :=
    h.redirected.congr rfl rfl rfl
  have hlen : (v.reverse.map (·.1)).length = v.length := by simp
  have hcount : s.crtMaxRedirIdx = v.length := h.count
  have hle := h.length_le
  rw [updateCrtRedirIdx_eq, hred.redirCodePageHyperCall_eq hv, hlen] at hst
  by_cases h7 : v.length = 7
  · rw [if_pos h7] at hst
    simp at hst
  · rw [if_neg h7] at hst
    obtain rfl := Option.some.inj hst
    have hlt : v.length < 7 := by omega
    have hmem : (afterRedirect temp
        { s with crtRedirIdx := (s.seekRedirIdx p 0 s.crtRedirIdx).2 } p).mem
        = memcpy s.mem (copyAt temp v.length) p 0x1000 := by
      rw [afterRedirect_mem, ← hcount]
    constructor
    · have hnext := hred.redirect (by rw [hlen]; exact h7) p
      rw [View.look, List.reverse_cons, List.map_append]
      exact hnext
    · rintro _ _ _ ⟨⟩
      rw [afterRedirect_crtRedirIdx]
      exact hcount
    · refine ⟨⟨?_, fun off hoff hin => ?_⟩, h.copies.congr (fun i hi => ?_) fun i hi off hoff => ?_⟩
      · show Function.update s.redirCodePages s.crtMaxRedirIdx _ v.length = _
        rw [hcount, Function.update_self]
      · -- the new copy has the code of the page and no probe
        rw [hmem, memcpy_at _ _ _ _ hoff, h.kept _ (hcode _ hin), hload _ hin]
        exact (if_neg List.not_mem_nil).symm
      · show Function.update s.redirCodePages s.crtMaxRedirIdx _ i = _
        rw [Function.update_of_ne (by omega)]
      · -- it lies behind the others
        rw [hmem]
        refine if_neg fun hin => ?_
        have heq := copyAt_disjoint hv (Nat.lt_trans hi hlt) hlt hoff hin
        omega
    · intro b hb
      rw [hmem, memcpy_kept hv _ hlt _ hb, h.kept b hb]
    · intro e he a ha
      rw [afterRedirect_crtInt3Idx, afterRedirect_probeOrigInst]
      rcases List.mem_cons.1 he with rfl | he
      · exact absurd ha List.not_mem_nil
      · exact h.probes e he a ha
    · intro k hk
      rw [afterRedirect_crtInt3Idx] at hk
      rw [afterRedirect_probeOrigInst]
      exact h.table k hk

omit hcode hload in
/-- The copies when a probe was put into the last one. -/
theorem Copies.put {a : BitVec 64} {as : List (BitVec 64)} (hlt : v.length < 7)
    (h : Copies temp K s ((pageOf a, as) :: v)) (hentry : s'.redirCodePages = s.redirCodePages)
    (hmem : s'.mem = Function.update s.mem (copyAt temp v.length + (a - pageOf a)) 0xcc) :
    Copies temp K s' ((pageOf a, a :: as) :: v) := by
  obtain ⟨⟨hpage, hbytes⟩, hrest⟩ := h
  have hin := sub_pageOf_lt a
  refine ⟨⟨by rw [hentry, hpage], fun off hoff hcin => ?_⟩,
    hrest.congr (fun i _ => by rw [hentry]) fun i hi off hoff => ?_⟩
  · rw [hmem]
    by_cases hoffset : off = a - pageOf a
    · have hself : pageOf a + off = a := by
        rw [hoffset, BitVec.add_comm, BitVec.sub_add_cancel]
      rw [hself, hoffset, Function.update_self, if_pos List.mem_cons_self]
    · -- another byte of the copy
      have hne : pageOf a + off ≠ a := by
        intro heq
        refine hoffset (BitVec.eq_sub_iff_add_eq.2 ?_)
        rwa [BitVec.add_comm]
      have hne' : copyAt temp v.length + off ≠ copyAt temp v.length + (a - pageOf a) :=
        fun heq => hoffset ((BitVec.add_right_inj _).1 heq)
      rw [Function.update_of_ne hne', hbytes off hoff hcin]
      simp only [List.mem_cons, hne, false_or]
  · -- an earlier copy
    rw [hmem]
    refine Function.update_of_ne (fun heq => ?_) _ _
    have hsub : copyAt temp i + off - copyAt temp v.length < 0x1000 := by
      rw [heq, BitVec.add_comm, BitVec.add_sub_cancel]
      exact hin
    have hsame := copyAt_disjoint hv (Nat.lt_trans hi hlt) hlt hoff hsub
    omega

omit hcode hload in
/-- A probe is put into the copy that was made last. -/
theorem Shows.put {p : BitVec 64} {as : List (BitVec 64)} (h : Shows temp K mem s ((p, as) :: v))
    {c : CallInsn} (hpage : pageOf c.addr = p) (hc : K.lists c)
    (hst : s.installPerInt3 c.addr c.len c.dest = some s') :
    Shows temp K mem s' ((p, c.addr :: as) :: v) := by
  subst hpage
  have hle := h.length_le
  rw [List.length_cons] at hle
  have hlt : v.length < 7 := by omega
  have hcur := h.current _ _ _ rfl
  -- where the probe is put
  have haddr : c.addr - (s.redirCodePages s.crtRedirIdx).offset
      = copyAt temp v.length + (c.addr - pageOf c.addr) := by
    rw [hcur, h.copies.1.1]
    show c.addr - (pageOf c.addr - copyAt temp v.length) = _
    ring
  rw [installPerInt3_eq] at hst
  split at hst
  · simp at hst
  · obtain rfl := Option.some.inj hst
    have hmem : (s.afterProbe c.addr c.len c.dest).mem
        = Function.update s.mem (copyAt temp v.length + (c.addr - pageOf c.addr)) 0xcc := by
      rw [afterProbe_mem, haddr]
    have hnew : (s.afterProbe c.addr c.len c.dest).probeOrigInst s.crtInt3Idx
        = ⟨c.addr, c.dest, s.mem c.addr, c.len⟩ := Function.update_self ..
    have hold : ∀ k < s.crtInt3Idx,
        (s.afterProbe c.addr c.len c.dest).probeOrigInst k = s.probeOrigInst k :=
      fun k hk => Function.update_of_ne (Nat.ne_of_lt hk) ..
    constructor
    · have hpages := h.redirected
      rw [List.reverse_cons, List.map_append] at hpages ⊢
      exact hpages.congr rfl rfl rfl
    · rintro _ _ _ ⟨⟩
      exact hcur
    · exact h.copies.put hv hlt rfl hmem
    · intro b hb
      rw [hmem, Function.update_of_ne, h.kept b hb]
      rintro rfl
      exact hb (inPool_copyAt hv hlt (sub_pageOf_lt c.addr))
    · -- a probe is new, or was in the table
      have hkept : ∀ a, (∃ k < s.crtInt3Idx, (s.probeOrigInst k).addr = a) →
          ∃ k < s.crtInt3Idx + 1,
            ((s.afterProbe c.addr c.len c.dest).probeOrigInst k).addr = a := by
        rintro a ⟨k, hk, hka⟩
        exact ⟨k, Nat.lt_succ_of_lt hk, by rw [hold k hk, hka]⟩
      intro e he a ha
      rcases List.mem_cons.1 he with rfl | he
      · rcases List.mem_cons.1 ha with rfl | ha
        · exact ⟨s.crtInt3Idx, Nat.lt_succ_self _, by rw [hnew]⟩
        · exact hkept a (h.probes _ List.mem_cons_self a ha)
      · exact hkept a (h.probes e (List.mem_cons_of_mem _ he) a ha)
    · intro k hk
      rcases Nat.lt_succ_iff_lt_or_eq.1 hk with hlt | rfl
      · rw [hold k hlt]
        exact h.table k hlt
      · rw [hnew]
        exact hc

/-- A page is looked up for a probe. -/
theorem Shows.lookPut (h : Shows temp K mem s v) {c : CallInsn} (hc : K.lists c) {s₁ : FattCtrl}
    (hlook : s.updateCrtRedirIdx (pageOf c.addr) = some s₁)
    (hput : s₁.installPerInt3 c.addr c.len c.dest = some s') :
    Shows temp K mem s' (View.put c.addr (v.look (pageOf c.addr))) :=
  (h.look hv hcode hload hlook).put hv rfl hc hput

/-- The loop of `InstallInt3ForFunc`. -/
theorem Shows.installEach {e : BitVec 64 × List (BitVec 64)} {cs : List CallInsn}
    (h : Shows temp K mem s (e :: v)) (hcs : ∀ c ∈ cs, K.lists c)
    (hst : s.installEach cs = some s') :
    Shows temp K mem s' (View.installEach (e :: v) (cs.map (·.addr))) := by
  induction cs generalizing s e v with
  | nil =>
    rw [FattCtrl.installEach] at hst
    rw [List.map_nil, View.installEach, ← Option.some.inj hst]
    exact h
  | cons c cs ih =>
    obtain ⟨p, as⟩ := e
    have horig : (s.redirCodePages s.crtRedirIdx).origTPageAddr = p := by
      rw [h.current _ _ _ rfl, h.copies.1.1]
    have hc := hcs c List.mem_cons_self
    have hcs' : ∀ c ∈ cs, K.lists c := fun c hc => hcs c (List.mem_cons_of_mem _ hc)
    rw [FattCtrl.installEach, horig] at hst
    rw [List.map_cons, View.installEach, List.head?_cons, Option.map_some]
    by_cases hpage : p = pageOf c.addr
    · rw [if_neg (not_not.2 hpage.symm), Option.bind_eq_bind, Option.bind_some] at hst
      obtain ⟨s₁, hput, hrest⟩ := Option.bind_eq_some_iff.1 hst
      rw [if_pos (congrArg some hpage)]
      exact ih (h.put hv hpage.symm hc hput) hcs' hrest
    · rw [if_pos (Ne.symm hpage)] at hst
      obtain ⟨s₁, hlook, hst⟩ := Option.bind_eq_some_iff.1 hst
      obtain ⟨s₂, hput, hrest⟩ := Option.bind_eq_some_iff.1 hst
      rw [if_neg fun heq => hpage (Option.some.inj heq)]
      exact ih (h.lookPut hv hcode hload hc hlook hput) hcs' hrest

/-- The probes of a function that is called. -/
theorem Shows.installInt3ForFunc (h : Shows temp K mem s v) {funcCall : FuncDB}
    {funcAddr : BitVec 64}
    (hcs : ∀ c ∈ callsOf funcCall (.installInt3ForFunc funcAddr), K.lists c)
    (hst : s.installInt3ForFunc funcCall funcAddr = some s') :
    Shows temp K mem s' (v.install (probesOf funcCall (.installInt3ForFunc funcAddr))) := by
  rw [FattCtrl.installInt3ForFunc] at hst
  rw [probesOf_eq]
  rw [callsOf] at hcs ⊢
  by_cases hfound : findFuncCallInfo funcCall funcAddr = -1
  · rw [if_pos hfound] at hst ⊢
    rw [← Option.some.inj hst]
    exact h
  · rw [if_neg hfound] at hst hcs ⊢
    cases hcalls : callInstsAt funcCall (findFuncCallInfo funcCall funcAddr) with
    | nil => simp [hcalls] at hst
    | cons c cs =>
      rw [hcalls] at hst hcs
      obtain ⟨s₁, hlook, hst⟩ := Option.bind_eq_some_iff.1 hst
      obtain ⟨s₂, hput, hrest⟩ := Option.bind_eq_some_iff.1 hst
      have hfirst := h.lookPut hv hcode hload (hcs c List.mem_cons_self) hlook hput
      exact hfirst.installEach hv hcode hload (fun c hc => hcs c (List.mem_cons_of_mem _ hc)) hrest

/-- One request. -/
theorem Shows.probe (h : Shows temp K mem s v) {funcCall : FuncDB} {r : ProbeRequest}
    (hcs : ∀ c ∈ callsOf funcCall r, K.lists c) (hst : s.probe funcCall r = some s') :
    Shows temp K mem s' (v.install (probesOf funcCall r)) := by
  cases r with
  | moniStartOfSE addr =>
    obtain ⟨s₁, hlook, hput⟩ := Option.bind_eq_some_iff.1 hst
    exact h.lookPut hv hcode hload (c := ⟨addr, 0xffffffff810b6080, 5⟩)
      (hcs _ List.mem_cons_self) hlook hput
  | installInt3ForFunc funcAddr => exact h.installInt3ForFunc hv hcode hload hcs hst

/-- A run of requests. -/
theorem Shows.probeAll (h : Shows temp K mem s v) {funcCall : FuncDB} {rs : List ProbeRequest}
    (hcs : ∀ r ∈ rs, ∀ c ∈ callsOf funcCall r, K.lists c)
    (hst : s.probeAll funcCall rs = some s') :
    Shows temp K mem s' (v.installAll funcCall rs) := by
  induction rs generalizing s v with
  | nil =>
    rw [← Option.some.inj hst]
    exact h
  | cons r rs ih =>
    obtain ⟨s₁, hone, hrest⟩ := Option.bind_eq_some_iff.1 hst
    have hstep := h.probe hv hcode hload (hcs r List.mem_cons_self) hone
    exact ih hstep (fun r hr => hcs r (List.mem_cons_of_mem _ hr)) hrest

end Steps

/-- The copy with a number. -/
theorem Copies.get {temp : BitVec 64} {K : Code} {s : FattCtrl} {v : View}
    (h : Copies temp K s v) {i : Nat} {p : BitVec 64} {as : List (BitVec 64)}
    (hi : v.reverse[i]? = some (p, as)) :
    s.redirCodePages i = ⟨p, copyAt temp i, p - copyAt temp i⟩ ∧
      ∀ off, off < 0x1000 → K.inCode (p + off) →
        s.mem (copyAt temp i + off) = if p + off ∈ as then 0xcc else K.byte (p + off) := by
  induction v with
  | nil => simp at hi
  | cons e v ih =>
    rw [List.reverse_cons] at hi
    have hlt : i < (v.reverse ++ [e]).length := (List.getElem?_eq_some_iff.1 hi).1
    rw [List.length_append, List.length_reverse, List.length_singleton] at hlt
    rcases Nat.lt_succ_iff_lt_or_eq.1 hlt with hold | rfl
    · rw [List.getElem?_append_left (by rwa [List.length_reverse])] at hi
      exact ih h.2 hi
    · -- the last one
      rw [← List.length_reverse, List.getElem?_concat_length] at hi
      obtain rfl := Option.some.inj hi
      exact h.1

/-- After a run of requests every page that was looked up has its copies, one each time,
and a copy is the page as it was with the probes that were put into this copy. -/
theorem probeAll_copies {temp : BitVec 64} (hv : Valloc temp poolSize) (probes : Nat → HookInfo)
    (mem : BitVec 64 → BitVec 8) {funcCall : FuncDB} {rs : List ProbeRequest} {s : FattCtrl}
    (hst : (new temp probes mem).probeAll funcCall rs = some s) :
    s.crtMaxRedirIdx = (View.installAll [] funcCall rs).length ∧
    (∀ b, ¬ InPool temp b → s.mem b = mem b) ∧
    ∀ i p as, (View.installAll [] funcCall rs).reverse[i]? = some (p, as) →
      s.redirCodePages i = ⟨p, copyAt temp i, p - copyAt temp i⟩ ∧
      (∀ off, off < 0x1000 → ¬ InPool temp (p + off) →
        s.mem (copyAt temp i + off) = if p + off ∈ as then 0xcc else mem (p + off)) ∧
      ∀ a ∈ as, ∃ k < s.crtInt3Idx, (s.probeOrigInst k).addr = a := by
  let K : Code := ⟨fun a => ¬ InPool temp a, mem, fun _ => True⟩
  have h := (shows_new temp K probes mem).probeAll hv (fun _ ha => ha) (fun _ _ => rfl)
    (fun _ _ _ _ => trivial) hst
  refine ⟨h.count, h.kept, fun i p as hi => ?_⟩
  have hcopy := h.copies.get hi
  have hmem : (p, as) ∈ View.installAll [] funcCall rs :=
    List.mem_reverse.1 (List.mem_of_getElem? hi)
  exact ⟨hcopy.1, hcopy.2, h.probes _ hmem⟩

/-- Two starts in one page: the probe of the first is not in the second copy. -/
theorem probeAll_copies_samePage :
    ∃ s, (new 0x7f0000000000 (fun _ => ⟨0, 0, 0, 0⟩) fun _ => 0).probeAll noCalls
        [.moniStartOfSE 0xffffffff81c00087, .moniStartOfSE 0xffffffff81c00090] = some s ∧
      s.mem (copyAt 0x7f0000000000 0 + 0x87) = 0xcc ∧
      s.mem (copyAt 0x7f0000000000 1 + 0x87) = 0 ∧
      s.mem (copyAt 0x7f0000000000 1 + 0x90) = 0xcc := by
  have hcalls : ∀ r ∈ [ProbeRequest.moniStartOfSE 0xffffffff81c00087,
      .moniStartOfSE 0xffffffff81c00090], HasCalls noCalls r := by
    intro r hr
    fin_cases hr <;> trivial
  obtain ⟨s, hs, -⟩ := ((placed_new 0x7f0000000000 (fun _ => ⟨0, 0, 0, 0⟩)
    fun _ => 0).probeAll valloc_example hcalls).1 (by decide)
  have hcopies := (probeAll_copies valloc_example _ _ hs).2.2
  have hfirst := (hcopies 0 0xffffffff81c00000 [0xffffffff81c00087] (by decide)).2.1
  have hsecond := (hcopies 1 0xffffffff81c00000 [0xffffffff81c00090] (by decide)).2.1
  refine ⟨s, hs, ?_, ?_, ?_⟩
  · exact hfirst 0x87 (by decide) (by decide)
  · exact hsecond 0x87 (by decide) (by decide)
  · exact hsecond 0x90 (by decide) (by decide)

end KRover.FattCtrl
