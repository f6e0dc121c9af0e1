import Mathlib.Data.List.Nodup
import Mathlib.Tactic.FinCases
import Mathlib.Tactic.IntervalCases
import Mathlib.Tactic.Ring
import KRover.Proofs.RedirPages

/-! # Probes in redirected pages

The loop of `update_crt_redir_idx` has no way out before its end, so the page
is redirected even when the table holds it already. The pages that a run looks
up are therefore the entries of the table, one after the other, and the
addresses that it puts probes at are the entries of the other table.

* `Placed`: the state after some pages were looked up and some probes put;
* `Yields`: a step reaches such a state as long as the tables and the pool last;
* `Placed.probeAll`: a run does;
* `probeAll_placed_iff`: when every page has one copy and every probe one
  entry.
-/

set_option autoImplicit false

namespace KRover.FattCtrl

/-! ## What a run asks for -/

/-- The call instructions that a request puts probes at; a `MoniStartOfSE` is
a single one. -/
def probesOf (funcCall : FuncDB) : ProbeRequest → List (BitVec 64)
  | .moniStartOfSE addr => [addr]
  | .installInt3ForFunc funcAddr =>
    let funcIdx := findFuncCallInfo funcCall funcAddr
    if funcIdx = -1 then [] else (callInstsAt funcCall funcIdx).map (·.addr)

/-- The pages that differ from the one before, which at first is `p`. -/
def turnedPages (p : BitVec 64) : List (BitVec 64) → List (BitVec 64)
  | [] => []
  | addr :: addrs =>
    if pageOf addr ≠ p then pageOf addr :: turnedPages (pageOf addr) addrs
    else turnedPages p addrs

/-- The pages that are looked up for the addresses of one request. -/
def lookedUp : List (BitVec 64) → List (BitVec 64)
  | [] => []
  | addr :: addrs => pageOf addr :: turnedPages (pageOf addr) addrs

/-- The pages that a run looks up. -/
def pagesAsked (funcCall : FuncDB) (rs : List ProbeRequest) : List (BitVec 64) :=
  rs.flatMap fun r => lookedUp (probesOf funcCall r)

/-- The addresses that a run puts probes at. -/
def probesAsked (funcCall : FuncDB) (rs : List ProbeRequest) : List (BitVec 64) :=
  rs.flatMap (probesOf funcCall)

/-- A function that the request finds has a call instruction. -/
def HasCalls (funcCall : FuncDB) : ProbeRequest → Prop
  | .moniStartOfSE _ => True
  | .installInt3ForFunc funcAddr =>
    findFuncCallInfo funcCall funcAddr = -1 ∨
      callInstsAt funcCall (findFuncCallInfo funcCall funcAddr) ≠ []

/-- The pool has seven pages, and the last entry of the other table stays
free. -/
def Fits (pages probes : List (BitVec 64)) : Prop := pages.length ≤ 7 ∧ probes.length < maxInt3

/-- Whether the probes fit is a matter of two lengths. -/
instance (pages probes : List (BitVec 64)) : Decidable (Fits pages probes) :=
  inferInstanceAs (Decidable (_ ∧ _))

/-! ## The state of a run -/

/-- The state after the pages `pages` were looked up and probes put at
`probes`: every probe has its byte in a copy of its page. -/
structure Placed (temp : BitVec 64) (s : FattCtrl) (pages probes : List (BitVec 64)) : Prop where
  redirected : Redirected temp s pages
  room : probes.length < maxInt3
  current : pages ≠ [] → s.crtRedirIdx + 1 = pages.length
  count : s.crtInt3Idx = probes.length
  addrs : ∀ k a, probes[k]? = some a → (s.probeOrigInst k).addr = a
  written : ∀ a ∈ probes, ∃ i, pages[i]? = some (pageOf a) ∧
    s.mem (copyAt temp i + (a - pageOf a)) = 0xcc

/-- In a new controller no probe is placed. -/
theorem placed_new (temp : BitVec 64) (probes : Nat → HookInfo) (mem : BitVec 64 → BitVec 8) :
    Placed temp (new temp probes mem) [] [] where
  redirected := redirected_new temp probes mem
  room := by decide
  current h := absurd rfl h
  count := rfl
  addrs _ _ h := absurd h (by simp)
  written _ h := absurd h (by simp)

/-- The loop of `update_crt_redir_idx` runs to its end. -/
theorem seekRedirIdx_fst (s : FattCtrl) (tempAddr : BitVec 64) (i crtRedirIdx : Nat)
    (hi : i ≤ s.crtMaxRedirIdx) :
    (s.seekRedirIdx tempAddr i crtRedirIdx).1 = s.crtMaxRedirIdx := by
  fun_induction seekRedirIdx s tempAddr i crtRedirIdx with
  | case1 i crtRedirIdx hlt ih => exact ih hlt
  | case2 i crtRedirIdx hge => exact Nat.le_antisymm hi (Nat.le_of_not_lt hge)

/-- So the page is always redirected. -/
theorem updateCrtRedirIdx_eq (s : FattCtrl) (tempAddr : BitVec 64) :
    s.updateCrtRedirIdx tempAddr =
      redirCodePageHyperCall
        { s with crtRedirIdx := (s.seekRedirIdx tempAddr 0 s.crtRedirIdx).2 } tempAddr := by
  have hfst := seekRedirIdx_fst s tempAddr 0 s.crtRedirIdx (Nat.zero_le _)
  rw [updateCrtRedirIdx]
  exact if_pos hfst

/-! ## Steps and runs -/

/-- A step that has looked up `pages` and put probes at `probes`, if the
tables and the pool last, and has not returned otherwise. -/
def Yields (temp : BitVec 64) (r : Option FattCtrl) (pages probes : List (BitVec 64)) : Prop :=
  (Fits pages probes → ∃ s, r = some s ∧ Placed temp s pages probes) ∧
  (¬ Fits pages probes → r = none)

variable {temp : BitVec 64} {s : FattCtrl} {pages probes : List (BitVec 64)}

/-- If the probes fit with more of them, they fit without. -/
theorem Fits.of_append {P Q : List (BitVec 64)} (h : Fits (pages ++ P) (probes ++ Q)) :
    Fits pages probes := by
  obtain ⟨hp, hq⟩ := h
  rw [List.length_append] at hp hq
  exact ⟨by omega, by omega⟩

/-- Probes that are placed fit. -/
theorem Placed.fits (h : Placed temp s pages probes) : Fits pages probes :=
  ⟨h.redirected.le, h.room⟩

/-- A state with placed probes is what a request for them yields. -/
theorem Placed.yields (h : Placed temp s pages probes) : Yields temp (some s) pages probes :=
  ⟨fun _ => ⟨s, rfl, h⟩, fun hno => absurd h.fits hno⟩

/-- Steps one after the other. -/
theorem Yields.bind {r : Option FattCtrl} {f : FattCtrl → Option FattCtrl}
    {P Q : List (BitVec 64)} (h : Yields temp r pages probes)
    (hf : ∀ s, Placed temp s pages probes → Yields temp (f s) (pages ++ P) (probes ++ Q)) :
    Yields temp (r.bind f) (pages ++ P) (probes ++ Q) := by
  by_cases hfits : Fits pages probes
  · obtain ⟨s, rfl, hs⟩ := h.1 hfits
    exact hf s hs
  · rw [h.2 hfits]
    exact ⟨fun hall => absurd hall.of_append hfits, fun _ => rfl⟩

/-- Looking up a page. -/
theorem Placed.updateCrtRedirIdx (hv : Valloc temp poolSize) (h : Placed temp s pages probes)
    (p : BitVec 64) : Yields temp (s.updateCrtRedirIdx p) (pages ++ [p]) probes := by
  have hred : Redirected temp
      { s with crtRedirIdx := (s.seekRedirIdx p 0 s.crtRedirIdx).2 } pages :=
    h.redirected.congr rfl rfl rfl
  rw [updateCrtRedirIdx_eq, hred.redirCodePageHyperCall_eq hv]
  have hle := h.redirected.le
  by_cases h7 : pages.length = 7
  · rw [if_pos h7]
    refine ⟨fun hfits => absurd hfits.1 ?_, fun _ => rfl⟩
    rw [List.length_append, List.length_singleton]
    omega
  · rw [if_neg h7]
    refine Placed.yields ⟨hred.redirect h7 p, h.room, ?_, ?_, ?_, ?_⟩
    · intro _
      rw [afterRedirect_crtRedirIdx, List.length_append, List.length_singleton]
      exact congrArg (· + 1) h.redirected.count
    · rw [afterRedirect_crtInt3Idx]
      exact h.count
    · rw [afterRedirect_probeOrigInst]
      exact h.addrs
    · intro a ha
      obtain ⟨i, hi, hbyte⟩ := h.written a ha
      have hlt : i < pages.length := (List.getElem?_eq_some_iff.1 hi).1
      refine ⟨i, by rw [List.getElem?_append_left hlt]; exact hi, ?_⟩
      -- the new copy lies behind the one that has the byte
      rw [afterRedirect_mem, hred.count, memcpy, if_neg]
      · exact hbyte
      · intro hin
        have heq := copyAt_disjoint hv (by omega) (by omega) (sub_pageOf_lt a) hin
        omega

/-- The state after a probe was put. -/
def afterProbe (s : FattCtrl) (addr : BitVec 64) (len : Int) (dest : BitVec 64) : FattCtrl :=
  { s with
    probeOrigInst :=
      Function.update s.probeOrigInst s.crtInt3Idx ⟨addr, dest, s.mem addr, len⟩
    mem := Function.update s.mem (addr - (s.redirCodePages s.crtRedirIdx).offset) 0xcc
    crtInt3Idx := s.crtInt3Idx + 1 }

/-- A probe writes one byte, in the copy of the page. -/
@[simp] theorem afterProbe_mem (s : FattCtrl) (addr : BitVec 64) (len : Int)
    (dest : BitVec 64) :
    (s.afterProbe addr len dest).mem =
      Function.update s.mem (addr - (s.redirCodePages s.crtRedirIdx).offset) 0xcc := rfl

/-- `InstallPerInt3` places the probe unless the table is full. -/
theorem installPerInt3_eq (s : FattCtrl) (addr : BitVec 64) (len : Int) (dest : BitVec 64) :
    s.installPerInt3 addr len dest =
      if s.crtInt3Idx + 1 ≥ maxInt3 then none else some (s.afterProbe addr len dest) := rfl

/-- The copy in use is that of the page that was looked up last. -/
theorem Placed.current_page (h : Placed temp s pages probes) {p : BitVec 64}
    (hlast : pages.getLast? = some p) : pages[s.crtRedirIdx]? = some p := by
  have hne : pages ≠ [] := by
    rintro rfl
    exact absurd hlast (by simp)
  have hcur := h.current hne
  rw [List.getLast?_eq_getElem?] at hlast
  rw [← hlast]
  congr 1
  omega

/-- Putting a probe into the copy that was made last. -/
theorem Placed.installPerInt3 (h : Placed temp s pages probes) {a : BitVec 64}
    (hlast : pages.getLast? = some (pageOf a)) (len : Int) (dest : BitVec 64) :
    Yields temp (s.installPerInt3 a len dest) pages (probes ++ [a]) := by
  have hpage := h.current_page hlast
  have haddr : a - (s.redirCodePages s.crtRedirIdx).offset
      = copyAt temp s.crtRedirIdx + (a - pageOf a) := by
    rw [h.redirected.entry _ _ hpage]
    show a - (pageOf a - copyAt temp s.crtRedirIdx) = _
    ring
  have hlen : (probes ++ [a]).length = s.crtInt3Idx + 1 := by
    rw [List.length_append, List.length_singleton, h.count]
  rw [installPerInt3_eq]
  by_cases hroom : s.crtInt3Idx + 1 ≥ maxInt3
  · rw [if_pos hroom]
    refine ⟨fun hfits => absurd hfits.2 ?_, fun _ => rfl⟩
    rw [hlen]
    omega
  · rw [if_neg hroom]
    refine Placed.yields
      ⟨h.redirected.congr rfl rfl rfl, by omega, h.current, hlen.symm, ?_, ?_⟩
    · intro k b hk
      show (Function.update s.probeOrigInst s.crtInt3Idx _ k).addr = b
      rw [h.count]
      rcases Nat.lt_trichotomy k probes.length with hlt | heq | hgt
      · rw [List.getElem?_append_left hlt] at hk
        rw [Function.update_of_ne (Nat.ne_of_lt hlt)]
        exact h.addrs k b hk
      · rw [heq, List.getElem?_concat_length] at hk
        rw [heq, Function.update_self]
        exact Option.some.inj hk
      · rw [List.getElem?_eq_none (by rw [hlen, h.count]; omega)] at hk
        exact absurd hk (by simp)
    · intro b hb
      rw [afterProbe_mem, haddr]
      rcases List.mem_append.1 hb with hb | hb
      · obtain ⟨i, hi, hbyte⟩ := h.written b hb
        refine ⟨i, hi, ?_⟩
        -- an earlier probe keeps its byte, or shares it with the new one
        by_cases hsame : copyAt temp i + (b - pageOf b)
            = copyAt temp s.crtRedirIdx + (a - pageOf a)
        · rw [hsame, Function.update_self]
        · rw [Function.update_of_ne hsame, hbyte]
      · rw [List.mem_singleton.1 hb]
        exact ⟨_, hpage, Function.update_self ..⟩

/-- Looking up the page of an address and putting a probe at it. -/
theorem Placed.updateInstall (hv : Valloc temp poolSize) (h : Placed temp s pages probes)
    (a : BitVec 64) (len : Int) (dest : BitVec 64) :
    Yields temp ((s.updateCrtRedirIdx (pageOf a)).bind fun s => s.installPerInt3 a len dest)
      (pages ++ [pageOf a]) (probes ++ [a]) := by
  have hbind := Yields.bind (P := []) (Q := [a]) (h.updateCrtRedirIdx hv (pageOf a))
    (f := fun s => s.installPerInt3 a len dest) fun s hs => by
      rw [List.append_nil]
      exact hs.installPerInt3 (by simp) len dest
  rwa [List.append_nil] at hbind

/-- The loop of `InstallInt3ForFunc`, with the page `p` in use. -/
theorem Placed.installEach (hv : Valloc temp poolSize) (h : Placed temp s pages probes)
    {p : BitVec 64} (hlast : pages.getLast? = some p) (cs : List CallInsn) :
    Yields temp (s.installEach cs) (pages ++ turnedPages p (cs.map (·.addr)))
      (probes ++ cs.map (·.addr)) := by
  -- The induction is on the calls still to be made; the page in use is the one of the call before.
  induction cs generalizing s pages probes p with
  | nil =>
    rw [List.map_nil, turnedPages, List.append_nil, List.append_nil]
    exact h.yields
  | cons c cs ih =>
    have horig : (s.redirCodePages s.crtRedirIdx).origTPageAddr = p := by
      rw [h.redirected.entry _ _ (h.current_page hlast)]
    rw [List.map_cons, turnedPages, FattCtrl.installEach, horig]
    have happ : probes ++ c.addr :: cs.map (·.addr) = probes ++ [c.addr] ++ cs.map (·.addr) := by
      simp
    rw [happ]
    by_cases hpage : pageOf c.addr ≠ p
    · rw [if_pos hpage, if_pos hpage]
      have happ' : ∀ ps, pages ++ pageOf c.addr :: ps = pages ++ [pageOf c.addr] ++ ps := by
        simp
      rw [happ']
      have hstep := (h.updateInstall hv c.addr c.len c.dest).bind
        (f := fun s => s.installEach cs)
        fun s hs => ih (p := pageOf c.addr) hs (by simp)
      rw [Option.bind_assoc] at hstep
      exact hstep
    · rw [if_neg hpage, if_neg hpage]
      rw [not_not] at hpage
      have hstep := (h.installPerInt3 (by rw [hlast, hpage]) c.len c.dest).bind
        (f := fun s => s.installEach cs) fun s hs => ih hs hlast
      exact hstep

/-- One request. -/
theorem Placed.probe (hv : Valloc temp poolSize) (h : Placed temp s pages probes)
    {funcCall : FuncDB} {r : ProbeRequest} (hcalls : HasCalls funcCall r) :
    Yields temp (s.probe funcCall r) (pages ++ lookedUp (probesOf funcCall r))
      (probes ++ probesOf funcCall r) := by
  cases r with
  | moniStartOfSE addr => exact h.updateInstall hv addr 5 0xffffffff810b6080
  | installInt3ForFunc funcAddr =>
    show Yields temp (s.installInt3ForFunc funcCall funcAddr) _ _
    rw [installInt3ForFunc, probesOf]
    by_cases hfound : findFuncCallInfo funcCall funcAddr = -1
    · rw [if_pos hfound, if_pos hfound, lookedUp, List.append_nil, List.append_nil]
      exact h.yields
    · rw [if_neg hfound, if_neg hfound]
      cases hcs : callInstsAt funcCall (findFuncCallInfo funcCall funcAddr) with
      | nil => exact absurd hcs (hcalls.resolve_left hfound)
      | cons c cs =>
        have hstep := (h.updateInstall hv c.addr c.len c.dest).bind
          (f := fun s => s.installEach cs)
          fun s hs => hs.installEach (p := pageOf c.addr) hv (by simp) cs
        rw [Option.bind_assoc, List.append_assoc, List.append_assoc] at hstep
        exact hstep

/-- A run whose functions have call instructions. -/
theorem Placed.probeAll (hv : Valloc temp poolSize) (h : Placed temp s pages probes)
    {funcCall : FuncDB} {rs : List ProbeRequest} (hcalls : ∀ r ∈ rs, HasCalls funcCall r) :
    Yields temp (s.probeAll funcCall rs) (pages ++ pagesAsked funcCall rs)
      (probes ++ probesAsked funcCall rs) := by
  induction rs generalizing s pages probes with
  | nil =>
    show Yields temp (some s) (pages ++ []) (probes ++ [])
    rw [List.append_nil, List.append_nil]
    exact h.yields
  | cons r rs ih =>
    have hstep := (h.probe hv (hcalls r List.mem_cons_self)).bind
      (f := fun s => s.probeAll funcCall rs)
      fun s hs => ih hs fun r' hr' => hcalls r' (List.mem_cons_of_mem _ hr')
    rw [List.append_assoc, List.append_assoc] at hstep
    exact hstep

/-- A function without call instructions ends the run: the first of them is
read all the same. -/
theorem probeAll_eq_none {funcCall : FuncDB} {rs : List ProbeRequest} {r : ProbeRequest}
    (hr : r ∈ rs) (hcalls : ¬ HasCalls funcCall r) (s : FattCtrl) :
    s.probeAll funcCall rs = none := by
  induction rs generalizing s with
  | nil => exact absurd hr (by simp)
  | cons r' rs ih =>
    rw [FattCtrl.probeAll]
    rcases List.mem_cons.1 hr with rfl | hr
    · have hnone : s.probe funcCall r = none := by
        cases r with
        | moniStartOfSE addr => exact absurd trivial hcalls
        | installInt3ForFunc funcAddr =>
          rw [HasCalls, not_or, not_not] at hcalls
          show s.installInt3ForFunc funcCall funcAddr = none
          rw [installInt3ForFunc, if_neg hcalls.1, hcalls.2]
      rw [hnone]
      rfl
    · cases s.probe funcCall r' with
      | none => rfl
      | some s' => exact ih hr s'

/-! ## One copy of every page, one entry for every probe -/

/-- What the tables of pages and probes are meant to say: a page has one copy,
a probe has one entry and its byte in the copy of its page, and the page in
use is that of the probe put last. -/
structure ProbesPlaced (s : FattCtrl) : Prop where
  pageOnce : ∀ i j, i < s.crtMaxRedirIdx → j < s.crtMaxRedirIdx →
    (s.redirCodePages i).origTPageAddr = (s.redirCodePages j).origTPageAddr → i = j
  current : ∀ k, s.crtInt3Idx = k + 1 → s.crtRedirIdx < s.crtMaxRedirIdx ∧
    (s.redirCodePages s.crtRedirIdx).origTPageAddr = pageOf (s.probeOrigInst k).addr
  written : ∀ k < s.crtInt3Idx, ∃ i < s.crtMaxRedirIdx,
    (s.redirCodePages i).origTPageAddr = pageOf (s.probeOrigInst k).addr ∧
    s.mem ((s.redirCodePages i).newAnaPageAddr
      + ((s.probeOrigInst k).addr - pageOf (s.probeOrigInst k).addr)) = 0xcc
  probeOnce : ∀ k l, k < s.crtInt3Idx → l < s.crtInt3Idx →
    (s.probeOrigInst k).addr = (s.probeOrigInst l).addr → k = l

/-- The last page turned to is the page of the last address. -/
theorem turnedPages_getLast? (p : BitVec 64) (addrs : List (BitVec 64)) :
    (p :: turnedPages p addrs).getLast? = some ((addrs.getLast?.map pageOf).getD p) := by
  induction addrs generalizing p with
  | nil => rfl
  | cons addr addrs ih =>
    have hlast : ((addr :: addrs).getLast?.map pageOf).getD p
        = (addrs.getLast?.map pageOf).getD (pageOf addr) := by
      rw [List.getLast?_cons]
      cases addrs.getLast? <;> rfl
    rw [hlast, turnedPages]
    by_cases hpage : pageOf addr ≠ p
    · rw [if_pos hpage, List.getLast?_cons_cons]
      exact ih (pageOf addr)
    · rw [if_neg hpage]
      rw [not_not] at hpage
      rw [hpage]
      exact ih p

/-- The page that a run looks up last is that of its last probe. -/
theorem pagesAsked_getLast? (funcCall : FuncDB) (rs : List ProbeRequest) :
    (pagesAsked funcCall rs).getLast? = (probesAsked funcCall rs).getLast?.map pageOf := by
  induction rs with
  | nil => rfl
  | cons r rs ih =>
    have hone : ∀ addrs, (lookedUp addrs).getLast? = addrs.getLast?.map pageOf := by
      intro addrs
      cases addrs with
      | nil => rfl
      | cons addr addrs =>
        rw [lookedUp, turnedPages_getLast?, List.getLast?_cons]
        cases addrs.getLast? <;> rfl
    rw [pagesAsked, probesAsked, List.flatMap_cons, List.flatMap_cons, List.getLast?_append,
      List.getLast?_append]
    rw [pagesAsked, probesAsked] at ih
    rw [ih, hone]
    cases (rs.flatMap (probesOf funcCall)).getLast? <;> rfl

/-- The tables say what they are meant to exactly when no page was looked up
twice and no probe put twice. -/
theorem Placed.probesPlaced_iff (h : Placed temp s pages probes)
    (hlast : pages.getLast? = probes.getLast?.map pageOf) :
    ProbesPlaced s ↔ pages.Nodup ∧ probes.Nodup := by
  have horig : ∀ i (hi : i < pages.length), s.redirCodePages i
      = ⟨pages[i], copyAt temp i, pages[i] - copyAt temp i⟩ := by
    intro i hi
    exact h.redirected.entry i _ (List.getElem?_eq_getElem hi)
  have haddr : ∀ k (hk : k < probes.length), (s.probeOrigInst k).addr = probes[k] := by
    intro k hk
    exact h.addrs k _ (List.getElem?_eq_getElem hk)
  constructor
  · intro hs
    constructor
    · rw [List.nodup_iff_injective_get]
      intro i j hij
      apply Fin.ext
      apply hs.pageOnce i j (by rw [h.redirected.count]; exact i.isLt)
        (by rw [h.redirected.count]; exact j.isLt)
      rw [horig i i.isLt, horig j j.isLt]
      exact hij
    · rw [List.nodup_iff_injective_get]
      intro k l hkl
      apply Fin.ext
      apply hs.probeOnce k l (by rw [h.count]; exact k.isLt) (by rw [h.count]; exact l.isLt)
      rw [haddr k k.isLt, haddr l l.isLt]
      exact hkl
  · rintro ⟨hpages, hprobes⟩
    constructor
    · intro i j hi hj hij
      rw [h.redirected.count] at hi hj
      rw [horig i hi, horig j hj] at hij
      exact (List.Nodup.getElem_inj_iff hpages).1 hij
    · intro k hk
      rw [h.count] at hk
      have hlt : k < probes.length := by omega
      have hprobe : probes.getLast? = some probes[k] := by
        rw [List.getLast?_eq_getElem?, hk, Nat.add_sub_cancel, List.getElem?_eq_getElem hlt]
      rw [hprobe] at hlast
      have hpage := h.current_page hlast
      have hcur := (List.getElem?_eq_some_iff.1 hpage).1
      refine ⟨by rw [h.redirected.count]; exact hcur, ?_⟩
      rw [h.redirected.entry _ _ hpage, haddr k hlt]
    · intro k hk
      rw [h.count] at hk
      obtain ⟨i, hi, hbyte⟩ := h.written probes[k] (List.getElem_mem hk)
      have hlt := (List.getElem?_eq_some_iff.1 hi).1
      refine ⟨i, by rw [h.redirected.count]; exact hlt, ?_⟩
      rw [h.redirected.entry _ _ hi, haddr k hk]
      exact ⟨rfl, hbyte⟩
    · intro k l hk hl hkl
      rw [h.count] at hk hl
      rw [haddr k hk, haddr l hl] at hkl
      exact (List.Nodup.getElem_inj_iff hprobes).1 hkl

/-- A run from the start ends with tables that say what they are meant to exactly when it
looks up no page twice and puts no probe twice, the tables and the pool last, and every
function that it finds has a call instruction. The loop of `update_crt_redir_idx` runs to
its end also when it has seen the page, so every page that is looked up is redirected anew.
The invariant of the run gives the tables after the pages and probes so far. -/
theorem probeAll_placed_iff (hv : Valloc temp poolSize) (hooks : Nat → HookInfo)
    (mem : BitVec 64 → BitVec 8) (funcCall : FuncDB) (rs : List ProbeRequest) :
    (∃ s, (new temp hooks mem).probeAll funcCall rs = some s ∧ ProbesPlaced s) ↔
      (pagesAsked funcCall rs).Nodup ∧ (probesAsked funcCall rs).Nodup ∧
      Fits (pagesAsked funcCall rs) (probesAsked funcCall rs) ∧
      ∀ r ∈ rs, HasCalls funcCall r := by
  by_cases hcalls : ∀ r ∈ rs, HasCalls funcCall r
  · have hrun := (placed_new temp hooks mem).probeAll hv hcalls
    rw [List.nil_append, List.nil_append] at hrun
    by_cases hfits : Fits (pagesAsked funcCall rs) (probesAsked funcCall rs)
    · obtain ⟨s, hs, hplaced⟩ := hrun.1 hfits
      have hiff := hplaced.probesPlaced_iff (pagesAsked_getLast? funcCall rs)
      constructor
      · rintro ⟨s', hs', hs''⟩
        rw [hs] at hs'
        obtain ⟨hpages, hprobes⟩ := hiff.1 (Option.some.inj hs' ▸ hs'')
        exact ⟨hpages, hprobes, hfits, hcalls⟩
      · rintro ⟨hpages, hprobes, -⟩
        exact ⟨s, hs, hiff.2 ⟨hpages, hprobes⟩⟩
    · rw [hrun.2 hfits]
      exact iff_of_false (by simp) fun h => hfits h.2.2.1
  · refine iff_of_false ?_ fun h => hcalls h.2.2.2
    simp only [not_forall] at hcalls
    obtain ⟨r, hr, hno⟩ := hcalls
    rintro ⟨s, hs, -⟩
    rw [probeAll_eq_none hr hno] at hs
    exact absurd hs (by simp)

/-- A table without call instructions. -/
def noCalls : FuncDB := fun _ => ⟨0, []⟩

/-- Two starts of the engine in different pages. Each of them is redirected once. -/
theorem probeAll_placed_twoPages :
    ∃ s, (new 0x7f0000000000 (fun _ => ⟨0, 0, 0, 0⟩) fun _ => 0).probeAll noCalls
        [.moniStartOfSE 0xffffffff81c00087, .moniStartOfSE 0xffffffff810b6080] = some s ∧
      ProbesPlaced s := by
  apply (probeAll_placed_iff valloc_example _ _ _ _).2
  refine ⟨by decide, by decide, by decide, ?_⟩
  intro r hr
  fin_cases hr <;> trivial

/-- Two starts in one page leave two copies of it. -/
theorem not_probesPlaced_samePage :
    ∃ s, (new 0x7f0000000000 (fun _ => ⟨0, 0, 0, 0⟩) fun _ => 0).probeAll noCalls
        [.moniStartOfSE 0xffffffff81c00087, .moniStartOfSE 0xffffffff81c00090] = some s ∧
      (s.redirCodePages 0).origTPageAddr = (s.redirCodePages 1).origTPageAddr ∧
      s.crtMaxRedirIdx = 2 ∧ ¬ ProbesPlaced s := by
  have hcalls : ∀ r ∈ [ProbeRequest.moniStartOfSE 0xffffffff81c00087,
      .moniStartOfSE 0xffffffff81c00090], HasCalls noCalls r := by
    intro r hr
    fin_cases hr <;> trivial
  obtain ⟨s, hs, hplaced⟩ := ((placed_new 0x7f0000000000 (fun _ => ⟨0, 0, 0, 0⟩)
    fun _ => 0).probeAll valloc_example hcalls).1 (by decide)
  have horig : ∀ i < 2, (s.redirCodePages i).origTPageAddr = 0xffffffff81c00000 := by
    intro i hi
    rw [hplaced.redirected.entry i 0xffffffff81c00000 (by interval_cases i <;> decide)]
  have hsame := (horig 0 (by decide)).trans (horig 1 (by decide)).symm
  have hcount : s.crtMaxRedirIdx = 2 := hplaced.redirected.count
  refine ⟨s, hs, hsame, hcount, ?_⟩
  intro hall
  exact absurd (hall.pageOnce 0 1 (by omega) (by omega) hsame) (by decide)

end KRover.FattCtrl
