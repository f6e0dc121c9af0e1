import KRover.FatCtrl

/-! # Redirected pages

The pages of the pool are handed out one after the other, from the second page
of what `valloc` returned on. So the pool of `MAX_Redir_Code_Page` pages ends
one page before the table of the redirected pages does.

* `Redirected`: the state after some pages were redirected;
* `redirCodePageHyperCall_eq`: one more page, while the pool lasts;
* `freshPage_iff`: when the pool hands out a page that the guard has let
  through.
-/

set_option autoImplicit false

namespace KRover.FattCtrl

/-! ## Pages and addresses -/

/-- How far into its page an address lies. -/
theorem sub_pageOf (a : BitVec 64) : a - pageOf a = a &&& 0xfff#64 := by
  have hsplit : pageOf a + (a &&& 0xfff#64) = a := by
    rw [BitVec.add_eq_or_of_and_eq_zero]
    · ext i hi
      simp only [pageOf, BitVec.getElem_or, BitVec.getElem_and, BitVec.getElem_not]
      cases a[i] <;> cases (0xfff#64)[i] <;> rfl
    · ext i hi
      simp only [pageOf, BitVec.getElem_and, BitVec.getElem_not, BitVec.getElem_zero]
      cases a[i] <;> cases (0xfff#64)[i] <;> rfl
  calc a - pageOf a = pageOf a + (a &&& 0xfff#64) - pageOf a := by rw [hsplit]
    _ = a &&& 0xfff#64 := by rw [BitVec.add_comm, BitVec.add_sub_cancel]

/-- An address lies in its page. -/
theorem sub_pageOf_lt (a : BitVec 64) : a - pageOf a < 0x1000 := by
  rw [sub_pageOf, BitVec.lt_def, BitVec.toNat_and]
  exact Nat.lt_of_le_of_lt Nat.and_le_right (by decide)

/-- What `valloc` promises of a block that it returns. -/
structure Valloc (temp size : BitVec 64) : Prop where
  nonnull : temp ≠ 0
  aligned : temp.toNat % 0x1000 = 0
  fits : temp.toNat + size.toNat < 2 ^ 64

/-- The size of the pool. -/
abbrev poolSize : BitVec 64 := 0x1000 * BitVec.ofNat 64 maxRedirCodePage

/-- The page of the pool that the copy of index `i` lies in. -/
def copyAt (temp : BitVec 64) (i : Nat) : BitVec 64 := temp + BitVec.ofNat 64 (0x1000 * (i + 1))

section
variable {temp : BitVec 64} (hv : Valloc temp poolSize)
include hv

/-- The copies lie one page after the other behind the first page of the buffer, and none of
them wraps around. -/
theorem copyAt_toNat {i : Nat} (hi : i ≤ 7) :
    (copyAt temp i).toNat = temp.toNat + 0x1000 * (i + 1) := by
  have hfits : temp.toNat + 0x8000 < 2 ^ 64 := hv.fits
  rw [copyAt, BitVec.toNat_add, BitVec.toNat_ofNat]
  omega

/-- No copy is at zero, which in the table means an unused entry. -/
theorem copyAt_ne_zero {i : Nat} (hi : i ≤ 7) : copyAt temp i ≠ 0 := by
  intro h
  have hnat := congrArg BitVec.toNat h
  rw [copyAt_toNat hv hi] at hnat
  simp only [BitVec.reduceToNat] at hnat
  omega

/-- A byte of one copy lies in no other. -/
theorem copyAt_disjoint {i j : Nat} (hi : i < 7) (hj : j < 7) {off : BitVec 64}
    (hoff : off < 0x1000) (h : copyAt temp i + off - copyAt temp j < 0x1000) : i = j := by
  have hfits : temp.toNat + 0x8000 < 2 ^ 64 := hv.fits
  have hoff' : off.toNat < 0x1000 := hoff
  have hsub : (copyAt temp i + off - copyAt temp j).toNat < 0x1000 := h
  rw [BitVec.toNat_sub, BitVec.toNat_add, copyAt_toNat hv (by omega),
    copyAt_toNat hv (by omega)] at hsub
  omega

/-- Different entries have different copies. -/
theorem copyAt_inj {i j : Nat} (hi : i < 7) (hj : j < 7) (h : copyAt temp i = copyAt temp j) :
    i = j := by
  have hnat := congrArg BitVec.toNat h
  rw [copyAt_toNat hv (by omega), copyAt_toNat hv (by omega)] at hnat
  omega

/-- The pool lasts for seven pages. -/
theorem poolAlloc_eq {p : Pool} {n : Nat} (hn : n ≤ 7) (hnext : p.next = copyAt temp n)
    (hstop : p.stop = temp + poolSize) :
    poolAlloc p 0x1000 =
      if n = 7 then (0, p) else (copyAt temp n, { p with next := copyAt temp (n + 1) }) := by
  have hfits : temp.toNat + 0x8000 < 2 ^ 64 := hv.fits
  -- Of the eight pages the first is the template.
  have havail : (poolCheckAvail p).toNat = 0x1000 * (7 - n) := by
    rw [poolCheckAvail, hstop, hnext, BitVec.toNat_sub, copyAt_toNat hv hn, BitVec.toNat_add]
    show (2 ^ 64 - (temp.toNat + 0x1000 * (n + 1)) + (temp.toNat + 0x8000) % 2 ^ 64) % 2 ^ 64 = _
    omega
  have hstep : copyAt temp n + 0x1000 = copyAt temp (n + 1) := by
    apply BitVec.eq_of_toNat_eq
    rw [copyAt, copyAt, BitVec.toNat_add, BitVec.toNat_add, BitVec.toNat_add, BitVec.toNat_ofNat,
      BitVec.toNat_ofNat]
    show _ = (temp.toNat + 0x1000 * (n + 1 + 1) % 2 ^ 64) % 2 ^ 64
    simp only [BitVec.reduceToNat]
    omega
  -- With seven copies made nothing is left and the pool says so.
  by_cases h7 : n = 7
  · have hlt : poolCheckAvail p < 0x1000 := by
      rw [BitVec.lt_def, havail, h7]
      decide
    rw [if_pos h7, poolAlloc, if_pos hlt]
  · have hlt : ¬ poolCheckAvail p < 0x1000 := by
      rw [BitVec.lt_def, havail]
      simp only [BitVec.reduceToNat]
      omega
    rw [if_neg h7, poolAlloc, if_neg hlt, hnext, hstep]

end

/-! ## The table of redirected pages -/

/-- The state after the pages `pages` were redirected, in this order. -/
structure Redirected (temp : BitVec 64) (s : FattCtrl) (pages : List (BitVec 64)) : Prop where
  le : pages.length ≤ 7
  count : s.crtMaxRedirIdx = pages.length
  init : s.pagePool.init = temp + 0x1000
  next : s.pagePool.next = copyAt temp pages.length
  stop : s.pagePool.stop = temp + poolSize
  entry : ∀ i p, pages[i]? = some p →
    s.redirCodePages i = ⟨p, copyAt temp i, p - copyAt temp i⟩

/-- In a new controller no page is redirected. -/
theorem redirected_new (temp : BitVec 64) (probes : Nat → HookInfo) (mem : BitVec 64 → BitVec 8) :
    Redirected temp (new temp probes mem) [] where
  le := Nat.zero_le _
  count := rfl
  init := rfl
  next := rfl
  stop := rfl
  entry _ _ h := absurd h (by simp)

/-- The state after one more page was redirected. -/
def afterRedirect (temp : BitVec 64) (s : FattCtrl) (kerAddr : BitVec 64) : FattCtrl :=
  { s with
    pagePool := { s.pagePool with next := copyAt temp (s.crtMaxRedirIdx + 1) }
    mem := memcpy s.mem (copyAt temp s.crtMaxRedirIdx) kerAddr 0x1000
    redirCodePages := Function.update s.redirCodePages s.crtMaxRedirIdx
      ⟨kerAddr, copyAt temp s.crtMaxRedirIdx, kerAddr - copyAt temp s.crtMaxRedirIdx⟩
    crtRedirIdx := s.crtMaxRedirIdx
    crtMaxRedirIdx := s.crtMaxRedirIdx + 1 }

section
variable (temp : BitVec 64) (s : FattCtrl) (kerAddr : BitVec 64)

/-- The new page becomes the current one. -/
@[simp] theorem afterRedirect_crtRedirIdx :
    (afterRedirect temp s kerAddr).crtRedirIdx = s.crtMaxRedirIdx := by
  rw [afterRedirect]

/-- A redirected page places no probe. -/
@[simp] theorem afterRedirect_crtInt3Idx :
    (afterRedirect temp s kerAddr).crtInt3Idx = s.crtInt3Idx := by
  rw [afterRedirect]

/-- So no saved instruction changes. -/
@[simp] theorem afterRedirect_probeOrigInst :
    (afterRedirect temp s kerAddr).probeOrigInst = s.probeOrigInst := by
  rw [afterRedirect]

/-- The page is copied into its place in the buffer. -/
@[simp] theorem afterRedirect_mem :
    (afterRedirect temp s kerAddr).mem =
      memcpy s.mem (copyAt temp s.crtMaxRedirIdx) kerAddr 0x1000 := by
  rw [afterRedirect]

end

namespace Redirected

variable {temp : BitVec 64} {s : FattCtrl} {pages : List (BitVec 64)}

/-- The state counts by its table and its pool. -/
theorem congr (h : Redirected temp s pages) {s' : FattCtrl}
    (hcount : s'.crtMaxRedirIdx = s.crtMaxRedirIdx) (hpool : s'.pagePool = s.pagePool)
    (hpages : s'.redirCodePages = s.redirCodePages) : Redirected temp s' pages where
  le := h.le
  count := hcount.trans h.count
  init := by rw [hpool, h.init]
  next := by rw [hpool, h.next]
  stop := by rw [hpool, h.stop]
  entry i p hp := by rw [hpages, h.entry i p hp]

/-- The guard lets every request through. -/
theorem guard (h : Redirected temp s pages) : s.crtMaxRedirIdx ≠ maxRedirCodePage := by
  have hle := h.le
  rw [h.count]
  show pages.length ≠ 8
  omega

/-- What the pool hands out next. -/
theorem poolAlloc_fst (h : Redirected temp s pages) (hv : Valloc temp poolSize) :
    (poolAlloc s.pagePool 0x1000).1 =
      if pages.length = 7 then 0 else copyAt temp pages.length := by
  rw [poolAlloc_eq hv h.le h.next h.stop]
  by_cases h7 : pages.length = 7
  · rw [if_pos h7, if_pos h7]
  · rw [if_neg h7, if_neg h7]

/-- A page is redirected as long as the pool lasts; afterwards the copy
faults. -/
theorem redirCodePageHyperCall_eq (h : Redirected temp s pages) (hv : Valloc temp poolSize)
    (kerAddr : BitVec 64) :
    s.redirCodePageHyperCall kerAddr =
      if pages.length = 7 then none else some (afterRedirect temp s kerAddr) := by
  rw [redirCodePageHyperCall, if_neg h.guard, poolAlloc_eq hv h.le h.next h.stop]
  by_cases h7 : pages.length = 7
  · rw [if_pos h7, if_pos h7]
    rfl
  · rw [if_neg h7, if_neg h7]
    have hne := copyAt_ne_zero hv h.le
    show (if copyAt temp pages.length = 0 then none else _) = _
    rw [if_neg hne, afterRedirect, h.count]

/-- Another page is redirected while there is room for it. -/
theorem redirect (h : Redirected temp s pages) (h7 : pages.length ≠ 7) (kerAddr : BitVec 64) :
    Redirected temp (afterRedirect temp s kerAddr) (pages ++ [kerAddr]) := by
  have hlen : (pages ++ [kerAddr]).length = s.crtMaxRedirIdx + 1 := by
    rw [List.length_append, List.length_singleton, h.count]
  refine ⟨?_, hlen.symm, ?_, ?_, ?_, ?_⟩
  · have hle := h.le
    rw [hlen, h.count]
    omega
  · rw [afterRedirect]
    exact h.init
  · rw [afterRedirect, hlen]
  · rw [afterRedirect]
    exact h.stop
  · intro i p hp
    have hupd : (afterRedirect temp s kerAddr).redirCodePages
        = Function.update s.redirCodePages s.crtMaxRedirIdx ⟨kerAddr, copyAt temp s.crtMaxRedirIdx,
          kerAddr - copyAt temp s.crtMaxRedirIdx⟩ := rfl
    rw [hupd, h.count]
    -- The entries before the new one stay, the new one is the page, and there is none behind it.
    rcases Nat.lt_trichotomy i pages.length with hi | hi | hi
    · rw [List.getElem?_append_left hi] at hp
      rw [Function.update_of_ne (Nat.ne_of_lt hi)]
      exact h.entry i p hp
    · rw [hi, List.getElem?_concat_length] at hp
      rw [hi, Function.update_self, Option.some.inj hp]
    · rw [List.getElem?_eq_none (by rw [hlen, h.count]; exact hi)] at hp
      exact absurd hp (by simp)

/-- Pages redirected one after the other: seven in all, and no more. -/
theorem redirectAll (h : Redirected temp s pages) (hv : Valloc temp poolSize)
    (more : List (BitVec 64)) :
    (pages.length + more.length ≤ 7 →
      ∃ s', s.redirectAll more = some s' ∧ Redirected temp s' (pages ++ more)) ∧
    (7 < pages.length + more.length → s.redirectAll more = none) := by
  -- The induction is on the pages still to be redirected.
  induction more generalizing s pages with
  | nil =>
    rw [List.append_nil]
    have hle := h.le
    exact ⟨fun _ => ⟨s, rfl, h⟩, fun hlt => absurd hlt (by rw [List.length_nil]; omega)⟩
  | cons kerAddr more ih =>
    rw [FattCtrl.redirectAll, h.redirCodePageHyperCall_eq hv]
    by_cases h7 : pages.length = 7
    · rw [if_pos h7]
      refine ⟨fun hle => absurd hle ?_, fun _ => rfl⟩
      rw [List.length_cons]
      omega
    · rw [if_neg h7]
      have hrest := ih (h.redirect h7 kerAddr)
      rw [List.append_assoc, List.length_append] at hrest
      have hlen : pages.length + [kerAddr].length + more.length
          = pages.length + (kerAddr :: more).length := by
        simp only [List.length_cons, List.length_nil]
        omega
      rw [hlen] at hrest
      exact hrest

end Redirected

/-! ## A page for every request -/

/-- What a copy may be put into: a whole page of the pool that no earlier
request was given. -/
structure FreshPage (s : FattCtrl) (newVa : BitVec 64) : Prop where
  nonnull : newVa ≠ 0
  aligned : newVa.toNat % 0x1000 = 0
  inside : s.pagePool.init.toNat ≤ newVa.toNat ∧ newVa.toNat + 0x1000 ≤ s.pagePool.stop.toNat
  fresh : ∀ i < s.crtMaxRedirIdx, (s.redirCodePages i).newAnaPageAddr ≠ newVa

variable {temp : BitVec 64} {s : FattCtrl} {pages : List (BitVec 64)}

/-- After seven requests the pool has no page left. -/
theorem Redirected.not_freshPage (h : Redirected temp s pages) (hv : Valloc temp poolSize)
    (h7 : pages.length = 7) : ¬ FreshPage s (poolAlloc s.pagePool 0x1000).1 := by
  intro hfresh
  apply hfresh.nonnull
  rw [h.poolAlloc_fst hv, if_pos h7]

/-- Before that it hands out the next one. -/
theorem Redirected.freshPage (h : Redirected temp s pages) (hv : Valloc temp poolSize)
    (h7 : pages.length ≠ 7) : FreshPage s (poolAlloc s.pagePool 0x1000).1 := by
  have hle := h.le
  have hlt : pages.length < 7 := by omega
  have haligned := hv.aligned
  have hfits : temp.toNat + 0x8000 < 2 ^ 64 := hv.fits
  rw [h.poolAlloc_fst hv, if_neg h7]
  refine ⟨copyAt_ne_zero hv hle, ?_, ⟨?_, ?_⟩, ?_⟩
  · rw [copyAt_toNat hv hle]
    omega
  · rw [h.init, copyAt_toNat hv hle, BitVec.toNat_add]
    show (temp.toNat + 0x1000) % 2 ^ 64 ≤ _
    omega
  · rw [h.stop, copyAt_toNat hv hle, BitVec.toNat_add]
    show _ ≤ (temp.toNat + 0x8000) % 2 ^ 64
    omega
  · -- an earlier copy has a smaller index
    intro i hi heq
    rw [h.count] at hi
    obtain ⟨p, hp⟩ : ∃ p, pages[i]? = some p := ⟨_, List.getElem?_eq_getElem hi⟩
    rw [h.entry i p hp] at heq
    have hin := copyAt_inj hv (by omega) hlt heq
    omega

/-- When the guard lets a request through, the pool has a fresh page for it exactly when not
seven pages were redirected before. The pool is made of eight pages and leaves the first one
out, while the guard counts to eight. -/
theorem freshPage_iff (hv : Valloc temp poolSize) (probes : Nat → HookInfo)
    (mem : BitVec 64 → BitVec 8) (hrun : (new temp probes mem).redirectAll pages = some s) :
    (s.crtMaxRedirIdx ≠ maxRedirCodePage → FreshPage s (poolAlloc s.pagePool 0x1000).1) ↔
      pages.length ≠ 7 := by
  have hall := (redirected_new temp probes mem).redirectAll hv pages
  rw [List.length_nil, Nat.zero_add, List.nil_append] at hall
  have hs : Redirected temp s pages := by
    by_cases hle : pages.length ≤ 7
    · obtain ⟨s', hs', hred⟩ := hall.1 hle
      rw [hrun] at hs'
      exact Option.some.inj hs' ▸ hred
    · rw [hall.2 (by omega)] at hrun
      exact absurd hrun (by simp)
  exact ⟨fun hfresh h7 => hs.not_freshPage hv h7 (hfresh hs.guard), fun h7 _ => hs.freshPage hv h7⟩

/-- Seven pages from the start of the kernel text on. -/
def sevenPages : List (BitVec 64) :=
  (List.range 7).map fun i => 0xffffffff81000000 + BitVec.ofNat 64 (0x1000 * i)

/-- A buffer as the kernel may return it. -/
theorem valloc_example : Valloc 0x7f0000000000 poolSize := ⟨by decide, by decide, by decide⟩

/-- After three pages the fourth is given a fresh copy. The three pages before it keep their
copies. -/
theorem freshPage_fourth :
    ∃ s, (new 0x7f0000000000 (fun _ => ⟨0, 0, 0, 0⟩) fun _ => 0).redirectAll
        (sevenPages.take 3) = some s ∧
      s.crtMaxRedirIdx = 3 ∧ FreshPage s (poolAlloc s.pagePool 0x1000).1 := by
  obtain ⟨s, hs, hred⟩ := ((redirected_new 0x7f0000000000 (fun _ => ⟨0, 0, 0, 0⟩)
    fun _ => 0).redirectAll valloc_example (sevenPages.take 3)).1 (by decide)
  have hcount : s.crtMaxRedirIdx = 3 := hred.count
  have hguard : s.crtMaxRedirIdx ≠ maxRedirCodePage := by
    rw [hcount]
    decide
  exact ⟨s, hs, hcount, (freshPage_iff valloc_example _ _ hs).2 (by decide) hguard⟩

/-- The eighth page passes the guard and is given the null pointer. The copy to that pointer
faults. -/
theorem not_freshPage_eighth :
    ∃ s, (new 0x7f0000000000 (fun _ => ⟨0, 0, 0, 0⟩) fun _ => 0).redirectAll sevenPages = some s ∧
      s.crtMaxRedirIdx ≠ maxRedirCodePage ∧ (poolAlloc s.pagePool 0x1000).1 = 0 ∧
      ¬ FreshPage s (poolAlloc s.pagePool 0x1000).1 := by
  obtain ⟨s, hs, hred⟩ := ((redirected_new 0x7f0000000000 (fun _ => ⟨0, 0, 0, 0⟩)
    fun _ => 0).redirectAll valloc_example sevenPages).1 (by decide)
  refine ⟨s, hs, ?_, ?_, hred.not_freshPage valloc_example (by decide)⟩
  · rw [hred.count]
    decide
  · rw [hred.poolAlloc_fst valloc_example, if_pos (by decide)]

end KRover.FattCtrl
