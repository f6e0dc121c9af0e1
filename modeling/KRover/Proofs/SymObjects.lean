import KRover.Proofs.SeedDecision

/-! # The registry of symbolic objects

`m_SYMemObjects` has one entry for each value of `HashTogether`, which shifts
the address by the size and 3. Two objects share an entry when the address of
the smaller one is that of the larger one, shifted by the difference of their
sizes.

* `hashTogether_eq_iff`: the hashes of two objects are the same;
* `Kept`: the map holds the objects that live;
* `registryHolds_iff`: it does in every state of a run exactly when no two
  objects clash in any of them.
-/

set_option autoImplicit false

namespace KRover

/-! ## The hash -/

/-- What an object is known by: a canonical address and one of the four
sizes. -/
def CanonicalPair (p : Nat × Nat) : Prop :=
  (p.1 < 2 ^ 47 ∨ 2 ^ 64 - 2 ^ 47 ≤ p.1 ∧ p.1 < 2 ^ 64) ∧ isAccessSize p.2 = true

/-- The two kinds of canonical address are told apart by comparison. -/
instance (p : Nat × Nat) : Decidable (CanonicalPair p) := inferInstanceAs (Decidable (_ ∧ _))

/-- The address of the first object is that of the larger second one, shifted
by the difference of the sizes. -/
def Clash (p q : Nat × Nat) : Prop :=
  p.2 < q.2 ∧ toInt64 p.1 = toInt64 q.1 * 2 ^ (q.2 - p.2)

/-- So are the clashing pairs, by their hashes. -/
instance (p q : Nat × Nat) : Decidable (Clash p q) := inferInstanceAs (Decidable (_ ∧ _))

/-- The hash as a number with a sign, which 64 bits hold. -/
def signedHash (p : Nat × Nat) : Int := toInt64 p.1 * 2 ^ (3 + p.2)

/-- On canonical addresses the wrapped hash is the signed one below 2^64, which stays in 59
bits. Equal hashes are equal signed ones, therefore. -/
theorem hashTogether_eq_signedHash {p : Nat × Nat} (hp : CanonicalPair p) :
    (hashTogether p.1 p.2 : Int) = signedHash p % 2 ^ 64 ∧
      -2 ^ 58 ≤ signedHash p ∧ signedHash p < 2 ^ 58 := by
  obtain ⟨a, s⟩ := p
  obtain ⟨ha, hs⟩ := hp
  simp only [isAccessSize, Bool.or_eq_true, decide_eq_true_eq] at hs
  simp only [signedHash, hashTogether, Nat.shiftLeft_eq, toInt64]
  dsimp only at ha
  rcases hs with ((rfl | rfl) | rfl) | rfl <;>
    simp only [Nat.reduceAdd, Nat.reducePow, Int.reducePow, Int.reduceNeg] <;> split <;> omega

/-- Nothing is lost in the shift, so two hashes are the same exactly when the
shifted addresses are. -/
theorem hashTogether_eq_iff_signedHash {p q : Nat × Nat} (hp : CanonicalPair p)
    (hq : CanonicalPair q) :
    hashTogether p.1 p.2 = hashTogether q.1 q.2 ↔ signedHash p = signedHash q := by
  obtain ⟨hp1, hp2, hp3⟩ := hashTogether_eq_signedHash hp
  obtain ⟨hq1, hq2, hq3⟩ := hashTogether_eq_signedHash hq
  constructor
  · intro h
    rw [h, hq1] at hp1
    omega
  · intro h
    rw [h, ← hq1] at hp1
    exact Int.ofNat_inj.1 hp1

/-- A larger shift on one side is a shift by the difference. -/
theorem signedHash_eq_iff {p q : Nat × Nat} (hle : p.2 ≤ q.2) :
    signedHash p = signedHash q ↔ toInt64 p.1 = toInt64 q.1 * 2 ^ (q.2 - p.2) := by
  have hpow : (2 : Int) ^ (3 + q.2) = 2 ^ (q.2 - p.2) * 2 ^ (3 + p.2) := by
    rw [← pow_add]
    congr 1
    omega
  rw [signedHash, signedHash, hpow, ← mul_assoc]
  exact mul_left_inj' (pow_ne_zero _ (by decide))

/-- A canonical address fits the register. -/
theorem CanonicalPair.lt {p : Nat × Nat} (h : CanonicalPair p) : p.1 < 2 ^ 64 := by
  rcases h.1 with h | h
  · exact h.trans (by decide)
  · exact h.2

/-- Two objects have one hash exactly when they clash. -/
theorem hashTogether_eq_iff {p q : Nat × Nat} (hp : CanonicalPair p) (hq : CanonicalPair q)
    (hne : p ≠ q) :
    hashTogether p.1 p.2 = hashTogether q.1 q.2 ↔ Clash p q ∨ Clash q p := by
  rw [hashTogether_eq_iff_signedHash hp hq]
  -- heq | hgt | The size is the amount that the address is shifted by, so the smaller one is
  -- divided out.
  rcases Nat.lt_trichotomy p.2 q.2 with hlt | heq | hgt
  · rw [signedHash_eq_iff hlt.le]
    constructor
    · intro h
      exact Or.inl ⟨hlt, h⟩
    · rintro (h | h)
      · exact h.2
      · exact absurd h.1 (Nat.not_lt_of_gt hlt)
  · -- objects of one size have different addresses, and so different hashes
    rw [signedHash_eq_iff heq.le, heq, Nat.sub_self, pow_zero, mul_one]
    refine iff_of_false ?_ ?_
    · intro h
      exact hne (Prod.ext (toInt64_inj hp.lt hq.lt h) heq)
    · rintro (h | h)
      · exact absurd h.1 (by omega)
      · exact absurd h.1 (by omega)
  · rw [eq_comm, signedHash_eq_iff hgt.le]
    constructor
    · intro h
      exact Or.inr ⟨hgt, h⟩
    · rintro (h | h)
      · exact absurd h.1 (Nat.not_lt_of_gt hgt)
      · exact h.2

/-! ## The map -/

namespace SYMemObjects

/-- The keys ascend. -/
def Ascending (M : SYMemObjects) : Prop := List.Pairwise (fun p q => p.1 < q.1) M

/-- `insert` replaces what the hash named, or adds it. -/
theorem Ascending.mem_insert_iff {M : SYMemObjects} (h : Ascending M) {hash : Nat}
    {obj : SYMemObject} {p : Nat × SYMemObject} :
    p ∈ insert hash obj M ↔ p = (hash, obj) ∨ p ∈ M ∧ p.1 ≠ hash := by
  -- The cases are those of `insert`: before the first entry, in its place, or behind it.
  induction M with
  | nil => simp [insert]
  | cons q rest ih =>
    obtain ⟨k, o⟩ := q
    obtain ⟨hk, hrest⟩ := List.pairwise_cons.1 h
    rw [insert]
    by_cases hlt : hash < k
    · rw [if_pos hlt, List.mem_cons]
      refine or_congr_right ⟨fun hp => ⟨hp, ?_⟩, fun hp => hp.1⟩
      -- every key of the map is above the new one
      rcases List.mem_cons.1 hp with rfl | hp
      · exact Nat.ne_of_gt hlt
      · exact Nat.ne_of_gt (hlt.trans (hk p hp))
    · rw [if_neg hlt]
      by_cases heq : hash = k
      · rw [if_pos heq, List.mem_cons]
        refine or_congr_right ⟨fun hp => ⟨List.mem_cons_of_mem _ hp, ?_⟩, ?_⟩
        · rw [heq]
          exact Nat.ne_of_gt (hk p hp)
        · rintro ⟨hp, hne⟩
          rcases List.mem_cons.1 hp with rfl | hp
          · exact absurd heq.symm hne
          · exact hp
      · rw [if_neg heq, List.mem_cons, ih hrest, List.mem_cons]
        constructor
        · rintro (rfl | rfl | ⟨hp, hne⟩)
          · exact Or.inr ⟨Or.inl rfl, Ne.symm heq⟩
          · exact Or.inl rfl
          · exact Or.inr ⟨Or.inr hp, hne⟩
        · rintro (rfl | ⟨rfl | hp, hne⟩)
          · exact Or.inr (Or.inl rfl)
          · exact Or.inl rfl
          · exact Or.inr (Or.inr ⟨hp, hne⟩)

/-- The map stays sorted by hashes. -/
theorem Ascending.insert {M : SYMemObjects} (h : Ascending M) (hash : Nat) (obj : SYMemObject) :
    Ascending (insert hash obj M) := by
  induction M with
  | nil => exact List.pairwise_singleton _ _
  | cons q rest ih =>
    obtain ⟨k, o⟩ := q
    obtain ⟨hk, hrest⟩ := List.pairwise_cons.1 h
    rw [SYMemObjects.insert]
    by_cases hlt : hash < k
    · rw [if_pos hlt]
      refine List.pairwise_cons.2 ⟨?_, h⟩
      intro p hp
      rcases List.mem_cons.1 hp with rfl | hp
      · exact hlt
      · exact hlt.trans (hk p hp)
    · rw [if_neg hlt]
      -- A replaced entry keeps its key.
      by_cases heq : hash = k
      · rw [if_pos heq]
        refine List.pairwise_cons.2 ⟨?_, hrest⟩
        intro p hp
        rw [heq]
        exact hk p hp
      · rw [if_neg heq]
        refine List.pairwise_cons.2 ⟨?_, ih hrest⟩
        intro p hp
        rcases (Ascending.mem_insert_iff hrest).1 hp with rfl | ⟨hp, -⟩
        · exact Nat.lt_of_le_of_ne (Nat.le_of_not_lt hlt) (Ne.symm heq)
        · exact hk p hp

/-- In a sorted map a hash names one object at most, so `find` is membership. -/
theorem Ascending.find_eq_some_iff {M : SYMemObjects} (h : Ascending M) {hash : Nat}
    {obj : SYMemObject} : find hash M = some obj ↔ (hash, obj) ∈ M := by
  induction M with
  | nil => simp [find]
  | cons q rest ih =>
    obtain ⟨k, o⟩ := q
    obtain ⟨hk, hrest⟩ := List.pairwise_cons.1 h
    rw [find, List.lookup_cons, List.mem_cons, Prod.mk.injEq]
    -- The first entry with the hash is found, and the map has no second.
    by_cases heq : hash = k
    · rw [heq, beq_self_eq_true]
      show some o = some obj ↔ _
      rw [Option.some.injEq, eq_comm]
      constructor
      · intro ho
        exact Or.inl ⟨rfl, ho⟩
      · rintro (ho | ho)
        · exact ho.2
        · exact absurd (hk _ ho) (Nat.lt_irrefl k)
    · have hbeq : (hash == k) = false := by simpa using heq
      rw [hbeq]
      show find hash rest = some obj ↔ _
      constructor
      · intro ho
        exact Or.inr ((ih hrest).1 ho)
      · rintro (ho | ho)
        · exact absurd ho.1 heq
        · exact (ih hrest).2 ho

/-- `erase` takes out what the hash named. -/
theorem mem_erase_iff {M : SYMemObjects} {hash : Nat} {p : Nat × SYMemObject} :
    p ∈ erase hash M ↔ p ∈ M ∧ p.1 ≠ hash := by
  rw [erase, List.mem_filter, decide_eq_true_eq]

/-- The map stays sorted. -/
theorem Ascending.erase {M : SYMemObjects} (h : Ascending M) (hash : Nat) :
    Ascending (erase hash M) := List.Pairwise.filter _ h

end SYMemObjects

/-! ## Runs -/

/-- The machine, and the objects that were created and not destroyed. -/
structure RegistryState where
  vm : VMState
  live : List SYMemObject

/-- What happens to the registry. -/
inductive RegistryOp where
  | createSYMemObject (addr size : Nat) (isSigned hasSeed : Bool) (conVal : BitVec 64)
      (name : String)
  | destroySYMemObject (addr size : Nat)

/-- The address and the size of an object. -/
def SYMemObject.key (o : SYMemObject) : Nat × Nat := (o.addr, o.size)

/-- What a call does. A destroyed object leaves the list of the live ones, and a query
changes nothing. A call that asserts gives no state. -/
def RegistryOp.apply (st : RegistryState) : RegistryOp → Option RegistryState
  | .createSYMemObject addr size isSigned hasSeed conVal name => do
    let (_, vm) ← st.vm.createSYMemObject addr size isSigned hasSeed conVal name
    return ⟨vm, st.live ++ [st.vm.newSYMemObject addr size isSigned hasSeed conVal name]⟩
  | .destroySYMemObject addr size => do
    let vm ← st.vm.destroySYMemObject addr size
    return ⟨vm, st.live.filter fun o => o.key ≠ (addr, size)⟩

/-- The states of a run, up to the operation that does not return. -/
def registryStates (st : RegistryState) : List RegistryOp → List RegistryState
  | [] => [st]
  | op :: ops =>
    st :: match op.apply st with
      | some st' => registryStates st' ops
      | none => []

/-- What the callers keep to, when the objects `live` live: an object that is
created is not one of them, and one that is destroyed is. -/
def Orderly (live : List (Nat × Nat)) : List RegistryOp → Prop
  | [] => True
  | .createSYMemObject addr size _ _ _ _ :: ops =>
    (addr, size) ∉ live ∧ CanonicalPair (addr, size) ∧ Orderly (live ++ [(addr, size)]) ops
  | .destroySYMemObject addr size :: ops =>
    (addr, size) ∈ live ∧ Orderly (live.filter fun p => p ≠ (addr, size)) ops

/-- `m_SYMemObjects` has the objects that live and no others, each under its
own hash. -/
structure RegistryHolds (st : RegistryState) : Prop where
  entries : ∀ o, o ∈ st.vm.symMemObjects.map (·.2) ↔ o ∈ st.live
  found : ∀ o ∈ st.live,
    SYMemObjects.find (hashTogether o.addr o.size) st.vm.symMemObjects = some o

/-- No two objects that live clash. -/
def NoClash (st : RegistryState) : Prop :=
  ∀ o ∈ st.live, ∀ o' ∈ st.live, ¬ Clash o.key o'.key

/-! ### What an operation keeps -/

/-- The objects that live, as the callers know them. -/
structure Tracked (st : RegistryState) (live : List (Nat × Nat)) : Prop where
  keys : st.live.map SYMemObject.key = live
  canonical : ∀ o ∈ st.live, CanonicalPair o.key

/-- The map as a set of entries: one for each object that lives. -/
structure Kept (st : RegistryState) : Prop where
  ascending : SYMemObjects.Ascending st.vm.symMemObjects
  entry : ∀ p, p ∈ st.vm.symMemObjects ↔
    p.2 ∈ st.live ∧ p.1 = hashTogether p.2.addr p.2.size

variable {st st' : RegistryState} {live : List (Nat × Nat)}

/-- A created object is entered under the hash of its address and size. -/
theorem apply_createSYMemObject {addr size : Nat} {isSigned hasSeed : Bool}
    {conVal : BitVec 64} {name : String}
    (h : (RegistryOp.createSYMemObject addr size isSigned hasSeed conVal name).apply st
      = some st') :
    st'.vm.symMemObjects = SYMemObjects.insert (hashTogether addr size)
      (st.vm.newSYMemObject addr size isSigned hasSeed conVal name) st.vm.symMemObjects ∧
    st'.live = st.live ++ [st.vm.newSYMemObject addr size isSigned hasSeed conVal name] := by
  rw [RegistryOp.apply, Option.bind_eq_bind, Option.bind_eq_some_iff] at h
  obtain ⟨⟨ok, vm⟩, hvm, hst⟩ := h
  rw [← Option.some.inj hst]
  exact ⟨symMemObjects_createSYMemObject hvm, rfl⟩

/-- A destroyed one is taken out under that hash. -/
theorem apply_destroySYMemObject {addr size : Nat}
    (h : (RegistryOp.destroySYMemObject addr size).apply st = some st') :
    st'.vm.symMemObjects = SYMemObjects.erase (hashTogether addr size) st.vm.symMemObjects ∧
    st'.live = st.live.filter fun o => o.key ≠ (addr, size) := by
  rw [RegistryOp.apply, Option.bind_eq_bind, Option.bind_eq_some_iff] at h
  obtain ⟨vm, hvm, hst⟩ := h
  rw [← Option.some.inj hst]
  rw [VMState.destroySYMemObject, Option.bind_eq_bind, Option.bind_eq_some_iff] at hvm
  obtain ⟨obj, -, hvm⟩ := hvm
  rw [Option.bind_eq_bind, Option.bind_eq_some_iff] at hvm
  obtain ⟨⟨ok, mem⟩, -, hvm⟩ := hvm
  rw [← Option.some.inj hvm]
  exact ⟨rfl, rfl⟩

/-- The callers know the objects that live after an operation. -/
theorem Tracked.apply (h : Tracked st live) {op : RegistryOp} {ops : List RegistryOp}
    (hops : Orderly live (op :: ops)) (hst : op.apply st = some st') :
    ∃ live', Tracked st' live' ∧ Orderly live' ops := by
  cases op with
  | createSYMemObject addr size isSigned hasSeed conVal name =>
    obtain ⟨-, hcanon, hrest⟩ := hops
    obtain ⟨-, hlive⟩ := apply_createSYMemObject hst
    refine ⟨_, ⟨?_, ?_⟩, hrest⟩
    · rw [hlive, List.map_append, h.keys]
      rfl
    · intro o ho
      rw [hlive] at ho
      rcases List.mem_append.1 ho with ho | ho
      · exact h.canonical o ho
      · rw [List.mem_singleton.1 ho]
        exact hcanon
  | destroySYMemObject addr size =>
    obtain ⟨-, hrest⟩ := hops
    obtain ⟨-, hlive⟩ := apply_destroySYMemObject hst
    refine ⟨_, ⟨?_, ?_⟩, hrest⟩
    · rw [hlive, ← h.keys, List.filter_map]
      rfl
    · intro o ho
      rw [hlive] at ho
      exact h.canonical o (List.mem_of_mem_filter ho)

/-- Two objects that live and do not clash have different hashes, unless they
have one address and one size. -/
theorem NoClash.hash_ne (h : NoClash st) (htr : Tracked st live) {o o' : SYMemObject}
    (ho : o ∈ st.live) (ho' : o' ∈ st.live) (hne : o.key ≠ o'.key) :
    hashTogether o.addr o.size ≠ hashTogether o'.addr o'.size := by
  intro heq
  rcases (hashTogether_eq_iff (htr.canonical o ho) (htr.canonical o' ho') hne).1 heq with hc | hc
  · exact h o ho o' ho' hc
  · exact h o' ho' o ho hc

/-- The map keeps up with an operation, if no objects clash before and after
it. -/
theorem Kept.apply (h : Kept st) (htr : Tracked st live) {op : RegistryOp}
    {ops : List RegistryOp} (hops : Orderly live (op :: ops)) (hst : op.apply st = some st')
    (hno : NoClash st) (hno' : NoClash st') : Kept st' := by
  obtain ⟨live', htr', -⟩ := htr.apply hops hst
  -- A query is excluded by the run. A created or destroyed object changes one entry, and no clash
  -- lets it be another's.
  cases op with
  | createSYMemObject addr size isSigned hasSeed conVal name =>
    obtain ⟨hmap, hlive⟩ := apply_createSYMemObject hst
    have hnew : st.vm.newSYMemObject addr size isSigned hasSeed conVal name ∈ st'.live := by
      rw [hlive]
      exact List.mem_append_right _ (List.mem_singleton_self _)
    constructor
    · rw [hmap]
      exact h.ascending.insert _ _
    · intro p
      rw [hmap, h.ascending.mem_insert_iff, h.entry, hlive, List.mem_append, List.mem_singleton]
      constructor
      · rintro (rfl | ⟨⟨hold, hkey⟩, -⟩)
        · exact ⟨Or.inr rfl, rfl⟩
        · exact ⟨Or.inl hold, hkey⟩
      · rintro ⟨hold | hobj, hkey⟩
        · -- an object from before has another address or size, so another hash
          have hin : p.2 ∈ st'.live := by
            rw [hlive]
            exact List.mem_append_left _ hold
          have hfresh : p.2.key ≠ (addr, size) := by
            intro heq
            apply hops.1
            rw [← htr.keys, ← heq]
            exact List.mem_map_of_mem hold
          refine Or.inr ⟨⟨hold, hkey⟩, ?_⟩
          rw [hkey]
          exact hno'.hash_ne htr' hin hnew hfresh
        · left
          rw [← hobj]
          refine Prod.ext ?_ rfl
          rw [hkey, hobj]
          rfl
  | destroySYMemObject addr size =>
    obtain ⟨hmap, hlive⟩ := apply_destroySYMemObject hst
    obtain ⟨o, ho, hkey⟩ : ∃ o ∈ st.live, o.key = (addr, size) := by
      have hmem := hops.1
      rw [← htr.keys] at hmem
      exact List.mem_map.1 hmem
    obtain ⟨rfl, rfl⟩ := Prod.mk.inj hkey
    constructor
    · rw [hmap]
      exact h.ascending.erase _
    · intro p
      rw [hmap, SYMemObjects.mem_erase_iff, h.entry, hlive, List.mem_filter, decide_eq_true_eq]
      constructor
      · rintro ⟨⟨hold, hhash⟩, hne⟩
        refine ⟨⟨hold, ?_⟩, hhash⟩
        intro heq
        obtain ⟨haddr, hsize⟩ := Prod.mk.inj heq
        rw [hhash, haddr, hsize] at hne
        exact hne rfl
      · rintro ⟨⟨hold, hne⟩, hhash⟩
        refine ⟨⟨hold, hhash⟩, ?_⟩
        rw [hhash]
        exact hno.hash_ne htr hold ho hne

/-! ### What a run keeps -/

/-- In every state of an orderly run the live objects are the ones that the calls left. -/
theorem Tracked.registryStates (h : Tracked st live) {ops : List RegistryOp}
    (hops : Orderly live ops) (hst : st' ∈ registryStates st ops) :
    ∃ live', Tracked st' live' := by
  induction ops generalizing st live with
  | nil =>
    rw [List.mem_singleton.1 hst]
    exact ⟨live, h⟩
  | cons op ops ih =>
    rw [KRover.registryStates] at hst
    rcases List.mem_cons.1 hst with rfl | hst
    · exact ⟨live, h⟩
    · cases happ : op.apply st with
      | none =>
        rw [happ] at hst
        exact absurd hst (by simp)
      | some st₁ =>
        rw [happ] at hst
        obtain ⟨live₁, htr₁, hops₁⟩ := h.apply hops happ
        exact ih htr₁ hops₁ hst

/-- A run is in its first state, whatever calls follow. -/
theorem mem_registryStates_self (st : RegistryState) (ops : List RegistryOp) :
    st ∈ registryStates st ops := by
  cases ops with
  | nil => exact List.mem_singleton_self _
  | cons op ops => exact List.mem_cons_self

/-- The address and the size of the object that an operation creates. -/
def RegistryOp.created : RegistryOp → List (Nat × Nat)
  | .createSYMemObject addr size _ _ _ _ => [(addr, size)]
  | .destroySYMemObject _ _ => []

/-- An object that lives after an operation lived before it or was created by it. -/
theorem live_of_apply {op : RegistryOp} (hst : op.apply st = some st') {o : SYMemObject}
    (ho : o ∈ st'.live) : o ∈ st.live ∨ o.key ∈ op.created := by
  cases op with
  | createSYMemObject addr size isSigned hasSeed conVal name =>
    obtain ⟨-, hlive⟩ := apply_createSYMemObject hst
    rw [hlive] at ho
    rcases List.mem_append.1 ho with hold | hnew
    · exact Or.inl hold
    · rw [List.mem_singleton.1 hnew]
      exact Or.inr (List.mem_singleton_self _)
  | destroySYMemObject addr size =>
    obtain ⟨-, hlive⟩ := apply_destroySYMemObject hst
    rw [hlive] at ho
    exact Or.inl (List.mem_of_mem_filter ho)

/-- An object that lives in a state of a run lived at its start or was created on the
way. -/
theorem live_of_registryStates {ops : List RegistryOp} (hst : st' ∈ registryStates st ops)
    {o : SYMemObject} (ho : o ∈ st'.live) :
    o ∈ st.live ∨ o.key ∈ ops.flatMap RegistryOp.created := by
  induction ops generalizing st with
  | nil =>
    rw [List.mem_singleton.1 hst] at ho
    exact Or.inl ho
  | cons op ops ih =>
    rw [List.flatMap_cons, List.mem_append]
    rw [registryStates] at hst
    rcases List.mem_cons.1 hst with rfl | hst
    · exact Or.inl ho
    · cases happ : op.apply st with
      | none =>
        rw [happ] at hst
        exact absurd hst (by simp)
      | some st₁ =>
        rw [happ] at hst
        rcases ih hst with hold | hcreated
        · exact (live_of_apply happ hold).imp_right Or.inl
        · exact Or.inr (Or.inr hcreated)

/-- In a run whose states are free of clashes the registry holds throughout: no call can
break it for an object with another hash. -/
theorem Kept.registryStates (h : Kept st) (htr : Tracked st live) {ops : List RegistryOp}
    (hops : Orderly live ops) (hno : ∀ st' ∈ registryStates st ops, NoClash st')
    (hst : st' ∈ registryStates st ops) : Kept st' := by
  induction ops generalizing st live with
  | nil =>
    rw [List.mem_singleton.1 hst]
    exact h
  | cons op ops ih =>
    rw [KRover.registryStates] at hst hno
    rcases List.mem_cons.1 hst with rfl | hst
    · exact h
    · cases happ : op.apply st with
      | none =>
        rw [happ] at hst
        exact absurd hst (by simp)
      | some st₁ =>
        rw [happ] at hst hno
        obtain ⟨live₁, htr₁, hops₁⟩ := htr.apply hops happ
        have hno₁ := hno st₁ (List.mem_cons_of_mem _ (mem_registryStates_self st₁ ops))
        have h₁ := h.apply htr hops happ (hno st List.mem_cons_self) hno₁
        exact ih h₁ htr₁ hops₁ (fun st' hst' => hno st' (List.mem_cons_of_mem _ hst')) hst

/-- The map as a set of entries answers for every object. -/
theorem Kept.registryHolds (h : Kept st) : RegistryHolds st := by
  constructor
  · intro o
    rw [List.mem_map]
    constructor
    · rintro ⟨p, hp, rfl⟩
      exact ((h.entry p).1 hp).1
    · intro ho
      exact ⟨(hashTogether o.addr o.size, o), (h.entry (_, o)).2 ⟨ho, rfl⟩, rfl⟩
  · intro o ho
    exact h.ascending.find_eq_some_iff.2 ((h.entry (hashTogether o.addr o.size, o)).2 ⟨ho, rfl⟩)

/-- Two objects that clash have one entry, which cannot be that of both. -/
theorem RegistryHolds.noClash (h : RegistryHolds st) (htr : Tracked st live) : NoClash st := by
  intro o ho o' ho' hclash
  have hne : o.key ≠ o'.key := by
    intro heq
    exact absurd hclash.1 (by rw [heq]; exact Nat.lt_irrefl _)
  have hhash := (hashTogether_eq_iff (htr.canonical o ho) (htr.canonical o' ho') hne).2
    (Or.inl hclash)
  have hfound := h.found o ho
  have hfound' := h.found o' ho'
  rw [show hashTogether o.addr o.size = hashTogether o'.addr o'.size from hhash, hfound']
    at hfound
  exact hne (congrArg SYMemObject.key (Option.some.inj hfound).symm)

/-- `m_SYMemObjects` holds the objects that live in every state of a run exactly when no two
of them clash in any state. The registry is a map by the hash of address and size, and two
objects that are alive at once may have one hash. The invariant of the run says that the map
holds the live objects under their hashes; without a clash each call keeps it. -/
theorem registryHolds_iff {vm : VMState} (hempty : vm.symMemObjects = []) {ops : List RegistryOp}
    (hops : Orderly [] ops) :
    (∀ st ∈ registryStates ⟨vm, []⟩ ops, RegistryHolds st) ↔
      ∀ st ∈ registryStates ⟨vm, []⟩ ops, NoClash st := by
  have htr : Tracked ⟨vm, []⟩ [] := ⟨rfl, fun o ho => absurd ho (by simp)⟩
  have hkept : Kept ⟨vm, []⟩ := by
    constructor
    · show SYMemObjects.Ascending vm.symMemObjects
      rw [hempty]
      exact List.Pairwise.nil
    · intro p
      show p ∈ vm.symMemObjects ↔ _
      rw [hempty]
      exact iff_of_false (by simp) (fun h => absurd h.1 (by simp))
  constructor
  · intro hall st hst
    obtain ⟨live, htr'⟩ := htr.registryStates hops hst
    exact (hall st hst).noClash htr'
  · intro hno st hst
    exact (hkept.registryStates htr hops hno hst).registryHolds

/-- Objects of different sizes side by side: one of them is destroyed before the last is
created. -/
def registryRun : List RegistryOp :=
  [.createSYMemObject 0x1000 8 false true 1 "a", .createSYMemObject 0x1008 4 false true 2 "b",
    .createSYMemObject 0x100c 2 false true 3 "c", .destroySYMemObject 0x1008 4,
    .createSYMemObject 0x2000 1 false true 4 "d"]

/-- All operations of the run return, and the registry holds before and after each. -/
theorem registryHolds_objects :
    Orderly [] registryRun ∧
      (registryStates ⟨VMState.new (fun _ => 0) fun _ => 0, []⟩ registryRun).length = 6 ∧
      ∀ st ∈ registryStates ⟨VMState.new (fun _ => 0) fun _ => 0, []⟩ registryRun,
        RegistryHolds st := by
  have hops : Orderly [] registryRun :=
    ⟨by decide, by decide, by decide, by decide, by decide, by decide, by decide, by decide,
      by decide, trivial⟩
  refine ⟨hops, by decide +kernel, (registryHolds_iff rfl hops).2 ?_⟩
  -- No two of the objects that are created on the way clash.
  have hcreated : ∀ p ∈ registryRun.flatMap RegistryOp.created,
      ∀ q ∈ registryRun.flatMap RegistryOp.created, ¬ Clash p q := by
    decide
  intro st hst o ho o' ho'
  have hkey : ∀ x ∈ st.live, x.key ∈ registryRun.flatMap RegistryOp.created := by
    intro x hx
    rcases live_of_registryStates hst hx with hnil | hnew
    · exact absurd hnil List.not_mem_nil
    · exact hnew
  exact hcreated _ (hkey o ho) _ (hkey o' ho')

/-- An object of one byte at `0x2000` and one of two bytes at `0x1000` have one entry: the
second takes the place of the first. Shifted by their sizes and three more, both addresses
come to `0x20000`. -/
theorem not_registryHolds_two :
    Orderly [] [.createSYMemObject 0x2000 1 false true 1 "a",
      .createSYMemObject 0x1000 2 false true 2 "b"] ∧
    ∃ st ∈ registryStates ⟨VMState.new (fun _ => 0) fun _ => 0, []⟩
      [.createSYMemObject 0x2000 1 false true 1 "a",
        .createSYMemObject 0x1000 2 false true 2 "b"],
      st.live.length = 2 ∧ st.vm.symMemObjects.length = 1 ∧ ¬ RegistryHolds st := by
  refine ⟨⟨by simp, by decide, by decide, by decide, trivial⟩, ?_⟩
  obtain ⟨vm₁, hst₁, hmem⟩ := exists_createSYMemObject
    (show MemCells (VMState.new (fun _ => 0) fun _ => 0).mem from memCells_new _)
    0x2000 1 (by decide) (by decide) (by decide) 1 "a"
  obtain ⟨vm₂, hst₂, -⟩ := exists_createSYMemObject hmem 0x1000 2
    (by decide) (by decide) (by decide) 2 "b"
  -- Both objects have the hash `0x20000`, so the second is entered in place of the first.
  let a := (VMState.new (fun _ => 0) fun _ => 0).newSYMemObject 0x2000 1 false true 1 "a"
  let b := vm₁.newSYMemObject 0x1000 2 false true 2 "b"
  have happ₁ : (RegistryOp.createSYMemObject 0x2000 1 false true 1 "a").apply
      ⟨VMState.new (fun _ => 0) fun _ => 0, []⟩ = some ⟨vm₁, [a]⟩ := by
    rw [RegistryOp.apply, hst₁]
    rfl
  have happ₂ : (RegistryOp.createSYMemObject 0x1000 2 false true 2 "b").apply ⟨vm₁, [a]⟩
      = some ⟨vm₂, [a, b]⟩ := by
    rw [RegistryOp.apply, hst₂]
    rfl
  have hmap : vm₂.symMemObjects = [(hashTogether 0x1000 2, b)] := by
    rw [symMemObjects_createSYMemObject hst₂, symMemObjects_createSYMemObject hst₁]
    rfl
  refine ⟨⟨vm₂, [a, b]⟩, ?_, rfl, by rw [hmap]; rfl, ?_⟩
  · rw [registryStates, happ₁]
    show _ ∈ _ :: registryStates ⟨vm₁, [a]⟩ _
    rw [registryStates, happ₂]
    simp [registryStates]
  · intro hholds
    have ha := (hholds.entries a).2 List.mem_cons_self
    rw [show (RegistryState.mk vm₂ [a, b]).vm.symMemObjects = _ from hmap] at ha
    have hab : a = b := by simpa using ha
    have hsize : (1 : Nat) = 2 := congrArg SYMemObject.size hab
    omega

end KRover
