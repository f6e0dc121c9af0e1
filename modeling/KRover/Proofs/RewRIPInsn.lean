import KRover.Proofs.RewRIPLayout

/-! # What `RewRIPInsn` makes of an instruction

Outside the layouts the indexes are right for, the mode is put into another byte
than ModRM or the bit of the base into no `REX` prefix. What is copied is then
decoded to no instruction, to another one, or to one with another base
(`rewritten_iff`).
-/

set_option autoImplicit false

namespace KRover

open X86 ConExecutor

section Wrong

variable {e : Encoding} {info : OpInfo} {d0 d1 d2 d3 : Byte} {code : Nat → Byte} {b : Byte}

/-- What is decoded has another base or is another operation. -/
theorem not_rewritten_of_decode {bs : List Byte}
    (hcall : rewRIPInsn (entryID info.op) e.bytes.length (readsGS e info) code = some bs)
    (h : ∀ i, decode bs = some i → i.mem.base = some (.reg 15) → i.op ≠ info.op) :
    ¬ Rewritten e info code := by
  rw [rewritten_of_call hcall]
  exact fun hdec => h _ hdec rfl rfl

/-- Without a `REX` prefix in effect there is no `r15`. -/
theorem not_rewritten_of_rex (ps : List Byte) (hps : ∀ c ∈ ps, isPrefix c = true) {c : Byte}
    (hc : isPrefix c = false) {bs : List Byte}
    (hcall : rewRIPInsn (entryID info.op) e.bytes.length (readsGS e info) code
      = some (ps ++ c :: bs))
    (hrex : (ps.foldl Prefixes.add .empty).rex = none) : ¬ Rewritten e info code := by
  refine not_rewritten_of_decode hcall fun i hdec hbase _ => ?_
  have hlt := base_lt_of_decode hps hc hdec hrex hbase
  omega

/-- The three values that a byte is combined with. -/
def modes : List Byte := [0x02, 0x42, 0x82]

/-- However much of the displacement is copied, what stands before the byte that
gets the mode is kept. -/
theorem exists_copyByDisp (f : Nat → Byte) (m d n : Nat) :
    ∃ x ∈ modes, ∃ k, n ≤ k ∧ k ≤ n + 4 ∧ copyByDisp f m d (m + (n + 1)) =
      copyOut f m ++ (f m ||| x) :: copyOut (fun i => f (m + 1 + i)) k := by
  rw [copyByDisp]
  split
  · exact ⟨0x02, by decide, n, by omega, by omega, copyOut_orByte f m n _⟩
  · split
    · exact ⟨0x42, by decide, n + 1, by omega, by omega, copyOut_orByte f m (n + 1) _⟩
    · exact ⟨0x82, by decide, n + 4, by omega, by omega, copyOut_orByte f m (n + 4) _⟩

/-! ## A byte that got the wrong bits -/

/-- A byte that becomes a prefix when its lowest bit is set was one before: the prefixes
come in pairs of an even and an odd number, apart from a few odd ones. -/
theorem isPrefix_of_or : ∀ b : Byte, isPrefix (b ||| 0x1) = true → isPrefix b = true := by decide

/-- A prefix with the bit is a prefix or no opcode of these. -/
theorem oneByte_of_or : ∀ b : Byte, isPrefix b = true → isPrefix (b ||| 0x1) = false →
    b ||| 0x1 ≠ 0x0f ∧ ∀ reg < 8, oneByte (b ||| 0x1).toNat reg = none := by
  decide +kernel

/-- The same of the `REX` prefixes. -/
theorem isRex_of_or : ∀ b : Byte, isRex (b ||| 0x1) = true → isRex b = true := by decide

/-- A prefix with a mode is a prefix or the opcode of a move. -/
theorem op_of_prefix : ∀ p : Byte, isPrefix p = true → ∀ x ∈ modes, isPrefix (p ||| x) = false →
    p ||| x ≠ 0x0f ∧ ∀ reg < 8, ∀ info ∈ oneByte (p ||| x).toNat reg, info.op = .mov := by
  decide +kernel

/-- A byte of the instruction is where the code has it. -/
theorem getElem?_of_copyOut {bs : List Byte} {n : Nat} (h : copyOut code n = bs) {i : Nat}
    (hi : i < n) : bs[i]? = some (code i) := by
  rw [← h, copyOut, List.getElem?_map, List.getElem?_range hi]
  rfl

/-- The length of an instruction by its parts: opcode and ModRM byte make two, the
displacement four. -/
theorem length_oneByte (he : IsRipInsn e info d0 d1 d2 d3) (hone : e.opcode = .one b) :
    e.bytes.length = e.prefixes.length + 6 + e.imm.length := by
  rw [he.bytes_eq, hone]
  simp only [Opcode.bytes, List.length_append, List.length_cons, List.length_nil]
  omega

/-- The opcode is no prefix, or the scan would have taken it. -/
theorem IsRipInsn.isPrefix_opcode (he : IsRipInsn e info d0 d1 d2 d3) (hone : e.opcode = .one b) :
    isPrefix b = false := by
  have hknown := he.valid.known
  rw [hone] at hknown
  exact (isPrefix_of_oneByte hknown).1

/-- Seven bytes without `gs`, the first of which is no `REX` prefix. -/
theorem not_rewritten_seven (he : IsRipInsn e info d0 d1 d2 d3)
    (hcode : copyOut code e.bytes.length = e.bytes) (hop : ByLength info.op)
    (hone : e.opcode = .one b) (hgs : readsGS e info = false) (hlen : e.bytes.length = 7)
    (hrex : ∀ r, isRex r = true → e.prefixes ≠ [r]) : ¬ Rewritten e info code := by
  obtain ⟨x, -, k, -, -, hcopy⟩ := exists_copyByDisp
    (orByte (memcpy (fun _ => 0) 0 code 0 8) 0 0x1) 2 3 0
  have hcall : rewRIPInsn (entryID info.op) e.bytes.length (readsGS e info) code = some
      ((code 0 ||| 0x1) :: code 1 :: (orByte (memcpy (fun _ => 0) 0 code 0 8) 0 0x1 2 ||| x) ::
        copyOut (fun i => orByte (memcpy (fun _ => 0) 0 code 0 8) 0 0x1 (2 + 1 + i)) k) := by
    rw [hgs, rewRIPInsn_byLength hop, if_pos hlen, hcopy]
    rfl
  have hb := he.isPrefix_opcode hone
  have hshape := length_oneByte he hone
  have c0 := getElem?_of_copyOut hcode (i := 0) (by omega)
  have c1 := getElem?_of_copyOut hcode (i := 1) (by omega)
  rw [he.bytes_eq, hone] at c0 c1
  -- The code assumes a REX prefix in front. Without one the bit goes into the opcode, or into
  -- another prefix.
  cases hprefixes : e.prefixes with
  | nil =>
    rw [hprefixes] at c0
    obtain rfl : b = code 0 := by simpa [Opcode.bytes] using c0
    have hor : isPrefix (code 0 ||| 0x1) = false :=
      Bool.eq_false_iff.2 fun h => absurd (isPrefix_of_or _ h) (by simp [hb])
    exact not_rewritten_of_rex [] (by simp) hor hcall rfl
  | cons p ps =>
    obtain rfl : ps = [] := by
      rw [hprefixes, List.length_cons] at hshape
      exact List.length_eq_zero_iff.1 (by omega)
    rw [hprefixes] at c0 c1
    obtain rfl : p = code 0 := by simpa using c0
    obtain rfl : b = code 1 := by simpa [Opcode.bytes] using c1
    have hnot : isRex (code 0 ||| 0x1) = false :=
      Bool.eq_false_iff.2 fun h => hrex _ (isRex_of_or _ h) hprefixes
    -- The changed prefix may still be one. It is no REX, so the register is not extended.
    cases hor : isPrefix (code 0 ||| 0x1) with
    | false => exact not_rewritten_of_rex [] (by simp) hor hcall rfl
    | true =>
      refine not_rewritten_of_rex [code 0 ||| 0x1] (by simpa using hor) hb hcall ?_
      exact Prefixes.rex_add hnot _

/-- Eight bytes with `gs`, the second of which is no `REX` prefix. -/
theorem not_rewritten_gsEight (he : IsRipInsn e info d0 d1 d2 d3)
    (hcode : copyOut code e.bytes.length = e.bytes) (hop : info.op = .mov ∨ info.op = .add)
    (hone : e.opcode = .one b) (hgs : readsGS e info = true) (hlen : e.bytes.length = 8)
    (hrex : ∀ p r, isRex r = true → e.prefixes ≠ [p, r]) : ¬ Rewritten e info code := by
  -- The two opcodes take the way by the length of the instruction.
  have hby : ByLength info.op := by rcases hop with hop | hop <;> rw [hop] <;> trivial
  obtain ⟨x, -, k, -, -, hcopy⟩ := exists_copyByDisp
    (orByte (memcpy (fun _ => 0) 0 code 0 8) 1 0x1) 3 4 0
  have hcall : rewRIPInsn (entryID info.op) e.bytes.length (readsGS e info) code = some
      (code 0 :: (code 1 ||| 0x1) :: code 2 ::
        (orByte (memcpy (fun _ => 0) 0 code 0 8) 1 0x1 3 ||| x) ::
        copyOut (fun i => orByte (memcpy (fun _ => 0) 0 code 0 8) 1 0x1 (3 + 1 + i)) k) := by
    rw [hgs, rewRIPInsn_byLength_gs hby, if_pos hop, if_neg (by omega), if_pos hlen, hcopy]
    rfl
  have hb := he.isPrefix_opcode hone
  have hshape := length_oneByte he hone
  have hall := he.valid.prefixes
  have c0 := getElem?_of_copyOut hcode (i := 0) (by omega)
  have c1 := getElem?_of_copyOut hcode (i := 1) (by omega)
  have c2 := getElem?_of_copyOut hcode (i := 2) (by omega)
  rw [he.bytes_eq, hone] at c0 c1 c2
  rcases hprefixes : e.prefixes with - | ⟨p, - | ⟨q, ps⟩⟩
  · -- an immediate, so the prefix of `gs`
    rw [hprefixes, List.length_nil] at hshape
    have hkind := he.regKind hone (List.ne_nil_of_length_pos (by omega))
    have hseg := seg_of_readsGS hgs (by rw [hkind]; decide)
    rw [Encoding.state, hprefixes] at hseg
    exact absurd hseg (by decide)
  · -- the bit goes to the opcode
    rw [hprefixes, List.length_singleton] at hshape
    have hkind := he.regKind hone (List.ne_nil_of_length_pos (by omega))
    have hp := eq_of_readsGS hgs (by rw [hkind]; decide) hprefixes
    rw [hprefixes] at c0 c1
    obtain rfl : p = code 0 := by simpa using c0
    obtain rfl : b = code 1 := by simpa [Opcode.bytes] using c1
    have hor : isPrefix (code 1 ||| 0x1) = false :=
      Bool.eq_false_iff.2 fun h => absurd (isPrefix_of_or _ h) (by simp [hb])
    rw [hp] at hcall
    exact not_rewritten_of_rex [0x65] (by decide) hor hcall rfl
  · obtain rfl : ps = [] := by
      rw [hprefixes, List.length_cons, List.length_cons] at hshape
      exact List.length_eq_zero_iff.1 (by omega)
    rw [hprefixes] at c0 c1 c2 hall
    obtain rfl : p = code 0 := by simpa using c0
    obtain rfl : q = code 1 := by simpa using c1
    obtain rfl : b = code 2 := by simpa [Opcode.bytes] using c2
    have hfirst : ∀ c ∈ [code 0], isPrefix c = true := by simpa using hall (code 0) (by simp)
    have hnot : isRex (code 1 ||| 0x1) = false :=
      Bool.eq_false_iff.2 fun h => hrex _ _ (isRex_of_or _ h) hprefixes
    cases hor : isPrefix (code 1 ||| 0x1) with
    | false =>
      obtain ⟨h0f, hnone⟩ := oneByte_of_or (code 1) (hall _ (by simp)) hor
      refine not_rewritten_of_decode hcall fun i hdec _ _ => ?_
      obtain ⟨reg, info', hreg, hinfo, -⟩ := op_of_decode hfirst hor h0f hdec
      rw [hnone reg hreg] at hinfo
      exact absurd hinfo (by simp)
    | true =>
      refine not_rewritten_of_rex [code 0, code 1 ||| 0x1] ?_ hb hcall (Prefixes.rex_add hnot _)
      exact List.forall_mem_cons.2 ⟨hfirst _ (by simp), by simpa using hor⟩

/-! ## A prefix that got the mode -/

/-- What follows is still an instruction relative to `rip`. -/
theorem not_rewritten_of_prefix (he : IsRipInsn e info d0 d1 d2 d3) (hone : e.opcode = .one b)
    (hop : info.op ≠ .mov) (ps tail bs : List Byte) (p x : Byte) (k : Nat)
    (hps : ∀ c ∈ ps, isPrefix c = true) (hp : isPrefix p = true) (hx : x ∈ modes)
    (htail : ∀ c ∈ tail, isPrefix c = true)
    (hcall : rewRIPInsn (entryID info.op) e.bytes.length (readsGS e info) code
      = some (ps ++ (p ||| x) ::
      (tail ++ b :: (Addressing.rip [d0, d1, d2, d3]).modrm e.reg :: bs).take k)) :
    ¬ Rewritten e info code := by
  refine not_rewritten_of_decode hcall fun i hdec hbase hsame => ?_
  have hknown := he.valid.known
  rw [hone] at hknown
  -- The changed byte is an opcode or a prefix. As an opcode it is another instruction, and as a
  -- prefix the address stays relative.
  cases hor : isPrefix (p ||| x) with
  | false =>
    obtain ⟨h0f, hmov⟩ := op_of_prefix p hp x hx hor
    obtain ⟨reg, info', hreg, hinfo, hi⟩ := op_of_decode hps hor h0f hdec
    exact hop (by rw [← hsame, hi, hmov reg hreg info' hinfo])
  | true =>
    have hlist : ps ++ (p ||| x) ::
        (tail ++ b :: (Addressing.rip [d0, d1, d2, d3]).modrm e.reg :: bs).take k
        = ((ps ++ (p ||| x) :: tail) ++
          b :: (Addressing.rip [d0, d1, d2, d3]).modrm e.reg :: bs).take (ps.length + (k + 1)) := by
      rw [List.append_assoc, List.take_length_add_append, List.cons_append, List.take_succ_cons]
    have hall : ∀ c ∈ ps ++ (p ||| x) :: tail, isPrefix c = true :=
      List.forall_mem_append.2 ⟨hps, List.forall_mem_cons.2 ⟨hor, htail⟩⟩
    rw [hlist] at hdec
    have hrip := base_of_decode_rip hall hknown he.valid.reg hdec
    rw [hrip] at hbase
    exact absurd hbase (by decide)

/-- A part of what is copied is a copy of a part. -/
theorem copyOut_drop {bs : List Byte} {n : Nat} (h : copyOut code n = bs) {m k : Nat}
    (hk : m + k ≤ n) : copyOut (fun i => code (m + i)) k = (bs.drop m).take k := by
  obtain ⟨j, rfl⟩ := Nat.exists_eq_add_of_le hk
  rw [← h, copyOut_add, copyOut_add]
  have hfront : ∀ f : Nat → Byte, ∀ m, (copyOut f m).length = m := fun f m => by simp [copyOut]
  rw [List.append_assoc, List.drop_left' (hfront _ m), List.take_left' (hfront _ k)]

/-- Eleven bytes of an `and` with more prefixes than that of `gs`. -/
theorem not_rewritten_gsAnd (he : IsRipInsn e info d0 d1 d2 d3)
    (hcode : copyOut code e.bytes.length = e.bytes) (hop : info.op = .and)
    (hone : e.opcode = .one b) (hgs : readsGS e info = true) (hlen : e.bytes.length = 11)
    {p q r : Byte} {ps : List Byte} (hprefixes : e.prefixes = p :: q :: r :: ps) :
    ¬ Rewritten e info code := by
  set f := Function.update (memcpy (memcpy (fun _ => 0) 0 code 0 1) 2 code 1 10) 1 0x41 with hf
  have hall := he.valid.prefixes
  have hbytes := he.bytes_eq
  rw [hprefixes] at hall
  rw [hprefixes, hone] at hbytes
  -- The code asserts that three bytes are not zero.
  by_cases hd : f 4 ≠ 0 ∧ f 5 ≠ 0 ∧ f 6 ≠ 0
  · have hrest : copyOut (fun i => f (3 + 1 + i)) 8 = (e.bytes.drop 3).take 8 := by
      rw [← copyOut_drop hcode (by omega)]
      refine List.map_congr_left fun i hi => ?_
      have hlt : i < 8 := List.mem_range.1 hi
      rw [hf, Function.update_of_ne (by omega), memcpy, if_pos (by omega)]
      congr 1
      omega
    have c0 := getElem?_of_copyOut hcode (i := 0) (by omega)
    have c1 := getElem?_of_copyOut hcode (i := 1) (by omega)
    have c2 := getElem?_of_copyOut hcode (i := 2) (by omega)
    rw [hbytes] at c0 c1 c2 hrest
    obtain rfl : p = code 0 := by simpa using c0
    obtain rfl : q = code 1 := by simpa using c1
    obtain rfl : r = code 2 := by simpa using c2
    have hfront : ∀ c ∈ [code 0, 0x41, code 1], isPrefix c = true :=
      List.forall_mem_cons.2 ⟨hall _ (by simp), List.forall_mem_cons.2 ⟨by decide,
        List.forall_mem_cons.2 ⟨hall _ (by simp), by simp⟩⟩⟩
    refine not_rewritten_of_prefix he hone (by rw [hop]; decide) [code 0, 0x41, code 1] ps
      (d0 :: d1 :: d2 :: d3 :: e.imm) (code 2) 0x82 8 hfront (hall _ (by simp)) (by decide)
      (fun c hc => hall c (by simp [hc])) ?_
    rw [hop, hgs, hlen]
    show (if _ then some (copyOut (orByte f 3 0x82) 12) else none) = _
    rw [if_pos hd, show 12 = 3 + (8 + 1) from rfl, copyOut_orByte, hrest]
    rfl
  · refine not_rewritten_of_none ?_
    rw [hop, hgs, hlen]
    exact if_neg hd

/-! ## `test` with prefixes -/

/-- What is copied of seven bytes and more. -/
theorem exists_test (hcode : copyOut code e.bytes.length = e.bytes) (hop : info.op = .test)
    (hlen : 7 ≤ e.bytes.length) : ∃ x ∈ modes, ∃ k,
      rewRIPInsn (entryID info.op) e.bytes.length (readsGS e info) code
        = some ([0x41, code 0] ++ (code 1 ||| x) :: (e.bytes.drop 2).take k) := by
  set f := Function.update (memcpy (fun _ => 0) 1 code 0 7) 0 0x41 with hf
  obtain ⟨x, hx, k, -, hk, hcopy⟩ := exists_copyByDisp f 2 4 1
  refine ⟨x, hx, k, ?_⟩
  have hrest : copyOut (fun i => f (2 + 1 + i)) k = (e.bytes.drop 2).take k := by
    rw [← copyOut_drop hcode (by omega)]
    refine List.map_congr_left fun i hi => ?_
    have hlt : i < k := List.mem_range.1 hi
    rw [hf, Function.update_of_ne (by omega), memcpy, if_pos (by omega)]
    congr 1
    omega
  rw [hop, ← hrest]
  exact congrArg some hcopy

/-- The first group of immediate opcodes has no `test`. -/
theorem ne_test_of_group1 {reg : Nat} {op : Op} (h : group1 reg = some op) : op ≠ .test := by
  rw [group1.eq_def] at h
  split at h <;> grind

/-- The four opcodes of `test`. -/
theorem toNat_of_test {n reg : Nat} (h : oneByte n reg = some info) (hop : info.op = .test) :
    n ∈ [0x84, 0x85, 0xf6, 0xf7] := by
  rw [oneByte.eq_def] at h
  split at h <;> grind [regForm, ne_test_of_group1, Option.map_eq_some_iff]

/-- The opcode of a `test` with a mode. -/
theorem op_of_test : ∀ b : Byte, b.toNat ∈ [0x84, 0x85, 0xf6, 0xf7] → ∀ x ∈ modes, b ||| x = b ∨
    isPrefix (b ||| x) = false ∧ b ||| x ≠ 0x0f ∧
      ∀ reg < 8, ∀ info ∈ oneByte (b ||| x).toNat reg, info.op ≠ .test := by
  decide +kernel

/-- A `test` with a prefix is not rewritten: the copy puts `41` in front of a prefix, and a
`REX` prefix counts right before the opcode only. -/
theorem not_rewritten_test (he : IsRipInsn e info d0 d1 d2 d3)
    (hcode : copyOut code e.bytes.length = e.bytes) (hop : info.op = .test)
    (hone : e.opcode = .one b) (hprefixes : e.prefixes ≠ []) : ¬ Rewritten e info code := by
  have hshape := length_oneByte he hone
  have hpos := List.length_pos_iff.2 hprefixes
  obtain ⟨x, hx, k, hcall⟩ := exists_test hcode hop (by omega)
  have hall := he.valid.prefixes
  have hbytes := he.bytes_eq
  have c0 := getElem?_of_copyOut hcode (i := 0) (by omega)
  have c1 := getElem?_of_copyOut hcode (i := 1) (by omega)
  have hknown := he.valid.known
  rw [hone] at hknown hbytes
  rcases hshape' : e.prefixes with - | ⟨p, - | ⟨q, ps⟩⟩
  · exact absurd hshape' hprefixes
  · -- the opcode gets the mode
    rw [hshape'] at hbytes hall
    rw [hbytes] at c0 c1 hcall
    obtain rfl : p = code 0 := by simpa using c0
    obtain rfl : b = code 1 := by simpa [Opcode.bytes] using c1
    have hps : ∀ c ∈ [0x41, code 0], isPrefix c = true :=
      List.forall_mem_cons.2 ⟨by decide, hall⟩
    rw [← hbytes] at hcall
    refine not_rewritten_of_decode hcall fun i hdec hbase hsame => ?_
    -- The mode bits are joined to the opcode. They are in it already, or it becomes that of another
    -- instruction.
    rcases op_of_test _ (toNat_of_test hknown hop) x hx with hsame' | ⟨hor, h0f, htest⟩
    · -- it has these bits already
      rw [hsame', hbytes] at hdec
      have hlist : [0x41, code 0] ++ code 1 :: (([code 0] ++ ((Opcode.one (code 1)).bytes ++
          (Addressing.rip [d0, d1, d2, d3]).modrm e.reg ::
            d0 :: d1 :: d2 :: d3 :: e.imm)).drop 2).take k
          = ([0x41, code 0] ++ code 1 :: (Addressing.rip [d0, d1, d2, d3]).modrm e.reg ::
            (d0 :: d1 :: d2 :: d3 :: e.imm)).take (2 + (k + 1)) := by
        rw [show 2 = [0x41, code 0].length from rfl, List.take_length_add_append,
          List.take_succ_cons]
        rfl
      rw [hlist] at hdec
      have hrip := base_of_decode_rip hps hknown he.valid.reg hdec
      rw [hrip] at hbase
      exact absurd hbase (by decide)
    · obtain ⟨reg, info', hreg, hinfo, hi⟩ := op_of_decode hps hor h0f hdec
      exact htest reg hreg info' hinfo (by rw [← hi, hsame, hop])
  · rw [hshape'] at hbytes hall
    rw [hbytes] at c0 c1
    obtain rfl : p = code 0 := by simpa using c0
    obtain rfl : q = code 1 := by simpa using c1
    have hps : ∀ c ∈ [0x41, code 0], isPrefix c = true :=
      List.forall_mem_cons.2 ⟨by decide, by simpa using hall _ (by simp)⟩
    refine not_rewritten_of_prefix he hone (by rw [hop]; decide) [0x41, code 0] ps
      (d0 :: d1 :: d2 :: d3 :: e.imm) (code 1) x k hps (hall _ (by simp)) hx
      (fun c hc => hall c (by simp [hc])) ?_
    rw [hcall, hbytes]
    rfl

end Wrong

/-! ## When it is right -/

/-- The encodings that are rewritten right. -/
inductive Fits (e : Encoding) (info : OpInfo) (d0 d1 d2 d3 : Byte) : Prop
  /-- No prefix. The `REX` prefix that is put in must not change the register. -/
  | bare (op : ByLength info.op) (gs : readsGS e info = false) (prefixes : e.prefixes = [])
      (imm : e.imm = []) (reg : KeepsReg info e.reg) (disp : DispFits d0 d1 d2 d3)
  | rex (op : ByLength info.op) (gs : readsGS e info = false) (r : Byte) (isRex : isRex r = true)
      (prefixes : e.prefixes = [r]) (imm : e.imm = []) (disp : DispFits d0 d1 d2 d3)
  | gsBare (op : info.op = .mov ∨ info.op = .add) (gs : readsGS e info = true) (p : Byte)
      (prefixes : e.prefixes = [p]) (imm : e.imm = []) (reg : KeepsReg info e.reg)
      (disp : DispFits d0 d1 d2 d3)
  | gsRex (op : info.op = .mov ∨ info.op = .add) (gs : readsGS e info = true) (p r : Byte)
      (isRex : isRex r = true) (prefixes : e.prefixes = [p, r]) (imm : e.imm = [])
      (disp : DispFits d0 d1 d2 d3)
  /-- An immediate of four bytes, and no zero among three bytes of the
  displacement. -/
  | gsAnd (op : info.op = .and) (prefixes : e.prefixes = [0x65]) (imm : e.imm.length = 4)
      (disp : d0 ≠ 0 ∧ d1 ≠ 0 ∧ d2 ≠ 0)
  | xadd (op : info.op = .xadd) (p : Byte) (isLegacy : isLegacy p = true)
      (prefixes : e.prefixes = [p]) (reg : KeepsReg info e.reg) (disp : d0 ≠ 0 ∧ d1 ≠ 0 ∧ d2 ≠ 0)
  /-- The bits of the `REX` prefix are lost. -/
  | xaddRex (op : info.op = .xadd) (r : Byte) (isRex : isRex r = true) (prefixes : e.prefixes = [r])
      (R : r.getLsbD 2 = false) (W : info.byteSized = true ∨ r.getLsbD 3 = false)
      (disp : d0 ≠ 0 ∧ d1 ≠ 0 ∧ d2 ≠ 0)
  /-- An immediate of one byte, which is taken for a byte of the displacement. -/
  | test (op : info.op = .test) (prefixes : e.prefixes = []) (i : Byte) (imm : e.imm = [i])
      (disp : d2 = 0 → d3 = 0 → i = 0 → d0 = 0 ∧ d1 = 0)

section Fits

variable {e : Encoding} {info : OpInfo} {d0 d1 d2 d3 : Byte} {code : Nat → Byte} {b : Byte}

/-- All operations but `xadd` have an opcode of one byte. -/
theorem IsRipInsn.exists_one (he : IsRipInsn e info d0 d1 d2 d3) (hop : info.op ≠ .xadd) :
    ∃ b, e.opcode = .one b := by
  have hknown := he.valid.known
  cases ho : e.opcode with
  | one b => exact ⟨b, rfl⟩
  | two b =>
    rw [ho] at hknown
    exact absurd (twoByte_eq hknown).1 hop

/-- The opcode of `xadd` has two bytes, and no immediate follows. -/
theorem IsRipInsn.exists_two (he : IsRipInsn e info d0 d1 d2 d3) (hop : info.op = .xadd) :
    ∃ b, e.opcode = .two b ∧ e.imm = [] := by
  have hknown := he.valid.known
  cases ho : e.opcode with
  | one b =>
    rw [ho] at hknown
    exact absurd hop (ne_xadd_of_oneByte hknown)
  | two b =>
    rw [ho] at hknown
    have himm := he.valid.imm
    rw [OpInfo.immLength, (twoByte_eq hknown).2.2] at himm
    exact ⟨b, rfl, List.length_eq_zero_iff.1 himm⟩

/-- What is told apart by its length is no `xadd`. -/
theorem ByLength.ne_xadd {op : Op} (hop : ByLength op) : op ≠ .xadd := by
  rintro rfl
  exact hop

/-- What fits is rewritten, layout by layout. -/
theorem Fits.rewritten (he : IsRipInsn e info d0 d1 d2 d3)
    (hcode : copyOut code e.bytes.length = e.bytes) (h : Fits e info d0 d1 d2 d3) :
    Rewritten e info code := by
  -- One case for each form of `Fits`, by the lemma about the copy that the code makes of it.
  cases h with
  | bare hop hgs hps himm hreg hdisp =>
    obtain ⟨b, hone⟩ := he.exists_one hop.ne_xadd
    exact (rewritten_bare he hcode hop hone hgs hps himm).2 ⟨hreg, hdisp⟩
  | rex hop hgs r hr hps himm hdisp =>
    obtain ⟨b, hone⟩ := he.exists_one hop.ne_xadd
    exact (rewritten_rex he hcode hop hone hgs hr hps himm).2 hdisp
  | gsBare hop hgs p hps himm hreg hdisp =>
    obtain ⟨b, hone⟩ := he.exists_one (by rcases hop with hop | hop <;> rw [hop] <;> decide)
    exact (rewritten_gsBare he hcode hop hone hgs hps himm).2 ⟨hreg, hdisp⟩
  | gsRex hop hgs p r hr hps himm hdisp =>
    obtain ⟨b, hone⟩ := he.exists_one (by rcases hop with hop | hop <;> rw [hop] <;> decide)
    exact (rewritten_gsRex he hcode hop hone hgs hr hps himm).2 hdisp
  | gsAnd hop hps himm hdisp =>
    obtain ⟨b, hone⟩ := he.exists_one (by rw [hop]; decide)
    exact (rewritten_gsAnd he hcode hop hone hps himm).2 hdisp
  | xadd hop p hp hps hreg hdisp =>
    obtain ⟨b, htwo, himm⟩ := he.exists_two hop
    exact (rewritten_xadd he hcode hop htwo hp hps himm).2 ⟨hreg, hdisp⟩
  | xaddRex hop r hr hps hR hW hdisp =>
    obtain ⟨b, htwo, himm⟩ := he.exists_two hop
    exact (rewritten_xaddRex he hcode hop htwo hr hps himm).2 ⟨hR, hW, hdisp⟩
  | test hop hps i himm hdisp =>
    obtain ⟨b, hone⟩ := he.exists_one (by rw [hop]; decide)
    exact (rewritten_test he hcode hop hone hps).2 ⟨i, himm, hdisp⟩

/-! ### Nothing else is -/

/-- What is rewritten fits, for the operations that are told apart by their length and read
no `gs`. -/
theorem fits_of_byLength (he : IsRipInsn e info d0 d1 d2 d3)
    (hcode : copyOut code e.bytes.length = e.bytes) (hop : ByLength info.op)
    (hgs : readsGS e info = false) (h : Rewritten e info code) : Fits e info d0 d1 d2 d3 := by
  obtain ⟨b, hone⟩ := he.exists_one hop.ne_xadd
  have hshape := length_oneByte he hone
  by_cases hseven : e.bytes.length = 7
  · by_cases hrex : ∀ r, isRex r = true → e.prefixes ≠ [r]
    · exact absurd h (not_rewritten_seven he hcode hop hone hgs hseven hrex)
    · push Not at hrex
      obtain ⟨r, hr, hps⟩ := hrex
      rw [hps, List.length_singleton] at hshape
      have himm : e.imm = [] := List.length_eq_zero_iff.1 (by omega)
      exact .rex hop hgs r hr hps himm ((rewritten_rex he hcode hop hone hgs hr hps himm).1 h)
  · by_cases hsix : e.bytes.length = 6
    · have hps : e.prefixes = [] := List.length_eq_zero_iff.1 (by omega)
      have himm : e.imm = [] := List.length_eq_zero_iff.1 (by omega)
      obtain ⟨hreg, hdisp⟩ := (rewritten_bare he hcode hop hone hgs hps himm).1 h
      exact .bare hop hgs hps himm hreg hdisp
    · refine absurd h (not_rewritten_of_none ?_)
      rw [hgs, rewRIPInsn_byLength hop, if_neg hseven, if_neg hsix]

/-- The same of those that read `gs`. -/
theorem fits_of_byLength_gs (he : IsRipInsn e info d0 d1 d2 d3)
    (hcode : copyOut code e.bytes.length = e.bytes) (hop : ByLength info.op)
    (hgs : readsGS e info = true) (h : Rewritten e info code) : Fits e info d0 d1 d2 d3 := by
  obtain ⟨b, hone⟩ := he.exists_one hop.ne_xadd
  have hshape := length_oneByte he hone
  by_cases hmov : info.op = .mov ∨ info.op = .add
  -- The code knows two lengths. Each of them means one or two prefixes, and no immediate.
  · by_cases hseven : e.bytes.length = 7
    · rcases hprefixes : e.prefixes with - | ⟨p, ps⟩
      · -- an immediate, so the prefix of `gs`
        rw [hprefixes, List.length_nil] at hshape
        have hkind := he.regKind hone (List.ne_nil_of_length_pos (by omega))
        have hseg := seg_of_readsGS hgs (by rw [hkind]; decide)
        rw [Encoding.state, hprefixes] at hseg
        exact absurd hseg (by decide)
      · rw [hprefixes, List.length_cons] at hshape
        obtain rfl : ps = [] := List.length_eq_zero_iff.1 (by omega)
        have himm : e.imm = [] := List.length_eq_zero_iff.1 (by omega)
        obtain ⟨hreg, hdisp⟩ := (rewritten_gsBare he hcode hmov hone hgs hprefixes himm).1 h
        exact .gsBare hmov hgs p hprefixes himm hreg hdisp
    · by_cases height : e.bytes.length = 8
      · by_cases hrex : ∀ p r, isRex r = true → e.prefixes ≠ [p, r]
        · exact absurd h (not_rewritten_gsEight he hcode hmov hone hgs height hrex)
        · push Not at hrex
          obtain ⟨p, r, hr, hps⟩ := hrex
          rw [hps, List.length_cons, List.length_singleton] at hshape
          have himm : e.imm = [] := List.length_eq_zero_iff.1 (by omega)
          exact .gsRex hmov hgs p r hr hps himm
            ((rewritten_gsRex he hcode hmov hone hgs hr hps himm).1 h)
      · refine absurd h (not_rewritten_of_none ?_)
        rw [hgs, rewRIPInsn_byLength_gs hop, if_pos hmov, if_neg hseven, if_neg height]
  · refine absurd h (not_rewritten_of_none ?_)
    rw [hgs, rewRIPInsn_byLength_gs hop, if_neg hmov]

/-- The lengths that an immediate can have. -/
theorem immLength_cases (info : OpInfo) (p : Prefixes) :
    info.immLength p = 0 ∨ info.immLength p = 1 ∨ info.immLength p = 2 ∨ info.immLength p = 4 := by
  rw [OpInfo.immLength]
  split
  · exact Or.inl rfl
  · exact Or.inr (Or.inl rfl)
  · split
    · exact Or.inr (Or.inr (Or.inl rfl))
    · exact Or.inr (Or.inr (Or.inr rfl))

/-- An `and` that is rewritten has the layout that its branch expects. -/
theorem fits_of_and (he : IsRipInsn e info d0 d1 d2 d3)
    (hcode : copyOut code e.bytes.length = e.bytes) (hop : info.op = .and)
    (h : Rewritten e info code) : Fits e info d0 d1 d2 d3 := by
  obtain ⟨b, hone⟩ := he.exists_one (by rw [hop]; decide)
  have hshape := length_oneByte he hone
  by_cases hgs : readsGS e info = true ∧ e.bytes.length = 11
  · obtain ⟨hgs, hlen⟩ := hgs
    have hknown := he.valid.known
    rw [hone] at hknown
    have hseg := seg_of_readsGS hgs fun hkind =>
      absurd (hop.symm.trans (op_of_segment hknown hkind)) (by decide)
    rw [Encoding.state] at hseg
    have himm := immLength_cases info e.state
    rw [← he.valid.imm] at himm
    -- The eleven bytes leave room for one prefix and four bytes of an immediate, or for three
    -- prefixes and one.
    rcases hprefixes : e.prefixes with - | ⟨p, - | ⟨q, - | ⟨r, ps⟩⟩⟩
    · rw [hprefixes] at hseg
      exact absurd hseg (by decide)
    · rw [hprefixes] at hseg hshape
      obtain rfl := (Prefixes.seg_add hseg).resolve_right (by decide)
      have hfour : e.imm.length = 4 := by
        rw [List.length_singleton] at hshape
        omega
      exact .gsAnd hop hprefixes hfour ((rewritten_gsAnd he hcode hop hone hprefixes hfour).1 h)
    · -- no immediate has three bytes
      rw [hprefixes, List.length_cons, List.length_singleton] at hshape
      omega
    · exact absurd h (not_rewritten_gsAnd he hcode hop hone hgs hlen hprefixes)
  · refine absurd h (not_rewritten_of_none ?_)
    rw [hop]
    exact if_neg hgs

/-- So has an `xadd`. The `REX` prefix that is put in must not take one over. -/
theorem fits_of_xadd (he : IsRipInsn e info d0 d1 d2 d3)
    (hcode : copyOut code e.bytes.length = e.bytes) (hop : info.op = .xadd)
    (h : Rewritten e info code) : Fits e info d0 d1 d2 d3 := by
  obtain ⟨b, htwo, himm⟩ := he.exists_two hop
  by_cases hlen : e.bytes.length = 8
  · obtain ⟨p, hps⟩ : ∃ p, e.prefixes = [p] := by
      rw [he.bytes_eq, htwo, himm] at hlen
      simp only [Opcode.bytes, List.length_append, List.length_cons, List.length_nil] at hlen
      exact List.length_eq_one_iff.1 (by omega)
    have hp : isPrefix p = true := he.valid.prefixes p (by rw [hps]; simp)
    cases hr : isRex p with
    | true =>
      obtain ⟨hR, hW, hdisp⟩ := (rewritten_xaddRex he hcode hop htwo hr hps himm).1 h
      exact .xaddRex hop p hr hps hR hW hdisp
    | false =>
      have hlegacy : isLegacy p = true := by
        rw [isPrefix, hr] at hp
        exact hp
      obtain ⟨hreg, hdisp⟩ := (rewritten_xadd he hcode hop htwo hlegacy hps himm).1 h
      exact .xadd hop p hlegacy hps hreg hdisp
  · refine absurd h (not_rewritten_of_none ?_)
    rw [hop]
    exact if_neg hlen

/-- So has a `test`. -/
theorem fits_of_test (he : IsRipInsn e info d0 d1 d2 d3)
    (hcode : copyOut code e.bytes.length = e.bytes) (hop : info.op = .test)
    (h : Rewritten e info code) : Fits e info d0 d1 d2 d3 := by
  obtain ⟨b, hone⟩ := he.exists_one (by rw [hop]; decide)
  by_cases hps : e.prefixes = []
  · obtain ⟨i, himm, hdisp⟩ := (rewritten_test he hcode hop hone hps).1 h
    exact .test hop hps i himm hdisp
  · exact absurd h (not_rewritten_test he hcode hop hone hps)

/-- An instruction with an operand relative to `rip` is rewritten right exactly when it has
one of the layouts, and what the layout takes from the bytes keeps its meaning. The code
tells the layouts apart by the length of the instruction alone, so that any other prefix or
immediate of that length is taken for the one it expects. One direction is the lemma of each
layout; the other goes through the lengths. -/
theorem rewritten_iff (he : IsRipInsn e info d0 d1 d2 d3)
    (hcode : copyOut code e.bytes.length = e.bytes) :
    Rewritten e info code ↔ Fits e info d0 d1 d2 d3 := by
  constructor
  · intro h
    by_cases hop : ByLength info.op
    · cases hgs : readsGS e info with
      | false => exact fits_of_byLength he hcode hop hgs h
      | true => exact fits_of_byLength_gs he hcode hop hgs h
    · cases ho : info.op with
      | and => exact fits_of_and he hcode ho h
      | xadd => exact fits_of_xadd he hcode ho h
      | test => exact fits_of_test he hcode ho h
      | mov | cmp | lea | add | sub =>
        rw [ho] at hop
        exact absurd trivial hop
  · exact fun h => h.rewritten he hcode

end Fits

/-! ## Two moves -/

/-- `mov rax, [rip + n]`. -/
def movRaxRip (n : Byte) : Encoding := ⟨[0x48], .one 0x8b, 0, .rip [n, 0, 0, 0], []⟩

/-- What the opcode of `mov` stands for that loads a register from memory. -/
def movInfo : OpInfo := ⟨.mov, false, true, .general, .none⟩

/-- `mov rax, [rip + n]` is one of the instructions. -/
theorem isRipInsn_movRaxRip (n : Byte) : IsRipInsn (movRaxRip n) movInfo n 0 0 0 where
  valid := ⟨show ∀ b ∈ [0x48], isPrefix b = true by decide, rfl, show 0 < 8 by omega, rfl, rfl⟩
  addr := rfl
  others := show some (RegOperand.general 0) ≠ some (.general 15) by decide
  short := show 7 ≤ 15 by omega

/-- `mov rax, [rip + 0x10]` gets a displacement of one byte. The sign of `0x10` is that of
the four bytes it came from. -/
theorem rewritten_movRaxRip :
    Rewritten (movRaxRip 0x10) movInfo (fun i => (movRaxRip 0x10).bytes.getD i 0) :=
  (rewritten_iff (isRipInsn_movRaxRip 0x10) (by decide)).2
    (.rex trivial rfl 0x48 (by decide) rfl rfl fun _ _ _ => by decide)

/-- So does `mov rax, [rip + 0x80]`, which is then `mov rax, [r15 - 0x80]`. The byte `0x80`
alone is negative, and the code looks only at the bytes behind it. -/
theorem not_rewritten_movRaxRip : ∃ out,
    IsRipInsn (movRaxRip 0x80) movInfo 0x80 0 0 0 ∧
    rewRIPInsn (entryID movInfo.op) (movRaxRip 0x80).bytes.length (readsGS (movRaxRip 0x80) movInfo)
      (fun i => (movRaxRip 0x80).bytes.getD i 0) = some out ∧
    decode out ≠ some (onR15 ((movRaxRip 0x80).insn movInfo)) :=
  ⟨[0x49, 0x8b, 0x47, 0x80], isRipInsn_movRaxRip 0x80, by decide, by decide⟩

end KRover
