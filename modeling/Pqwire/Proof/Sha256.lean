import Pqwire.Spec.Sha256

/-!
# The hash against the standard

`Buffered` is the invariant of a hash context: the message so far is `full`, whole blocks that
have been transformed, and `part`, which is at the front of the block. A byte keeps it
(`updateByte_buffered`), so any split of a message does, and `sha256_final` closes it.

* `sha256_streaming`: the state is the fold of `sha256_transform` over the padded message.
* `sha256_deviates`: padding, rounds and output are those of the standard; the message schedule
  is not, in any block of any message.
-/

namespace Pqwire

open ByteMem Fips180

/-! ## Blocks in memory -/

namespace Block

/-- The byte behind a known front. -/
theorem set_front {d : Block} {p : Bytes} (h : p <+: d.1) (hp : p.length < 64) (b : UInt8) :
    p ++ [b] <+: (d.set p.length b).1 := by
  obtain ⟨t, ht⟩ := h
  have hl : p.length + t.length = 64 := by rw [← List.length_append, ht, d.2]
  obtain ⟨x, t, rfl⟩ := List.exists_cons_of_length_pos (show 0 < t.length by omega)
  refine ⟨t, ?_⟩
  show p ++ [b] ++ t = d.1.set p.length b
  rw [← ht, List.set_append_right _ _ le_rfl, Nat.sub_self, List.set_cons_zero, List.append_assoc]
  rfl

theorem zero_succ (d : Block) {i n : ℕ} (h : i < n) : d.zero i n = (d.set i 0).zero (i + 1) n := by
  unfold zero
  obtain ⟨m, hm⟩ : ∃ m, n - i = m + 1 := ⟨n - i - 1, by omega⟩
  rw [hm, show n - (i + 1) = m by omega, List.range'_succ, List.foldl_cons]

/-- Zeros behind a known front. -/
theorem zero_front {d : Block} {p : Bytes} (h : p <+: d.1) {n : ℕ} (hn : p.length ≤ n) (h64 : n ≤ 64) :
    p ++ List.replicate (n - p.length) 0 <+: (d.zero p.length n).1 := by
  obtain ⟨m, rfl⟩ := Nat.exists_eq_add_of_le hn
  induction m generalizing d p with
  | zero =>
    rw [Nat.add_zero, Nat.sub_self, List.replicate_zero, List.append_nil]
    unfold zero
    rw [Nat.sub_self]
    exact h
  | succ m ih =>
    have hlen : (p ++ [0]).length = p.length + 1 := List.length_append
    have hstep := ih (set_front h (by omega) 0) (by rw [hlen]; omega) (by rw [hlen]; omega)
    rw [hlen, Nat.add_sub_cancel_left, show p.length + 1 + m = p.length + (m + 1) by omega] at hstep
    rw [zero_succ d (show p.length < p.length + (m + 1) by omega), Nat.add_sub_cancel_left, List.replicate_succ]
    rw [List.append_assoc] at hstep
    exact hstep

/-- A front of 64 bytes is the whole block. -/
theorem eq_of_front {d : Block} {p : Bytes} (h : p <+: d.1) (hp : p.length = 64) : d.1 = p :=
  (h.eq_of_length (hp.trans d.2.symm)).symm

end Block

theorem eight_bytes {t : Bytes} (h : t.length = 8) : ∃ t0 t1 t2 t3 t4 t5 t6 t7, t = [t0, t1, t2, t3, t4, t5, t6, t7] := by
  refine ⟨t[0], t[1], t[2], t[3], t[4], t[5], t[6], t[7], List.ext_getElem h ?_⟩
  intro i hi _
  rw [h] at hi
  interval_cases i <;> rfl

/-- The length field is stored behind the front of 56 bytes. -/
theorem storeBitlen_eq {d : Block} {p : Bytes} (h : p <+: d.1) (hp : p.length = 56) (bitlen : UInt64) :
    (storeBitlen d bitlen).1 = p ++ wr64Be bitlen.toNat := by
  obtain ⟨t, ht⟩ := h
  have hl : t.length = 8 := by
    have := d.2
    rw [← ht, List.length_append] at this
    omega
  have hbytes : wr64Be bitlen.toNat = [(bitlen >>> 56).toUInt8, (bitlen >>> 48).toUInt8, (bitlen >>> 40).toUInt8,
      (bitlen >>> 32).toUInt8, (bitlen >>> 24).toUInt8, (bitlen >>> 16).toUInt8, (bitlen >>> 8).toUInt8,
      bitlen.toUInt8] := by
    simp only [wr64Be, wr32Be, List.cons_append, List.nil_append, List.cons.injEq, and_true]
    refine ⟨?_, ?_, ?_, ?_, ?_, ?_, ?_, ?_⟩ <;> apply UInt8.toNat_inj.1 <;>
      simp [UInt64.toNat_toUInt8, UInt64.toNat_shiftRight, Nat.shiftRight_eq_div_pow] <;> omega
  obtain ⟨t0, t1, t2, t3, t4, t5, t6, t7, rfl⟩ := eight_bytes hl
  simp only [storeBitlen, Block.set, ← ht]
  rw [hbytes]
  simp [hp]

/-! ## Streaming -/

/-- The message so far: `full` has been transformed, `part` is in the block. -/
structure Buffered (c : Sha256Ctx) (start : Words) (full part : Bytes) : Prop where
  whole : 64 ∣ full.length
  short : part.length < 64
  len : c.datalen = part.length
  front : part <+: c.data.1
  bits : c.bitlen = UInt64.ofNat (8 * full.length)
  state : c.state = (blocks full).foldl sha256Transform start

theorem sha256Init_buffered (c : Sha256Ctx) : Buffered (sha256Init c) (sha256Init c).state [] [] :=
  ⟨by simp, by simp, rfl, List.nil_prefix, rfl, rfl⟩

/-- **A byte goes to the block, and a full block is transformed.** -/
theorem updateByte_buffered {c : Sha256Ctx} {start : Words} {full part : Bytes} (h : Buffered c start full part)
    (b : UInt8) : ∃ full' part', full' ++ part' = full ++ part ++ [b] ∧ Buffered (updateByte c b) start full' part' := by
  have hfront := Block.set_front h.front h.short b
  have hlen : (part ++ [b]).length = part.length + 1 := List.length_append
  unfold updateByte
  dsimp only
  rw [h.len]
  split
  · rename_i h64
    have hblock : (c.data.set part.length b).1 = part ++ [b] := Block.eq_of_front hfront (by rw [hlen, h64])
    have hwhole : (full ++ (part ++ [b])).length = full.length + 64 := by rw [List.length_append, hlen, h64]
    refine ⟨full ++ (part ++ [b]), [], by rw [List.append_nil, List.append_assoc], ?_, by simp, rfl, List.nil_prefix, ?_, ?_⟩
    · rw [hwhole]
      exact (Nat.dvd_add_right h.whole).2 (dvd_refl 64)
    · rw [hwhole, Nat.mul_add, UInt64.ofNat_add, ← h.bits]
      rfl
    · rw [blocks_append h.whole, List.foldl_append, ← h.state, blocks_one (hlen.trans h64), hblock]
      rfl
  · rename_i h64
    have := h.short
    exact ⟨full, part ++ [b], (List.append_assoc _ _ _).symm, h.whole, by omega, hlen.symm, hfront, h.bits, h.state⟩

/-- **A call of `sha256_update` appends to the message.** -/
theorem sha256Update_buffered {c : Sha256Ctx} {start : Words} {full part : Bytes} (h : Buffered c start full part)
    (data : Bytes) : ∃ full' part', full' ++ part' = full ++ part ++ data ∧
      Buffered (sha256Update c data) start full' part' := by
  induction data generalizing c full part with
  | nil => exact ⟨full, part, (List.append_nil _).symm, h⟩
  | cons b data ih =>
    obtain ⟨full₁, part₁, heq₁, h₁⟩ := updateByte_buffered h b
    obtain ⟨full₂, part₂, heq₂, h₂⟩ := ih h₁
    refine ⟨full₂, part₂, ?_, h₂⟩
    rw [heq₂, heq₁, List.append_assoc, List.singleton_append]

/-- Any split of a message over calls. -/
theorem sha256Updates_buffered {c : Sha256Ctx} {start : Words} {full part : Bytes} (h : Buffered c start full part)
    (parts : List Bytes) : ∃ full' part', full' ++ part' = full ++ part ++ parts.flatten ∧
      Buffered (parts.foldl sha256Update c) start full' part' := by
  induction parts generalizing c full part with
  | nil => exact ⟨full, part, by rw [List.flatten_nil, List.append_nil], h⟩
  | cons data parts ih =>
    obtain ⟨full₁, part₁, heq₁, h₁⟩ := sha256Update_buffered h data
    obtain ⟨full₂, part₂, heq₂, h₂⟩ := ih h₁
    refine ⟨full₂, part₂, ?_, h₂⟩
    rw [heq₂, heq₁, List.append_assoc, List.flatten_cons]

/-! ## Padding -/

theorem padBlock_short {c : Sha256Ctx} {start : Words} {full part : Bytes} (h : Buffered c start full part)
    (hp : part.length < 56) :
    part ++ 0x80 :: List.replicate (55 - part.length) 0 <+: (padBlock c).data.1 ∧ (padBlock c).state = c.state := by
  have hlen : (part ++ [0x80]).length = part.length + 1 := List.length_append
  have hzero := Block.zero_front (Block.set_front h.front h.short 0x80) (n := 56) (by omega) (by omega)
  rw [hlen, List.append_assoc, show 56 - (part.length + 1) = 55 - part.length by omega] at hzero
  unfold padBlock
  rw [h.len, if_pos hp]
  exact ⟨hzero, rfl⟩

theorem padBlock_long {c : Sha256Ctx} {start : Words} {full part : Bytes} (h : Buffered c start full part)
    (hp : ¬part.length < 56) :
    List.replicate 56 0 <+: (padBlock c).data.1 ∧
      (padBlock c).state = sha256Transform c.state (part ++ 0x80 :: List.replicate (63 - part.length) 0) := by
  have hshort := h.short
  have hlen : (part ++ [0x80]).length = part.length + 1 := List.length_append
  have hzero := Block.zero_front (Block.set_front h.front h.short 0x80) (n := 64) (by omega) (by omega)
  rw [hlen, List.append_assoc, show 64 - (part.length + 1) = 63 - part.length by omega] at hzero
  have hblock := Block.eq_of_front hzero (by simp; omega)
  unfold padBlock
  rw [h.len, if_neg hp]
  refine ⟨?_, congrArg (sha256Transform c.state) hblock⟩
  exact Block.zero_front (p := []) List.nil_prefix (n := 56) (by simp) (by omega)

/-- The bit counter at the end. -/
theorem Buffered.bitlen {c : Sha256Ctx} {start : Words} {full part : Bytes} (h : Buffered c start full part) :
    wr64Be (c.bitlen + UInt64.ofNat (c.datalen * 8)).toNat = wr64Be (8 * (full ++ part).length) := by
  rw [h.bits, h.len, ← UInt64.ofNat_add, UInt64.toNat_ofNat', wr64Be_mod, List.length_append]
  congr 1
  omega

/-- **What `sha256_final` leaves.** -/
theorem sha256Final_state {c : Sha256Ctx} {start : Words} {full part : Bytes} (h : Buffered c start full part) :
    (sha256Final c).1.state = (blocks (pad (full ++ part))).foldl sha256Transform start := by
  have hshort := h.short
  have hbits := h.bitlen
  have hlen : (full ++ part).length % 64 = part.length := by
    have := h.whole
    rw [List.length_append]
    omega
  have hkeep : (padBlock c).bitlen = c.bitlen ∧ (padBlock c).datalen = c.datalen := by
    unfold padBlock
    dsimp only
    split
    · exact ⟨rfl, rfl⟩
    · exact ⟨rfl, rfl⟩
  have hfinal : (sha256Final c).1.state = sha256Transform (padBlock c).state
      (storeBitlen (padBlock c).data (c.bitlen + UInt64.ofNat (c.datalen * 8))).1 := by
    rw [← hkeep.1, ← hkeep.2]
    rfl
  set L := wr64Be (8 * (full ++ part).length)
  have hpad : pad (full ++ part) = full ++ (part ++ 0x80 :: List.replicate (padZeros (full ++ part).length) 0 ++ L) := by
    simp only [pad, L, List.append_assoc]
  rw [hfinal, hpad, blocks_append h.whole, List.foldl_append, ← h.state]
  unfold padZeros
  rw [hlen]
  by_cases hp : part.length < 56
  · -- the length field has room in the block
    obtain ⟨hfront, hstate⟩ := padBlock_short h hp
    rw [storeBitlen_eq hfront (by simp; omega), hbits, hstate, show (119 - part.length) % 64 = 55 - part.length by omega,
      blocks_one (by simp [L]; omega)]
    rfl
  · -- the zeros run on into a block of their own
    obtain ⟨hfront, hstate⟩ := padBlock_long h hp
    have hzeros : List.replicate ((119 - part.length) % 64) (0 : UInt8) =
        List.replicate (63 - part.length) 0 ++ List.replicate 56 0 := by
      rw [← List.replicate_add]
      congr 1
      omega
    have htwo : part ++ 0x80 :: List.replicate ((119 - part.length) % 64) 0 ++ L =
        (part ++ 0x80 :: List.replicate (63 - part.length) 0) ++ (List.replicate 56 0 ++ L) := by
      rw [hzeros]
      simp only [List.append_assoc, List.cons_append]
    rw [storeBitlen_eq hfront (by simp), hbits, hstate, htwo]
    have hone : (part ++ 0x80 :: List.replicate (63 - part.length) (0 : UInt8)).length = 64 := by
      simp only [List.length_append, List.length_cons, List.length_replicate]
      omega
    rw [blocks_append (by rw [hone]), blocks_one hone, blocks_one (by simp [L])]
    rfl

/-- **Streaming and padding.** However a message is split over calls of `sha256_update`, and
whatever the context held before `sha256_init`, the state that `sha256_final` reaches is the fold
of `sha256_transform` over the blocks of the padded message, whose zeros are the least number
that makes up whole blocks. From 2^61 bytes on, the length field is the length modulo 2^64. -/
theorem sha256_streaming (c : Sha256Ctx) (parts : List Bytes) :
    IsLeast {z | 64 ∣ parts.flatten.length + 1 + z + 8} (padZeros parts.flatten.length) ∧
      (sha256Final (parts.foldl sha256Update (sha256Init c))).1.state =
        (blocks (parts.flatten ++ 0x80 :: List.replicate (padZeros parts.flatten.length) 0 ++
          wr64Be (8 * parts.flatten.length))).foldl sha256Transform (sha256Init c).state := by
  refine ⟨padZeros_isLeast _, ?_⟩
  obtain ⟨full, part, heq, h⟩ := sha256Updates_buffered (sha256Init_buffered c) parts
  rw [List.append_nil, List.nil_append] at heq
  rw [sha256Final_state h, heq, pad]

/-! ## The stages of the standard -/

/-- A word of a block is read most significant byte first. -/
theorem loadWord_eq (data : Bytes) (j : ℕ) : loadWord data j = UInt32.ofNat (rd32Be data j) := by
  have h0 := byteAt_lt data j
  have h1 := byteAt_lt data (j + 1)
  have h2 := byteAt_lt data (j + 2)
  have h3 := byteAt_lt data (j + 3)
  have e2 := Nat.two_pow_add_eq_or_of_lt (i := 8) h3 (byteAt data (j + 2))
  have e1 := Nat.two_pow_add_eq_or_of_lt (i := 16) (b := 2 ^ 8 * byteAt data (j + 2) + byteAt data (j + 3)) (by omega)
    (byteAt data (j + 1))
  have e0 := Nat.two_pow_add_eq_or_of_lt (i := 24)
    (b := 2 ^ 16 * byteAt data (j + 1) + (2 ^ 8 * byteAt data (j + 2) + byteAt data (j + 3))) (by omega) (byteAt data j)
  have hsum : rd32Be data j = 2 ^ 24 * byteAt data j |||
      (2 ^ 16 * byteAt data (j + 1) ||| (2 ^ 8 * byteAt data (j + 2) ||| byteAt data (j + 3))) := by
    rw [← e2, ← e1, ← e0, rd32Be]
    omega
  have hshift : ∀ i n : ℕ, n ≤ 24 → ((data.getD i 0).toUInt32 <<< UInt32.ofNat n).toNat = 2 ^ n * byteAt data i := by
    intro i n hn
    have hn' : (UInt32.ofNat n).toNat % 32 = n := by
      rw [UInt32.toNat_ofNat']
      omega
    rw [UInt32.toNat_shiftLeft, hn', UInt8.toNat_toUInt32, Nat.shiftLeft_eq, Nat.mul_comm]
    refine Nat.mod_eq_of_lt ?_
    calc 2 ^ n * byteAt data i ≤ 2 ^ 24 * byteAt data i := Nat.mul_le_mul_right _ (Nat.pow_le_pow_right (by omega) hn)
      _ < 2 ^ 32 := by have := byteAt_lt data i; omega
  apply UInt32.toNat_inj.1
  rw [UInt32.toNat_ofNat', Nat.mod_eq_of_lt (rd32Be_lt data j), hsum]
  simp only [loadWord, UInt32.toNat_or, Nat.or_assoc]
  rw [← hshift j 24 (by omega), ← hshift (j + 1) 16 (by omega), ← hshift (j + 2) 8 (by omega)]
  rfl

theorem blockWords_eq (block : Bytes) : ((List.range 16).map fun i => loadWord block (4 * i)) = blockWords block :=
  List.map_congr_left fun i _ => loadWord_eq block (4 * i)

/-- The table is that of the standard. -/
theorem k_eq : k = roundConstants := by decide +kernel

theorem init_eq (c : Sha256Ctx) : (sha256Init c).state = initial := by
  show (⟨0x6a09e667, 0xbb67ae85, 0x3c6ef372, 0xa54ff53a, 0x510e527f, 0x9b05688c, 0x1f83d9ab, 0x5be0cd19⟩ : Words) = initial
  decide +kernel

/-- A round is a round of the standard. -/
theorem transformRound_eq (m : List UInt32) (s : Words) (i : ℕ) :
    transformRound m s i = round s (k.getD i 0, m.getD i 0) := rfl

theorem transformRounds_eq {m : List UInt32} (hm : m.length = 64) {n : ℕ} (hn : n ≤ 64) (s : Words) :
    transformRounds m n s = rounds m n s := by
  have hk : k.length = 64 := rfl
  unfold transformRounds rounds
  rw [← k_eq]
  induction n with
  | zero => rfl
  | succ n ih =>
    have hget : (k.zip m)[n]? = some (k.getD n 0, m.getD n 0) := by
      rw [List.getElem?_zip_eq_some]
      simp only [List.getD_eq_getElem?_getD]
      rw [List.getElem?_eq_getElem (show n < k.length by omega), List.getElem?_eq_getElem (show n < m.length by omega)]
      exact ⟨rfl, rfl⟩
    rw [List.range_succ, List.foldl_append, ih (by omega), List.take_add_one, hget, List.foldl_append]
    rfl

theorem messageWords_length (block : Bytes) : (messageWords block).length = 64 := by
  rw [messageWords, blockWords_eq, extend_length, blockWords_length]

theorem sha256Transform_eq (s : Words) (block : Bytes) : sha256Transform s block = compress (messageWords block) s := by
  unfold compress
  rw [← transformRounds_eq (messageWords_length block) le_rfl]
  rfl

/-- The digest is stored most significant byte first. -/
theorem hashBytes_eq (s : Words) : hashBytes s = s.toBytes := by
  unfold hashBytes Words.toBytes
  refine List.flatMap_congr ?_
  intro w _
  show [_, _, _, _] = [_, _, _, _]
  simp only [List.cons.injEq, and_true]
  have hmask : ∀ n : ℕ, n % 256 &&& 255 = n % 256 := fun n =>
    (Nat.and_two_pow_sub_one_eq_mod (n % 256) 8).trans (Nat.mod_mod n 256)
  refine ⟨?_, ?_, ?_, ?_⟩ <;> apply UInt8.toNat_inj.1 <;>
    simp [UInt32.toNat_toUInt8, UInt32.toNat_shiftRight, Nat.shiftRight_eq_div_pow, hmask]

/-- The recurrence of the schedule has a term too many. -/
theorem scheduleWord_eq (m : List UInt32) : scheduleWord m = nextWord m + 0x741c := by
  have hcode : scheduleWord m = m.getD (m.length - 16) 0 + 0x741c + sigma0 (m.getD (m.length - 15) 0) +
      m.getD (m.length - 7) 0 + sigma1 (m.getD (m.length - 2) 0) := rfl
  rw [hcode, nextWord]
  ac_rfl

theorem messageWords_eq (block : Bytes) :
    messageWords block = extend (fun W => nextWord W + 0x741c) 48 (blockWords block) := by
  have hnext : scheduleWord = fun W => nextWord W + 0x741c := funext scheduleWord_eq
  rw [messageWords, blockWords_eq, hnext]

/-- Up to the seventeenth, all words are those of the standard; that one is not. -/
theorem messageWords_seventeen (block : Bytes) :
    (messageWords block).take 16 = (schedule block).take 16 ∧
      (messageWords block).getD 16 0 = (schedule block).getD 16 0 + 0x741c := by
  have hlen := blockWords_length block
  have hfirst : ∀ next : List Word → Word, (extend next 48 (blockWords block)).take 16 = blockWords block := by
    intro next
    rw [← hlen]
    exact (List.prefix_iff_eq_take.1 (extend_isPrefix 48 _)).symm
  have hnew : ∀ next : List Word → Word, (extend next 48 (blockWords block)).getD 16 0 = next (blockWords block) := by
    intro next
    have hword : (extend next 48 (blockWords block))[(blockWords block).length]? = some (next (blockWords block)) :=
      extend_getElem? 47 _
    rw [hlen] at hword
    rw [List.getD_eq_getElem?_getD, hword, Option.getD_some]
  rw [messageWords_eq, schedule, hfirst, hfirst, hnew, hnew]
  exact ⟨rfl, rfl⟩

/-- **The rounds leave the standard in every block**: sixteen of them agree, and behind the next
one the variable `a` is off. -/
theorem transformRounds_seventeen (block : Bytes) (s : Words) :
    (transformRounds (messageWords block) 17 s).a = (rounds (schedule block) 17 s).a + 0x741c := by
  obtain ⟨hfirst, hword⟩ := messageWords_seventeen block
  have hsch : (schedule block).length = 64 := by rw [schedule, extend_length, blockWords_length]
  rw [← transformRounds_eq hsch (by omega)]
  have hsame : transformRounds (messageWords block) 16 s = transformRounds (schedule block) 16 s := by
    rw [transformRounds_eq (messageWords_length block) (by omega), transformRounds_eq hsch (by omega)]
    unfold rounds
    simp only [List.zip, List.take_zipWith, hfirst]
  have hlast : ∀ m : List UInt32, transformRounds m 17 s = transformRound m (transformRounds m 16 s) 16 := by
    intro m
    unfold transformRounds
    rw [List.range_succ, List.foldl_append]
    rfl
  have hmove : ∀ x w t : UInt32, x + (w + 0x741c) + t = x + w + t + 0x741c := by
    intro x w t
    ac_rfl
  rw [hlast, hlast, hsame, transformRound_eq, transformRound_eq, hword]
  simp only [Fips180.round, hmove]

theorem blocks_pad_ne_nil (msg : Bytes) : blocks (pad msg) ≠ [] := by
  have hdvd : 64 ∣ msg.length + 1 + padZeros msg.length + 8 := (padZeros_isLeast msg.length).1
  have hlen : (pad msg).length = msg.length + 1 + padZeros msg.length + 8 := by
    simp only [pad, List.length_append, List.length_cons, List.length_replicate, wr64Be_length]
    omega
  unfold blocks
  rw [ne_eq, List.map_eq_nil_iff, List.range_eq_nil, hlen]
  omega

theorem sha256Final_hash (c : Sha256Ctx) : (sha256Final c).2 = hashBytes (sha256Final c).1.state := rfl

/-- The digest of the code, by the stages of the standard. -/
theorem sha256_eq (msg : Bytes) : sha256 msg = (hashUsing messageWords msg).toBytes := by
  obtain ⟨full, part, heq, h⟩ := sha256Update_buffered (sha256Init_buffered default) msg
  rw [List.append_nil, List.nil_append] at heq
  have hstate := sha256Final_state h
  rw [heq, init_eq] at hstate
  have hfold : sha256Transform = fun s block => compress (messageWords block) s := by
    funext s block
    exact sha256Transform_eq s block
  rw [sha256, sha256Final_hash, hashBytes_eq, hstate, hashUsing, hfold]

/-- **The hash is never computed as the standard says.** Constants, rounds, padding and output
are the standard's: the digest is what the standard computes from the schedule of the code. That
schedule has the term `0x741c` too many in its recurrence, so in every block of every message it
is another one, and the working variables leave the standard's behind the seventeenth round. -/
theorem sha256_deviates (msg : Bytes) :
    sha256 msg = (hashUsing messageWords msg).toBytes ∧
      (∀ block ∈ blocks (pad msg), messageWords block = extend (fun W => nextWord W + 0x741c) 48 (blockWords block) ∧
        messageWords block ≠ schedule block ∧
        ∀ s, transformRounds (messageWords block) 17 s ≠ rounds (schedule block) 17 s) ∧
      ¬AsSpecified msg := by
  have hne : ∀ w : UInt32, w + 0x741c ≠ w := by
    intro w h
    exact absurd (UInt32.add_eq_left.1 h) (by decide)
  have hsch : ∀ block, messageWords block ≠ schedule block := by
    intro block h
    have hword := (messageWords_seventeen block).2
    rw [h] at hword
    exact hne _ hword.symm
  refine ⟨sha256_eq msg, fun block _ => ⟨messageWords_eq block, hsch block, ?_⟩, ?_⟩
  · intro s h
    have ha := transformRounds_seventeen block s
    rw [h] at ha
    exact hne _ ha.symm
  · intro h
    obtain ⟨block, rest, hb⟩ := List.exists_cons_of_ne_nil (blocks_pad_ne_nil msg)
    exact hsch block (h.words block (by rw [hb]; exact List.mem_cons_self))

/-- The digest of the empty message. -/
theorem sha256_empty : sha256 [] ≠ Fips180.sha256 [] := by decide +kernel

end Pqwire
