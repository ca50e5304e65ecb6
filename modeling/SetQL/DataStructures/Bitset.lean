import SetQL.Base.Bytes
import SetQL.Base.SingleFloat

/-!
# Bitsets

`bitset.c`: a bitset is an array of 64-bit words, sized from a number of bits through `float`.
The operators allocate a result for as many bits as their operands have words.

## Main definitions

* `Bitset`, `Bitset.bit`: the words, and bit `i` of them
* `bitsetInitialize`, `bitsetComplement`, `bitsetUnion`, `bitsetIntersection`,
  `bitsetDifference`, `bitsetSymmetricDifference`, `bitsetSetBit`, `bitsetClearBit`
* `Bitset.Stable`: a number of words that survives its conversion to a number of bits and back

## Main results

* `bitsetComplement_eq_ok`, `bitsetZip_eq_ok`: the operators return on stable bitsets
* `bit_complement`, `bit_zip`: and act bit by bit
* `bitsetSetBit_eq_ok`, `bitsetClearBit_eq_ok`: a bit within the words is set or cleared alone
-/

namespace SetQL

/-- A 64-bit word. -/
abbrev Word := BitVec 64

/-- An array of words; `integer_count` is its length. -/
structure Bitset where
  bits : List Word
  deriving DecidableEq, Repr

/-- `INTEGER_BIT_SIZE`. -/
def integerBitSize : ℕ := 64

/-- An unsigned number passed as an `int`: its low 32 bits in two's complement. -/
def toInt (n : ℕ) : ℤ :=
  if n % 2 ^ 32 < 2 ^ 31 then (n % 2 ^ 32 : ℕ) else (n % 2 ^ 32 : ℕ) - 2 ^ 32

namespace Bitset

/-- The number of words. -/
def integerCount (b : Bitset) : ℕ := b.bits.length

/-- Bit `i`, absent past the last word. -/
def bit (b : Bitset) (i : ℕ) : Bool := (b.bits.getD (i / 64) 0).getLsbD (i % 64)

/-- A number of words that is computed again from its number of bits. -/
def Stable (n : ℕ) : Prop := 64 * n < 2 ^ 31 ∧ ceilDivSingle (64 * n) 64 = n

end Bitset

/-- `ceil((float)size / 64.0f)` words are allocated; the allocation of a negative size fails. -/
def allocWords (size : ℤ) : C ℕ :=
  if 0 ≤ size then .ok (ceilDivSingle size.toNat integerBitSize) else .error .nullDeref

/-- A bitset of `size` bits, with every byte set to the default value. -/
def bitsetInitialize (size : ℤ) (defaultValue : UInt8) : C Bitset := do
  let n ← allocWords size
  return ⟨List.replicate n (defaultValue.toBitVec.replicate 8)⟩

/-- The words written into a fresh block of `n` words. A block with words left unwritten is not
a value. -/
def fillWords (n : ℕ) (ws : List Word) : C Bitset :=
  if n = ws.length then .ok ⟨ws⟩ else if n < ws.length then .error .outOfBounds
  else .error .undefined

/-- The complement, word by word. -/
def bitsetComplement (b : Bitset) : C Bitset := do
  let n ← allocWords (toInt (b.integerCount * integerBitSize))
  fillWords n (b.bits.map (~~~ ·))

/-- The loop shared by the binary operators: the words of the shorter operand are combined with
those of the other. -/
def bitsetZip (f : Word → Word → Word) (b1 b2 : Bitset) : C Bitset := do
  let size := if b1.integerCount > b2.integerCount then b2.integerCount else b1.integerCount
  let n ← allocWords (toInt (size * integerBitSize))
  fillWords n (List.zipWith f b1.bits b2.bits)

/-- The intersection, word by word. -/
def bitsetIntersection : Bitset → Bitset → C Bitset := bitsetZip (· &&& ·)

/-- The union, word by word. -/
def bitsetUnion : Bitset → Bitset → C Bitset := bitsetZip (· ||| ·)

/-- The difference, word by word. -/
def bitsetDifference : Bitset → Bitset → C Bitset := bitsetZip fun w1 w2 => w1 &&& ~~~w2

/-- The symmetric difference, word by word. -/
def bitsetSymmetricDifference : Bitset → Bitset → C Bitset := bitsetZip (· ^^^ ·)

/-- The bitset with the word of one bit changed. -/
def bitsetUpdateBit (f : Word → Word → Word) (b : Bitset) (bit : ℕ) : C Bitset := do
  let i := bit / integerBitSize
  let bitPlacement := bit % integerBitSize
  let w ← fetch b.bits i
  let bits ← store b.bits i (f w (1#64 <<< bitPlacement))
  return ⟨bits⟩

/-- The bitset with one bit set. -/
def bitsetSetBit : Bitset → ℕ → C Bitset := bitsetUpdateBit fun w mask => w ||| mask

/-- The bitset with one bit cleared. -/
def bitsetClearBit : Bitset → ℕ → C Bitset := bitsetUpdateBit fun w mask => w &&& ~~~mask

namespace Bitset

variable {b b1 b2 c : Bitset} {i k n : ℕ}

/-! ## Allocation -/

theorem toInt_of_lt (h : n < 2 ^ 31) : toInt n = n := by
  have hmod : n % 2 ^ 32 = n := Nat.mod_eq_of_lt (h.trans (by decide))
  rw [toInt, hmod, if_pos h]

/-- The words of a size up to `2 ^ 31 - 2 ^ 20` are stable. -/
theorem stable_ceilDivSingle {size : ℕ} (h : size ≤ 2 ^ 31 - 2 ^ 20) :
    Stable (ceilDivSingle size 64) := by
  refine ⟨?_, by simpa using ceilDivSingle_mul size 6⟩
  have hround : roundSingle size ≤ size + 128 := by
    by_cases hs : size ≤ 2 ^ 24
    · rw [roundSingle_of_le hs]
      exact Nat.le_add_right _ _
    · have h₁ := ulp_mul_le (Nat.le_of_not_le hs)
      have h₂ := (roundSingle_error size).2
      norm_num at h h₁
      omega
  have hdiv := Nat.div_mul_le_self (roundSingle size + (64 - 1)) 64
  unfold ceilDivSingle
  norm_num at h hdiv ⊢
  omega

theorem allocWords_of_stable (h : Stable n) : allocWords (toInt (n * integerBitSize)) = .ok n := by
  have hsize : n * integerBitSize = 64 * n := Nat.mul_comm _ _
  rw [hsize, toInt_of_lt h.1, allocWords, if_pos (Int.natCast_nonneg _), Int.toNat_natCast,
    integerBitSize, h.2]

theorem bit_eq (b : Bitset) (i : ℕ) : b.bit i = (b.bits[i / 64]?.getD 0).getLsbD (i % 64) := by
  rw [bit, List.getD_eq_getElem?_getD]

/-- There are no bits past the last word. -/
theorem bit_of_le (h : 64 * b.integerCount ≤ i) : b.bit i = false := by
  have hi : b.bits.length ≤ i / 64 := by
    rw [integerCount] at h
    omega
  rw [bit_eq, List.getElem?_eq_none hi]
  simp

theorem bit_of_lt (h : i < 64 * b.integerCount) :
    ∃ h' : i / 64 < b.bits.length, b.bit i = (b.bits[i / 64]).getLsbD (i % 64) := by
  have hi : i / 64 < b.bits.length := by
    rw [integerCount] at h
    omega
  exact ⟨hi, by rw [bit_eq, List.getElem?_eq_getElem hi, Option.getD_some]⟩

/-- Bitsets with the same bits are equal. -/
theorem ext_bit {b' : Bitset} (hcount : b.integerCount = b'.integerCount)
    (hbit : ∀ i < 64 * b.integerCount, b.bit i = b'.bit i) : b = b' := by
  obtain ⟨bits⟩ := b
  obtain ⟨bits'⟩ := b'
  refine congrArg Bitset.mk (List.ext_getElem hcount fun w hw hw' => ?_)
  refine BitVec.eq_of_getLsbD_eq fun j hj => ?_
  have hlt : 64 * w + j < 64 * bits.length := by omega
  have hword := hbit (64 * w + j) hlt
  rw [bit, bit, show (64 * w + j) / 64 = w by omega, show (64 * w + j) % 64 = j by omega] at hword
  simpa [hw, hw'] using hword


/-! ## Operators -/

/-- The complement returns on a stable bitset. -/
theorem bitsetComplement_eq_ok (h : Stable b.integerCount) :
    bitsetComplement b = .ok ⟨b.bits.map (~~~ ·)⟩ := by
  rw [bitsetComplement, allocWords_of_stable h, ok_bind, fillWords, List.length_map]
  exact if_pos rfl

/-- A binary operator returns where the length of the shorter operand is stable. -/
theorem bitsetZip_of_stable (f : Word → Word → Word)
    (h : Stable (min b1.integerCount b2.integerCount)) :
    bitsetZip f b1 b2 = .ok ⟨List.zipWith f b1.bits b2.bits⟩ := by
  have hsize : (if b1.integerCount > b2.integerCount then b2.integerCount else b1.integerCount) =
      min b1.integerCount b2.integerCount := by
    split
    · rename_i hgt
      exact (min_eq_right hgt.le).symm
    · rename_i hle
      exact (min_eq_left (Nat.le_of_not_gt hle)).symm
  have hzip : (List.zipWith f b1.bits b2.bits).length = min b1.integerCount b2.integerCount :=
    List.length_zipWith
  rw [bitsetZip, hsize, allocWords_of_stable h, ok_bind, fillWords, hzip]
  exact if_pos rfl

/-- A binary operator returns on stable bitsets of one length. -/
theorem bitsetZip_eq_ok (f : Word → Word → Word) (h : Stable b1.integerCount)
    (hlen : b2.integerCount = b1.integerCount) :
    bitsetZip f b1 b2 = .ok ⟨List.zipWith f b1.bits b2.bits⟩ :=
  bitsetZip_of_stable f (by rwa [hlen, min_self])

theorem bit_complement (h : i < 64 * b.integerCount) :
    (⟨b.bits.map (~~~ ·)⟩ : Bitset).bit i = !b.bit i := by
  obtain ⟨hi, hb⟩ := bit_of_lt h
  rw [hb, bit_eq, List.getElem?_map, List.getElem?_eq_getElem hi]
  simp [Nat.mod_lt]

/-- A binary operator acts bit by bit as the Boolean operator of its words, up to the end of the
shorter operand. -/
theorem bit_zipWith {f : Word → Word → Word} {g : Bool → Bool → Bool}
    (hf : ∀ (w1 w2 : Word) (j : ℕ), j < 64 → (f w1 w2).getLsbD j = g (w1.getLsbD j) (w2.getLsbD j))
    (h : i < 64 * min b1.integerCount b2.integerCount) :
    (⟨List.zipWith f b1.bits b2.bits⟩ : Bitset).bit i = g (b1.bit i) (b2.bit i) := by
  obtain ⟨h1, hb1⟩ := bit_of_lt (h.trans_le (Nat.mul_le_mul_left 64 (min_le_left _ _)))
  obtain ⟨h2, hb2⟩ := bit_of_lt (h.trans_le (Nat.mul_le_mul_left 64 (min_le_right _ _)))
  rw [hb1, hb2, bit_eq, List.getElem?_zipWith, List.getElem?_eq_getElem h1,
    List.getElem?_eq_getElem h2]
  exact hf _ _ _ (Nat.mod_lt _ (by decide))

/-- A binary operator acts bit by bit on operands of one length. -/
theorem bit_zip {f : Word → Word → Word} {g : Bool → Bool → Bool}
    (hf : ∀ (w1 w2 : Word) (j : ℕ), j < 64 → (f w1 w2).getLsbD j = g (w1.getLsbD j) (w2.getLsbD j))
    (hlen : b2.integerCount = b1.integerCount) (h : i < 64 * b1.integerCount) :
    (⟨List.zipWith f b1.bits b2.bits⟩ : Bitset).bit i = g (b1.bit i) (b2.bit i) :=
  bit_zipWith hf (by rwa [hlen, min_self])

/-! ## Single bits -/

theorem getLsbD_mask (k j : ℕ) (hj : j < 64) :
    (1#64 <<< k).getLsbD j = decide (j = k) := by
  rw [BitVec.getLsbD_shiftLeft, BitVec.getLsbD_one]
  by_cases h : j = k
  · simp [h]; omega
  · simp [h]; omega

theorem bitsetUpdateBit_eq_ok (f : Word → Word → Word) (h : k < 64 * b.integerCount) :
    ∃ c, bitsetUpdateBit f b k = .ok c ∧ c.integerCount = b.integerCount ∧
      ∀ i, i < 64 * b.integerCount → c.bit i =
        if i / 64 = k / 64 then (f (b.bits.getD (i / 64) 0) (1#64 <<< (k % 64))).getLsbD (i % 64)
        else b.bit i := by
  obtain ⟨hk, -⟩ := bit_of_lt h
  refine ⟨⟨b.bits.set (k / 64) (f b.bits[k / 64] (1#64 <<< (k % 64)))⟩, ?_, by simp [integerCount], ?_⟩
  · rw [bitsetUpdateBit, integerBitSize, fetch_of_lt hk, ok_bind, store_of_lt hk, ok_bind]
    rfl
  · intro i hi
    obtain ⟨hi', -⟩ := bit_of_lt hi
    rw [bit_eq, List.getElem?_set]
    by_cases heq : i / 64 = k / 64
    · simp [heq, hk, List.getD_eq_getElem?_getD]
    · rw [if_neg (Ne.symm heq), if_neg heq, bit_eq]

/-- A bit within the words is set, and no other. -/
theorem bitsetSetBit_eq_ok (h : k < 64 * b.integerCount) :
    ∃ c, bitsetSetBit b k = .ok c ∧ c.integerCount = b.integerCount ∧
      ∀ i, c.bit i = (decide (i = k) || b.bit i) := by
  obtain ⟨c, hc, hlen, hbit⟩ := bitsetUpdateBit_eq_ok (fun w mask => w ||| mask) h
  refine ⟨c, hc, hlen, fun i => ?_⟩
  by_cases hi : i < 64 * b.integerCount
  · rw [hbit i hi]
    split
    · rename_i heq
      rw [BitVec.getLsbD_or, getLsbD_mask _ _ (Nat.mod_lt _ (by decide)), Bool.or_comm, bit]
      congr 1
      rw [decide_eq_decide]
      omega
    · rename_i hne
      have : i ≠ k := fun h => hne (h ▸ rfl)
      simp [this]
  · have hne : i ≠ k := by omega
    rw [bit_of_le (by rw [hlen]; omega), bit_of_le (by omega)]
    simp [hne]

/-- A bit within the words is cleared, and no other. -/
theorem bitsetClearBit_eq_ok (h : k < 64 * b.integerCount) :
    ∃ c, bitsetClearBit b k = .ok c ∧ c.integerCount = b.integerCount ∧
      ∀ i, c.bit i = (!decide (i = k) && b.bit i) := by
  obtain ⟨c, hc, hlen, hbit⟩ := bitsetUpdateBit_eq_ok (fun w mask => w &&& ~~~mask) h
  refine ⟨c, hc, hlen, fun i => ?_⟩
  by_cases hi : i < 64 * b.integerCount
  · rw [hbit i hi]
    have hmod : i % 64 < 64 := Nat.mod_lt _ (by decide)
    split
    · rename_i heq
      have hiff : (i % 64 = k % 64) ↔ i = k := by omega
      rw [BitVec.getLsbD_and, BitVec.getLsbD_not, getLsbD_mask _ _ hmod, Bool.and_comm, bit]
      simp [hmod, hiff]
    · rename_i hne
      have : i ≠ k := fun h => hne (h ▸ rfl)
      simp [this]
  · have hne : i ≠ k := by omega
    rw [bit_of_le (by rw [hlen]; omega), bit_of_le (by omega)]
    simp

end Bitset

end SetQL
