import SetQL.Base.Outcome
import Mathlib.Algebra.Group.Nat.Defs
import Mathlib.Algebra.Ring.Int.Defs
import Mathlib.Data.List.TakeWhile

/-!
# Bytes and blocks of memory

A C string is the bytes up to the terminating zero byte. A block is an allocated array of bytes;
reading or writing past its end is out of bounds.

## Main definitions

* `lit s`: the bytes of an ASCII literal
* `NulFree s`, `cstr bs`: a string without a zero byte, and the string at the start of a buffer
* `toUpper`, `toLower`: the case of letters
* `leBytes k n`, `leNat bs`: little-endian integers
* `Block`: an allocated block, with `Block.read` and `Block.write`
* `Block.slice`, `Block.put`: their results within the bounds

## Main results

* `leNat_leBytes`: a number is read back modulo its width
* `Block.read_eq_ok`, `Block.write_eq_ok`: reads and writes return exactly within the bounds
* `Block.slice_put_same`, `Block.slice_put_disjoint`: what was written is read back, and the rest
  is unchanged
-/

namespace SetQL

/-- A string of bytes. -/
abbrev Bytes := List UInt8

/-- The bytes of an ASCII literal. -/
def lit (s : String) : Bytes := s.toList.map Char.toUInt8

/-- A string without a zero byte. -/
def NulFree (s : Bytes) : Prop := 0 ∉ s

instance (s : Bytes) : Decidable (NulFree s) := inferInstanceAs (Decidable (0 ∉ s))

/-- The C string at the start of a buffer: the bytes before its first zero byte. -/
def cstr (bs : Bytes) : Bytes := bs.takeWhile (· != 0)

/-- The upper-case letter of a lower-case one. -/
def toUpper (b : UInt8) : UInt8 := if 97 ≤ b ∧ b ≤ 122 then b - 32 else b

/-- The lower-case letter of an upper-case one. -/
def toLower (b : UInt8) : UInt8 := if 65 ≤ b ∧ b ≤ 90 then b + 32 else b

theorem cstr_of_nulFree {s : Bytes} (h : NulFree s) : cstr s = s := by
  refine List.takeWhile_eq_self_iff.mpr fun b hb => ?_
  simpa using ne_of_mem_of_not_mem hb h

theorem cstr_append_nul {s : Bytes} (h : NulFree s) (t : Bytes) : cstr (s ++ 0 :: t) = s := by
  have hs : ∀ b ∈ s, (b != 0) = true := fun b hb => by simpa using ne_of_mem_of_not_mem hb h
  rw [cstr, List.takeWhile_append_of_pos hs]
  simp

theorem nulFree_cstr (bs : Bytes) : NulFree (cstr bs) := fun h => by
  simpa using List.mem_takeWhile_imp h

/-! ## Cutting strings -/

theorem forall_byte {p : UInt8 → Prop} (h : ∀ n < 256, p (UInt8.ofNat n)) (b : UInt8) : p b := by
  have := h b.toNat b.toNat_lt
  rwa [UInt8.ofNat_toNat] at this

/-- A list is cut in one way where its elements stop having a property. -/
theorem append_inj_of_all {α : Type*} {p : α → Prop} {u v u' v' : List α} (hu : ∀ b ∈ u, p b)
    (hu' : ∀ b ∈ u', p b) (hv : ∀ b ∈ v.head?, ¬ p b) (hv' : ∀ b ∈ v'.head?, ¬ p b)
    (h : u ++ v = u' ++ v') : u = u' ∧ v = v' := by
  induction u generalizing u' with
  | nil =>
    cases u' with
    | nil => exact ⟨rfl, h⟩
    | cons b u' =>
      rw [List.nil_append] at h
      subst h
      exact absurd (hu' b List.mem_cons_self) (hv b rfl)
  | cons b u ih =>
    cases u' with
    | nil =>
      rw [List.nil_append] at h
      subst h
      exact absurd (hu b List.mem_cons_self) (hv' b rfl)
    | cons b' u' =>
      obtain ⟨rfl, htail⟩ := List.cons.inj h
      obtain ⟨rfl, hv⟩ := ih (fun c hc => hu c (List.mem_cons_of_mem _ hc))
        (fun c hc => hu' c (List.mem_cons_of_mem _ hc)) htail
      exact ⟨rfl, hv⟩

/-- A string is cut in one way before its last bytes with a property. -/
theorem append_inj_of_all_right {p : UInt8 → Prop} {u v u' v' : Bytes} {x : UInt8} (hx : ¬ p x)
    (hv : ∀ b ∈ v, p b) (hv' : ∀ b ∈ v', p b) (h : u ++ x :: v = u' ++ x :: v') :
    u = u' ∧ v = v' := by
  have hrev := congrArg List.reverse h
  simp only [List.reverse_append, List.reverse_cons, List.append_assoc, List.singleton_append]
    at hrev
  obtain ⟨hv, hu⟩ := append_inj_of_all (p := p) (by simpa using hv) (by simpa using hv')
    (by simpa using hx) (by simpa using hx) hrev
  exact ⟨List.reverse_inj.mp (List.cons.inj hu).2, List.reverse_inj.mp hv⟩

/-! ## Little-endian integers -/

/-- The `k` low bytes of `n`, lowest first. -/
def leBytes : ℕ → ℕ → Bytes
  | 0, _ => []
  | k + 1, n => UInt8.ofNat n :: leBytes k (n / 256)

/-- The number whose bytes are `bs`, lowest first. -/
def leNat : Bytes → ℕ
  | [] => 0
  | b :: bs => b.toNat + 256 * leNat bs

@[simp] theorem length_leBytes (k n : ℕ) : (leBytes k n).length = k := by
  induction k generalizing n with
  | zero => rfl
  | succ k ih => simp [leBytes, ih]

/-- A number is read back modulo its width. -/
theorem leNat_leBytes (k n : ℕ) : leNat (leBytes k n) = n % 256 ^ k := by
  induction k generalizing n with
  | zero => simp [leBytes, leNat, Nat.mod_one]
  | succ k ih =>
    have hb : (UInt8.ofNat n).toNat = n % 256 := UInt8.toNat_ofNat'
    rw [leBytes, leNat, ih, hb, Nat.pow_succ, Nat.mul_comm _ 256, Nat.mod_mul]

theorem leNat_leBytes_of_lt {k n : ℕ} (h : n < 256 ^ k) : leNat (leBytes k n) = n := by
  rw [leNat_leBytes, Nat.mod_eq_of_lt h]

/-! ## Blocks -/

/-- An allocated block of bytes. -/
structure Block where
  size : ℕ
  byte : ℕ → UInt8

namespace Block

/-- `calloc`: a block of zero bytes. -/
def zeroed (n : ℕ) : Block := ⟨n, fun _ => 0⟩

/-- The byte at an address. -/
def readByte (b : Block) (a : ℕ) : C UInt8 :=
  if a < b.size then .ok (b.byte a) else .error .outOfBounds

/-- The block with one byte replaced. -/
def writeByte (b : Block) (a : ℕ) (v : UInt8) : C Block :=
  if a < b.size then .ok { b with byte := fun i => if i = a then v else b.byte i }
  else .error .outOfBounds

/-- The `n` bytes from an address, read one after the other. -/
def read (b : Block) (a : ℕ) : ℕ → C Bytes
  | 0 => .ok []
  | n + 1 => do
    let v ← b.readByte a
    let vs ← b.read (a + 1) n
    return v :: vs

/-- The block after writing bytes one after the other. -/
def write (b : Block) (a : ℕ) : Bytes → C Block
  | [] => .ok b
  | v :: vs => do
    let b ← b.writeByte a v
    b.write (a + 1) vs

/-- The `n` bytes from an address. -/
def slice (b : Block) (a n : ℕ) : Bytes := (List.range' a n).map b.byte

/-- The block with the bytes from an address replaced. -/
def put (b : Block) (a : ℕ) (vs : Bytes) : Block :=
  { b with byte := fun i => if a ≤ i ∧ i < a + vs.length then vs.getD (i - a) 0 else b.byte i }

variable {b : Block} {a n : ℕ} {vs : Bytes}

@[simp] theorem size_zeroed : (zeroed n).size = n := rfl

@[simp] theorem size_put : (b.put a vs).size = b.size := rfl

@[simp] theorem length_slice : (b.slice a n).length = n := by simp [slice]

@[simp] theorem slice_zero : b.slice a 0 = [] := rfl

theorem slice_succ : b.slice a (n + 1) = b.byte a :: b.slice (a + 1) n := by
  simp [slice, List.range'_succ]

theorem getElem_slice {i : ℕ} (h : i < (b.slice a n).length) : (b.slice a n)[i] = b.byte (a + i) := by
  simp [slice]

theorem slice_congr {b' : Block} {a' : ℕ} (h : ∀ i < n, b.byte (a + i) = b'.byte (a' + i)) :
    b.slice a n = b'.slice a' n := by
  refine List.ext_getElem (by simp) fun i hi hi' => ?_
  rw [getElem_slice, getElem_slice]
  exact h i (by simpa using hi)

theorem slice_zeroed : (zeroed n).slice a k = List.replicate k 0 := by
  refine List.ext_getElem (by simp) fun i hi hi' => ?_
  simp [getElem_slice, zeroed]

/-- Reading returns exactly within the bounds. -/
theorem read_eq_ok : b.read a n = .ok vs ↔ (n = 0 ∨ a + n ≤ b.size) ∧ vs = b.slice a n := by
  induction n generalizing a vs with
  | zero => simp [read, eq_comm]
  | succ n ih =>
    simp only [read, readByte, slice_succ]
    by_cases h : a < b.size
    · simp only [h, if_true, ok_bind, bind_eq_ok, ih, pure_eq_ok]
      constructor
      · rintro ⟨ws, ⟨hn, rfl⟩, h⟩
        exact ⟨Or.inr (by omega), (Except.ok.inj h).symm⟩
      · rintro ⟨hn, rfl⟩
        exact ⟨_, ⟨by omega, rfl⟩, rfl⟩
    · simp only [h, if_false, error_bind, reduceCtorEq, false_iff, not_and, false_or]
      omega

/-- A read that does not return is out of bounds. -/
theorem read_of_lt (h : b.size < a + n) (hn : n ≠ 0) : b.read a n = .error .outOfBounds := by
  induction n generalizing a with
  | zero => exact absurd rfl hn
  | succ n ih =>
    simp only [read, readByte]
    by_cases ha : a < b.size
    · rw [if_pos ha, ok_bind, ih (by omega) (by omega), error_bind]
    · rw [if_neg ha, error_bind]

/-- A read stops in one way only. -/
theorem read_ne_error {e : Stop} (he : e ≠ .outOfBounds) : b.read a n ≠ .error e := by
  rcases Nat.lt_or_ge b.size (a + n) with hlt | hge
  · rcases Nat.eq_zero_or_pos n with rfl | hpos
    · exact nofun
    · rw [read_of_lt hlt hpos.ne']
      exact fun h => he (Except.error.inj h).symm
  · rw [read_eq_ok.mpr ⟨Or.inr hge, rfl⟩]
    exact nofun

theorem put_nil : b.put a [] = b := by
  have h : ∀ i, ¬ (a ≤ i ∧ i < a) := fun i => by omega
  simp [put, h]

theorem put_cons {v : UInt8} :
    ({ b with byte := fun i => if i = a then v else b.byte i } : Block).put (a + 1) vs =
      b.put a (v :: vs) := by
  simp only [put, mk.injEq, true_and, List.length_cons]
  funext i
  by_cases hi : i = a
  · subst hi
    rw [if_neg (by omega), if_pos rfl, if_pos (by omega), Nat.sub_self, List.getD_cons_zero]
  · by_cases hin : a + 1 ≤ i ∧ i < a + 1 + vs.length
    · have hsub : i - a = i - (a + 1) + 1 := by omega
      rw [if_pos hin, if_pos (by omega), hsub, List.getD_cons_succ]
    · rw [if_neg hin, if_neg hi, if_neg (by omega)]

/-- Writing returns exactly within the bounds. -/
theorem write_eq_ok {b' : Block} :
    b.write a vs = .ok b' ↔ (vs = [] ∨ a + vs.length ≤ b.size) ∧ b' = b.put a vs := by
  induction vs generalizing a b with
  | nil => simp [write, put_nil, eq_comm]
  | cons v vs ih =>
    simp only [write, writeByte]
    by_cases h : a < b.size
    · simp only [h, if_true, ok_bind, ih, put_cons, List.length_cons, reduceCtorEq, false_or]
      refine and_congr_left fun _ => ⟨fun hv => ?_, fun hv => Or.inr (by omega)⟩
      rcases hv with rfl | hv
      · simp only [List.length_nil]
        omega
      · omega
    · simp only [h, if_false, error_bind, reduceCtorEq, false_iff, not_and, false_or,
        List.length_cons]
      omega

theorem write_of_le (h : a + vs.length ≤ b.size) : b.write a vs = .ok (b.put a vs) :=
  write_eq_ok.mpr ⟨Or.inr h, rfl⟩

/-- A write that does not return is out of bounds. -/
theorem write_of_lt (h : b.size < a + vs.length) (hv : vs ≠ []) :
    b.write a vs = .error .outOfBounds := by
  induction vs generalizing a b with
  | nil => exact absurd rfl hv
  | cons v vs ih =>
    simp only [write, writeByte]
    by_cases ha : a < b.size
    · rw [if_pos ha, ok_bind]
      rw [List.length_cons] at h
      refine ih (show b.size < a + 1 + vs.length by omega) fun hnil => ?_
      rw [hnil, List.length_nil] at h
      omega
    · rw [if_neg ha, error_bind]

theorem write_ne_error {e : Stop} (he : e ≠ .outOfBounds) : b.write a vs ≠ .error e := by
  rcases Nat.lt_or_ge b.size (a + vs.length) with hlt | hge
  · by_cases hv : vs = []
    · rw [hv]
      exact nofun
    · rw [write_of_lt hlt hv]
      exact fun h => he (Except.error.inj h).symm
  · rw [write_of_le hge]
    exact nofun

/-- A loop that writes consecutive bytes is one write. -/
theorem foldlM_writeByte (b : Block) (a n : ℕ) (f : ℕ → UInt8) :
    (List.range n).foldlM (fun b i => b.writeByte (a + i) (f i)) b =
      b.write a ((List.range n).map f) := by
  have key : ∀ (n k : ℕ) (b : Block),
      (List.range' k n).foldlM (fun b i => b.writeByte (a + i) (f i)) b =
        b.write (a + k) ((List.range' k n).map f) := by
    intro n
    induction n with
    | zero => intro k b; rfl
    | succ n ih =>
      intro k b
      simp only [List.range'_succ, List.foldlM_cons, List.map_cons, write]
      congr 1
      funext c
      exact ih (k + 1) c
  rw [List.range_eq_range']
  exact key n 0 b

theorem byte_put_of_mem {i : ℕ} (h : a ≤ i) (h' : i < a + vs.length) :
    (b.put a vs).byte i = vs.getD (i - a) 0 :=
  if_pos ⟨h, h'⟩

theorem byte_put_of_not_mem {i : ℕ} (h : i < a ∨ a + vs.length ≤ i) :
    (b.put a vs).byte i = b.byte i :=
  if_neg (by omega)

/-- What was written is read back. -/
theorem slice_put_same : (b.put a vs).slice a vs.length = vs := by
  refine List.ext_getElem (by simp) fun i hi hi' => ?_
  rw [getElem_slice, byte_put_of_mem (by omega) (by omega)]
  simp [hi']

/-- The rest of the block is unchanged. -/
theorem slice_put_disjoint {c k : ℕ} (h : c + k ≤ a ∨ a + vs.length ≤ c) :
    (b.put a vs).slice c k = b.slice c k :=
  slice_congr fun i hi => byte_put_of_not_mem (by omega)

end Block

end SetQL
