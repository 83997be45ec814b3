import Mathlib.Data.Fintype.BigOperators
import Mathlib.LinearAlgebra.Matrix.Notation
import RandomX.Aes.Round
import RandomX.Proofs.Aes.Substitution
import RandomX.Proofs.Word

/-!
# Cipher rounds

A state is a square of bytes, four rows in four columns. A round by tables shifts the rows, substitutes the bytes,
multiplies each column by a matrix over the field and adds the key, and it can be undone under every key.
-/
namespace RandomX.Aes

/-! ## Squares -/

abbrev Square := Matrix (Fin 4) (Fin 4) UInt8

/-- How far up a row lies in a column. -/
def rowShift : Fin 4 → UInt32 :=
  ![0, 8, 16, 24]

def rowOf (w : UInt32) (r : Fin 4) : UInt8 :=
  byte32 w (rowShift r)

def State.column (s : State) : Fin 4 → UInt32 :=
  ![s.c0, s.c1, s.c2, s.c3]

/-- The bytes of a state, column by column. -/
def State.square (s : State) : Square :=
  .of fun r c => rowOf (s.column c) r

/-- The state with the given bytes. -/
def Square.state (m : Square) : State :=
  let column (c : Fin 4) := word32 (m 0 c) (m 1 c) (m 2 c) (m 3 c)
  ⟨column 0, column 1, column 2, column 3⟩

variable (s key : State) (m : Square) (r c k : Fin 4) (w : UInt32)

theorem toNat_rowShift : (rowShift r).toNat = 8 * r.val := by
  fin_cases r <;> rfl

theorem rowOf_xor (v : UInt32) : rowOf (v ^^^ w) r = rowOf v r ^^^ rowOf w r :=
  byte32_xor ..

theorem rowOf_word32 (f : Fin 4 → UInt8) : rowOf (word32 (f 0) (f 1) (f 2) (f 3)) r = f r := by
  have h0 := (f 0).toNat_lt
  have h1 := (f 1).toNat_lt
  have h2 := (f 2).toNat_lt
  have h3 := (f 3).toNat_lt
  rw [← UInt8.toNat_inj, rowOf, toNat_byte32 (toNat_rowShift r) (by omega), toNat_word32]
  match r with
  | 0 | 1 | 2 | 3 =>
    simp only [Fin.isValue, Fin.coe_ofNat_eq_mod, Nat.reduceMod, Nat.reduceMul, Nat.reducePow]
    omega

@[simp] theorem square_state : m.state.square = m := by
  refine Matrix.ext fun r c => ?_
  fin_cases c <;> exact rowOf_word32 r fun i => m i _

@[simp] theorem state_square : s.square.state = s := by
  obtain ⟨c0, c1, c2, c3⟩ := s
  exact State.mk.injEq .. ▸ ⟨word32_byte32 c0, word32_byte32 c1, word32_byte32 c2, word32_byte32 c3⟩

theorem square_bijective : Function.Bijective State.square :=
  Function.bijective_iff_has_inverse.mpr ⟨Square.state, state_square, square_state⟩

/-! ## Steps of a round -/

/-- Row `r` moves `r` columns to the left. -/
def shiftRows : Square :=
  .of fun r c => m r (c + r)

def invShiftRows : Square :=
  .of fun r c => m r (c - r)

noncomputable def subBytes : Square :=
  m.map sBox

noncomputable def invSubBytes : Square :=
  m.map sBox.symm

/-- Multiplies matrices of bytes over the field. -/
noncomputable def product (a b : Square) : Square :=
  (a.map byteEquiv * b.map byteEquiv).map byteEquiv.symm

def mixing : Square :=
  !![2, 3, 1, 1;
     1, 2, 3, 1;
     1, 1, 2, 3;
     3, 1, 1, 2]

def unmixing : Square :=
  !![14, 11, 13, 9;
     9, 14, 11, 13;
     13, 9, 14, 11;
     11, 13, 9, 14]

noncomputable def mixColumns : Square :=
  product mixing m

noncomputable def invMixColumns : Square :=
  product unmixing m

def addRoundKey (key : Square) : Square :=
  .of fun r c => m r c ^^^ key r c

/-! ## Tables -/

theorem toBitVec_turn : (turn w (rowShift k)).toBitVec = w.toBitVec.rotateLeft (8 * k.val) := by
  match k with
  | 0 => simp [turn, rowShift, BitVec.rotateLeft, BitVec.rotateLeftAux, BitVec.ushiftRight_eq_zero]
  | 1 | 2 | 3 => rfl

theorem getLsbD_rowOf {i : ℕ} (hi : i < 8) :
    (rowOf w r).toBitVec.getLsbD i = w.toBitVec.getLsbD (8 * r.val + i) := by
  match r with
  | 0 | 1 | 2 | 3 => simp [rowOf, rowShift, byte32, hi]

/-- Turning a column by `k` rows brings to a row what was `k` rows above it. -/
theorem rowOf_turn : rowOf (turn w (rowShift k)) r = rowOf w (r - k) := by
  refine UInt8.toBitVec_inj.mp (BitVec.eq_of_getLsbD_eq fun i hi => ?_)
  rw [getLsbD_rowOf _ _ hi, getLsbD_rowOf _ _ hi, toBitVec_turn, BitVec.getLsbD_rotateLeft]
  have hsub : (r - k).val = (4 - k.val + r.val) % 4 := Fin.val_sub r k
  by_cases h : r < k
  · rw [decide_eq_true (by omega), cond_true]
    congr 1
    omega
  · rw [decide_eq_false (by omega), cond_false, decide_eq_true (by omega), Bool.true_and]
    congr 1
    omega

theorem entry_tableOf (column : UInt8 → UInt32) (n : UInt32) (b : UInt8) :
    entry (tableOf column n) b = turn (column b) n := by
  have hb : UInt8.ofNat b.toFin.val = b := UInt8.ofNat_toNat
  refine (Vector.getElem_ofFn b.toFin.isLt).trans ?_
  rw [hb]

theorem product_apply (a b : Square) : product a b r c =
    mul (b 0 c) (a r 0) ^^^ mul (b 1 c) (a r 1) ^^^ mul (b 2 c) (a r 2) ^^^ mul (b 3 c) (a r 3) := by
  refine byteEquiv.symm_apply_eq.mpr ?_
  change _ = element _
  simp only [element_xor, element_mul, Matrix.mul_apply, Fin.sum_univ_four, Matrix.map_apply]
  change element _ * element _ + element _ * element _ + element _ * element _ + element _ * element _ = _
  ring

/-- The columns that bytes contribute are those of a substitution under a matrix whose columns are turned copies of the
first. -/
structure IsMixed (column : UInt8 → UInt32) (box : UInt8 → UInt8) (mix : Square) : Prop where
  row : ∀ b r, rowOf (column b) r = mul (box b) (mix r 0)
  turned : ∀ r k, mix (r - k) 0 = mix r k

/-- A row of the sum of four table entries and a key. -/
theorem IsMixed.rowOf_sum {column : UInt8 → UInt32} {box : UInt8 → UInt8} {mix : Square} (h : IsMixed column box mix)
    (x : Fin 4 → UInt8) :
    rowOf (entry (tableOf column 0) (x 0) ^^^ entry (tableOf column 8) (x 1) ^^^ entry (tableOf column 16) (x 2)
        ^^^ entry (tableOf column 24) (x 3) ^^^ w) r =
      mul (box (x 0)) (mix r 0) ^^^ mul (box (x 1)) (mix r 1) ^^^ mul (box (x 2)) (mix r 2)
        ^^^ mul (box (x 3)) (mix r 3) ^^^ rowOf w r := by
  have hrow (k : Fin 4) : rowOf (entry (tableOf column (rowShift k)) (x k)) r = mul (box (x k)) (mix r k) := by
    rw [entry_tableOf, rowOf_turn, h.row, h.turned]
  rw [rowOf_xor, rowOf_xor, rowOf_xor, rowOf_xor, ← hrow 0, ← hrow 1, ← hrow 2, ← hrow 3]
  rfl

theorem mul_one_right (b : UInt8) : mul b 1 = b :=
  element_injective (by rw [element_mul, element_one, mul_one])

theorem isMixed_encrypt : IsMixed encryptColumn sBox mixing where
  row b r := by
    rw [← substitute_eq_sBox]
    refine (rowOf_word32 r ![_, _, _, _]).trans ?_
    fin_cases r
    · rfl
    · exact (mul_one_right _).symm
    · exact (mul_one_right _).symm
    · rfl
  turned r k := by fin_cases r <;> fin_cases k <;> rfl

theorem isMixed_decrypt : IsMixed decryptColumn sBox.symm unmixing where
  row b r := by
    rw [← unsubstitute_eq_sBox_symm]
    refine (rowOf_word32 r ![_, _, _, _]).trans ?_
    fin_cases r <;> rfl
  turned r k := by fin_cases r <;> fin_cases k <;> rfl

/-! ## Rounds -/

theorem column_encrypt : (s.encrypt key).column c =
    encryptFrom (s.column (c + 0)) (s.column (c + 1)) (s.column (c + 2)) (s.column (c + 3)) (key.column c) := by
  fin_cases c <;> rfl

theorem column_decrypt : (s.decrypt key).column c =
    decryptFrom (s.column (c - 0)) (s.column (c - 1)) (s.column (c - 2)) (s.column (c - 3)) (key.column c) := by
  fin_cases c <;> rfl

theorem square_encrypt :
    (s.encrypt key).square = addRoundKey (mixColumns (subBytes (shiftRows s.square))) key.square := by
  refine Matrix.ext fun r c => ?_
  change rowOf ((s.encrypt key).column c) r = product mixing _ r c ^^^ rowOf (key.column c) r
  rw [column_encrypt, product_apply]
  exact isMixed_encrypt.rowOf_sum r _ fun k => rowOf (s.column (c + k)) k

theorem square_decrypt :
    (s.decrypt key).square = addRoundKey (invMixColumns (invSubBytes (invShiftRows s.square))) key.square := by
  refine Matrix.ext fun r c => ?_
  change rowOf ((s.decrypt key).column c) r = product unmixing _ r c ^^^ rowOf (key.column c) r
  rw [column_decrypt, product_apply]
  exact isMixed_decrypt.rowOf_sum r _ fun k => rowOf (s.column (c - k)) k

/-- A round by tables is a round of the cipher, byte by byte: its rows are shifted, its bytes substituted, its columns
mixed, and the key is added last. -/
theorem rounds_are_aes (s key : State) :
    (s.encrypt key).square = addRoundKey (mixColumns (subBytes (shiftRows s.square))) key.square ∧
      (s.decrypt key).square = addRoundKey (invMixColumns (invSubBytes (invShiftRows s.square))) key.square :=
  ⟨square_encrypt s key, square_decrypt s key⟩

/-! ## Undoing a round -/

theorem invShiftRows_shiftRows : invShiftRows (shiftRows m) = m := by
  simp [shiftRows, invShiftRows, Matrix.ext_iff.symm]

theorem shiftRows_invShiftRows : shiftRows (invShiftRows m) = m := by
  simp [shiftRows, invShiftRows, Matrix.ext_iff.symm]

theorem shiftRows_bijective : Function.Bijective shiftRows :=
  Function.bijective_iff_has_inverse.mpr ⟨invShiftRows, invShiftRows_shiftRows, shiftRows_invShiftRows⟩

theorem invShiftRows_bijective : Function.Bijective invShiftRows :=
  Function.bijective_iff_has_inverse.mpr ⟨shiftRows, shiftRows_invShiftRows, invShiftRows_shiftRows⟩

theorem map_bijective (f : Equiv.Perm UInt8) : Function.Bijective fun m : Square => m.map f :=
  Function.bijective_iff_has_inverse.mpr
    ⟨fun m => m.map f.symm, fun m => by simp [Matrix.map_map], fun m => by simp [Matrix.map_map]⟩

theorem addRoundKey_addRoundKey (key : Square) : addRoundKey (addRoundKey m key) key = m := by
  refine Matrix.ext fun r c => ?_
  change m r c ^^^ key r c ^^^ key r c = m r c
  rw [UInt8.xor_assoc, UInt8.xor_self, UInt8.xor_zero]

theorem addRoundKey_bijective (key : Square) : Function.Bijective fun m => addRoundKey m key :=
  Function.bijective_iff_has_inverse.mpr
    ⟨fun m => addRoundKey m key, fun m => addRoundKey_addRoundKey m key, fun m => addRoundKey_addRoundKey m key⟩

theorem addRoundKey_injective : Function.Injective (addRoundKey m) := by
  intro key key' h
  refine Matrix.ext fun r c => ?_
  have hbyte : m r c ^^^ key r c = m r c ^^^ key' r c := congrFun (congrFun h r) c
  simpa using hbyte

theorem map_product (a b : Square) : (product a b).map byteEquiv = a.map byteEquiv * b.map byteEquiv := by
  simp [product, Matrix.map_map]

theorem unmixing_mul_mixing : unmixing.map byteEquiv * mixing.map byteEquiv = 1 := by
  have htable : ∀ r c, product unmixing mixing r c = if r = c then 1 else 0 := by
    intro r c
    rw [product_apply]
    fin_cases r <;> fin_cases c <;> decide
  rw [← map_product]
  refine Matrix.ext fun r c => ?_
  rw [Matrix.map_apply, htable, Matrix.one_apply]
  split
  · exact element_one
  · exact element_zero

theorem product_product {a b : Square} (h : a.map byteEquiv * b.map byteEquiv = 1) : product a (product b m) = m := by
  rw [product, map_product, ← mul_assoc, h, one_mul, Matrix.map_map]
  simp

theorem invMixColumns_mixColumns : invMixColumns (mixColumns m) = m :=
  product_product m unmixing_mul_mixing

theorem mixColumns_invMixColumns : mixColumns (invMixColumns m) = m :=
  product_product m (mul_eq_one_comm.mp unmixing_mul_mixing)

theorem mixColumns_bijective : Function.Bijective mixColumns :=
  Function.bijective_iff_has_inverse.mpr ⟨invMixColumns, invMixColumns_mixColumns, mixColumns_invMixColumns⟩

theorem invMixColumns_bijective : Function.Bijective invMixColumns :=
  Function.bijective_iff_has_inverse.mpr ⟨mixColumns, mixColumns_invMixColumns, invMixColumns_mixColumns⟩

theorem encrypt_bijective : Function.Bijective fun s : State => s.encrypt key := by
  have hsteps : State.square ∘ (fun s => s.encrypt key) =
      (addRoundKey · key.square) ∘ mixColumns ∘ subBytes ∘ shiftRows ∘ State.square :=
    funext fun s => square_encrypt s key
  rw [← Function.Bijective.of_comp_iff' square_bijective, hsteps]
  exact (addRoundKey_bijective _).comp <| mixColumns_bijective.comp <| (map_bijective sBox).comp <|
    shiftRows_bijective.comp square_bijective

theorem decrypt_bijective : Function.Bijective fun s : State => s.decrypt key := by
  have hsteps : State.square ∘ (fun s => s.decrypt key) =
      (addRoundKey · key.square) ∘ invMixColumns ∘ invSubBytes ∘ invShiftRows ∘ State.square :=
    funext fun s => square_decrypt s key
  rw [← Function.Bijective.of_comp_iff' square_bijective, hsteps]
  exact (addRoundKey_bijective _).comp <| invMixColumns_bijective.comp <| (map_bijective sBox.symm).comp <|
    invShiftRows_bijective.comp square_bijective

theorem encrypt_injective_key : Function.Injective s.encrypt := by
  intro key key' h
  refine square_bijective.injective (addRoundKey_injective (mixColumns (subBytes (shiftRows s.square))) ?_)
  rw [← square_encrypt, ← square_encrypt, h]

theorem decrypt_injective_key : Function.Injective s.decrypt := by
  intro key key' h
  refine square_bijective.injective (addRoundKey_injective (invMixColumns (invSubBytes (invShiftRows s.square))) ?_)
  rw [← square_decrypt, ← square_decrypt, h]

end RandomX.Aes
