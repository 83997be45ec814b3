import RandomX.Proofs.Aes.Field

/-!
# Substitution

What the table holds for a byte is the image of its inverse under an affine map of the bits. Every byte but zero thus has
an inverse, the residues are a field, and the substitution is a permutation that the inverted table undoes.
-/
namespace RandomX.Aes

/-! ## Inverses -/

/-- Each bit is added to the four bits below it, around the byte, and to a bit of a constant. -/
def affine : Equiv.Perm UInt8 where
  toFun b :=
    ⟨b.toBitVec ^^^ b.toBitVec.rotateLeft 1 ^^^ b.toBitVec.rotateLeft 2 ^^^ b.toBitVec.rotateLeft 3
      ^^^ b.toBitVec.rotateLeft 4 ^^^ 0x63⟩
  invFun b := ⟨b.toBitVec.rotateLeft 1 ^^^ b.toBitVec.rotateLeft 3 ^^^ b.toBitVec.rotateLeft 6 ^^^ 0x05⟩
  left_inv := by
    unfold Function.LeftInverse
    decide +kernel
  right_inv := by
    unfold Function.RightInverse Function.LeftInverse
    decide +kernel

theorem mul_preimage (b : UInt8) (hb : b ≠ 0) : mul b (affine.symm (substitute b)) = 1 := by
  have hall : ∀ p ∈ substitution.toList.zipIdx, p.2 = 0 ∨ mul (.ofNat p.2) (affine.symm p.1) = 1 := by
    decide +kernel
  have hmem : (substitute b, b.toNat) ∈ substitution.toList.zipIdx := by
    refine List.mem_zipIdx_iff_getElem?.mpr ?_
    rw [Vector.getElem?_toList]
    exact Vector.getElem?_eq_getElem b.toNat_lt
  obtain h | h := hall _ hmem
  · exact absurd (UInt8.toNat_inj.mp h) hb
  · rwa [UInt8.ofNat_toNat] at h

theorem byteField_isField : IsField ByteField where
  exists_pair_ne := ⟨element 0, element 1, element_injective.ne (by decide)⟩
  mul_comm := mul_comm
  mul_inv_cancel {x} hx := by
    obtain ⟨b, rfl⟩ := element_surjective x
    have hb : b ≠ 0 := by
      rintro rfl
      exact hx element_zero
    exact ⟨element (affine.symm (substitute b)), by rw [← element_mul, mul_preimage b hb, element_one]⟩

instance modulus_irreducible : Fact (Irreducible modulus) := by
  have hmax : (Ideal.span {modulus}).IsMaximal := Ideal.Quotient.maximal_of_isField _ byteField_isField
  exact ⟨((Ideal.span_singleton_prime modulus_monic.ne_zero).mp hmax.isPrime).irreducible⟩

theorem element_preimage (b : UInt8) : element (affine.symm (substitute b)) = (element b)⁻¹ := by
  by_cases hb : b = 0
  · have hzero : affine.symm (substitute 0) = 0 := by decide +kernel
    rw [hb, hzero, element_zero, inv_zero]
  · exact eq_inv_of_mul_eq_one_right (by rw [← element_mul, mul_preimage b hb, element_one])

/-! ## Permutations -/

/-- Inversion in the field, which leaves zero where it is. -/
noncomputable def inversion : Equiv.Perm UInt8 :=
  (byteEquiv.trans (Equiv.inv ByteField)).trans byteEquiv.symm

/-- The substitution box: the inverse in the field under the affine map. -/
noncomputable def sBox : Equiv.Perm UInt8 :=
  inversion.trans affine

theorem substitute_eq_sBox (b : UInt8) : substitute b = sBox b := by
  refine affine.symm_apply_eq.mp (byteEquiv.injective ((element_preimage b).trans ?_))
  exact (byteEquiv.apply_symm_apply _).symm

example : substitute 0x53 = 0xED := by
  decide +kernel

/-- Each entry of a table without repetitions is led back to where it stands. -/
theorem get_invert {t : ByteTable} (ht : Function.Injective t.get) (i : Fin 256) :
    t.invert.get (t.get i).toFin = .ofNat i := by
  have hstep (back : ByteTable) (j : Fin 256) :
      (back.set (t.get j).toNat (.ofNat j) (t.get j).toNat_lt).get (t.get i).toFin =
        if j = i then .ofNat i else back.get (t.get i).toFin := by
    refine (Vector.getElem_set (t.get j).toNat_lt (t.get i).toNat_lt).trans ?_
    simp only [UInt8.toNat_inj, ht.eq_iff]
    split
    · rw [‹j = i›]
    · rfl
  have hfold (is : List (Fin 256)) (back : ByteTable) :
      (is.foldl (fun back i => back.set (t.get i).toNat (.ofNat i) (t.get i).toNat_lt) back).get (t.get i).toFin =
        if i ∈ is then .ofNat i else back.get (t.get i).toFin := by
    induction is generalizing back with
    | nil => rfl
    | cons j is ih =>
        rw [List.foldl_cons, ih, hstep]
        by_cases hi : i ∈ is
        · simp [hi]
        · simp [hi, eq_comm]
  rw [ByteTable.invert, hfold, if_pos (List.mem_finRange i)]

theorem unsubstitute_eq_sBox_symm (b : UInt8) : unsubstitute b = sBox.symm b := by
  obtain ⟨a, rfl⟩ := sBox.surjective b
  have ht : Function.Injective substitution.get := by
    intro i j h
    have h : substitute (.ofFin i) = substitute (.ofFin j) := h
    rw [substitute_eq_sBox, substitute_eq_sBox] at h
    exact congrArg UInt8.toFin (sBox.injective h)
  rw [sBox.symm_apply_apply, ← substitute_eq_sBox]
  exact (get_invert ht a.toFin).trans UInt8.ofNat_toNat

end RandomX.Aes
