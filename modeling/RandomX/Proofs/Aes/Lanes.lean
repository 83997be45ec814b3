import RandomX.Aes.Generator
import RandomX.Proofs.Aes.Round

/-!
# Four lanes

Sixty-four bytes are the squares of four lanes. A round over the lanes can be undone under every key, and no two keys
send the same lanes to the same place.
-/
namespace RandomX.Aes

namespace Lanes

theorem ext {l l' : Lanes} (h0 : l.l0 = l'.l0) (h1 : l.l1 = l'.l1) (h2 : l.l2 = l'.l2) (h3 : l.l3 = l'.l3) : l = l' := by
  cases l
  cases l'
  simp_all

/-! ## Bytes -/

def lane (l : Lanes) : Fin 4 → State :=
  ![l.l0, l.l1, l.l2, l.l3]

/-- Where a byte of a lane stands. -/
def index (j r c : Fin 4) : Fin 64 :=
  ⟨16 * j + 4 * c + r, by omega⟩

theorem exists_index (i : Fin 64) : ∃ j r c, i = index j r c := by
  refine ⟨⟨i / 16, by omega⟩, ⟨i % 4, by omega⟩, ⟨i % 16 / 4, by omega⟩, Fin.ext ?_⟩
  simp only [index]
  omega

theorem byte_index (l : Lanes) (j r c : Fin 4) : l.byte (index j r c) = (l.lane j).square r c := by
  fin_cases j <;> fin_cases c <;> fin_cases r <;> rfl

theorem lane_injective : Function.Injective lane := by
  intro l l' h
  exact ext (congrFun h 0) (congrFun h 1) (congrFun h 2) (congrFun h 3)

theorem byte_injective : Function.Injective byte := by
  intro l l' h
  refine lane_injective (funext fun j => square_bijective.injective (Matrix.ext fun r c => ?_))
  rw [← byte_index, ← byte_index, h]

theorem byte_ofBytes (f : Nat → UInt8) (i : Fin 64) : (ofBytes f).byte i = f i := by
  obtain ⟨j, r, c, rfl⟩ := exists_index i
  rw [byte_index]
  fin_cases j <;> fin_cases c <;> refine (rowOf_word32 r ![_, _, _, _]).trans ?_ <;> fin_cases r <;> rfl

theorem ofBytes_congr {f g : Nat → UInt8} (h : ∀ i < 64, f i = g i) : ofBytes f = ofBytes g := by
  refine byte_injective (funext fun i => ?_)
  rw [byte_ofBytes, byte_ofBytes, h i i.isLt]

theorem byte_ofVector (v : Vector UInt8 64) (i : Fin 64) : (ofVector v).byte i = v[i] := by
  simp [ofVector, byte_ofBytes]

@[simp] theorem ofVector_toVector (l : Lanes) : ofVector l.toVector = l := by
  refine byte_injective (funext fun i => ?_)
  simp [byte_ofVector, toVector]

@[simp] theorem toVector_ofVector (v : Vector UInt8 64) : (ofVector v).toVector = v := by
  refine Vector.ext fun i hi => ?_
  simpa [toVector] using byte_ofVector v ⟨i, hi⟩

theorem ofVector_bijective : Function.Bijective ofVector :=
  Function.bijective_iff_has_inverse.mpr ⟨toVector, toVector_ofVector, ofVector_toVector⟩

theorem toVector_bijective : Function.Bijective toVector :=
  Function.bijective_iff_has_inverse.mpr ⟨ofVector, ofVector_toVector, toVector_ofVector⟩

/-! ## Rounds -/

theorem bijective_of_lane {f0 f1 f2 f3 : State → State} (h0 : Function.Bijective f0) (h1 : Function.Bijective f1)
    (h2 : Function.Bijective f2) (h3 : Function.Bijective f3) :
    Function.Bijective fun l : Lanes => Lanes.mk (f0 l.l0) (f1 l.l1) (f2 l.l2) (f3 l.l3) := by
  constructor
  · intro l l' h
    obtain ⟨e0, e1, e2, e3⟩ := Lanes.mk.inj h
    exact ext (h0.injective e0) (h1.injective e1) (h2.injective e2) (h3.injective e3)
  · intro l
    obtain ⟨s0, e0⟩ := h0.surjective l.l0
    obtain ⟨s1, e1⟩ := h1.surjective l.l1
    obtain ⟨s2, e2⟩ := h2.surjective l.l2
    obtain ⟨s3, e3⟩ := h3.surjective l.l3
    exact ⟨⟨s0, s1, s2, s3⟩, ext e0 e1 e2 e3⟩

theorem decryptFirst_bijective (key : Lanes) : Function.Bijective (decryptFirst · key) :=
  bijective_of_lane (decrypt_bijective _) (encrypt_bijective _) (decrypt_bijective _) (encrypt_bijective _)

theorem encryptFirst_bijective (key : Lanes) : Function.Bijective (encryptFirst · key) :=
  bijective_of_lane (encrypt_bijective _) (decrypt_bijective _) (encrypt_bijective _) (decrypt_bijective _)

theorem encryptFirst_injective_key (l : Lanes) : Function.Injective l.encryptFirst := by
  intro key key' h
  obtain ⟨e0, e1, e2, e3⟩ := Lanes.mk.inj h
  exact ext (encrypt_injective_key _ e0) (decrypt_injective_key _ e1) (encrypt_injective_key _ e2)
    (decrypt_injective_key _ e3)

end Lanes

/-! ## Steps -/

theorem step1_bijective : Function.Bijective step1 :=
  Lanes.decryptFirst_bijective _

theorem step4_bijective : Function.Bijective step4 :=
  (Lanes.decryptFirst_bijective _).comp <| (Lanes.decryptFirst_bijective _).comp <|
    (Lanes.decryptFirst_bijective _).comp (Lanes.decryptFirst_bijective _)

theorem finish_bijective : Function.Bijective finish :=
  (Lanes.encryptFirst_bijective _).comp (Lanes.encryptFirst_bijective _)

end RandomX.Aes
