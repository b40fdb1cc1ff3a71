import Xv6.PetersonSim
import Xv6.Tournament
import Mathlib.Data.Nat.Bitwise

/-! The index arithmetic of the tournament tree with `2^L` leaves: which nodes
the processes meet at each level, and in which role. -/
namespace Xv6.TournamentTree
open Xv6.PetersonSim Xv6.Tournament

def side (L p i : Nat) : Bool := p.testBit (L-i-1)

theorem roleAt_eq (L p i : Nat) : (roleAt L p i : Int)=bit (side L p i) := by
  have h : roleAt L p i=(p.testBit (L-i-1)).toNat := by
    simp only [roleAt,Nat.one_shiftLeft,Nat.and_two_pow,Nat.shiftRight_eq_div_pow]
    exact Nat.mul_div_cancel _ (Nat.two_pow_pos _)
  rw [h]
  cases hs : p.testBit (L-i-1) <;> simp [side,hs,bit]

theorem nodeAt_succ (L p i : Nat) : nodeAt L p i+1=p/2^(L-i)+2^i := by
  have h := Nat.two_pow_pos i
  simp only [nodeAt,Nat.one_shiftLeft,Nat.shiftRight_eq_div_pow]
  generalize p/2^(L-i)=a
  omega

variable {L i p : Nat}

theorem ancestor_lt (hp : p<2^L) (hi : i ≤ L) : p/2^(L-i)<2^i := by
  rw [Nat.div_lt_iff_lt_mul (Nat.two_pow_pos _),← Nat.pow_add]
  simpa [hi] using hp

theorem nodeAt_bounds (hp : p<2^L) (hi : i ≤ L) :
    2^i ≤ nodeAt L p i+1 ∧ nodeAt L p i+1<2^(i+1) := by
  have h := ancestor_lt hp hi
  have hs := nodeAt_succ L p i
  generalize p/2^(L-i)=a at h hs
  omega

theorem nodeAt_lt (hp : p<2^L) (hi : i < L) : nodeAt L p i < 2^L-1 := by
  have h := (nodeAt_bounds hp hi.le).2
  have hle : 2^(i+1)≤2^L := Nat.pow_le_pow_right (by omega) hi
  omega

variable {q : Nat}

theorem nodeAt_level {j : Nat} (hp : p<2^L) (hq : q<2^L) (hi : i ≤ L) (hj : j ≤ L)
    (h : nodeAt L p i=nodeAt L q j) : i=j := by
  have hb := nodeAt_bounds hp hi
  have hb' := nodeAt_bounds hq hj
  rw [h] at hb
  have h1 : i < j+1 := (Nat.pow_lt_pow_iff_right (a := 2) (by omega)).mp (hb.1.trans_lt hb'.2)
  have h2 : j < i+1 := (Nat.pow_lt_pow_iff_right (a := 2) (by omega)).mp (hb'.1.trans_lt hb.2)
  omega

theorem nodeAt_eq_iff : nodeAt L p i=nodeAt L q i ↔ p/2^(L-i)=q/2^(L-i) := by
  have h := nodeAt_succ L p i
  have h' := nodeAt_succ L q i
  omega

theorem ancestor_child (hi : i < L) : p/2^(L-(i+1))=2*(p/2^(L-i))+(side L p i).toNat := by
  have hpow : 2^(L-i)=2^(L-(i+1))*2 := by
    rw [← Nat.pow_succ]
    congr 1
    omega
  have hside : (side L p i).toNat=p/2^(L-(i+1))%2 := by
    rw [side,Nat.toNat_testBit]
    rfl
  rw [hpow,← Nat.div_div_eq_div_mul,hside]
  omega

theorem nodeAt_child (hi : i < L) (h : nodeAt L p i=nodeAt L q i)
    (hs : side L p i=side L q i) : nodeAt L p (i+1)=nodeAt L q (i+1) := by
  rw [nodeAt_eq_iff] at h ⊢
  rw [ancestor_child hi,ancestor_child hi,h,hs]

theorem eq_of_leaf (hL : 1 ≤ L) (h : nodeAt L p (L-1)=nodeAt L q (L-1))
    (hs : side L p (L-1)=side L q (L-1)) : p=q := by
  have hc := nodeAt_eq_iff.mp (nodeAt_child (by omega) h hs)
  have he : L-(L-1+1)=0 := by omega
  simpa [he] using hc

theorem exists_nodeAt {v : Nat} (hv : v<2^L-1) : ∃ p i, p<2^L ∧ i < L ∧ nodeAt L p i=v := by
  have hle : 2^(v+1).log2 ≤ v+1 := Nat.log2_self_le (by omega)
  have hlt : v+1<2^((v+1).log2+1) := Nat.lt_log2_self
  generalize (v+1).log2=i at hle hlt
  have hi : i < L := by
    refine (Nat.pow_lt_pow_iff_right (a := 2) (by omega)).mp ?_
    omega
  refine ⟨(v+1-2^i)*2^(L-i),i,?_,hi,?_⟩
  · calc (v+1-2^i)*2^(L-i)<2^i*2^(L-i) := by
          refine Nat.mul_lt_mul_of_pos_right ?_ (Nat.two_pow_pos _)
          omega
      _ = 2^L := by
          rw [← Nat.pow_add]
          congr 1
          omega
  · have hs := nodeAt_succ L ((v+1-2^i)*2^(L-i)) i
    rw [Nat.mul_div_cancel _ (Nat.two_pow_pos _)] at hs
    omega

theorem levelsLoop_two_pow (L fuel : Nat) (h : L ≤ fuel) : levelsLoop fuel (2^L)=L := by
  induction fuel generalizing L with
  | zero =>
    obtain rfl : L=0 := by omega
    rfl
  | succ fuel ih =>
    cases L with
    | zero => simp [levelsLoop]
    | succ L =>
      have hgt : 2 ^ (L+1) > 1 := Nat.one_lt_two_pow (by omega)
      have hhalf : 2 ^ (L+1) >>> 1=2^L := by
        omega
      rw [levelsLoop,if_pos hgt,hhalf,ih L (by omega)]

theorem numLevels_two_pow (L : Nat) : numLevels ((2^L : Nat) : Int)=L := by
  exact levelsLoop_two_pow L _ (Nat.lt_two_pow_self).le

end Xv6.TournamentTree
