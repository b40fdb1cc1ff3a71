import Mathlib.Algebra.Group.Nat.Defs
import Mathlib.Logic.Function.Basic

/-! `memmove` of the kernel, `kernel/string.c`, and of the user library, `user/ulib.c`. Pointers
are numbers modulo `2^64`. -/
namespace Xv6.MemMove
open Function

abbrev Addr : Type := BitVec 64
abbrev Mem : Type := Addr → UInt8

variable {m : Mem} {dst src : Addr} {n : Nat}

/-- `while(n-- > 0) *d++ = *s++;` -/
def copyUp : Nat → Mem → Addr → Addr → Mem
  | 0, m, _, _ => m
  | n+1, m, d, s => copyUp n (update m d (m s)) (d+1) (s+1)

/-- `while(n-- > 0) *--d = *--s;` -/
def copyDown : Nat → Mem → Addr → Addr → Mem
  | 0, m, _, _ => m
  | n+1, m, d, s => copyDown n (update m (d-1) (m (s-1))) (d-1) (s-1)

/-- `memmove` of the kernel, where `n` is unsigned. -/
def kernelMemmove (m : Mem) (dst src : Addr) (n : BitVec 32) : Mem :=
  if n=0 then m
  else if src < dst ∧ dst < src+n.setWidth 64 then
    copyDown n.toNat m (dst+n.setWidth 64) (src+n.setWidth 64)
  else copyUp n.toNat m dst src

/-- `memmove` of the user library, where `n` is signed. -/
def userMemmove (m : Mem) (dst src : Addr) (n : BitVec 32) : Mem :=
  if dst < src then copyUp n.toInt.toNat m dst src
  else copyDown n.toInt.toNat m (dst+n.signExtend 64) (src+n.signExtend 64)

/-- `n` bytes from `src` on are at `dst`, and everything else is as before. -/
structure Moved (m : Mem) (dst src : Addr) (n : Nat) (m' : Mem) : Prop where
  copied : ∀ i < n, m' (dst+BitVec.ofNat 64 i)=m (src+BitVec.ofNat 64 i)
  others : ∀ a, a.toNat < dst.toNat ∨ dst.toNat+n ≤ a.toNat → m' a=m a

theorem offset_toNat {p : Addr} {i : Nat} (h : p.toNat+i<2^64) :
    (p+BitVec.ofNat 64 i).toNat=p.toNat+i := by
  rw [BitVec.toNat_add,BitVec.toNat_ofNat]
  omega

theorem offset_succ (p : Addr) (i : Nat) : p+BitVec.ofNat 64 (i+1)=p+1+BitVec.ofNat 64 i := by
  rw [BitVec.ofNat_add,BitVec.add_assoc,BitVec.add_comm 1]
  rfl

theorem offset_pred (p : Addr) (i : Nat) : p+BitVec.ofNat 64 (i+1)-1=p+BitVec.ofNat 64 i := by
  rw [BitVec.ofNat_add,← BitVec.add_assoc]
  exact BitVec.add_sub_cancel ..

theorem exists_offset {p a : Addr} (h : ¬(a.toNat < p.toNat ∨ p.toNat+n ≤ a.toNat)) :
    ∃ i < n, a=p+BitVec.ofNat 64 i := by
  have hlt := a.isLt
  refine ⟨a.toNat-p.toNat,by omega,BitVec.eq_of_toNat_eq ?_⟩
  rw [offset_toNat (by omega)]
  omega

theorem Moved.unique {m₁ m₂ : Mem} (h₁ : Moved m dst src n m₁) (h₂ : Moved m dst src n m₂) : m₁=m₂ := by
  funext a
  by_cases ha : a.toNat < dst.toNat ∨ dst.toNat+n ≤ a.toNat
  · rw [h₁.others a ha,h₂.others a ha]
  · obtain ⟨i,hi,rfl⟩ := exists_offset ha
    rw [h₁.copied i hi,h₂.copied i hi]

theorem copyUp_moved (hd : dst.toNat+n≤2^64) (hs : src.toNat+n≤2^64)
    (hup : dst.toNat ≤ src.toNat ∨ src.toNat+n ≤ dst.toNat) :
    Moved m dst src n (copyUp n m dst src) := by
  induction n generalizing m dst src with
  | zero => exact ⟨nofun,fun _ _ => rfl⟩
  | succ n ih =>
    have hdst : n=0 ∨ (dst+1).toNat=dst.toNat+1 := by bv_omega
    have hsrc : n=0 ∨ (src+1).toNat=src.toNat+1 := by bv_omega
    have hrest := @ih (update m dst (m src)) (dst+1) (src+1) (by bv_omega) (by bv_omega) (by omega)
    refine ⟨fun i hi => ?_,fun a ha => ?_⟩
    · cases i with
      | zero =>
        rw [copyUp,BitVec.add_zero,BitVec.add_zero,hrest.others dst (by bv_omega),update_self]
      | succ i =>
        have hread : src+1+BitVec.ofNat 64 i≠dst := by
          intro heq
          have hnat := congrArg BitVec.toNat heq
          rw [offset_toNat (by omega)] at hnat
          omega
        rw [copyUp,offset_succ,offset_succ,hrest.copied i (by omega),update_of_ne hread]
    · have hne : a≠dst := by
        rintro rfl
        omega
      rw [copyUp,hrest.others a (by omega),update_of_ne hne]

theorem copyDown_moved (hd : dst.toNat+n≤2^64) (hdown : src.toNat ≤ dst.toNat) :
    Moved m dst src n (copyDown n m (dst+BitVec.ofNat 64 n) (src+BitVec.ofNat 64 n)) := by
  induction n generalizing m with
  | zero => exact ⟨nofun,fun _ _ => rfl⟩
  | succ n ih =>
    have htop : (dst+BitVec.ofNat 64 n).toNat=dst.toNat+n := offset_toNat (by omega)
    have hrest := ih (m := update m (dst+BitVec.ofNat 64 n) (m (src+BitVec.ofNat 64 n))) (by omega)
    rw [copyDown,offset_pred,offset_pred]
    refine ⟨fun i hi => ?_,fun a ha => ?_⟩
    · by_cases hlast : i=n
      · rw [hlast,hrest.others _ (by omega),update_self]
      · have hread : src+BitVec.ofNat 64 i≠dst+BitVec.ofNat 64 n := by
          intro heq
          have hnat := congrArg BitVec.toNat heq
          rw [offset_toNat (by omega)] at hnat
          omega
        rw [hrest.copied i (by omega),update_of_ne hread]
    · have hne : a≠dst+BitVec.ofNat 64 n := by
        rintro rfl
        omega
      rw [hrest.others a (by omega),update_of_ne hne]

theorem kernelMemmove_moved {n : BitVec 32} (hd : dst.toNat+n.toNat≤2^64)
    (hs : src.toNat+n.toNat≤2^64) : Moved m dst src n.toNat (kernelMemmove m dst src n) := by
  have hwidth : n.setWidth 64=BitVec.ofNat 64 n.toNat := (BitVec.ofNat_toNat ..).symm
  unfold kernelMemmove
  split
  · next hzero =>
    subst hzero
    exact ⟨nofun,fun _ _ => rfl⟩
  · next hzero =>
    rw [hwidth]
    split
    · next hlt => exact copyDown_moved hd (by bv_omega)
    · next hup =>
      refine copyUp_moved hd hs ?_
      by_contra hover
      have hend : (src+BitVec.ofNat 64 n.toNat).toNat=src.toNat+n.toNat := offset_toNat (by omega)
      exact hup ⟨by bv_omega,by rw [BitVec.lt_def,hend]; omega⟩

theorem userMemmove_moved {n : BitVec 32} (hn : 0 ≤ n.toInt) (hd : dst.toNat+n.toNat≤2^64)
    (hs : src.toNat+n.toNat≤2^64) : Moved m dst src n.toNat (userMemmove m dst src n) := by
  have hmsb : n.msb=false := by simpa [BitVec.msb_eq_toInt] using hn
  have hcount : n.toInt.toNat=n.toNat := by rw [BitVec.toInt_eq_toNat_of_msb hmsb,Int.toNat_natCast]
  have hwidth : n.signExtend 64=BitVec.ofNat 64 n.toNat := by
    rw [BitVec.signExtend_eq_setWidth_of_msb_false hmsb,BitVec.ofNat_toNat]
  unfold userMemmove
  rw [hcount,hwidth]
  split
  · next hup => exact copyUp_moved hd hs (.inl (Nat.le_of_lt hup))
  · next hdown => exact copyDown_moved hd (Nat.not_lt.mp hdown)

/-- **Overlapping copies.** If neither range wraps around, both versions of `memmove` leave the old
bytes of the source at the destination and every byte outside of it as it was, so the
two do the same wherever the second may be called. -/
theorem memmove_overlapping (m : Mem) (dst src : Addr) (n : BitVec 32)
    (hd : dst.toNat+n.toNat ≤ 2^64) (hs : src.toNat+n.toNat ≤ 2^64) :
    Moved m dst src n.toNat (kernelMemmove m dst src n) ∧
      (0 ≤ n.toInt → Moved m dst src n.toNat (userMemmove m dst src n) ∧
        userMemmove m dst src n=kernelMemmove m dst src n) := by
  have hkernel : Moved m dst src n.toNat (kernelMemmove m dst src n) := kernelMemmove_moved hd hs
  refine ⟨hkernel,fun hn => ?_⟩
  have huser : Moved m dst src n.toNat (userMemmove m dst src n) := userMemmove_moved hn hd hs
  exact ⟨huser,huser.unique hkernel⟩

/-- Three bytes are moved up by one, at the very end of the address space. -/
theorem memmove_by_one : kernelMemmove (fun a => UInt8.ofNat a.toNat) (-3) (-4) 3 (-1)=254 ∧
    userMemmove (fun a => UInt8.ofNat a.toNat) (-3) (-4) 3 (-1)=254 := by
  obtain ⟨hkernel,huser⟩ :=
    memmove_overlapping (fun a => UInt8.ofNat a.toNat) (-3) (-4) 3 (by decide) (by decide)
  exact ⟨(hkernel.copied 2 (by decide)).trans (by decide),
    ((huser (by decide)).1.copied 2 (by decide)).trans (by decide)⟩

end Xv6.MemMove
