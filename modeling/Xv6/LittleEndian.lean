import Mathlib.Logic.Function.Basic
import Mathlib.Algebra.Group.Nat.Defs

/-! Numbers of `n` bytes, lowest byte first, in a region of memory. -/
namespace Xv6.LittleEndian
open Function
variable {b c : Nat → UInt8} {off off' n n' v k : Nat}

def get (b : Nat → UInt8) (off : Nat) : Nat → Nat
  | 0 => 0
  | n+1 => (b off).toNat+256*get b (off+1) n

def put (b : Nat → UInt8) (off : Nat) : Nat → Nat → Nat → UInt8
  | 0, _ => b
  | n+1, v => update (put b (off+1) n (v/256)) off (UInt8.ofNat v)

theorem get_congr (h : ∀ k, off ≤ k → k < off+n → b k=c k) : get b off n=get c off n := by
  induction n generalizing off with
  | zero => rfl
  | succ n ih =>
    have htail : get b (off+1) n=get c (off+1) n := ih fun k hk hk' => h k (by omega) (by omega)
    rw [get,get,h off (Nat.le_refl _) (by omega),htail]

theorem get_shift (b : Nat → UInt8) (m off n : Nat) :
    get (fun j => b (m+j)) off n=get b (m+off) n := by
  induction n generalizing off with
  | zero => rfl
  | succ n ih => rw [get,get,ih,Nat.add_assoc]

theorem get_lt (b : Nat → UInt8) (off n : Nat) : get b off n < 256^n := by
  induction n generalizing off with
  | zero => exact Nat.one_pos
  | succ n ih =>
    have hbyte := (b off).toNat_lt
    have hrest := ih (off+1)
    rw [get,Nat.pow_succ]
    omega

theorem get_zero (h : ∀ k, off ≤ k → k < off+n → b k=0) : get b off n=0 := by
  induction n generalizing off with
  | zero => rfl
  | succ n ih =>
    rw [get,h off (Nat.le_refl _) (by omega),ih fun k hk hk' => h k (by omega) (by omega)]
    rfl

theorem put_of_not_mem (hk : k < off ∨ off+n ≤ k) : put b off n v k=b k := by
  induction n generalizing off v with
  | zero => rfl
  | succ n ih =>
    rw [put,update_of_ne (by omega)]
    exact ih (by omega)

theorem get_put (b : Nat → UInt8) (off n v : Nat) : get (put b off n v) off n=v%256^n := by
  induction n generalizing off v with
  | zero => rw [get,Nat.pow_zero,Nat.mod_one]
  | succ n ih =>
    have htail : get (put b off (n+1) v) (off+1) n=get (put b (off+1) n (v/256)) (off+1) n :=
      get_congr fun k hk _ => by rw [put,update_of_ne (by omega)]
    have hhead : (put b off (n+1) v off).toNat=v%256 := by
      rw [put,update_self]
      exact UInt8.toNat_ofNat'
    rw [get,hhead,htail,ih,Nat.pow_succ,Nat.mul_comm (256^n),Nat.mod_mul]

theorem get_put_of_lt (h : v<256^n) : get (put b off n v) off n=v := by
  rw [get_put,Nat.mod_eq_of_lt h]

theorem get_put_of_disjoint (h : off+n ≤ off' ∨ off'+n' ≤ off) :
    get (put b off n v) off' n'=get b off' n' :=
  get_congr fun _ _ _ => put_of_not_mem (by omega)

end Xv6.LittleEndian
