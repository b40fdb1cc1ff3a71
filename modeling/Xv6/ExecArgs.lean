import Xv6.ExecLoad

/-! The arguments of `exec`: where the strings and the array of pointers to them lie in the
stack page, and when they do not fit. -/
namespace Xv6.ExecFile
open Function Xv6.PageTree Xv6.Total Xv6.Vm Xv6.UserData
open Xv6.UserMemory (maxarg)
variable {kend : Nat} {r r' : Ram} {rest : Multiset Page} {pt : Pagetable} {n v sp sz : Nat}
  {e : Pte} {argv : List (List UInt8)}

structure OnPage (pt : Pagetable) (v : Nat) (r r' : Ram) : Prop where
  mem : r'.mem=r.mem
  data : ∀ pa o, r'.data pa o≠r.data pa o → ∃ e, leaf pt v=some e ∧ e.pa=pa

theorem OnPage.refl (r : Ram) : OnPage pt v r r := ⟨rfl,fun _ _ hne => absurd rfl hne⟩

theorem OnPage.trans {r'' : Ram} (h : OnPage pt v r r') (h' : OnPage pt v r' r'') :
    OnPage pt v r r'' := by
  refine ⟨h'.mem.trans h.mem,fun pa o hne => ?_⟩
  by_cases hmid : r''.data pa o=r'.data pa o
  · exact h.data pa o (hmid ▸ hne)
  · exact h'.data pa o hmid

theorem OnPage.within (h : OnPage pt v r r') (hv : v < n) : Within pt n r r' := by
  refine ⟨h.mem,fun pa hpa => funext fun o => ?_⟩
  by_contra hne
  obtain ⟨e,he,rfl⟩ := h.data pa o hne
  exact hpa (mem_pagesFrom hv he)

variable {a : Nat}

theorem OnPage.userByte (h : OnPage pt v r r') (hheld : Held kend r.mem rest pt n) (hv : v < n)
    (ha : a/pgsize < v) : userByte r' pt a=UserData.userByte r pt a := by
  rw [UserData.userByte,UserData.userByte]
  cases he : leaf pt (a/pgsize) with
  | none => rfl
  | some e =>
    refine congrArg some ?_
    by_contra hne
    obtain ⟨e',he',hpa⟩ := h.data _ _ hne
    have := leaf_inj hheld hv (ha.trans hv) he' he hpa
    omega

theorem OnPage.memmove (he : leaf pt v=some e) (off len : Nat) (src : Nat → UInt8) :
    OnPage pt v r (r.memmove e.pa off len src) := by
  refine ⟨rfl,fun pa o hne => ⟨e,he,?_⟩⟩
  by_contra hpa
  exact hne (congrFun (update_of_ne (Ne.symm hpa) _ _) o)

/-- The page `v` of the table is for user mode to access. -/
structure StackPage (kend : Nat) (r : Ram) (rest : Multiset Page) (pt : Pagetable) (n v : Nat)
    (e : Pte) : Prop where
  held : Held kend r.mem rest pt n
  lt : v < n
  leaf : leaf pt v=some e
  user : e.perm.u=true

theorem StackPage.memmove (h : StackPage kend r rest pt n v e) (off len : Nat) (src : Nat → UInt8) :
    StackPage kend (r.memmove e.pa off len src) rest pt n v e :=
  ⟨h.held,h.lt,h.leaf,h.user⟩

variable {len : Nat}

theorem StackPage.copyout (h : StackPage kend r rest pt n v e) (hlow : v*pgsize ≤ a)
    (hhigh : a+len≤(v+1)*pgsize) (hlen : 0 < len) (src : Nat → UInt8) :
    copyout r pt a src len=.ok (r.memmove e.pa (a-v*pgsize) len src, true) := by
  have hfew : n≤557056 := h.held.few
  have hlt := h.lt
  have hpage : pgrounddown a=v*pgsize := by
    simp only [pgrounddown,pgsize_eq] at *
    omega
  have hmin : min (pgsize-(a-v*pgsize)) len=len := by
    simp only [pgsize_eq] at *
    omega
  obtain ⟨len,rfl⟩ := Nat.exists_eq_add_of_lt hlen
  simp only [Nat.zero_add] at *
  unfold UserData.copyout copyoutFrom
  rw [if_neg (Nat.succ_ne_zero len),hpage]
  dsimp only
  rw [walkaddr_leaf (by omega) h.leaf h.user]
  simp only [bind,Except.bind]
  rw [if_neg (h.held.page_pos h.lt h.leaf),hmin,Nat.sub_self]
  cases len <;> rfl

theorem copyout_high (ha : maxva ≤ a) (hlen : 0 < len) (src : Nat → UInt8) :
    copyout r pt a src len=.ok (r, false) := by
  obtain ⟨len,rfl⟩ := Nat.exists_eq_add_of_lt hlen
  have hpage : pgrounddown a ≥ maxva := by
    simp only [pgrounddown,pgsize_eq,maxva_eq] at *
    omega
  unfold copyout copyoutFrom
  dsimp only
  rw [walkaddr,if_pos hpage]
  rfl

theorem StackPage.userByte_copy (h : StackPage kend r rest pt n v e) {b : Nat}
    (hlow : v*pgsize ≤ a) (hhigh : a+len≤(v+1)*pgsize) (src : Nat → UInt8)
    (hb : b/pgsize < n) : userByte (r.memmove e.pa (a-v*pgsize) len src) pt b =
      if a ≤ b ∧ b < a+len then some (src (b-a)) else userByte r pt b := by
  have hrange : (b/pgsize=v ∧ a-v*pgsize ≤ b%pgsize ∧
      b%pgsize < a-v*pgsize+len) ↔ (a ≤ b ∧ b < a+len) := by
    simp only [pgsize_eq] at *
    omega
  rw [userByte_memmove_at _ h.held h.lt h.leaf hb]
  by_cases hin : a ≤ b ∧ b < a+len
  · have hoff : b%pgsize-(a-v*pgsize)=b-a := by
      simp only [pgsize_eq] at *
      omega
    rw [if_pos (hrange.mpr hin),if_pos hin,hoff]
  · rw [if_neg (fun hc => hin (hrange.mp hc)),if_neg hin]

/-- The bytes that a push of `k` bytes takes. -/
def padded (k : Nat) : Nat := (k+15)/16*16

def stringBytes (argv : List (List UInt8)) : Nat :=
  (argv.map fun arg => padded (arg.length+1)).sum

theorem stringBytes_mod (argv : List (List UInt8)) : stringBytes argv%16=0 := by
  induction argv with
  | nil => rfl
  | cons arg argv ih =>
    have hcons : stringBytes (arg::argv)=padded (arg.length+1)+stringBytes argv := rfl
    rw [hcons,padded]
    omega

variable {k : Nat}

theorem pushed_eq (hsp : sp%16=0) (hk : k ≤ sp) (hlt : sp<2^64) : pushed sp k=sp-padded k := by
  simp only [pushed,sub64,padded]
  omega

theorem pushed_wraps (hk : sp < k) (hk' : k<2^31) : maxva ≤ pushed sp k := by
  simp only [pushed,sub64,maxva_eq]
  omega

/-- The strings lie below `sp` one under the other, each at its address in `ustack`, down
to `low`. -/
inductive Placed (r : Ram) (pt : Pagetable) : Nat → List (List UInt8) → List Nat → Nat → Prop
  | nil (sp : Nat) : Placed r pt sp [] [] sp
  | cons {sp low a : Nat} {arg : List UInt8} {argv : List (List UInt8)} {ustack : List Nat}
      (room : a+(arg.length+1) ≤ sp)
      (bytes : ∀ j < arg.length+1, userByte r pt (a+j)=some (cstring arg j))
      (more : Placed r pt a argv ustack low) : Placed r pt sp (arg :: argv) (a :: ustack) low

variable {ustack : List Nat} {low : Nat}

theorem Placed.length (h : Placed r pt sp argv ustack low) : ustack.length=argv.length := by
  induction h with
  | nil sp => rfl
  | cons room bytes more ih => rw [List.length_cons,List.length_cons,ih]

theorem Placed.low_le (h : Placed r pt sp argv ustack low) : low ≤ sp := by
  induction h with
  | nil sp => exact le_rfl
  | cons room bytes more ih => omega

variable {arg : List UInt8}

theorem Placed.string {i : Nat} (h : Placed r pt sp argv ustack low) (harg : argv[i]?=some arg)
    (ha : ustack[i]?=some a) :
    low ≤ a ∧ a+(arg.length+1) ≤ sp ∧ ∀ j < arg.length+1, userByte r pt (a+j)=some (cstring arg j) := by
  induction h generalizing i with
  | nil sp => simp at ha
  | cons room bytes more ih =>
    cases i with
    | zero =>
      cases harg
      cases ha
      exact ⟨more.low_le,room,bytes⟩
    | succ i =>
      obtain ⟨hlow,hhigh,hbytes⟩ := ih harg ha
      exact ⟨hlow,by omega,hbytes⟩

theorem Placed.under {i j b : Nat}
    (h : Placed r pt sp argv ustack low) (hij : i < j) (ha : ustack[i]?=some a)
    (harg : argv[j]?=some arg) (hb : ustack[j]?=some b) : b+(arg.length+1) ≤ a := by
  induction h generalizing i j with
  | nil sp => simp at ha
  | cons room bytes more ih =>
    obtain ⟨j,rfl⟩ : ∃ k, j=k+1 := ⟨j-1,by omega⟩
    cases i with
    | zero =>
      cases ha
      exact (more.string harg hb).2.1
    | succ i => exact ih (by omega) ha harg hb

theorem pushArgs_cons {stackbase : Nat}
    (hcount : ustack.length < maxarg) (hroom : stackbase ≤ pushed sp (arg.length+1)) :
    pushArgs pt stackbase r sp ustack (arg::argv)=(do
      let (r, copied) ← copyout r pt (pushed sp (arg.length+1)) (cstring arg) (arg.length+1)
      if copied then
        pushArgs pt stackbase r (pushed sp (arg.length+1)) (ustack++[pushed sp (arg.length+1)]) argv
      else .ok (r, none)) := by
  rw [pushArgs,if_neg (by omega)]
  rw [if_neg (by omega)]

theorem pushArgs_spec (ustack : List Nat) (h : StackPage kend r rest pt n v e) (hpos : 0 < v)
    (haligned : sp%16=0) (hlow : v*pgsize ≤ sp) (hhigh : sp≤(v+1)*pgsize)
    (hcount : ustack.length+argv.length < maxarg) (hargs : ∀ arg∈argv, arg.length+1<2^31) :
    Yields (pushArgs pt (v*pgsize) r sp ustack argv) fun x => OnPage pt v r x.1 ∧
      (∀ b, sp ≤ b → b/pgsize < n → userByte x.1 pt b=userByte r pt b) ∧
      ((v*pgsize+stringBytes argv ≤ sp ∧ ∃ addrs, x.2=some (sp-stringBytes argv, ustack++addrs) ∧
          Placed x.1 pt sp argv addrs (sp-stringBytes argv)) ∨
        (sp < v*pgsize+stringBytes argv ∧ x.2=none)) := by
  have hfew : n≤557056 := h.held.few
  have hlt := h.lt
  induction argv generalizing r sp ustack with
  | nil =>
    have hnone : stringBytes []=0 := rfl
    rw [hnone,Nat.add_zero,Nat.sub_zero]
    exact .ok ⟨.refl r,fun b _ _ => rfl,.inl ⟨hlow,[],by rw [List.append_nil],.nil sp⟩⟩
  | cons arg argv ih =>
    have hlen := hargs arg List.mem_cons_self
    have hbytes : stringBytes (arg::argv)=padded (arg.length+1)+stringBytes argv := rfl
    rw [List.length_cons] at hcount
    by_cases hwrap : sp < arg.length+1
    · -- `sp` wraps around, and `copyout` finds no page there
      have hmax := pushed_wraps hwrap hlen
      have hroom : v*pgsize ≤ pushed sp (arg.length+1) := by
        simp only [pgsize_eq,maxva_eq] at *
        omega
      rw [pushArgs_cons (by omega) hroom,copyout_high hmax (Nat.succ_pos _)]
      refine .ok ⟨.refl r,fun b _ _ => rfl,.inr ⟨?_,rfl⟩⟩
      simp only [hbytes,padded,pgsize_eq] at *
      omega
    have hsp : sp<2^64 := by
      simp only [pgsize_eq] at hhigh
      omega
    have hpush := pushed_eq haligned (by omega : arg.length+1 ≤ sp) hsp
    by_cases hroom : v*pgsize ≤ pushed sp (arg.length+1)
    · have hdown : pushed sp (arg.length+1)+(arg.length+1) ≤ sp := by
        rw [hpush]
        simp only [padded]
        omega
      rw [pushArgs_cons (by omega) hroom,h.copyout hroom (hdown.trans hhigh) (Nat.succ_pos _)]
      refine Yields.ok_bind ?_
      refine (ih _ (h.memmove _ _ _) ?_ hroom ((Nat.le_add_right _ _).trans (hdown.trans hhigh)) ?_
        (fun a ha => hargs a (List.mem_cons_of_mem _ ha))).weaken ?_
      · rw [hpush]
        simp only [padded]
        omega
      · rw [List.length_append,List.length_singleton]
        omega
      rintro x ⟨hpage,hframe,hcases⟩
      have hcopy := fun b => h.userByte_copy (b := b) hroom (hdown.trans hhigh) (cstring arg)
      refine ⟨(OnPage.memmove h.leaf _ _ _).trans hpage,fun b hb hbn => ?_,?_⟩
      · rw [hframe b (by omega) hbn,hcopy b hbn,if_neg (by omega)]
      have hnext : pushed sp (arg.length+1)-stringBytes argv=sp-stringBytes (arg::argv) := by
        rw [hpush,hbytes,Nat.sub_sub]
      rcases hcases with ⟨hfit,addrs,hx,hplaced⟩ | ⟨hfull,hx⟩
      · rw [hnext] at hx hplaced
        refine .inl ⟨?_,pushed sp (arg.length+1) :: addrs,?_,.cons hdown (fun j hj => ?_) hplaced⟩
        · simp only [hbytes,padded] at *
          omega
        · rw [hx,List.append_assoc,List.singleton_append]
        · have hin : (pushed sp (arg.length+1)+j)/pgsize < n := by
            simp only [pgsize_eq] at *
            omega
          rw [hframe _ (by omega) hin,hcopy _ hin,if_pos (by omega),Nat.add_sub_cancel_left]
      · refine .inr ⟨?_,hx⟩
        omega
    · rw [pushArgs,if_neg (by omega)]
      dsimp only
      rw [if_pos (by omega)]
      refine .ok ⟨.refl r,fun b _ _ => rfl,.inr ⟨?_,rfl⟩⟩
      omega

def userWord (r : Ram) (pt : Pagetable) (a : Nat) : Nat → Option Nat
  | 0 => some 0
  | k+1 => do
    let b ← userByte r pt a
    let w ← userWord r pt (a+1) k
    some (b.toNat+256*w)

theorem userWord_of_bytes {w : Nat}
    (h : ∀ i < k, userByte r pt (a+i)=some (UInt8.ofNat (w/256^i))) :
    userWord r pt a k=some (w%256^k) := by
  induction k generalizing a w with
  | zero => rw [userWord,Nat.pow_zero,Nat.mod_one]
  | succ k ih =>
    have hfirst := h 0 (Nat.succ_pos k)
    rw [Nat.add_zero,Nat.pow_zero,Nat.div_one] at hfirst
    have hmore : userWord r pt (a+1) k=some (w/256%256^k) := by
      refine ih fun i hi => ?_
      rw [Nat.add_right_comm,Nat.add_assoc,h (i+1) (by omega),Nat.pow_succ',Nat.div_div_eq_div_mul]
    rw [userWord,hfirst,hmore,Nat.pow_succ',Nat.mod_mul]
    simp [UInt8.toNat_ofNat']

/-- What a program finds on its stack when `main` is called: `argv` at `sp`. -/
structure Passed (r : Ram) (pt : Pagetable) (sz sp : Nat) (argv : List (List UInt8))
    (ustack : List Nat) : Prop where
  aligned : sp%16=0
  /-- the array lies in the stack page -/
  page : sz-pgsize ≤ sp ∧ sp+8*(argv.length+1) ≤ sz
  count : ustack.length=argv.length
  /-- the words of the array are the addresses of the strings, and 0 -/
  pointers : ∀ (i a : Nat), (ustack++[0])[i]?=some a → userWord r pt (sp+8*i) 8=some a
  /-- at each address is the string with its end, in the stack page above the array -/
  strings : ∀ (i : Nat) arg a, argv[i]?=some arg → ustack[i]?=some a →
    sp+8*(argv.length+1) ≤ a ∧ a+(arg.length+1) ≤ sz ∧
      ∀ j < arg.length+1, userByte r pt (a+j)=some (cstring arg j)
  /-- the strings do not overlap: each lies under those before it -/
  under : ∀ (i j : Nat) arg a b, i < j → ustack[i]?=some a → argv[j]?=some arg → ustack[j]?=some b →
    b+(arg.length+1) ≤ a

theorem userWord_congr (h : ∀ i < k, userByte r' pt (a+i)=userByte r pt (a+i)) :
    userWord r' pt a k=userWord r pt a k := by
  induction k generalizing a with
  | zero => rfl
  | succ k ih =>
    have hmore : userWord r' pt (a+1) k=userWord r pt (a+1) k := by
      refine ih fun i hi => ?_
      rw [Nat.add_right_comm,Nat.add_assoc]
      exact h (i+1) (by omega)
    have hfirst : userByte r' pt a=userByte r pt a := h 0 (Nat.succ_pos k)
    rw [userWord,userWord,hmore,hfirst]

theorem Passed.congr (h : Passed r pt sz sp argv ustack)
    (hsame : ∀ a < sz, userByte r' pt a=userByte r pt a) : Passed r' pt sz sp argv ustack := by
  refine ⟨h.aligned,h.page,h.count,fun i a ha => ?_,fun i arg a harg ha => ?_,h.under⟩
  · have hi := (List.getElem?_eq_some_iff.mp ha).1
    rw [List.length_append,List.length_singleton,h.count] at hi
    have harray := h.page.2
    rw [userWord_congr fun k hk => hsame _ (by omega)]
    exact h.pointers i a ha
  · obtain ⟨hlow,hhigh,hbytes⟩ := h.strings i arg a harg ha
    exact ⟨hlow,hhigh,fun j hj => (hsame _ (by omega)).trans (hbytes j hj)⟩

/-- The strings, padded to 16 bytes each, and the array of pointers fit in the stack page. -/
def Fits (argv : List (List UInt8)) : Prop := stringBytes argv+8*(argv.length+1) ≤ pgsize

theorem Placed.passed (hstack : StackPage kend r rest pt n v e)
    (h : Placed r pt ((v+1)*pgsize) argv ustack low) (hsp : v*pgsize ≤ sp)
    (haligned : sp%16=0) (hroom : sp+8*(argv.length+1) ≤ low) :
    Passed (r.memmove e.pa (sp-v*pgsize) (8*(argv.length+1)) (words (ustack++[0]))) pt
      ((v+1)*pgsize) sp argv ustack := by
  have hfew : n≤557056 := hstack.held.few
  have hlt := hstack.lt
  have hlow := h.low_le
  have hcopy := fun b hb => hstack.userByte_copy (b := b) hsp (hroom.trans hlow)
    (words (ustack++[0])) hb
  have hpage : ∀ b<(v+1)*pgsize, b/pgsize < n := by
    intro b hb
    simp only [pgsize_eq] at *
    omega
  have hsmall : ∀ i a, (ustack++[0])[i]?=some a → i < argv.length+1 ∧ a<256^8 := by
    intro i a ha
    obtain ⟨hi,hget⟩ := List.getElem?_eq_some_iff.mp ha
    rw [List.length_append,List.length_singleton,h.length] at hi
    refine ⟨hi,?_⟩
    by_cases hlast : i < ustack.length
    · rw [List.getElem?_append_left hlast] at ha
      obtain ⟨arg,harg⟩ : ∃ arg, argv[i]?=some arg :=
        ⟨_,List.getElem?_eq_getElem (h.length ▸ hlast)⟩
      have hend := (h.string harg ha).2.1
      simp only [pgsize_eq] at hend
      omega
    · rw [List.getElem?_append_right (by omega)] at ha
      have hzero : i-ustack.length=0 := by
        rw [h.length]
        omega
      rw [hzero] at ha
      cases ha
      decide
  refine ⟨haligned,?_,h.length,fun i a ha => ?_,fun i arg a harg ha => ?_,
    fun i j arg a b hij ha harg hb => h.under hij ha harg hb⟩
  · simp only [pgsize_eq] at *
    omega
  · obtain ⟨hi,ha'⟩ := hsmall i a ha
    rw [userWord_of_bytes (w := a),Nat.mod_eq_of_lt ha']
    intro k hk
    have hword : (8*i+k)/8=i ∧ (8*i+k)%8=k := by omega
    rw [hcopy _ (hpage _ (by omega)),if_pos (by omega),Nat.add_assoc sp,Nat.add_sub_cancel_left,
      words,hword.1,hword.2,List.getD_eq_getElem?_getD,ha,Option.getD_some]
  · obtain ⟨hlow',hhigh,hbytes⟩ := h.string harg ha
    refine ⟨hroom.trans hlow',hhigh,fun j hj => ?_⟩
    rw [hcopy _ (hpage _ (by omega)),if_neg (by omega),hbytes j hj]

theorem pushStack_spec (h : StackPage kend r rest pt n v e) (hpos : 0 < v)
    (hlen : argv.length < maxarg) (hargs : ∀ arg∈argv, arg.length+1<2^31) :
    Yields (pushStack r pt ((v+1)*pgsize) argv) fun x => OnPage pt v r x.1 ∧
      ((Fits argv ∧ ∃ sp ustack, x.2=some (sp, argv.length) ∧
          Passed x.1 pt ((v+1)*pgsize) sp argv ustack) ∨ (¬ Fits argv ∧ x.2=none)) := by
  have hfew : n≤557056 := h.held.few
  have hlt := h.lt
  have hbase : sub64 ((v+1)*pgsize) pgsize=v*pgsize := by
    rw [sub64,pgsize_eq]
    omega
  have htop : (v+1)*pgsize%16=0 := by
    rw [pgsize_eq]
    omega
  rw [maxarg] at hlen
  unfold pushStack
  rw [hbase]
  refine (pushArgs_spec [] h hpos htop (Nat.mul_le_mul_right _ (Nat.le_succ v)) le_rfl
    (by rwa [List.length_nil,Nat.zero_add,maxarg]) hargs).bind ?_
  rintro ⟨r₁,top⟩ ⟨hpage,-,⟨hfit,ustack,htop',hplaced⟩ | ⟨hfull,htop'⟩⟩
  · subst htop'
    have hmod := stringBytes_mod argv
    have hcount := hplaced.length
    rw [List.nil_append]
    dsimp only
    rw [hcount,Nat.mul_comm (argv.length+1) 8]
    have hlow : 8*(argv.length+1)≤(v+1)*pgsize-stringBytes argv := by
      simp only [pgsize_eq] at *
      omega
    have hpush := pushed_eq (by omega) hlow (by simp only [pgsize_eq]; omega)
    generalize hsp : pushed ((v+1)*pgsize-stringBytes argv) (8*(argv.length+1))=sp at hpush ⊢
    by_cases hroom : sp < v*pgsize
    · rw [if_pos hroom]
      refine .ok ⟨hpage,.inr ⟨?_,rfl⟩⟩
      simp only [Fits,padded,pgsize_eq] at *
      omega
    · rw [if_neg hroom]
      have hup : sp+8*(argv.length+1)≤(v+1)*pgsize-stringBytes argv := by
        simp only [padded] at hpush
        omega
      have h₁ : StackPage kend r₁ rest pt n v e := ⟨hpage.mem.symm ▸ h.held,h.lt,h.leaf,h.user⟩
      rw [h₁.copyout (by omega) (hup.trans (Nat.sub_le _ _)) (by omega)]
      refine .ok ⟨hpage.trans (.memmove h.leaf _ _ _),.inl ⟨?_,sp,ustack,rfl,?_⟩⟩
      · simp only [Fits,padded,pgsize_eq] at *
        omega
      · refine hplaced.passed h₁ (by omega) ?_ hup
        simp only [padded] at hpush
        omega
  · subst htop'
    refine .ok ⟨hpage,.inr ⟨?_,rfl⟩⟩
    simp only [Fits,pgsize_eq] at *
    omega

end Xv6.ExecFile
