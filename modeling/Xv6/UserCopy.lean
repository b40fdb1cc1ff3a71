import Xv6.UserData
import Xv6.VmHeld

/-! Copies between the kernel and user memory, `copyin`, `copyout` and `copyinstr` of `kernel/vm.c`,
with 64-bit addresses: page by page is the same as byte by byte. -/
namespace Xv6.UserCopy
open Function Xv6.PageTree Xv6.Total Xv6.Vm Xv6.UserData
variable {r r' : Ram} {pt : Pagetable} {va len k n pos max fuel : Nat} {pa : Page} {src : Nat → UInt8}

/-- A buffer of the kernel, and the bytes of memory that were read for it. -/
structure Buffer where
  dst : Nat → UInt8
  reads : List (Page × Nat)

def Buffer.memmove (b : Buffer) (r : Ram) (pos : Nat) (pa : Page) (off n : Nat) : Buffer where
  dst i := if pos ≤ i ∧ i < pos+n then r.data pa (off+(i-pos)) else b.dst i
  reads := b.reads++(List.range n).map fun j => (pa, off+j)

def copyinFrom (r : Ram) (pt : Pagetable) :
    Nat → Buffer → Nat → Nat → Nat → Except Panic (Buffer × Bool)
  | 0, b, _, _, len => .ok (b, len=0)
  | k+1, b, pos, srcva, len =>
    if len=0 then .ok (b, true)
    else do
      let va0 := pgrounddown srcva
      let pa0 ← walkaddr pt va0
      if pa0=0 then .ok (b, false)
      else
        let n := min (pgsize-(srcva-va0)) len
        copyinFrom r pt k (b.memmove r pos pa0 (srcva-va0) n) (pos+n) (add64 va0 pgsize) (len-n)

def copyin (r : Ram) (pt : Pagetable) (b : Buffer) (srcva len : Nat) : Except Panic (Buffer × Bool) :=
  copyinFrom r pt len b 0 srcva len

/-- The inner loop of `copyinstr`, over `n` bytes of a page: the buffer, where it goes on, what is
left of `max`, and `got_null`. -/
def copyinstrPage (r : Ram) (pa : Page) : Nat → Buffer → Nat → Nat → Nat → Buffer × Nat × Nat × Bool
  | 0, b, pos, _, max => (b, pos, max, false)
  | n+1, b, pos, off, max =>
    if r.data pa off=0 then (b.memmove r pos pa off 1, pos, max, true)
    else copyinstrPage r pa n (b.memmove r pos pa off 1) (pos+1) (off+1) (max-1)

/-- The loop of `copyinstr`; each round that goes on takes a byte at least off `max`. -/
def copyinstrFrom (r : Ram) (pt : Pagetable) :
    Nat → Buffer → Nat → Nat → Nat → Except Panic (Buffer × Bool)
  | 0, b, _, _, _ => .ok (b, false)
  | k+1, b, pos, srcva, max =>
    if max=0 then .ok (b, false)
    else do
      let va0 := pgrounddown srcva
      let pa0 ← walkaddr pt va0
      if pa0=0 then .ok (b, false)
      else
        let n := min (pgsize-(srcva-va0)) max
        match copyinstrPage r pa0 n b pos (srcva-va0) max with
        | (b, _, _, true) => .ok (b, true)
        | (b, pos, max, false) => copyinstrFrom r pt k b pos (add64 va0 pgsize) max

def copyinstr (r : Ram) (pt : Pagetable) (b : Buffer) (srcva max : Nat) : Except Panic (Buffer × Bool) :=
  copyinstrFrom r pt max b 0 srcva max

/-- The entry through which user mode may access the address. -/
def entry (pt : Pagetable) (a : Nat) : Option Pte :=
  if a < maxva then (leaf pt (a/pgsize)).filter fun e => e.perm.u else none

def Accessible (pt : Pagetable) (a : Nat) : Prop := (entry pt a).isSome

def target (pt : Pagetable) (a : Nat) : Page × Nat := (((entry pt a).map Pte.pa).getD 0, a%pgsize)

def byteAt (r : Ram) (pt : Pagetable) (a : Nat) : UInt8 := r.data (target pt a).1 (target pt a).2

/-- `walkaddr` gives a page for the address, so that a copy goes on there. -/
def Gets (pt : Pagetable) (a : Nat) : Prop := (target pt a).1≠0

/-- The entries of the table hold non-zero physical addresses. -/
def NonZero (pt : Pagetable) : Prop := ∀ v e, leaf pt v=some e → e.pa≠0

def Buffer.fill (b : Buffer) (r : Ram) (pt : Pagetable) (pos va k : Nat) : Buffer where
  dst i := if pos ≤ i ∧ i < pos+k then byteAt r pt (va+(i-pos)) else b.dst i
  reads := b.reads++(List.range k).map fun i => target pt (va+i)

def write (r : Ram) (x : Page × Nat) (c : UInt8) : Ram :=
  { r with data := update r.data x.1 (update (r.data x.1) x.2 c) }

def fillOut (r : Ram) (pt : Pagetable) (va : Nat) (src : Nat → UInt8) (k : Nat) : Ram :=
  (List.range k).foldl (fun r i => write r (target pt (va+i)) (src i)) r

theorem entry_congr {a a' : Nat} (h : a/pgsize=a'/pgsize) : entry pt a=entry pt a' := by
  have hlt : a < maxva ↔ a' < maxva := by
    simp only [pgsize_eq,maxva_eq] at h ⊢
    omega
  simp only [entry,h,hlt]

theorem walk_eq (hva : ¬ va ≥ maxva) (pt : Pagetable) :
    walk pt va=.ok ((pt.entry (px 2 va)).bind fun t =>
      (t.entry (px 1 va)).map fun t => t.entry (px 0 va)) := if_neg hva

theorem walkaddr_eq (pt : Pagetable) (va : Nat) :
    walkaddr pt (pgrounddown va)=.ok (target pt va).1 := by
  show _ = Except.ok (((entry pt va).map Pte.pa).getD 0)
  have hpage : pgrounddown va/pgsize=va/pgsize := Nat.mul_div_cancel _ (by decide)
  rw [← entry_congr hpage,entry,walkaddr,hpage]
  by_cases hva : pgrounddown va ≥ maxva
  · rw [if_pos hva,if_neg (Nat.not_lt.mpr hva)]
    rfl
  · rw [if_neg hva,if_pos (Nat.lt_of_not_le hva),walk_eq hva]
    have hleaf : leaf pt (va/pgsize)=((pt.entry (px 2 (pgrounddown va))).bind fun t =>
        (t.entry (px 1 (pgrounddown va))).map fun t => t.entry (px 0 (pgrounddown va))).join := by
      rw [leaf,lookup,path,pgrounddown]
      cases pt.entry (px 2 (va/pgsize*pgsize)) with
      | none => rfl
      | some t =>
        rw [Option.bind_some,Option.bind_some]
        cases t.entry (px 1 (va/pgsize*pgsize)) with
        | none => rfl
        | some t => rfl
    rw [hleaf]
    cases (pt.entry (px 2 (pgrounddown va))).bind fun t =>
        (t.entry (px 1 (pgrounddown va))).map fun t => t.entry (px 0 (pgrounddown va)) with
    | none => rfl
    | some e =>
      cases e with
      | none => rfl
      | some e =>
        cases hu : e.perm.u with
        | false => simp [bind,Except.bind,hu,Option.filter]
        | true => simp [bind,Except.bind,hu,Option.filter]

theorem Gets.accessible (h : Gets pt va) : Accessible pt va := by
  rw [Accessible,Option.isSome_iff_ne_none]
  intro hnone
  rw [Gets,target,hnone] at h
  exact h rfl

theorem gets_iff (hpt : NonZero pt) : Gets pt va ↔ Accessible pt va := by
  refine ⟨Gets.accessible,fun h => ?_⟩
  obtain ⟨e,he⟩ := Option.isSome_iff_exists.mp h
  have hleaf : leaf pt (va/pgsize)=some e := by
    rw [entry] at he
    split_ifs at he
    exact (Option.filter_eq_some_iff.mp he).1
  rw [Gets,target,he]
  exact hpt _ _ hleaf

theorem target_page (hn : n ≤ pgsize-(va-pgrounddown va)) {j : Nat} (hj : j < n) :
    target pt (va+j)=((target pt va).1, va-pgrounddown va+j) := by
  have hpage : (va+j)/pgsize=va/pgsize := by
    simp only [pgrounddown,pgsize_eq] at hn ⊢
    omega
  have hoff : (va+j)%pgsize=va-pgrounddown va+j := by
    simp only [pgrounddown,pgsize_eq] at hn ⊢
    omega
  rw [target,target,entry_congr hpage,hoff]

theorem gets_page (hn : n ≤ pgsize-(va-pgrounddown va)) {j : Nat} (hj : j < n)
    (h : Gets pt va) : Gets pt (va+j) := by
  rwa [Gets,target_page hn hj]

theorem Accessible.lt (h : Accessible pt va) : va < maxva := by
  rw [Accessible,entry] at h
  by_contra hge
  rw [if_neg hge] at h
  cases h

theorem next_page (h : Gets pt va) (hn : n=pgsize-(va-pgrounddown va)) :
    add64 (pgrounddown va) pgsize=va+n := by
  have hlt := h.accessible.lt
  simp only [add64,pgrounddown,pgsize_eq,maxva_eq] at *
  omega

theorem Buffer.fill_zero (b : Buffer) : b.fill r pt pos va 0=b := by
  have hdst : (b.fill r pt pos va 0).dst=b.dst := by
    funext i
    exact if_neg (by omega)
  cases b
  simp only [Buffer.fill,List.range_zero,List.map_nil,List.append_nil] at hdst ⊢
  rw [hdst]

theorem Buffer.fill_add (b : Buffer) (m : Nat) :
    (b.fill r pt pos va n).fill r pt (pos+n) (va+n) m=b.fill r pt pos va (n+m) := by
  simp only [Buffer.fill,Buffer.mk.injEq]
  constructor
  · funext i
    by_cases hi : pos ≤ i ∧ i < pos+n
    · rw [if_neg (by omega),if_pos hi,if_pos (by omega)]
    · by_cases hi' : pos+n ≤ i ∧ i < pos+n+m
      · rw [if_pos hi',if_pos (by omega)]
        congr 1
        omega
      · rw [if_neg hi',if_neg hi,if_neg (by omega)]
  · rw [List.range_add,List.map_append,List.map_map,List.append_assoc]
    congr 2
    refine List.map_congr_left fun i _ => ?_
    rw [Function.comp_apply,Nat.add_assoc]

theorem Buffer.memmove_eq {off : Nat} (b : Buffer) (h : ∀ j < n, target pt (va+j)=(pa, off+j)) :
    b.memmove r pos pa off n=b.fill r pt pos va n := by
  simp only [Buffer.memmove,Buffer.fill,Buffer.mk.injEq]
  constructor
  · funext i
    by_cases hi : pos ≤ i ∧ i < pos+n
    · rw [if_pos hi,if_pos hi,byteAt,h (i-pos) (by omega)]
    · rw [if_neg hi,if_neg hi]
  · congr 1
    refine List.map_congr_left fun i hi => ?_
    rw [h i (List.mem_range.mp hi)]

theorem fillOut_zero : fillOut r pt va src 0=r := rfl

theorem fillOut_add (m : Nat) :
    fillOut (fillOut r pt va src n) pt (va+n) (fun i => src (n+i)) m=fillOut r pt va src (n+m) := by
  rw [fillOut,fillOut,fillOut,List.range_add,List.foldl_append,List.foldl_map]
  simp only [Nat.add_assoc]

theorem memmove_zero (off : Nat) : r.memmove pa off 0 src=r := by
  have hdata : (r.memmove pa off 0 src).data=r.data := by
    funext p o
    by_cases hp : p=pa
    · subst hp
      simp only [Ram.memmove,update_self]
      exact if_neg (by omega)
    · simp only [Ram.memmove,update_of_ne hp]
  cases r
  simp only [Ram.memmove] at hdata ⊢
  rw [hdata]

theorem memmove_succ (off : Nat) :
    r.memmove pa off (n+1) src=write (r.memmove pa off n src) (pa, off+n) (src n) := by
  simp only [Ram.memmove,write,Ram.mk.injEq,true_and]
  funext p o
  by_cases hp : p=pa
  · subst hp
    simp only [update_self]
    by_cases ho : o=off+n
    · subst ho
      rw [update_self,if_pos (by omega),Nat.add_sub_cancel_left]
    · rw [update_of_ne ho]
      by_cases hin : off ≤ o ∧ o < off+n
      · rw [if_pos hin,if_pos (by omega)]
      · rw [if_neg hin,if_neg (by omega)]
  · simp only [update_of_ne hp]

theorem memmove_eq (hn : n ≤ pgsize-(va-pgrounddown va)) :
    r.memmove (target pt va).1 (va-pgrounddown va) n src=fillOut r pt va src n := by
  induction n with
  | zero => exact memmove_zero _
  | succ n ih =>
    have htarget : target pt (va+n)=_ := target_page hn (Nat.lt_succ_self n)
    rw [memmove_succ,ih (Nat.le_of_succ_le hn),← htarget,fillOut,fillOut,List.range_succ,
      List.foldl_append,List.foldl_cons,List.foldl_nil]

theorem forall_lt_add {Q : Nat → Prop} (hQ : ∀ i < n, Q (va+i)) (hQ' : ∀ i < k, Q (va+n+i)) (i : Nat)
    (hi : i < n+k) : Q (va+i) := by
  by_cases hin : i < n
  · exact hQ i hin
  · have hlater := hQ' (i-n) (by omega)
    rwa [show va+n+(i-n)=va+i by omega] at hlater

/-- How far a copy of `len` bytes gets: to its end, or to the first byte that is not accessible. -/
structure Reached (pt : Pagetable) (va len k : Nat) (ok : Bool) : Prop where
  le : k ≤ len
  gets : ∀ i < k, Gets pt (va+i)
  ends : if ok then k=len else k < len ∧ ¬Gets pt (va+k)

theorem Reached.page {ok : Bool} (h : Gets pt va)
    (hn : n=min (pgsize-(va-pgrounddown va)) len)
    (hrest : Reached pt (add64 (pgrounddown va) pgsize) (len-n) k ok) :
    Reached pt va len (n+k) ok ∧ (k=0 ∨ add64 (pgrounddown va) pgsize=va+n) := by
  have hle : n ≤ pgsize-(va-pgrounddown va) := hn ▸ Nat.min_le_left _ _
  have hfirst (i : Nat) (hi : i < n) : Gets pt (va+i) := gets_page hle hi h
  have hk := hrest.le
  by_cases hpage : n=pgsize-(va-pgrounddown va)
  · have hnext := next_page h hpage
    rw [hnext] at hrest
    refine ⟨⟨by omega,forall_lt_add hfirst hrest.gets,?_⟩,.inr hnext⟩
    have hends := hrest.ends
    rw [Nat.add_assoc] at hends
    cases ok with
    | true =>
      simp only [if_true] at hends ⊢
      omega
    | false =>
      simp only [Bool.false_eq_true,if_false] at hends ⊢
      exact ⟨by omega,hends.2⟩
  · have hall : n=len := by omega
    have hzero : k=0 := by omega
    subst hzero
    refine ⟨⟨by omega,hfirst,?_⟩,.inl rfl⟩
    have hends := hrest.ends
    cases ok with
    | true => exact hall
    | false =>
      simp only [Bool.false_eq_true,if_false] at hends
      omega

theorem Reached.nothing : Reached pt va 0 0 true :=
  ⟨Nat.le_refl 0,fun i hi => absurd hi (Nat.not_lt_zero i),rfl⟩

theorem Reached.stuck (hlen : len≠0) (h : ¬Gets pt va) : Reached pt va len 0 false :=
  ⟨Nat.zero_le _,fun i hi => absurd hi (Nat.not_lt_zero i),Nat.pos_of_ne_zero hlen,h⟩

theorem round_pos (hlen : len≠0) : 0 < min (pgsize-(va-pgrounddown va)) len := by
  simp only [pgrounddown,pgsize_eq]
  omega

theorem copyinFrom_spec (b : Buffer) (hfuel : len ≤ fuel) :
    Yields (copyinFrom r pt fuel b pos va len) fun x =>
      ∃ k, Reached pt va len k x.2 ∧ x.1=b.fill r pt pos va k := by
  induction fuel generalizing b pos va len with
  | zero =>
    obtain rfl : len=0 := Nat.le_zero.mp hfuel
    exact .ok ⟨0,.nothing,b.fill_zero.symm⟩
  | succ fuel ih =>
    rw [copyinFrom]
    split
    · rename_i hlen
      subst hlen
      exact .ok ⟨0,.nothing,b.fill_zero.symm⟩
    rename_i hlen
    dsimp only
    rw [walkaddr_eq]
    refine Yields.ok_bind ?_
    split
    · rename_i hzero
      exact .ok ⟨0,.stuck hlen fun hgets => hgets hzero,b.fill_zero.symm⟩
    rename_i hgets
    generalize hn : min (pgsize-(va-pgrounddown va)) len=n
    have hround : 0 < n := hn ▸ round_pos hlen
    rw [b.memmove_eq fun j hj => target_page (hn ▸ Nat.min_le_left _ _) hj]
    refine (ih (b.fill r pt pos va n) (by omega)).weaken ?_
    rintro x ⟨k,hreach,hfill⟩
    obtain ⟨hreach',hnext⟩ := hreach.page hgets hn.symm
    refine ⟨n+k,hreach',?_⟩
    rcases hnext with rfl | hnext
    · rw [hfill,Buffer.fill_zero]
      rfl
    · rw [hfill,hnext,Buffer.fill_add]

theorem copyoutFrom_spec (hfuel : len ≤ fuel) :
    Yields (copyoutFrom pt fuel r va src len) fun x =>
      ∃ k, Reached pt va len k x.2 ∧ x.1=fillOut r pt va src k := by
  induction fuel generalizing r va src len with
  | zero =>
    obtain rfl : len=0 := Nat.le_zero.mp hfuel
    exact .ok ⟨0,.nothing,rfl⟩
  | succ fuel ih =>
    rw [copyoutFrom]
    split
    · rename_i hlen
      subst hlen
      exact .ok ⟨0,.nothing,rfl⟩
    rename_i hlen
    dsimp only
    rw [walkaddr_eq]
    refine Yields.ok_bind ?_
    split
    · rename_i hzero
      exact .ok ⟨0,.stuck hlen fun hgets => hgets hzero,rfl⟩
    rename_i hgets
    generalize hn : min (pgsize-(va-pgrounddown va)) len=n
    have hround : 0 < n := hn ▸ round_pos hlen
    rw [memmove_eq (hn ▸ Nat.min_le_left _ _)]
    refine (ih (by omega)).weaken ?_
    rintro x ⟨k,hreach,hfill⟩
    obtain ⟨hreach',hnext⟩ := hreach.page hgets hn.symm
    refine ⟨n+k,hreach',?_⟩
    rcases hnext with rfl | hnext
    · rw [hfill,fillOut_zero,Nat.add_zero]
    · rw [hfill,hnext,fillOut_add]

theorem copyinstrPage_spec {off : Nat} (pos max : Nat) (b : Buffer)
    (h : ∀ j < n, target pt (va+j)=(pa, off+j)) :
    ∃ k ≤ n, (∀ i < k, byteAt r pt (va+i)≠0) ∧ ((k < n ∧ byteAt r pt (va+k)=0 ∧
        copyinstrPage r pa n b pos off max=(b.fill r pt pos va (k+1), pos+k, max-k, true)) ∨
      (k=n ∧ copyinstrPage r pa n b pos off max=(b.fill r pt pos va n, pos+n, max-n, false))) := by
  induction n generalizing pos max b va off with
  | zero =>
    refine ⟨0,Nat.le_refl 0,fun i hi => absurd hi (Nat.not_lt_zero i),.inr ⟨rfl,?_⟩⟩
    rw [Buffer.fill_zero]
    rfl
  | succ n ih =>
    have hfirst : target pt va=(pa, off) := h 0 (Nat.succ_pos n)
    have hone : b.memmove r pos pa off 1=b.fill r pt pos va 1 :=
      b.memmove_eq fun j hj => h j (by omega)
    have hbyte : byteAt r pt va=r.data pa off := by rw [byteAt,hfirst]
    rw [copyinstrPage,hone]
    by_cases hnull : r.data pa off=0
    · refine ⟨0,Nat.zero_le _,fun i hi => absurd hi (Nat.not_lt_zero i),.inl ⟨Nat.succ_pos n,?_,?_⟩⟩
      · exact hbyte.trans hnull
      · rw [if_pos hnull]
        rfl
    · rw [if_neg hnull]
      have hnext : ∀ j < n, target pt (va+1+j)=(pa, off+1+j) := by
        intro j hj
        have hj' := h (1+j) (by omega)
        rwa [← Nat.add_assoc,← Nat.add_assoc] at hj'
      obtain ⟨k,hk,hbytes,hcases⟩ := ih (pos+1) (max-1) (b.fill r pt pos va 1) hnext
      refine ⟨k+1,Nat.succ_le_succ hk,fun i hi => ?_,?_⟩
      · cases i with
        | zero =>
          rw [Nat.add_zero,hbyte]
          exact hnull
        | succ i =>
          have hi' := hbytes i (Nat.lt_of_succ_lt_succ hi)
          rwa [Nat.add_assoc,Nat.add_comm 1 i] at hi'
      · have hpos : pos+1+k=pos+(k+1) := by omega
        have hva : va+1+k=va+(k+1) := by omega
        have hmax : max-1-k=max-(k+1) := by omega
        rcases hcases with ⟨hlt,hzero,heq⟩ | ⟨rfl,heq⟩
        · refine .inl ⟨Nat.succ_lt_succ hlt,hva ▸ hzero,?_⟩
          rw [heq,Buffer.fill_add,hpos,hmax,Nat.add_comm 1 (k+1)]
        · refine .inr ⟨rfl,?_⟩
          rw [heq,Buffer.fill_add,hpos,hmax,Nat.add_comm 1 k]

/-- How far `copyinstr` gets: behind the first 0, or to `max` bytes or the first byte that is not
accessible, if there is none before. -/
structure Scanned (r : Ram) (pt : Pagetable) (va max k : Nat) (ok : Bool) : Prop where
  le : k ≤ max
  gets : ∀ i < k, Gets pt (va+i)
  ends : if ok then ∃ j, k=j+1 ∧ (∀ i < j, byteAt r pt (va+i)≠0) ∧ byteAt r pt (va+j)=0
    else (∀ i < k, byteAt r pt (va+i)≠0) ∧ (k=max ∨ ¬Gets pt (va+k))

theorem Scanned.page {ok : Bool} (h : Gets pt va)
    (hn : n=min (pgsize-(va-pgrounddown va)) max) (hbytes : ∀ i < n, byteAt r pt (va+i)≠0)
    (hrest : Scanned r pt (add64 (pgrounddown va) pgsize) (max-n) k ok) :
    Scanned r pt va max (n+k) ok ∧ (k=0 ∨ add64 (pgrounddown va) pgsize=va+n) := by
  have hle : n ≤ pgsize-(va-pgrounddown va) := hn ▸ Nat.min_le_left _ _
  have hfirst (i : Nat) (hi : i < n) : Gets pt (va+i) := gets_page hle hi h
  have hk := hrest.le
  have hends := hrest.ends
  by_cases hpage : n=pgsize-(va-pgrounddown va)
  · have hnext := next_page h hpage
    rw [hnext] at hrest hends
    refine ⟨⟨by omega,forall_lt_add hfirst hrest.gets,?_⟩,.inr hnext⟩
    cases ok with
    | true =>
      obtain ⟨j,rfl,hnonzero,hzero⟩ := hends
      rw [Nat.add_assoc] at hzero
      exact ⟨n+j,rfl,forall_lt_add (Q := fun a => byteAt r pt a≠0) hbytes hnonzero,hzero⟩
    | false =>
      obtain ⟨hnonzero,hstop⟩ := hends
      rw [Nat.add_assoc] at hstop
      exact ⟨forall_lt_add (Q := fun a => byteAt r pt a≠0) hbytes hnonzero,hstop.imp (by omega) id⟩
  · have hzero : k=0 := by omega
    subst hzero
    refine ⟨⟨by omega,hfirst,?_⟩,.inl rfl⟩
    cases ok with
    | true =>
      obtain ⟨j,hj,-⟩ := hends
      cases hj
    | false => exact ⟨hbytes,.inl (by omega)⟩

theorem Scanned.nothing (h : 0=max ∨ ¬Gets pt va) : Scanned r pt va max 0 false :=
  ⟨Nat.zero_le _,fun i hi => absurd hi (Nat.not_lt_zero i),fun i hi => absurd hi (Nat.not_lt_zero i),h⟩

theorem copyinstrFrom_spec (b : Buffer) (hfuel : max ≤ fuel) :
    Yields (copyinstrFrom r pt fuel b pos va max) fun x =>
      ∃ k, Scanned r pt va max k x.2 ∧ x.1=b.fill r pt pos va k := by
  induction fuel generalizing b pos va max with
  | zero =>
    obtain rfl : max=0 := Nat.le_zero.mp hfuel
    exact .ok ⟨0,.nothing (.inl rfl),b.fill_zero.symm⟩
  | succ fuel ih =>
    rw [copyinstrFrom]
    split
    · rename_i hmax
      exact .ok ⟨0,.nothing (.inl hmax.symm),b.fill_zero.symm⟩
    rename_i hmax
    dsimp only
    rw [walkaddr_eq]
    refine Yields.ok_bind ?_
    split
    · rename_i hzero
      exact .ok ⟨0,.nothing (.inr fun hgets => hgets hzero),b.fill_zero.symm⟩
    rename_i hgets
    generalize hn : min (pgsize-(va-pgrounddown va)) max=n
    have hround : 0 < n := hn ▸ round_pos hmax
    have hle : n ≤ pgsize-(va-pgrounddown va) := hn ▸ Nat.min_le_left _ _
    have htarget (j : Nat) (hj : j < n) : target pt (va+j)=_ := target_page hle hj
    obtain ⟨k,hk,hbytes,⟨hlt,hzero,heq⟩ | ⟨rfl,heq⟩⟩ := copyinstrPage_spec (r := r) pos max b htarget
    · rw [heq]
      refine .ok ⟨k+1,⟨by omega,fun i hi => gets_page hle (by omega) hgets,k,rfl,hbytes,hzero⟩,rfl⟩
    · rw [heq]
      refine (ih (b.fill r pt pos va k) (by omega)).weaken ?_
      rintro x ⟨m,hscan,hfill⟩
      obtain ⟨hscan',hnext⟩ := hscan.page hgets hn.symm hbytes
      refine ⟨k+m,hscan',?_⟩
      rcases hnext with rfl | hnext
      · rw [hfill,Buffer.fill_zero]
        rfl
      · rw [hfill,hnext,Buffer.fill_add]

theorem Reached.all {ok : Bool} (h : Reached pt va len k ok) (hok : ok=true) : k=len := by
  have hends := h.ends
  rwa [if_pos hok] at hends

theorem copyin_spec (pt : Pagetable) (r : Ram) (b : Buffer) (va len : Nat) :
    Yields (copyin r pt b va len) fun x => ∃ k, Reached pt va len k x.2 ∧ x.1=b.fill r pt 0 va k :=
  copyinFrom_spec b (Nat.le_refl len)

theorem copyout_spec (pt : Pagetable) (r : Ram) (va : Nat) (src : Nat → UInt8) (len : Nat) :
    Yields (copyout r pt va src len) fun x => ∃ k, Reached pt va len k x.2 ∧ x.1=fillOut r pt va src k :=
  copyoutFrom_spec (Nat.le_refl len)

theorem copyinstr_spec (pt : Pagetable) (r : Ram) (b : Buffer) (va max : Nat) :
    Yields (copyinstr r pt b va max) fun x => ∃ k, Scanned r pt va max k x.2 ∧ x.1=b.fill r pt 0 va k :=
  copyinstrFrom_spec b (Nat.le_refl max)

def PageOk (pt : Pagetable) (v : Nat) : Prop :=
  v*pgsize < maxva ∧ ∃ e, leaf pt v=some e ∧ e.perm.u=true

def Pages (pt : Pagetable) (va len : Nat) : Prop :=
  ∀ v, (∃ a, va ≤ a ∧ a < va+len ∧ a/pgsize=v) → PageOk pt v

def Once (pt : Pagetable) : Prop := ∀ v w e e', v*pgsize < maxva → w*pgsize < maxva →
  leaf pt v=some e → leaf pt w=some e' → e.pa=e'.pa → v=w

theorem accessible_iff (a : Nat) : Accessible pt a ↔ PageOk pt (a/pgsize) := by
  have hlt : a < maxva ↔ a/pgsize*pgsize < maxva := by
    simp only [pgsize_eq,maxva_eq]
    omega
  rw [Accessible,entry,PageOk,← hlt]
  by_cases ha : a < maxva
  · rw [if_pos ha,Option.isSome_iff_exists]
    simp only [ha,true_and,Option.filter_eq_some_iff]
  · simp [ha]

theorem pages_iff (hpt : NonZero pt) : Pages pt va len ↔ ∀ i < len, Gets pt (va+i) := by
  simp only [gets_iff hpt]
  constructor
  · intro h i hi
    exact (accessible_iff _).mpr (h _ ⟨va+i,by omega,by omega,rfl⟩)
  · rintro h v ⟨a,hle,hlt,rfl⟩
    have hacc := h (a-va) (by omega)
    rw [Nat.add_sub_cancel' hle] at hacc
    exact (accessible_iff a).mp hacc

theorem Reached.ok_iff (hpt : NonZero pt) {ok : Bool} (h : Reached pt va len k ok) :
    ok=true ↔ Pages pt va len := by
  rw [pages_iff hpt]
  have hends := h.ends
  cases ok with
  | true =>
    obtain rfl : k=len := hends
    exact ⟨fun _ => h.gets,fun _ => rfl⟩
  | false =>
    obtain ⟨hlt,hnot⟩ : k < len ∧ ¬Gets pt (va+k) := hends
    exact ⟨fun hf => absurd hf Bool.false_ne_true,fun hall => absurd (hall k hlt) hnot⟩

theorem Scanned.ok_iff (hpt : NonZero pt) {ok : Bool} (h : Scanned r pt va max k ok) :
    ok=true ↔ ∃ j < max, byteAt r pt (va+j)=0 ∧ Pages pt va (j+1) := by
  have hends := h.ends
  cases ok with
  | true =>
    obtain ⟨j,rfl,-,hzero⟩ := hends
    exact ⟨fun _ => ⟨j,h.le,hzero,(pages_iff hpt).mpr h.gets⟩,fun _ => rfl⟩
  | false =>
    obtain ⟨hnonzero,hstop⟩ : (∀ i < k, byteAt r pt (va+i)≠0) ∧ (k=max ∨ ¬Gets pt (va+k)) :=
      hends
    constructor
    · intro hf
      cases hf
    · -- a 0 would have to lie behind the point that was reached
      rintro ⟨j,hj,hzero,hpages⟩
      have hjk : k ≤ j := Nat.le_of_not_lt fun hlt => hnonzero j hlt hzero
      rcases hstop with rfl | hnot
      · omega
      · exact absurd ((pages_iff hpt).mp hpages k (by omega)) hnot

theorem target_injective (honce : Once pt) {a a' : Nat} (ha : Accessible pt a) (ha' : Accessible pt a')
    (h : target pt a=target pt a') : a=a' := by
  obtain ⟨hlow,e,he,hu⟩ := (accessible_iff a).mp ha
  obtain ⟨hlow',e',he',hu'⟩ := (accessible_iff a').mp ha'
  have hentry {a : Nat} {e : Pte} (hlow : a/pgsize*pgsize < maxva) (he : leaf pt (a/pgsize)=some e)
      (hu : e.perm.u=true) : entry pt a=some e := by
    have hlt : a < maxva := by
      simp only [pgsize_eq,maxva_eq] at hlow ⊢
      omega
    rw [entry,if_pos hlt,he,Option.filter_some,if_pos hu]
  rw [target,target,hentry hlow he hu,hentry hlow' he' hu'] at h
  obtain ⟨hpa,hoff⟩ := Prod.mk.inj h
  have hpage := honce _ _ e e' hlow hlow' he he' hpa
  simp only [pgsize_eq] at hpage hoff
  omega

theorem fillOut_succ :
    fillOut r pt va src (k+1)=write (fillOut r pt va src k) (target pt (va+k)) (src k) := by
  rw [fillOut,fillOut,List.range_succ,List.foldl_append,List.foldl_cons,List.foldl_nil]

theorem write_data (x y : Page × Nat) (c : UInt8) :
    (write r x c).data y.1 y.2 = if y=x then c else r.data y.1 y.2 := by
  obtain ⟨p,o⟩ := x
  obtain ⟨p',o'⟩ := y
  by_cases hp : p'=p
  · subst hp
    by_cases ho : o'=o
    · subst ho
      simp [write]
    · simp [write,ho]
  · simp [write,hp]

theorem byteAt_fillOut (hinj : ∀ i < k, ∀ j < k, target pt (va+i)=target pt (va+j) → i=j) {i : Nat}
    (hi : i < k) : byteAt (fillOut r pt va src k) pt (va+i)=src i := by
  induction k with
  | zero => cases hi
  | succ k ih =>
    rw [byteAt,fillOut_succ,write_data]
    by_cases hik : i=k
    · subst hik
      rw [if_pos rfl]
    · have hne : target pt (va+i)≠target pt (va+k) := fun heq =>
        hik (hinj i hi k (Nat.lt_succ_self k) heq)
      rw [if_neg hne]
      exact ih (fun i hi j hj => hinj i (by omega) j (by omega)) (by omega)

theorem fillOut_other {x : Page × Nat} (hx : ∀ i < k, target pt (va+i)≠x) :
    (fillOut r pt va src k).data x.1 x.2=r.data x.1 x.2 := by
  induction k with
  | zero => rfl
  | succ k ih =>
    rw [fillOut_succ,write_data,if_neg fun heq => hx k (Nat.lt_succ_self k) heq.symm]
    exact ih fun i hi => hx i (by omega)

theorem copyin_copyout (hpt : NonZero pt) (honce : Once pt) (hpages : Pages pt va len) (r : Ram)
    (b : Buffer) (src : Nat → UInt8) : ∃ r' b', copyout r pt va src len=.ok (r', true) ∧
      copyin r' pt b va len=.ok (b', true) ∧ ∀ i < len, b'.dst i=src i := by
  obtain ⟨⟨r',ok⟩,hout,k,hreach,hfill⟩ := copyout_spec pt r va src len
  obtain ⟨⟨b',ok'⟩,hin,k',hreach',hfill'⟩ := copyin_spec pt r' b va len
  obtain rfl : ok=true := (hreach.ok_iff hpt).mpr hpages
  obtain rfl : ok'=true := (hreach'.ok_iff hpt).mpr hpages
  obtain rfl : k=len := hreach.all rfl
  obtain rfl : k'=k := hreach'.all rfl
  refine ⟨r',b',hout,hin,fun i hi => ?_⟩
  have hfill : r'=fillOut r pt va src k' := hfill
  have hfill' : b'=b.fill r' pt 0 va k' := hfill'
  have hdst : b'.dst i=byteAt r' pt (va+i) := by
    rw [hfill']
    exact if_pos ⟨Nat.zero_le i,by omega⟩
  rw [hdst,hfill]
  refine byteAt_fillOut (fun i hi j hj heq => ?_) hi
  have hva := target_injective honce (hreach.gets i hi).accessible (hreach.gets j hj).accessible heq
  omega

/-- **Copies are byte by byte.** `copyin` and `copyout` return 0 just if all pages of the range are
accessible, and copy the bytes at the translated addresses and no others. `copyinstr` returns 0
just if there is a 0 among the first `max` bytes on accessible pages, and then copies the string.
A copy that fails has copied the bytes before some address. -/
theorem copies_bytewise (hpt : NonZero pt) (r : Ram) (b : Buffer) (src : Nat → UInt8) (va len max : Nat) :
    (Yields (copyin r pt b va len) fun x => (x.2=true ↔ Pages pt va len) ∧
      ∃ k ≤ len, (x.2=true → k=len) ∧ (∀ i < k, va+i < maxva) ∧ x.1=b.fill r pt 0 va k) ∧
    (Yields (copyout r pt va src len) fun x => (x.2=true ↔ Pages pt va len) ∧
      ∃ k ≤ len, (x.2=true → k=len) ∧ (∀ i < k, va+i < maxva) ∧ x.1=fillOut r pt va src k ∧
        ∀ y, (∀ i < k, target pt (va+i)≠y) → x.1.data y.1 y.2=r.data y.1 y.2) ∧
    (Once pt → Pages pt va len → ∃ r' b', copyout r pt va src len=.ok (r', true) ∧
      copyin r' pt b va len=.ok (b', true) ∧ ∀ i < len, b'.dst i=src i) ∧
    Yields (copyinstr r pt b va max) fun x =>
      (x.2=true ↔ ∃ j < max, byteAt r pt (va+j)=0 ∧ Pages pt va (j+1)) ∧
      (x.2=true → ∃ j < max, (∀ i < j, byteAt r pt (va+i)≠0) ∧ byteAt r pt (va+j)=0 ∧
        x.1=b.fill r pt 0 va (j+1)) ∧
      (x.2=false → ∃ k ≤ max, (∀ i < k, va+i < maxva) ∧ x.1=b.fill r pt 0 va k) := by
  refine ⟨(copyin_spec pt r b va len).weaken ?_,(copyout_spec pt r va src len).weaken ?_,
    fun honce hpages => copyin_copyout hpt honce hpages r b src,(copyinstr_spec pt r b va max).weaken ?_⟩
  · rintro x ⟨k,hreach,hfill⟩
    exact ⟨hreach.ok_iff hpt,k,hreach.le,hreach.all,fun i hi => (hreach.gets i hi).accessible.lt,hfill⟩
  · rintro x ⟨k,hreach,hfill⟩
    refine ⟨hreach.ok_iff hpt,k,hreach.le,hreach.all,fun i hi => (hreach.gets i hi).accessible.lt,
      hfill,fun y hy => ?_⟩
    rw [hfill]
    exact fillOut_other hy
  · rintro ⟨b',ok⟩ ⟨k,hscan,hfill⟩
    refine ⟨hscan.ok_iff hpt,fun hok => ?_,fun _ => ⟨k,hscan.le,
      fun i hi => (hscan.gets i hi).accessible.lt,hfill⟩⟩
    obtain rfl : ok=true := hok
    obtain ⟨j,rfl,hnonzero,hzero⟩ := hscan.ends
    exact ⟨j,hscan.le,hnonzero,hzero,hfill⟩

def single {α : Type} (p : Page) (x : α) : Table Page Index α :=
  ⟨p,fun i => if i.val=0 then some x else none⟩

def onePage (e : Pte) : Pagetable := single 0x87fff000 (single 0x87ffe000 (single 0x87ffd000 e))

theorem eq_of_single {α : Type} {p : Page} {x y : α} {i : Index}
    (h : (single p x).entry i=some y) : x=y := by
  simp only [single,Option.ite_none_right_eq_some,Option.some.injEq] at h
  exact h.2

theorem leaf_onePage {v : Nat} {e e' : Pte} (h : leaf (onePage e) v=some e') : e=e' := by
  obtain ⟨a,ha,h⟩ := Option.bind_eq_some_iff.mp h
  obtain rfl := eq_of_single ha
  obtain ⟨b,hb,h⟩ := Option.bind_eq_some_iff.mp h
  obtain rfl := eq_of_single hb
  exact eq_of_single h

/-- The PTE of a page of program data: `PTE_R|PTE_W|PTE_U`. -/
def dataPte : Pte := ⟨0x87ffc000,⟨true,true,false,true⟩⟩

def zeroRam : Ram := ⟨⟨0x80021000,0x80007000,[],0,fun _ => false⟩,fun _ _ => 0⟩

/-- Three zeros from address 4093 on, the end of the only page. -/
theorem onePage_copyin : ∃ b, copyin zeroRam (onePage dataPte) ⟨fun _ => 7,[]⟩ 4093 3=.ok (b, true) ∧
    b.dst 2=0 ∧ b.dst 3=7 ∧ b.reads=[(dataPte.pa, 4093), (dataPte.pa, 4094), (dataPte.pa, 4095)] := by
  have hpt : NonZero (onePage dataPte) := fun v e he => by
    rw [← leaf_onePage he]
    decide
  have hpages : Pages (onePage dataPte) 4093 3 := by
    rintro v ⟨a,hle,hlt,rfl⟩
    have hzero : a/pgsize=0 := by
      rw [pgsize_eq]
      omega
    rw [hzero]
    exact ⟨by decide,dataPte,by decide,rfl⟩
  obtain ⟨⟨b,ok⟩,hrun,hiff,k,-,hall,-,hfill⟩ :=
    (copies_bytewise hpt zeroRam ⟨fun _ => 7,[]⟩ (fun _ => 0) 4093 3 0).1
  obtain rfl : ok=true := hiff.mpr hpages
  obtain rfl : k=3 := hall rfl
  subst hfill
  exact ⟨_,hrun,by decide,by decide,by decide⟩

end Xv6.UserCopy
