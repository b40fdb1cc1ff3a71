import Xv6.ExecFile
import Xv6.DataSpec

/-! What `exec` loads: an address holds the byte of the last segment that covers it, and all other
pages that are in use keep their contents. -/
namespace Xv6.ExecFile
open Function Xv6.PageTree Xv6.Total Xv6.Vm Xv6.UserData
open Xv6.UserMemory (Space Open High)
variable {kend : Nat} {f : File} {r r' : Ram} {rest : Multiset Page} {pt : Pagetable} {n : Nat}

theorem readi_full {cut : Option Nat} {off k : Nat} (hk : 0 < k) (hk' : k<2^32)
    (hoff : off<2^32) (h : readi f cut off k=k) : off+k ≤ f.size := by
  unfold readi at h
  split at h
  · omega
  rename_i hbad
  have hle : k ≤ if (off+k)%2 ^ 32 > f.size then f.size-off else k := by
    cases cut with
    | none => exact h.ge
    | some c => exact h.ge.trans (Nat.min_le_left _ _)
  split at hle
  · omega
  · omega

structure Within (pt : Pagetable) (n : Nat) (r r' : Ram) : Prop where
  mem : r'.mem=r.mem
  data : ∀ pa, pa∉pagesFrom pt 0 n → r'.data pa=r.data pa

theorem Within.refl (r : Ram) : Within pt n r r := ⟨rfl,fun _ _ => rfl⟩

theorem Within.trans {r'' : Ram} (h : Within pt n r r') (h' : Within pt n r' r'') :
    Within pt n r r'' :=
  ⟨h'.mem.trans h.mem,fun pa hpa => (h'.data pa hpa).trans (h.data pa hpa)⟩

theorem Within.held (h : Within pt n r r') (hheld : Held kend r.mem rest pt n) :
    Held kend r'.mem rest pt n := h.mem.symm ▸ hheld

theorem Within.same (h : Within pt n r r') (hheld : Held kend r.mem rest pt n) : Same rest r r' := by
  intro pa hpa
  have hnodup := hheld.accounts.nodup
  rw [Multiset.nodup_add] at hnodup
  exact h.data pa (Multiset.disjoint_left.mp hnodup.2.2 (Multiset.mem_add.mpr (.inl hpa)))

section Write
variable {v m : Nat} {e : Pte} {src : Nat → UInt8}

theorem memmove_within {off : Nat} (hv : v < n) (he : leaf pt v=some e) :
    Within pt n r (r.memmove e.pa off m src) := by
  refine ⟨rfl,fun pa hpa => update_of_ne ?_ _ _⟩
  rintro rfl
  exact hpa (mem_pagesFrom hv he)

theorem userByte_memmove_at (off : Nat) (h : Held kend r.mem rest pt n) (hv : v < n)
    (he : leaf pt v=some e) {a : Nat} (ha : a/pgsize < n) :
    userByte (r.memmove e.pa off m src) pt a =
      if a/pgsize=v ∧ off ≤ a%pgsize ∧ a%pgsize < off+m then some (src (a%pgsize-off))
      else userByte r pt a := by
  rw [userByte,userByte]
  cases he' : leaf pt (a/pgsize) with
  | none =>
    rw [if_neg]
    · rfl
    · rintro ⟨heq,-⟩
      rw [heq,he] at he'
      cases he'
  | some e' =>
    simp only [Option.map_some,Ram.memmove]
    by_cases hpage : a/pgsize=v
    · rw [hpage,he] at he'
      cases he'
      rw [update_self]
      by_cases hin : off ≤ a%pgsize ∧ a%pgsize < off+m
      · rw [if_pos hin,if_pos ⟨hpage,hin⟩]
      · rw [if_neg hin,if_neg fun hc => hin hc.2]
    · rw [if_neg fun hc => hpage hc.1,update_of_ne]
      exact fun heq => hpage (leaf_inj h ha hv he' he heq)

theorem userByte_memmove (h : Held kend r.mem rest pt n) (hv : v < n) (he : leaf pt v=some e)
    {a : Nat} (ha : a/pgsize < n) : userByte (r.memmove e.pa 0 m src) pt a =
      if a/pgsize=v ∧ a%pgsize < m then some (src (a%pgsize)) else userByte r pt a := by
  have hwrite : userByte (r.memmove e.pa 0 m src) pt a=_ := userByte_memmove_at 0 h hv he ha
  simpa using hwrite

end Write

theorem lt_of_rounds {j k sz : Nat} (h : (j+(k+1))*pgsize < sz+pgsize) : j*pgsize < sz := by
  rw [← Nat.add_assoc,Nat.succ_mul] at h
  exact (Nat.mul_le_mul_right _ (Nat.le_add_right j k)).trans_lt (Nat.lt_of_add_lt_add_right h)

theorem page_offset {a j y : Nat} (h : y/pgsize=a+j) : j*pgsize+y%pgsize=y-a*pgsize := by
  rw [pgsize_eq] at *
  omega

theorem segment_split {a j m sz y : Nat} (hsz : j*pgsize < sz)
    (hm : (if sz-j*pgsize < pgsize then sz-j*pgsize else pgsize)=m) :
    (a+j)*pgsize ≤ y ∧ y < a*pgsize+sz ↔ ((a+(j+1))*pgsize ≤ y ∧ y < a*pgsize+sz) ∨
        (y/pgsize=a+j ∧ y%pgsize < m) := by
  rw [pgsize_eq] at *
  split at hm
  · omega
  · omega

theorem loadsegFrom_data (f : File) (cut : Nat → Option Nat) (a j offset sz k : Nat)
    (h : Held kend r.mem rest pt n) (ho : Open pt n) (hk : a+j+k ≤ n)
    (hoff : 0 < k → offset+j*pgsize<2^32)
    (hlast : sz≤(j+k)*pgsize) (hfirst : 0 < k → (j+k)*pgsize < sz+pgsize) :
    Yields (loadsegFrom f cut pt (a*pgsize) offset sz r (j*pgsize) k) fun x =>
      Within pt n r x.1 ∧ (x.2=true → ∀ y, y/pgsize < n → userByte x.1 pt y =
        if (a+j)*pgsize ≤ y ∧ y < a*pgsize+sz then some (f.byte (offset+(y-a*pgsize)))
        else userByte r pt y) := by
  have hfew : n≤557056 := h.few
  induction k generalizing r j with
  | zero =>
    refine .ok ⟨.refl r,fun _ y _ => ?_⟩
    rw [if_neg]
    rw [pgsize_eq] at *
    omega
  | succ k ih =>
    obtain ⟨e,he,-⟩ := h.mapped (a+j) (Nat.zero_le _) (by omega)
    have hva : add64 (a*pgsize) (j*pgsize)=(a+j)*pgsize := by
      rw [add64,pgsize_eq]
      omega
    have hoff := hoff (Nat.succ_pos k)
    have hfirst := hfirst (Nat.succ_pos k)
    have hsz := lt_of_rounds hfirst
    unfold loadsegFrom
    rw [hva,walkaddr_leaf (by omega) he (ho _ (by omega) e he)]
    refine Yields.ok_bind ?_
    rw [if_neg (h.page_pos (by omega) he),Nat.mod_eq_of_lt hoff]
    dsimp only
    generalize hn : (if sz-j*pgsize < pgsize then sz-j*pgsize else pgsize)=m
    have hwithin : ∀ m src, Within pt n r (r.memmove e.pa 0 m src) :=
      fun m src => memmove_within (by omega) he
    split
    · refine .ok ⟨?_,by simp⟩
      dsimp only
      exact hwithin _ _
    rename_i hgot
    rw [not_not] at hgot
    rw [hgot]
    have hm : 0 < m ∧ m ≤ pgsize := by
      split at hn <;> omega
    have hsize := readi_full hm.1 (by rw [pgsize_eq] at hm; omega) hoff hgot
    have hnext : j*pgsize+pgsize=(j+1)*pgsize := (Nat.succ_mul j pgsize).symm
    have hindex : j+1+k=j+(k+1) := by omega
    rw [hnext]
    refine (ih (j+1) ((hwithin m _).held h) (by omega) (fun hk0 => ?_) ?_ (fun hk0 => ?_)).weaken ?_
    · have hfull : m=pgsize := by
        rw [← hn,if_neg]
        rw [pgsize_eq] at *
        omega
      rw [hfull,Nat.add_assoc,hnext] at hsize
      exact hsize.trans_lt f.uint
    · rw [hindex]
      exact hlast
    · rw [hindex]
      exact hfirst
    rintro ⟨r₁,loaded⟩ ⟨hw,hbytes⟩
    refine ⟨(hwithin m _).trans hw,fun hloaded y hy => ?_⟩
    rw [hbytes hloaded y hy,userByte_memmove h (by omega) he hy]
    by_cases hlater : (a+(j+1))*pgsize ≤ y ∧ y < a*pgsize+sz
    · rw [if_pos hlater,if_pos ((segment_split hsz hn).mpr (.inl hlater))]
    rw [if_neg hlater]
    by_cases hhere : y/pgsize=a+j ∧ y%pgsize < m
    · rw [if_pos hhere,if_pos ((segment_split hsz hn).mpr (.inr hhere)),Nat.add_assoc,
        page_offset hhere.1]
    · rw [if_neg hhere,if_neg fun hin => ((segment_split hsz hn).mp hin).elim hlater hhere]

theorem loadseg_data {cut : Nat → Option Nat} {va offset sz : Nat} (h : Held kend r.mem rest pt n)
    (ho : Open pt n) (hva : va%pgsize=0) (hn : va+sz ≤ n*pgsize) :
    Yields (loadseg r pt va f cut offset sz) fun x => Within pt n r x.1 ∧
      (x.2=true → ∀ y, y/pgsize < n → userByte x.1 pt y =
        if va ≤ y ∧ y < va+sz then some (f.byte (offset%2^32+(y-va)))
        else userByte r pt y) := by
  have hfew : n≤557056 := h.few
  have hmod : sz%2^32=sz := Nat.mod_eq_of_lt (by rw [pgsize_eq] at hn; omega)
  have hload := loadsegFrom_data f cut (va/pgsize) 0 (offset%2^32) sz
    ((sz+(pgsize-1))/pgsize) h ho
    (by rw [pgsize_eq] at *; omega)
    (fun _ => by rw [Nat.zero_mul,Nat.add_zero]; exact Nat.mod_lt _ (by decide))
    (by rw [pgsize_eq]; omega) (by rw [pgsize_eq]; omega)
  have hdiv : va/pgsize*pgsize=va := Nat.div_mul_cancel (Nat.dvd_of_mod_eq_zero hva)
  rw [loadseg,hmod]
  rwa [hdiv,Nat.zero_mul,Nat.add_zero,hdiv] at hload

/-- The address lies in the part of the segment that comes from the file. -/
def Proghdr.covers (ph : Proghdr) (a : Nat) : Bool := ph.vaddr ≤ a ∧ a < ph.vaddr+ph.filesz

def Proghdr.fileByte (ph : Proghdr) (f : File) (a : Nat) : UInt8 :=
  f.byte (ph.off%2 ^ 32+(a-ph.vaddr))

def headers (f : File) (off : Nat) : Nat → List Proghdr
  | 0 => []
  | n+1 => proghdr f off :: headers f ((off+sizeofProghdr)%2 ^ 32) n

def loads (hs : List Proghdr) : List Proghdr := hs.filter fun ph => ph.type=elfProgLoad

/-- The headers of the segments that `exec` loads, in the order in which it reads them. -/
def segments (f : File) : List Proghdr :=
  loads (headers f ((elfhdr f).phoff%2 ^ 32) (elfhdr f).phnum)

def lastCovering (hs : List Proghdr) (a : Nat) : Option Proghdr :=
  hs.reverse.find? fun ph => ph.covers a

theorem lastCovering_concat (hs : List Proghdr) (ph : Proghdr) (a : Nat) :
    lastCovering (hs++[ph]) a = if ph.covers a then some ph else lastCovering hs a := by
  rw [lastCovering,List.reverse_append,List.reverse_singleton,List.singleton_append,
    List.find?_cons]
  cases ph.covers a <;> rfl

def Loaded (f : File) (hs : List Proghdr) (r : Ram) (pt : Pagetable) (n : Nat) : Prop :=
  ∀ a ph, lastCovering hs a=some ph →
    a/pgsize < n ∧ userByte r pt a=some (ph.fileByte f a)

theorem Loaded.nil : Loaded f [] r pt n := by
  intro a ph h
  cases h

theorem Loaded.mono {hs : List Proghdr} {pt' : Pagetable} {k : Nat} (h : Loaded f hs r pt n)
    (hn : n ≤ k) (hn' : n≤2^27) (hkeep : Keeps pt pt' n) (hsame : Same (pagesFrom pt 0 n) r r') :
    Loaded f hs r' pt' k := by
  intro a ph ha
  obtain ⟨hpage,hbyte⟩ := h a ph ha
  exact ⟨hpage.trans_le hn,(userByte_kept hn' hkeep hsame hpage).trans hbyte⟩

theorem word_lt (f : File) (off k : Nat) : word f off k < 256^k := by
  induction k generalizing off with
  | zero => exact Nat.one_pos
  | succ k ih =>
    have hbyte := (f.byte off).toNat_lt
    have hrest := ih (off+1)
    rw [word,Nat.pow_succ]
    omega

theorem Open.grown {pt' : Pagetable} {k : Nat} {w x : Bool} (ho : Open pt n)
    (hkeep : Keeps pt pt' n) (has : MappedAs pt' ⟨true,w,x,true⟩ n (k-n)) (hk : k≤2^27) :
    Open pt' k := by
  intro v hv e he
  by_cases hold : v < n
  · rw [hkeep v (by omega) (.inl hold)] at he
    exact ho v hold e he
  · obtain ⟨pa,hpa⟩ := has v (by omega) (by omega)
    rw [he] at hpa
    cases hpa
    rfl

theorem Loaded.segment {hs : List Proghdr} {ph : Proghdr} (h : Loaded f hs r pt n)
    (hend : ph.vaddr+ph.filesz ≤ n*pgsize)
    (hbytes : ∀ y, y/pgsize < n → userByte r' pt y =
      if ph.vaddr ≤ y ∧ y < ph.vaddr+ph.filesz then
        some (f.byte (ph.off%2^32+(y-ph.vaddr)))
      else userByte r pt y) : Loaded f (hs++[ph]) r' pt n := by
  intro a ph' hlast
  rw [lastCovering_concat] at hlast
  by_cases hcov : ph.covers a=true
  · rw [if_pos hcov] at hlast
    cases hlast
    have hin : ph.vaddr ≤ a ∧ a < ph.vaddr+ph.filesz := by simpa [Proghdr.covers] using hcov
    have hpage : a/pgsize < n := (Nat.div_lt_iff_lt_mul (by decide)).mpr (hin.2.trans_le hend)
    rw [hbytes a hpage,if_pos hin]
    exact ⟨hpage,rfl⟩
  · rw [if_neg hcov] at hlast
    obtain ⟨hpage,hbyte⟩ := h a ph' hlast
    rw [hbytes a hpage,if_neg fun hin => hcov (by simpa [Proghdr.covers] using hin)]
    exact ⟨hpage,hbyte⟩

theorem loadProgram_data (disk : Disk) (k : Nat) {sz i off : Nat} {hs : List Proghdr}
    (hsz : sz ≤ phystop) (h : Space kend r.mem rest pt (npages sz)) (ho : Open pt (npages sz))
    (hl : Loaded f hs r pt (npages sz)) :
    Yields (loadProgram f disk r pt sz i off k) fun x =>
      Space kend x.1.mem rest x.2.1 (npages x.2.2.1) ∧ x.2.2.1 ≤ phystop ∧ Same rest r x.1 ∧
        (x.2.2.2=true → Loaded f (hs++loads (headers f off k)) x.1 x.2.1 (npages x.2.2.1)) := by
  induction k generalizing r pt sz i off hs with
  | zero => exact .ok ⟨h,hsz,.refl _ _,fun _ => by simpa [headers,loads] using hl⟩
  | succ k ih =>
    unfold loadProgram
    split
    · exact .ok ⟨h,hsz,.refl _ _,by simp⟩
    dsimp only
    split
    · rename_i htype
      refine (ih hsz h ho hl).weaken fun x hx => ⟨hx.1,hx.2.1,hx.2.2.1,fun hloaded => ?_⟩
      simpa [headers,loads,htype] using hx.2.2.2 hloaded
    rename_i htype
    split
    · exact .ok ⟨h,hsz,.refl _ _,by simp⟩
    rename_i hbad
    refine (uvmalloc_full hsz _ _ h.toHeld).bind ?_
    rintro ⟨r₁,pt₁,sz₁⟩ ⟨hsame,hkeep,⟨hz,hheld⟩ | ⟨hmax,hsz₁,hheld,has,-⟩⟩
    · rw [hz]
      exact .ok ⟨⟨hheld,h.high.keeps hkeep⟩,hsz,hsame.mono (Multiset.le_add_right _ _),by simp⟩
    dsimp only at hmax hsz₁ hheld hkeep has ⊢
    have hfew : npages sz₁ ≤ 557056 := hheld.few
    have hspace : Space kend r₁.mem rest pt₁ (npages sz₁) := ⟨hheld,h.high.keeps hkeep⟩
    have hold : Same rest r r₁ := hsame.mono (Multiset.le_add_right _ _)
    have hle : npages sz ≤ npages sz₁ := by
      rw [npages_eq hsz,npages_eq hsz₁]
      omega
    have hl₁ : Loaded f hs r₁ pt₁ (npages sz₁) :=
      hl.mono hle (by omega) hkeep (hsame.mono (Multiset.le_add_left _ _))
    have hopen : Open pt₁ (npages sz₁) := Open.grown ho hkeep has (by omega)
    split
    · rename_i hzero
      obtain rfl : sz=sz₁ := by omega
      exact .ok ⟨hspace,hsz,hold,by simp⟩
    have hend : (proghdr f off).vaddr+(proghdr f off).filesz ≤ npages sz₁*pgsize := by
      have hm : (proghdr f off).memsz < 2^64 := word_lt f _ 8
      have hsum : (proghdr f off).vaddr+(proghdr f off).memsz ≤ sz₁ := by
        rw [add64] at hmax hbad
        omega
      rw [npages_eq hsz₁,pgsize_eq]
      omega
    refine (loadseg_data hheld hopen (by omega) hend).bind ?_
    rintro ⟨r₂,loaded⟩ ⟨hwithin,hbytes⟩
    have hspace₂ : Space kend r₂.mem rest pt₁ (npages sz₁) := ⟨hwithin.held hheld,hspace.high⟩
    have hold₂ : Same rest r r₂ := hold.trans (hwithin.same hheld)
    cases loaded with
    | false => exact .ok ⟨hspace₂,hsz₁,hold₂,by simp⟩
    | true =>
      have hl₂ : Loaded f (hs++[proghdr f off]) r₂ pt₁ (npages sz₁) := hl₁.segment hend (hbytes rfl)
      refine (ih hsz₁ hspace₂ hopen hl₂).weaken fun x hx =>
        ⟨hx.1,hx.2.1,hold₂.trans hx.2.2.1,fun hloaded => ?_⟩
      rw [not_not] at htype
      simpa [headers,loads,htype] using hx.2.2.2 hloaded

end Xv6.ExecFile
