import Xv6.FileView
import Mathlib.Data.Finset.Card
import Mathlib.Data.List.Find

/-! What `balloc`, `bmap`, `readi` and `writei` do to the files of a consistent file system. -/
namespace Xv6.FileBytes
open Function Xv6.DiskFormat Xv6.Total
variable {fs fs' fs'' t : Fs} {ip ip' ip'' : Dinode} {inum i j b c k bn ind : Nat} {x : Option Nat}

structure Allocated (fs t : Fs) (b : Nat) : Prop where
  sb : t.sb=fs.sb
  busy : t.busy=fs.busy
  area : nmeta fs.sb ≤ b ∧ b < fs.sb.size
  free : fs.used b=false
  used : ∀ c, c < fs.sb.size → t.used c=(decide (c=b) || fs.used c)
  dinode : ∀ i < fs.sb.ninodes, t.dinode i=fs.dinode i
  block : ∀ c, nmeta fs.sb ≤ c → c≠b → t.block c=fs.block c
  zero : t.block b = fun _ => 0
  calls : t.calls=fs.calls+1
  logged : t.logged=b :: fs.sb.bblock b :: fs.logged
  changed : ∀ c, t.block c≠fs.block c → c∈t.logged

theorem firstFree_eq_some (h : fs.firstFree=some b) :
    b < fs.sb.size ∧ fs.used b=false ∧ fs.busy fs.calls b=false := by
  have hb := List.find?_some h
  simp only [Bool.and_eq_true,Bool.not_eq_true'] at hb
  exact ⟨List.mem_range.mp (List.mem_of_find?_eq_some h),hb⟩

theorem Consistent.free_area (h : Consistent fs inum ip) (hfree : fs.used b=false) :
    nmeta fs.sb ≤ b := by
  by_contra hlt
  have hused := h.reserved b (Nat.lt_of_not_le hlt)
  rw [hfree] at hused
  cases hused

theorem balloc_none (h : fs.firstFree=none) : balloc fs=({ fs with calls := fs.calls+1 }, 0) := by
  simp only [balloc,h]

theorem balloc_some (h : Consistent fs inum ip) (hb : fs.firstFree=some b) :
    ∃ t, balloc fs=(t, b) ∧ Allocated fs t b := by
  obtain ⟨hlt,hfree,-⟩ := firstFree_eq_some hb
  have hlo := h.free_area hfree
  let m : Fs := { fs with calls := fs.calls+1 }.mark b
  have hbits (c : Nat) : m.used c=(decide (c=b) || fs.used c) := used_mark _ b c
  refine ⟨bzero m b,by simp only [balloc,hb,m],?_⟩
  exact {
    sb := rfl
    busy := rfl
    area := ⟨hlo,hlt⟩
    free := hfree
    used := fun c hc => (used_setBlock m hlo hc).trans (hbits c)
    dinode := fun i hi => (dinode_setBlock m h.layout hlo hi).trans
      (dinode_mark { fs with calls := fs.calls+1 } h.layout hi)
    block := fun c hc hne => (update_of_ne hne _ _).trans
      (block_mark { fs with calls := fs.calls+1 } hlt hc)
    zero := update_self _ _ _
    calls := rfl
    logged := rfl
    changed := by
      intro c hc
      by_cases hcb : c=b
      · exact hcb ▸ List.mem_cons_self
      by_cases hcm : c=fs.sb.bblock b
      · exact List.mem_cons_of_mem _ (hcm ▸ List.mem_cons_self)
      · refine absurd ?_ hc
        calc (bzero m b).block c=m.block c := update_of_ne hcb _ _
          _ = fs.block c := update_of_ne hcm _ _ }

theorem Consistent.addr_ne_free (h : Consistent fs inum ip) (hfree : fs.used b=false) (hb : b≠0)
    (i : Nat) (x : Option Nat) : fs.addr inum ip i x≠b := by
  intro he
  have hused := (h.area i x (he ▸ hb)).2.2
  rw [he,hfree] at hused
  cases hused

theorem Allocated.ne_zero (h : Allocated fs t b) : b≠0 := by
  have hlo := h.area.1
  have hpos := nmeta_pos fs.sb
  omega

theorem Allocated.block_addr (h : Allocated fs t b) (hc : Consistent fs inum ip)
    (hx : fs.addr inum ip i x≠0) : t.block (fs.addr inum ip i x)=fs.block (fs.addr inum ip i x) :=
  h.block _ (hc.area i x hx).1 (hc.addr_ne_free h.free h.ne_zero i x)

theorem Allocated.addr (h : Allocated fs t b) (hc : Consistent fs inum ip) :
    t.addr inum ip=fs.addr inum ip :=
  addr_congr h.sb (inodes_congr h.dinode) fun _ hx => h.block_addr hc hx

theorem Allocated.used_mono (h : Allocated fs t b) :
    ∀ c < fs.sb.size, fs.used c=true → t.used c=true := by
  intro c hc hu
  rw [h.used c hc,hu,Bool.or_true]

/-- What every step of a function on the inode keeps: the other inodes, all of the inode but
its addresses, and the blocks at all places. -/
structure Frame (inum : Nat) (fs : Fs) (ip : Dinode) (fs' : Fs) (ip' : Dinode) : Prop where
  sb : fs'.sb=fs.sb
  busy : fs'.busy=fs.busy
  dinode : ∀ i < fs.sb.ninodes, fs'.dinode i=fs.dinode i
  inode : ip' = { ip with addrs := ip'.addrs }
  fits : ip'.Fits
  consistent : Consistent fs' inum ip'
  keeps : ∀ i x, fs.addr inum ip i x≠0 → fs'.addr inum ip' i x=fs.addr inum ip i x
  others : ∀ i x, i≠inum → fs'.addr inum ip' i x=fs.addr inum ip i x
  added : ∀ x, fs.addr inum ip inum x=0 → fs'.addr inum ip' inum x≠0 →
    fs'.addr inum ip' inum x∈fs'.logged
  marked : ∀ b < fs.sb.size, nmeta fs.sb ≤ b → fs'.used b=true →
    fs.used b=true ∨ ∃ x, fs'.addr inum ip' inum x=b
  logged : fs.logged ⊆ fs'.logged

theorem Frame.refl (h : Consistent fs inum ip) (hip : ip.Fits) : Frame inum fs ip fs ip where
  sb := rfl
  busy := rfl
  dinode _ _ := rfl
  inode := rfl
  fits := hip
  consistent := h
  keeps _ _ _ := rfl
  others _ _ _ := rfl
  added _ h0 h := absurd h0 h
  marked _ _ _ h := .inl h
  logged := List.Subset.refl _

theorem Frame.trans (h : Frame inum fs ip fs' ip') (h' : Frame inum fs' ip' fs'' ip'') :
    Frame inum fs ip fs'' ip'' where
  sb := h'.sb.trans h.sb
  busy := h'.busy.trans h.busy
  dinode i hi := (h'.dinode i (by rw [h.sb]; exact hi)).trans (h.dinode i hi)
  inode := by
    have hi := h.inode
    rw [h'.inode,hi]
  fits := h'.fits
  consistent := h'.consistent
  keeps i x hx := by
    have he := h.keeps i x hx
    rw [h'.keeps i x (by rw [he]; exact hx),he]
  others i x hi := (h'.others i x hi).trans (h.others i x hi)
  added x h0 hx := by
    by_cases hmid : fs'.addr inum ip' inum x=0
    · exact h'.added x hmid hx
    · rw [h'.keeps inum x hmid]
      exact h'.logged (h.added x h0 hmid)
  marked b hb hlo hu := by
    rcases h'.marked b (by rw [h.sb]; exact hb) (by rw [h.sb]; exact hlo) hu with hu' | hx
    · rcases h.marked b hb hlo hu' with hu'' | ⟨x,hx⟩
      · exact .inl hu''
      · have hpos := nmeta_pos fs.sb
        exact .inr ⟨x,(h'.keeps inum x (by omega)).trans hx⟩
    · exact .inr hx
  logged := List.Subset.trans h.logged h'.logged

theorem Frame.live (h : Frame inum fs ip fs' ip') (hl : Live fs inum ip) : Live fs' inum ip' where
  lt := h.sb ▸ hl.lt
  type := by
    rw [h.inode]
    exact hl.type
  fits := h.fits

theorem Frame.logWrite (h : Frame inum fs ip fs' ip') (b : Nat) : Frame inum fs ip (fs'.logWrite b) ip' :=
  { h with
    consistent := { h.consistent with }
    added := fun x h0 hx => List.mem_cons_of_mem _ (h.added x h0 hx)
    logged := fun _ hc => List.mem_cons_of_mem _ (h.logged hc) }

theorem Frame.size (h : Frame inum fs ip fs' ip') : ip'.size=ip.size := by rw [h.inode]

/-- What may happen to the blocks of an inode when one is looked up: blocks are added at
places that had none, and every file keeps its bytes. -/
structure Grows (inum : Nat) (fs : Fs) (ip : Dinode) (fs' : Fs) (ip' : Dinode) : Prop
    extends Frame inum fs ip fs' ip' where
  byte : fs'.byte inum ip'=fs.byte inum ip
  changed : ∀ c, fs'.block c≠fs.block c → c∈fs'.logged
  fresh : ∀ c∈fs'.logged, c∈fs.logged ∨
    ∀ bn, fs.addr inum ip inum (some bn)≠0 → fs.addr inum ip inum (some bn)≠c

theorem Grows.refl (h : Consistent fs inum ip) (hip : ip.Fits) : Grows inum fs ip fs ip :=
  { Frame.refl h hip with
    byte := rfl
    changed := fun _ hc => absurd rfl hc
    fresh := fun _ hc => .inl hc }

theorem Grows.trans (h : Grows inum fs ip fs' ip') (h' : Grows inum fs' ip' fs'' ip'') :
    Grows inum fs ip fs'' ip'' where
  toFrame := h.toFrame.trans h'.toFrame
  byte := h'.byte.trans h.byte
  changed c hc := by
    by_cases hmid : fs''.block c=fs'.block c
    · exact h'.logged (h.changed c (by rwa [← hmid]))
    · exact h'.changed c hmid
  fresh c hc := by
    rcases h'.fresh c hc with hc' | hnew
    · exact h.fresh c hc'
    · refine .inr fun bn hbn => ?_
      have he := h.keeps inum (some bn) hbn
      exact he ▸ hnew bn (by rw [he]; exact hbn)

theorem Grows.call (h : Consistent fs inum ip) (hip : ip.Fits) (n : Nat) :
    Grows inum fs ip { fs with calls := n } ip :=
  { Grows.refl h hip with
    dinode := fun _ _ => rfl
    consistent := { h with }
    byte := rfl
    keeps := fun _ _ _ => rfl
    others := fun _ _ _ => rfl
    added := fun _ h0 h => absurd h0 h
    marked := fun _ _ _ h => .inl h }

theorem byte_of_add (hblock : ∀ i bn, fs.addr inum ip i (some bn)≠0 →
      fs'.block (fs.addr inum ip i (some bn))=fs.block (fs.addr inum ip i (some bn)))
    (hzero : fs'.block b = fun _ => 0) (hx : fs.addr inum ip inum x=0)
    (haddr : ∀ i y, fs'.addr inum ip' i y = if i=inum ∧ y=x then b else fs.addr inum ip i y) :
    fs'.byte inum ip'=fs.byte inum ip := by
  funext i k
  simp only [Fs.byte,haddr]
  by_cases hk : i=inum ∧ some (k/bsize)=x
  · obtain ⟨rfl,rfl⟩ := hk
    simp [hx,hzero]
  · rw [if_neg hk]
    by_cases h0 : fs.addr inum ip i (some (k/bsize))=0
    · rw [if_pos h0,if_pos h0]
    · rw [if_neg h0,if_neg h0,hblock i _ h0]

/-- Growth by the block that `balloc` found, once it stands at a place that had none. -/
theorem Allocated.grows (h : Allocated fs t b) (hc : Consistent fs inum ip) (hsb : fs'.sb=t.sb)
    (hbusy : fs'.busy=t.busy) (hdinode : ∀ i < fs.sb.ninodes, fs'.dinode i=fs.dinode i)
    (hused : ∀ c < fs.sb.size, fs'.used c=t.used c) (hino : ip' = { ip with addrs := ip'.addrs })
    (hfits : ip'.Fits) (hempty : fs.addr inum ip inum x=0)
    (haddr : ∀ i y, fs'.addr inum ip' i y = if i=inum ∧ y=x then b else fs.addr inum ip i y)
    (hblock : ∀ i bn, fs.addr inum ip i (some bn)≠0 →
      fs'.block (fs.addr inum ip i (some bn))=fs.block (fs.addr inum ip i (some bn)))
    (hzero : fs'.block b = fun _ => 0) (hlogged : t.logged ⊆ fs'.logged)
    (hchanged : ∀ c, fs'.block c≠fs.block c → c∈fs'.logged)
    (hfresh : ∀ c∈fs'.logged, c∈t.logged ∨
      ∀ bn, fs.addr inum ip inum (some bn)≠0 → fs.addr inum ip inum (some bn)≠c) :
    Grows inum fs ip fs' ip' where
  sb := hsb.trans h.sb
  busy := hbusy.trans h.busy
  dinode := hdinode
  inode := hino
  fits := hfits
  consistent := hc.of_add (hsb.trans h.sb) (fun c hcs hu => (hused c hcs).trans (h.used_mono c hcs hu))
    ⟨h.area.1,h.area.2,by rw [hused b h.area.2,h.used b h.area.2]; simp⟩
    (hc.addr_ne_free h.free h.ne_zero) haddr
  byte := byte_of_add hblock hzero hempty haddr
  keeps i y hy := by
    rw [haddr,if_neg]
    rintro ⟨rfl,rfl⟩
    exact hy hempty
  others i y hi := by rw [haddr,if_neg fun he => hi he.1]
  added y h0 hy := by
    rw [haddr] at hy ⊢
    split at hy
    · next he =>
      rw [if_pos he]
      exact hlogged (h.logged ▸ List.mem_cons_self)
    · exact absurd h0 hy
  marked c hcs _ hu := by
    rw [hused c hcs,h.used c hcs] at hu
    by_cases he : c=b
    · exact .inr ⟨x,by rw [haddr,if_pos ⟨rfl,rfl⟩,he]⟩
    · exact .inl (by simpa [he] using hu)
  changed := hchanged
  logged c hcl := hlogged (h.logged ▸ List.mem_cons_of_mem _ (List.mem_cons_of_mem _ hcl))
  fresh c hcl := by
    rcases hfresh c hcl with hcl | hnew
    · rw [h.logged,List.mem_cons,List.mem_cons] at hcl
      rcases hcl with rfl | rfl | hcl
      · exact .inr fun bn _ => hc.addr_ne_free h.free h.ne_zero _ _
      · refine .inr fun bn hbn he => ?_
        have hlo := (hc.area inum (some bn) hbn).1
        have hlt := bblock_lt h.area.2
        omega
      · exact .inl hcl
    · exact .inr hnew

def tablePlace (k : Nat) : Option Nat := if k=ndirect then none else some k

theorem place_update (block : Nat → Block) {d : Dinode} {y : Option Nat} (hk : k ≤ ndirect)
    (h0 : d.addrs k=0) (hb : block b = fun _ => 0) :
    place block { d with addrs := update d.addrs k b } y =
      if y=tablePlace k then b else place block d y := by
  unfold tablePlace
  by_cases hind : k=ndirect
  · subst hind
    cases y with
    | none => simp [place]
    | some bn =>
      simp only [place,Dinode.slot]
      by_cases hbn : bn < ndirect
      · rw [if_pos hbn,if_pos hbn]
        exact update_of_ne (by omega) _ _
      · simp [hbn,h0,hb]
  · rw [if_neg hind]
    have hkeep : update d.addrs k b ndirect=d.addrs ndirect := update_of_ne (Ne.symm hind) _ _
    cases y with
    | none => simpa [place] using hkeep
    | some bn =>
      simp only [place,Dinode.slot,hkeep,Option.some.injEq]
      by_cases hbn : bn < ndirect
      · by_cases he : bn=k
        · simp [he,Nat.lt_of_le_of_ne hk hind]
        · simp [hbn,he]
      · have he : bn≠k := by omega
        simp [hbn,he]

theorem Allocated.atAddr (h : Allocated fs t b) (hc : Consistent fs inum ip) (hl : Live fs inum ip)
    (hk : k ≤ ndirect) (h0 : ip.addrs k=0) :
    Grows inum fs ip t { ip with addrs := update ip.addrs k b } ∧
      ∀ i y, t.addr inum { ip with addrs := update ip.addrs k b } i y =
        if i=inum ∧ y=tablePlace k then b else fs.addr inum ip i y := by
  have hempty : fs.addr inum ip inum (tablePlace k)=0 := by
    rw [hl.addr]
    unfold tablePlace
    split
    · next hind => simpa [place,hind] using h0
    · next hind => simpa [place,Dinode.slot,Nat.lt_of_le_of_ne hk hind] using h0
  have haddr : ∀ i y, t.addr inum { ip with addrs := update ip.addrs k b } i y =
      if i=inum ∧ y=tablePlace k then b else fs.addr inum ip i y := by
    intro i y
    rw [← h.addr hc]
    by_cases hi : i=inum
    · subst hi
      have hplace := place_update t.block (y := y) hk h0 h.zero
      simp only [Fs.addr,Fs.inodes,update_self,h.sb,hl.lt,hl.type,ne_eq,not_false_eq_true,
        and_self,if_true,true_and]
      exact hplace
    · simp only [Fs.addr,Fs.inodes,update_of_ne hi,hi,false_and,if_false]
  have hfitsAddrs (j : Nat) : update ip.addrs k b j < uint := by
    by_cases hj : j=k
    · have hsize := hc.layout.fits
      have hlt := h.area.2
      simp only [hj,update_self]
      omega
    · simpa [hj] using hl.fits.addrs j
  refine ⟨h.grows hc rfl rfl h.dinode (fun _ _ => rfl) rfl ?_ hempty haddr
    (fun _ _ hx => h.block_addr hc hx) h.zero (List.Subset.refl _) h.changed fun _ => .inl,haddr⟩
  exact { hl.fits with
    addrs := hfitsAddrs
    rest := fun j hj => by
      have hne : j≠k := by omega
      simpa [hne] using hl.fits.rest j hj }

theorem place_word {block : Nat → Block} {d : Dinode} (hind : d.addrs ndirect≠0) (hj : j < nindirect) :
    place block d (some (ndirect+j))=getWord (block (d.addrs ndirect)) j := by
  have hmax : ndirect+j < maxfile := by simp only [maxfile]; omega
  have hnot : ¬ndirect+j < ndirect := by omega
  simp only [place,Dinode.slot,if_neg hnot,if_pos (And.intro hmax hind),Nat.add_sub_cancel_left]

theorem place_putWord (block : Nat → Block) {d : Dinode} {y : Option Nat} (hind : d.addrs ndirect≠0)
    (hj : j < nindirect) (hb : b < uint) :
    place (update block (d.addrs ndirect) (putWord (block (d.addrs ndirect)) j b)) d y =
      if y=some (ndirect+j) then b else place block d y := by
  cases y with
  | none => simp [place]
  | some bn =>
    simp only [place,Dinode.slot,update_self,Option.some.injEq]
    by_cases hbn : bn < ndirect
    · have hne : bn≠ndirect+j := by omega
      simp [hbn,hne]
    by_cases he : bn=ndirect+j
    · have hmax : bn < maxfile := by simp only [maxfile]; omega
      have hsub : bn-ndirect=j := by omega
      rw [if_neg hbn,if_pos ⟨hmax,hind⟩,if_pos he,hsub]
      exact getWord_putWord hb
    · have hword : getWord (putWord (block (d.addrs ndirect)) j b) (bn-ndirect) =
          getWord (block (d.addrs ndirect)) (bn-ndirect) := getWord_putWord_of_ne (by omega)
      simp only [if_neg hbn,if_neg he,hword]

theorem Allocated.atWord (h : Allocated fs t b) (hc : Consistent fs inum ip) (hl : Live fs inum ip)
    (hind : ip.addrs ndirect≠0) (hj : j < nindirect)
    (h0 : getWord (fs.block (ip.addrs ndirect)) j=0) :
    let fs' := (t.setBlock (ip.addrs ndirect) (putWord (t.block (ip.addrs ndirect)) j b)).logWrite
      (ip.addrs ndirect)
    Grows inum fs ip fs' ip ∧ ∀ i y, fs'.addr inum ip i y =
      if i=inum ∧ y=some (ndirect+j) then b else fs.addr inum ip i y := by
  intro fs'
  have hnone : fs.addr inum ip inum none=ip.addrs ndirect := hl.addr
  have hnone0 : fs.addr inum ip inum none≠0 := hnone ▸ hind
  have hlo : nmeta fs.sb ≤ ip.addrs ndirect := hnone ▸ (hc.area inum none hnone0).1
  have hlo' : nmeta t.sb ≤ ip.addrs ndirect := by rw [h.sb]; exact hlo
  have hempty : fs.addr inum ip inum (some (ndirect+j))=0 := by
    rw [hl.addr,place_word hind hj]
    exact h0
  have hdinode : ∀ i < fs.sb.ninodes, fs'.dinode i=fs.dinode i := fun i hi =>
    (dinode_setBlock t (h.sb ▸ hc.layout) hlo' (h.sb ▸ hi)).trans (h.dinode i hi)
  have hused : ∀ c < fs.sb.size, fs'.used c=t.used c := fun c hcs =>
    used_setBlock t hlo' (h.sb ▸ hcs)
  -- every other block of an inode is as before
  have hblock {i : Nat} {x : Option Nat} (hx : fs.addr inum ip i x≠0) (hne : ¬(i=inum ∧ x=none)) :
      fs'.block (fs.addr inum ip i x)=fs.block (fs.addr inum ip i x) := by
    have hother : fs.addr inum ip i x≠ip.addrs ndirect := fun he =>
      hne (hc.once i x inum none hx (he.trans hnone.symm))
    exact (update_of_ne hother _ _).trans (h.block_addr hc hx)
  have hbfit : b < uint := h.area.2.trans_le hc.layout.fits
  have haddr : ∀ i y, fs'.addr inum ip i y =
      if i=inum ∧ y=some (ndirect+j) then b else fs.addr inum ip i y := by
    intro i y
    have hlive : Live fs' inum ip := ⟨h.sb ▸ hl.lt,hl.type,hl.fits⟩
    by_cases hi : i=inum
    · subst hi
      have hlive' : Live t i ip := ⟨h.sb ▸ hl.lt,hl.type,hl.fits⟩
      rw [hlive.addr,← h.addr hc,hlive'.addr]
      simp only [true_and]
      exact place_putWord t.block hind hj hbfit
    · rw [if_neg fun he => hi he.1]
      by_cases hlt : i < fs.sb.ninodes ∧ (fs.inodes inum ip i).type≠0
      · have hino : fs'.inodes inum ip i=fs.inodes inum ip i := inodes_congr hdinode i hlt.1
        have hisb : fs'.sb=fs.sb := h.sb
        have hn : fs.addr inum ip i none=(fs.inodes inum ip i).addrs ndirect := by
          simp [Fs.addr,hlt,place]
        have hsame : (fs.inodes inum ip i).addrs ndirect≠0 →
            fs'.block ((fs.inodes inum ip i).addrs ndirect) =
              fs.block ((fs.inodes inum ip i).addrs ndirect) := by
          rw [← hn]
          exact fun hx => hblock hx fun he => hi he.1
        simp only [Fs.addr,hisb,hino]
        rw [if_pos hlt,if_pos hlt]
        exact congrFun (slot_congr hsame) y
      · have hino : ¬(i < fs'.sb.ninodes ∧ (fs'.inodes inum ip i).type≠0) := by
          rintro ⟨hlt',htype⟩
          have hlt'' : i < fs.sb.ninodes := h.sb ▸ hlt'
          exact hlt ⟨hlt'',by rwa [inodes_congr hdinode i hlt''] at htype⟩
        simp only [Fs.addr]
        rw [if_neg hlt,if_neg hino]
  have hzero : fs'.block b = fun _ => 0 := by
    have hne : b≠ip.addrs ndirect := fun he =>
      hc.addr_ne_free h.free h.ne_zero inum none (hnone.trans he.symm)
    exact (update_of_ne hne _ _).trans h.zero
  refine ⟨h.grows hc rfl rfl hdinode hused rfl hl.fits hempty haddr
    (fun i bn hx => hblock hx (by simp)) hzero (List.subset_cons_self _ _) (fun c hcb => ?_)
    fun c hcl => ?_,haddr⟩
  · by_cases he : c=ip.addrs ndirect
    · exact he ▸ List.mem_cons_self
    · have hsame : fs'.block c=t.block c := update_of_ne he _ _
      exact List.mem_cons_of_mem _ (h.changed c (hsame ▸ hcb))
  · rcases List.mem_cons.mp hcl with rfl | hcl
    · refine .inr fun bn hbn he => ?_
      cases (hc.once inum (some bn) inum none hbn (he.trans hnone.symm)).2
    · exact .inl hcl

/-- Whether `k` calls of `balloc` in a row find a block, the first of them with number `calls`. -/
def grants (size : Nat) (busy : Nat → Nat → Bool) : (Nat → Bool) → Nat → Nat → Bool
  | _, _, 0 => true
  | used, calls, k+1 =>
    match (List.range size).find? fun b => !used b && !busy calls b with
    | none => false
    | some b => grants size busy (update used b true) (calls+1) k

def Fs.grants (fs : Fs) (k : Nat) : Bool := FileBytes.grants fs.sb.size fs.busy fs.used fs.calls k

section Grants
variable {size calls : Nat} {busy : Nat → Nat → Bool} {used used' : Nat → Bool}

theorem grants_congr (h : ∀ b<size, used b=used' b) :
    grants size busy used calls k=grants size busy used' calls k := by
  induction k generalizing used used' calls with
  | zero => rfl
  | succ k ih =>
    have hfind : (List.range size).find? (fun b => !used b && !busy calls b) =
        (List.range size).find? fun b => !used' b && !busy calls b :=
      List.find?_congr fun b hb => by rw [h b (List.mem_range.mp hb)]
    rw [grants,grants,hfind]
    split
    · rfl
    · exact ih fun c hc => by simp only [update_apply,h c hc]

theorem grants_mono (hj : j ≤ k) (h : grants size busy used calls k=true) :
    grants size busy used calls j=true := by
  induction k generalizing used calls j with
  | zero => rwa [Nat.le_zero.mp hj]
  | succ k ih =>
    cases j with
    | zero => rfl
    | succ j =>
      rw [grants] at h ⊢
      split at h
      · cases h
      · exact ih (Nat.le_of_succ_le_succ hj) h

theorem grants_of_card {S : Finset Nat}
    (hS : ∀ b∈S, b<size ∧ used b=false ∧ ∀ c, busy c b=false) (hk : k ≤ S.card) :
    grants size busy used calls k=true := by
  induction k generalizing used calls S with
  | zero => rfl
  | succ k ih =>
    rw [grants]
    split
    · next hnone =>
      obtain ⟨b,hb⟩ := Finset.card_pos.mp (Nat.lt_of_lt_of_le (Nat.succ_pos k) hk)
      obtain ⟨hlt,hu,hbusy⟩ := hS b hb
      have hno := List.find?_eq_none.mp hnone b (List.mem_range.mpr hlt)
      simp [hu,hbusy] at hno
    · next b _ =>
      have hcard : S.card-1≤(S.erase b).card := Finset.pred_card_le_card_erase
      refine ih (S := S.erase b) (fun c hc => ?_) (by omega)
      obtain ⟨hne,hc⟩ := Finset.mem_erase.mp hc
      rw [update_of_ne hne]
      exact hS c hc

end Grants

def Spare (fs : Fs) (S : Finset Nat) : Prop :=
  ∀ b∈S, b < fs.sb.size ∧ fs.used b=false ∧ ∀ c, fs.busy c b=false

/-- 1 if there is no block at place `x` of the inode. -/
def lacks (fs : Fs) (inum : Nat) (ip : Dinode) (x : Option Nat) : Nat :=
  if fs.addr inum ip inum x=0 then 1 else 0

structure MapsAt (inum : Nat) (fs : Fs) (ip : Dinode) (x : Option Nat) (r : Fs × Dinode × Nat) :
    Prop where
  grows : Grows inum fs ip r.1 r.2.1
  addr : r.1.addr inum r.2.1 inum x=r.2.2
  rest : ∀ y, y≠x → r.1.addr inum r.2.1 inum y=fs.addr inum ip inum y
  granted : r.2.2≠0 ↔ fs.grants (lacks fs inum ip x)=true
  left : r.2.2≠0 → ∀ k, fs.grants (lacks fs inum ip x+k)=r.1.grants k

theorem MapsAt.found (hc : Consistent fs inum ip) (hip : ip.Fits) (hx : fs.addr inum ip inum x≠0) :
    MapsAt inum fs ip x (fs, ip, fs.addr inum ip inum x) where
  grows := .refl hc hip
  addr := rfl
  rest _ _ := rfl
  granted := iff_of_true hx (by simp [lacks,hx,Fs.grants,grants])
  left _ k := by simp [lacks,hx]

theorem MapsAt.failed (hc : Consistent fs inum ip) (hip : ip.Fits) (hx : fs.addr inum ip inum x=0)
    (hfree : fs.firstFree=none) : MapsAt inum fs ip x ({ fs with calls := fs.calls+1 }, ip, 0) where
  grows := .call hc hip _
  addr := hx
  rest _ _ := rfl
  granted := by
    rw [Fs.firstFree] at hfree
    simp [lacks,hx,Fs.grants,grants,hfree]
  left h := absurd rfl h

theorem MapsAt.added (hb : b≠0) (hx : fs.addr inum ip inum x=0) (hfree : fs.firstFree=some b)
    (hg : Grows inum fs ip fs' ip') (hcalls : fs'.calls=fs.calls+1)
    (haddr : ∀ i y, fs'.addr inum ip' i y = if i=inum ∧ y=x then b else fs.addr inum ip i y)
    (hused : ∀ c < fs.sb.size, fs'.used c=(decide (c=b) || fs.used c)) :
    MapsAt inum fs ip x (fs', ip', b) := by
  have hleft (k : Nat) : fs.grants (lacks fs inum ip x+k)=fs'.grants k := by
    rw [lacks,if_pos hx,Nat.add_comm,Fs.grants,grants]
    rw [Fs.firstFree] at hfree
    rw [hfree,Fs.grants,hg.sb,hg.busy,hcalls]
    refine grants_congr fun c hc => ?_
    rw [hused c hc]
    by_cases he : c=b
    · simp [he]
    · simp [he]
  exact {
    grows := hg
    addr := (haddr inum x).trans (if_pos ⟨rfl,rfl⟩)
    rest := fun y hy => (haddr inum y).trans (if_neg fun h => hy h.2)
    granted := iff_of_true hb (hleft 0)
    left := fun _ => hleft }

theorem mapAddr_mapsAt (hc : Consistent fs inum ip) (hl : Live fs inum ip) (hk : k ≤ ndirect) :
    MapsAt inum fs ip (tablePlace k) (mapAddr fs ip k) := by
  have hplace : fs.addr inum ip inum (tablePlace k)=ip.addrs k := by
    rw [hl.addr]
    unfold tablePlace
    split
    · next hind => simp [place,hind]
    · next hind => simp [place,Dinode.slot,Nat.lt_of_le_of_ne hk hind]
  unfold mapAddr
  by_cases h0 : ip.addrs k=0
  · rw [if_pos h0]
    rw [h0] at hplace
    cases hfree : fs.firstFree with
    | none =>
      rw [balloc_none hfree]
      exact .failed hc hl.fits hplace hfree
    | some b =>
      obtain ⟨t,ht,ha⟩ := balloc_some hc hfree
      obtain ⟨hg,haddr⟩ := ha.atAddr hc hl hk h0
      simp only [ht,if_neg ha.ne_zero]
      exact .added ha.ne_zero hplace hfree hg ha.calls haddr ha.used
  · rw [if_neg h0]
    have hfound := MapsAt.found hc hl.fits (x := tablePlace k) (by rw [hplace]; exact h0)
    rwa [hplace] at hfound

theorem mapWord_mapsAt (hc : Consistent fs inum ip) (hl : Live fs inum ip)
    (hind : ip.addrs ndirect≠0) (hj : j < nindirect) : MapsAt inum fs ip (some (ndirect+j))
      ((mapWord fs (ip.addrs ndirect) j).1, ip, (mapWord fs (ip.addrs ndirect) j).2) := by
  have hplace : fs.addr inum ip inum (some (ndirect+j))=getWord (fs.block (ip.addrs ndirect)) j :=
    hl.addr.trans (place_word hind hj)
  unfold mapWord
  by_cases h0 : getWord (fs.block (ip.addrs ndirect)) j=0
  · rw [if_pos h0]
    rw [h0] at hplace
    cases hfree : fs.firstFree with
    | none =>
      rw [balloc_none hfree]
      exact .failed hc hl.fits hplace hfree
    | some b =>
      obtain ⟨t,ht,ha⟩ := balloc_some hc hfree
      obtain ⟨hg,haddr⟩ := ha.atWord hc hl hind hj h0
      have hlo : nmeta t.sb ≤ ip.addrs ndirect := by
        have harea := hc.area inum none
        rw [hl.addr] at harea
        rw [ha.sb]
        exact (harea hind).1
      simp only [ht,if_neg ha.ne_zero]
      exact .added ha.ne_zero hplace hfree hg ha.calls haddr fun c hcs =>
        (used_setBlock t hlo (ha.sb ▸ hcs)).trans (ha.used c hcs)
  · rw [if_neg h0]
    have hfound := MapsAt.found hc hl.fits (x := some (ndirect+j)) (by rw [hplace]; exact h0)
    rwa [hplace] at hfound

def missing (fs : Fs) (inum : Nat) (ip : Dinode) (bn : Nat) : Nat :=
  lacks fs inum ip (some bn) + if ndirect ≤ bn then lacks fs inum ip none else 0

structure MapsTo (inum : Nat) (fs : Fs) (ip : Dinode) (bn : Nat) (r : Fs × Dinode × Nat) : Prop where
  grows : Grows inum fs ip r.1 r.2.1
  addr : r.1.addr inum r.2.1 inum (some bn)=r.2.2
  rest : ∀ bn', bn'≠bn → r.1.addr inum r.2.1 inum (some bn')=fs.addr inum ip inum (some bn')
  direct : bn < ndirect → r.1.addr inum r.2.1 inum none=fs.addr inum ip inum none
  granted : r.2.2≠0 ↔ fs.grants (missing fs inum ip bn)=true
  left : r.2.2≠0 → ∀ k, fs.grants (missing fs inum ip bn+k)=r.1.grants k

theorem bmap_mapsTo (hc : Consistent fs inum ip) (hl : Live fs inum ip) (hbn : bn < maxfile) :
    Yields (bmap fs ip bn) (MapsTo inum fs ip bn) := by
  unfold bmap
  by_cases hd : bn < ndirect
  · have hm := mapAddr_mapsAt hc hl hd.le
    have hplace : tablePlace bn=some bn := if_neg (by omega)
    rw [hplace] at hm
    have hmissing : missing fs inum ip bn=lacks fs inum ip (some bn) := by
      simp [missing,Nat.not_le.mpr hd]
    rw [if_pos hd]
    exact .ok ⟨hm.grows,hm.addr,fun bn' hne => hm.rest _ (by simpa using hne),fun _ => hm.rest _ (by simp),
      by rw [hmissing]; exact hm.granted,by rw [hmissing]; exact hm.left⟩
  have hj : bn-ndirect < nindirect := by simp only [maxfile] at hbn; omega
  have hbnj : ndirect+(bn-ndirect)=bn := by omega
  rw [if_neg hd,if_pos hj]
  have hm := mapAddr_mapsAt hc hl (Nat.le_refl ndirect)
  have hplace : tablePlace ndirect=none := if_pos rfl
  rw [hplace] at hm
  have hmissing : missing fs inum ip bn=lacks fs inum ip none+lacks fs inum ip (some bn) := by
    simp [missing,Nat.not_lt.mp hd,Nat.add_comm]
  generalize mapAddr fs ip ndirect=r at hm
  obtain ⟨fs₁,ip₁,ind⟩ := r
  have hl₁ : Live fs₁ inum ip₁ := hm.grows.toFrame.live hl
  have hind : ip₁.addrs ndirect=ind := by
    have haddr : fs₁.addr inum ip₁ inum none=ind := hm.addr
    rwa [hl₁.addr] at haddr
  by_cases h0 : ind=0
  · simp only [if_pos h0]
    have hslot : fs₁.addr inum ip₁ inum (some bn)=0 := by
      simp [hl₁.addr,place,Dinode.slot,hd,hind,h0]
    refine .ok ⟨hm.grows,hslot,fun bn' _ => hm.rest _ (by simp),fun h => absurd h hd,?_,
      fun h => absurd rfl h⟩
    refine iff_of_false (fun h => h rfl) fun hgrants => hm.granted.mpr ?_ h0
    exact grants_mono (by omega) hgrants
  · simp only [if_neg h0]
    have hw := mapWord_mapsAt hm.grows.consistent hl₁ (by rw [hind]; exact h0) hj
    rw [hbnj,hind] at hw
    have hsame : fs₁.addr inum ip₁ inum (some bn)=fs.addr inum ip inum (some bn) :=
      hm.rest _ (by simp)
    have hlacks : lacks fs₁ inum ip₁ (some bn)=lacks fs inum ip (some bn) := by
      simp only [lacks,hsame]
    have hgranted := hw.granted
    have hleft := hw.left
    rw [hlacks] at hgranted hleft
    refine .ok ⟨hm.grows.trans hw.grows,hw.addr,fun bn' hne => ?_,fun h => absurd h hd,?_,fun h k => ?_⟩
    · exact (hw.rest _ (by simpa using hne)).trans (hm.rest _ (by simp))
    · rw [hmissing,hm.left h0]
      exact hgranted
    · rw [hmissing,Nat.add_assoc,hm.left h0]
      exact hleft h k

end Xv6.FileBytes
