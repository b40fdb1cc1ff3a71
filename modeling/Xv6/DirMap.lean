import Xv6.DirBytes
import Xv6.FileEffects
import Xv6.SlotTable
import Xv6.Machine

/-! A directory is a finite map from names to inode numbers. The entries of a directory are a
table of slots; `dirlookup` finds in it, `dirlink` puts and `sys_unlink` clears. -/
namespace Xv6.FileBytes
open Function Xv6.DiskFormat Xv6.Total Xv6.LittleEndian Xv6.SlotTable Xv6.Machine
variable {d e : Dir} {p q name : Str} {b : Nat → UInt8} {f : Nat → UInt8} {k i m n fuel inum : Nat}

theorem strncpy_congr (h : ∀ j < n, p j=q j) : strncpy p n=strncpy q n := by
  induction n generalizing p q with
  | zero => rfl
  | succ n ih =>
    have htail : strncpy (fun j => p (j+1)) n=strncpy (fun j => q (j+1)) n :=
      ih fun j hj => h (j+1) (by omega)
    rw [strncpy,strncpy,h 0 (by omega),htail]

theorem strncmp_eq_zero_iff : strncmp p q n=0 ↔ strncpy p n=strncpy q n := by
  induction n generalizing p q with
  | zero => simp [strncmp,strncpy]
  | succ n ih =>
    rw [strncmp,strncpy,strncpy]
    by_cases hstep : p 0≠0 ∧ p 0=q 0
    · have hq : q 0≠0 := hstep.2 ▸ hstep.1
      rw [if_pos hstep,if_neg hstep.1,if_neg hq,ih,List.cons.injEq]
      exact ⟨fun h => ⟨hstep.2,h⟩,fun h => h.2⟩
    · rw [if_neg hstep,List.cons.injEq]
      by_cases he : p 0=q 0
      · have hp : p 0=0 := by
          by_contra hne
          exact hstep ⟨hne,he⟩
        have hq : q 0=0 := he ▸ hp
        simp [hp,hq]
      · have hne : (p 0).toNat≠(q 0).toNat := fun h => he (UInt8.toNat_inj.mp h)
        exact ⟨fun h => absurd (by omega) hne,fun h => absurd h.1 he⟩

theorem strncpy_stored (t : Str) (n : Nat) :
    strncpy (fun j => (strncpy t n).getD j 0) n=strncpy t n := by
  induction n generalizing t with
  | zero => rfl
  | succ n ih =>
    by_cases h0 : t 0=0
    · simp [strncpy,h0]
    · simpa [strncpy,h0] using ih fun j => t (j+1)

/-- What a directory keeps of a name: its first `DIRSIZ` bytes, up to the first 0. -/
def key (name : Str) : List UInt8 := strncpy name dirsiz

theorem namecmp_eq_zero_iff : namecmp p q=0 ↔ key p=key q := strncmp_eq_zero_iff

/-- The inode of entry `k`, in the bytes of a directory. -/
def entryInum (b : Nat → UInt8) (k : Nat) : Nat := get b (direntSize*k) 2

def entryName (b : Nat → UInt8) (k : Nat) : Str := fun j => b (direntSize*k+2+j)

def Dir.byte (d : Dir) : Nat → UInt8 := d.fs.byte d.inum d.dp d.inum

def entryTable (size : Nat) (b : Nat → UInt8) : Table (List UInt8) Nat where
  len := size/direntSize
  slot k := if entryInum b k=0 then none else some (key (entryName b k), entryInum b k)

def Dir.table (d : Dir) : Table (List UInt8) Nat := entryTable d.dp.size d.byte

/-- A directory in a consistent file system: whole entries, in blocks that are there. -/
structure Whole (d : Dir) : Prop where
  consistent : Consistent d.fs d.inum d.dp
  live : Live d.fs d.inum d.dp
  type : d.dp.type=tDir
  blocks : ∀ bn, bn*bsize < d.dp.size → d.dp.slot d.fs.block bn≠0
  aligned : d.dp.size%direntSize=0

def entryBytes (b : Nat → UInt8) (k : Nat) : List UInt8 :=
  (List.range direntSize).map fun j => b (direntSize*k+j)

theorem entryBytes_getD {j : Nat} (h : j < direntSize) :
    (entryBytes b k).getD j 0=b (direntSize*k+j) := by
  simp [entryBytes,List.getD_eq_getElem?_getD,h]

theorem direntInum_entryBytes : direntInum (entryBytes b k)=entryInum b k := by
  refine get_congr fun j _ hj => entryBytes_getD ?_
  simp only [direntSize]
  omega

theorem key_direntName : key (direntName (entryBytes b k))=key (entryName b k) := by
  refine strncpy_congr fun j hj => ?_
  simp only [direntName,entryName]
  rw [entryBytes_getD (by simp only [dirsiz,direntSize] at hj ⊢; omega),Nat.add_assoc]

theorem Whole.size_le (h : Whole d) : d.dp.size ≤ maxfile*bsize := by
  by_contra hgt
  refine h.blocks maxfile (Nat.lt_of_not_le hgt) ?_
  have hnot : ¬maxfile < ndirect := by decide
  rw [Dinode.slot,if_neg hnot,if_neg fun hh => absurd hh.1 (Nat.lt_irrefl _)]

theorem readi_entry (hl : Live d.fs d.inum d.dp) (hsize : d.dp.size ≤ maxfile*bsize)
    (hlt : direntSize*k+direntSize ≤ d.dp.size)
    (hblocks : ∀ o < direntSize*k+direntSize, d.dp.slot d.fs.block (o/bsize)≠0) :
    readi (fun _ => true) d.fs d.dp (direntSize*k) direntSize =
      .ok (d.fs, d.dp, (direntSize : Nat), entryBytes d.byte k) := by
  have hmin : min direntSize (d.dp.size-direntSize*k)=direntSize := by omega
  have hmax : maxfile*bsize+direntSize < uint := by decide
  have hread : readi (fun _ => true) d.fs d.dp (direntSize*k) direntSize=_ :=
    readi_eq hl (fun o _ ho => hblocks o (by omega)) (by omega) (by omega) fun _ _ _ => rfl
  rw [hread,hmin]
  rfl

theorem Whole.readi_entry (h : Whole d) (hk : k < d.table.len) :
    readi (fun _ => true) d.fs d.dp (direntSize*k) direntSize =
      .ok (d.fs, d.dp, (direntSize : Nat), entryBytes d.byte k) := by
  have hlt : direntSize*k+direntSize ≤ d.dp.size := by
    simp only [Dir.table,entryTable,direntSize] at hk ⊢
    omega
  exact FileBytes.readi_entry h.live h.size_le hlt fun o ho =>
    h.blocks _ ((Nat.div_mul_le_self o bsize).trans_lt (by omega))

theorem slot_any_iff {size : Nat} : ((entryTable size b).slot k).any (fun x => x.1=key name)=true ↔
    direntInum (entryBytes b k)≠0 ∧ namecmp name (direntName (entryBytes b k))=0 := by
  rw [direntInum_entryBytes,namecmp_eq_zero_iff,key_direntName]
  by_cases h0 : entryInum b k=0
  · simp [entryTable,h0]
  · simp only [entryTable,if_neg h0,Option.any_some,decide_eq_true_eq]
    exact ⟨fun he => ⟨h0,he.symm⟩,fun he => he.2.symm⟩

theorem Whole.offset_lt (h : Whole d) (hi : i ≤ d.table.len) :
    direntSize*i < d.dp.size ↔ i < d.table.len := by
  have haligned := h.aligned
  simp only [Dir.table,entryTable,direntSize] at hi haligned ⊢
  omega

theorem len_le_size (d : Dir) : d.table.len ≤ 0+d.dp.size := by
  simp only [Dir.table,entryTable,direntSize]
  omega

theorem Whole.dirlookupFrom_eq (h : Whole d) (name : Str) (hi : i ≤ d.table.len)
    (hfuel : d.table.len ≤ i+fuel) :
    dirlookupFrom name d.fs d.dp (direntSize*i) fuel=.ok (d.fs, d.dp,
      ((List.range' i (d.table.len-i)).find? fun k => (d.table.slot k).any fun x => x.1=key name).map
        fun k => (direntSize*k, entryInum d.byte k)) := by
  induction fuel generalizing i with
  | zero =>
    obtain rfl : i=d.table.len := by omega
    simp [dirlookupFrom]
  | succ fuel ih =>
    rw [dirlookupFrom]
    have hsize := h.offset_lt hi
    by_cases hlt : i < d.table.len
    case neg =>
      obtain rfl : i=d.table.len := by omega
      rw [if_neg fun hh => hlt (hsize.mp hh)]
      simp
    rw [if_pos (hsize.mpr hlt),h.readi_entry hlt]
    simp only [bind,Except.bind,ne_eq,not_true_eq_false,if_false]
    rw [show d.table.len-i=d.table.len-(i+1)+1 by omega,List.range'_succ,List.find?_cons]
    have hany : ((d.table.slot i).any fun x => x.1=key name)=true ↔ _ := slot_any_iff
    by_cases hhit : direntInum (entryBytes d.byte i)≠0 ∧ namecmp name (direntName (entryBytes d.byte i))=0
    · rw [if_pos hhit,hany.mpr hhit,direntInum_entryBytes]
      rfl
    · have hno : ((d.table.slot i).any fun x => x.1=key name)=false :=
        Bool.eq_false_iff.mpr fun hh => hhit (hany.mp hh)
      rw [if_neg hhit,hno]
      exact ih (i := i+1) (by omega) (by omega)

theorem Whole.dirlookup_eq (h : Whole d) (name : Str) : dirlookup d.fs d.dp name =
    .ok (d.fs, d.dp, (d.table.find (key name)).map fun k => (direntSize*k, entryInum d.byte k)) := by
  have hloop := h.dirlookupFrom_eq name (Nat.zero_le _) (len_le_size d)
  rw [Nat.mul_zero,Nat.sub_zero,← List.range_eq_range'] at hloop
  rw [dirlookup,if_neg (by simp [h.type]),hloop]
  rfl

theorem Whole.emptyFrom_eq (h : Whole d) (hi : i ≤ d.table.len) (hfuel : d.table.len ≤ i+fuel) :
    emptyFrom d.fs d.dp (direntSize*i) fuel=.ok (d.fs, d.dp, direntSize *
      ((List.range' i (d.table.len-i)).find? fun k => (d.table.slot k).isNone).getD d.table.len) := by
  induction fuel generalizing i with
  | zero =>
    obtain rfl : i=d.table.len := by omega
    simp [emptyFrom]
  | succ fuel ih =>
    rw [emptyFrom]
    have hsize := h.offset_lt hi
    by_cases hlt : i < d.table.len
    case neg =>
      obtain rfl : i=d.table.len := by omega
      rw [if_neg fun hh => hlt (hsize.mp hh)]
      simp
    rw [if_pos (hsize.mpr hlt),h.readi_entry hlt]
    simp only [bind,Except.bind,ne_eq,not_true_eq_false,if_false]
    rw [show d.table.len-i=d.table.len-(i+1)+1 by omega,List.range'_succ,List.find?_cons,
      direntInum_entryBytes]
    by_cases h0 : entryInum d.byte i=0
    · have hslot : (d.table.slot i).isNone=true := by simp [Dir.table,entryTable,h0]
      rw [if_pos h0,hslot]
      rfl
    · have hslot : (d.table.slot i).isNone=false := by simp [Dir.table,entryTable,h0]
      rw [if_neg h0,hslot]
      exact ih (i := i+1) (by omega) (by omega)

theorem Whole.empty_eq (h : Whole d) :
    emptyFrom d.fs d.dp 0 d.dp.size=.ok (d.fs, d.dp, direntSize*d.table.firstEmpty) := by
  have hloop := h.emptyFrom_eq (Nat.zero_le _) (len_le_size d)
  rw [Nat.mul_zero,Nat.sub_zero,← List.range_eq_range'] at hloop
  exact hloop

/-- There is room for entry `k`: a directory may be that long, and the block is there or can
be allocated. -/
def Space (d : Dir) (k : Nat) : Prop :=
  direntSize*k+direntSize ≤ maxfile*bsize ∧
    ∃ r, bmap d.fs d.dp (direntSize*k/bsize)=.ok r ∧ r.2.2≠0

theorem offset_le_size (hk : k ≤ d.table.len) : direntSize*k ≤ d.dp.size := by
  simp only [Dir.table,entryTable,direntSize] at hk ⊢
  omega

theorem piece_entry (k : Nat) : piece direntSize 0 (direntSize*k)=direntSize := by
  simp only [piece,direntSize,bsize]
  omega

theorem Whole.writei_entry_iff (h : Whole d) (hk : k ≤ d.table.len) (f : Nat → UInt8) :
    Yields (writei d.fs d.inum d.dp (.kernel f) 0 (direntSize*k) direntSize) fun r =>
      r.2.2=(direntSize : Nat) ↔ Space d k := by
  have hoff := offset_le_size hk
  have hle := h.size_le
  have hbig : maxfile*bsize+direntSize < uint := by decide
  have hnot : ¬(direntSize*k > d.dp.size ∨ (direntSize*k+direntSize)%uint < direntSize*k) := by
    rw [Nat.mod_eq_of_lt (by omega)]
    omega
  unfold writei
  rw [if_neg hnot]
  by_cases hmax : direntSize*k+direntSize > maxfile*bsize
  · rw [if_pos hmax]
    refine .ok (iff_of_false (by simp) fun hs => ?_)
    exact absurd hs.1 (Nat.not_le.mpr hmax)
  rw [if_neg hmax]
  have hbn : direntSize*k/bsize < maxfile := by
    refine Nat.div_lt_of_lt_mul ?_
    rw [Nat.mul_comm bsize]
    simp only [direntSize] at hmax ⊢
    omega
  obtain ⟨⟨fs,ip,b⟩,hmap,hm⟩ := bmap_mapsTo h.consistent h.live hbn
  have hspace : Space d k ↔ b≠0 := by
    simp only [Space,hmap,Except.ok.injEq]
    exact ⟨fun ⟨_,r,hr,hb⟩ => by subst hr; exact hb,fun hb => ⟨Nat.not_lt.mp hmax,_,rfl,hb⟩⟩
  rw [hspace,show direntSize=15+1 from rfl,writeiFrom,← show direntSize=15+1 from rfl,
    if_pos (by decide),hmap]
  simp only [bind,Except.bind,piece_entry,eitherCopyin]
  by_cases hb : b=0
  · simp only [if_pos hb]
    refine .ok (iff_of_false (by simp [direntSize]) (not_not_intro hb))
  · simp only [if_neg hb,if_true]
    exact .ok (iff_of_true rfl hb)

structure Entered (d : Dir) (k : Nat) (f : Nat → UInt8) (e : Dir) (r : Int) : Prop where
  whole : Whole e
  iff : r=(direntSize : Nat) ↔ Space d k
  size : r=(direntSize : Nat) → e.dp.size=max d.dp.size (direntSize*k+direntSize)
  byte : r=(direntSize : Nat) → ∀ j, e.byte j =
    if direntSize*k ≤ j ∧ j < direntSize*k+direntSize then f (j-direntSize*k) else d.byte j
  same : r≠(direntSize : Nat) → e.table=d.table

theorem reach_kernel (f : Nat → UInt8) (addr len : Nat) : (Source.kernel f).reach addr len=len :=
  reach_eq (Nat.le_refl len) (fun _ _ => rfl) fun h => absurd h (Nat.lt_irrefl len)

theorem Whole.entered (h : Whole d) (hk : k ≤ d.table.len) (f : Nat → UInt8) :
    Yields (writei d.fs d.inum d.dp (.kernel f) 0 (direntSize*k) direntSize) fun r =>
      Entered d k f ⟨r.1,d.inum,r.2.1⟩ r.2.2 := by
  have hoff := offset_le_size hk
  have hle := h.size_le
  obtain ⟨r,hr,hiff⟩ := h.writei_entry_iff hk f
  refine ⟨r,hr,?_⟩
  rcases (writei_stored h.consistent h.live).apply hr with ⟨-,rfl⟩ | ⟨-,w,c,hs⟩
  · exact ⟨h,hiff,fun he => by simp at he,fun he => by simp at he,fun _ => rfl⟩
  have hstart : w.2.2.1=direntSize*k+w.2.2.2 := hs.loop.offset
  have hstop := hs.loop.stop
  -- the loop stops at the start of the entry or after it
  have htot : w.2.2.2=0 ∨ w.2.2.2=direntSize := by
    by_contra hne
    have haligned := hs.loop.aligned (by omega)
    simp only [direntSize,bsize] at *
    omega
  have hc0 : c=0 := by
    rw [hs.loop.torn]
    refine if_neg fun hh => hs.loop.why hh.1 hh.2 (reach_kernel f _ _)
  have hbyte (j : Nat) : Dir.byte ⟨r.1,d.inum,r.2.1⟩ j =
      if direntSize*k ≤ j ∧ j < direntSize*k+w.2.2.2 then f (j-direntSize*k) else d.byte j := by
    have hb := hs.byte_eq d.inum j
    rw [hc0,Nat.add_zero] at hb
    simpa [Source.byte,Dir.byte] using hb
  have hresult : r.2.2=(direntSize : Nat) ↔ w.2.2.2=direntSize := by
    rw [hs.result]
    omega
  have hsize := hs.size
  have hwhole : Whole ⟨r.1,d.inum,r.2.1⟩ := {
    consistent := hs.consistent
    live := hs.live
    type := by
      rw [hs.inode]
      exact h.type
    blocks := fun bn hbn => by
      have hslot : r.2.1.slot r.1.block bn=w.1.addr d.inum w.2.1 d.inum (some bn) := by
        rw [← hs.addr,hs.live.addr]
        rfl
      rw [hslot]
      by_cases hold : bn*bsize < d.dp.size
      · have h0 : d.fs.addr d.inum d.dp d.inum (some bn)≠0 := by
          rw [h.live.addr]
          exact h.blocks bn hold
        rw [hs.loop.frame.keeps d.inum _ h0]
        exact h0
      · have hin := hs.loop.mapped (bn*bsize) (by omega) (by
          simp only [hsize] at hbn
          omega)
        rwa [Nat.mul_div_cancel bn (by decide)] at hin
    aligned := by
      have haligned := h.aligned
      simp only [direntSize] at *
      rcases htot with h0 | h0
      · rw [hsize,h0]
        omega
      · omega }
  refine ⟨hwhole,hiff,fun he => ?_,fun he j => ?_,fun hne => ?_⟩
  · rw [hsize,hresult.mp he]
  · rw [hbyte,hresult.mp he]
  · have h0 : w.2.2.2=0 := htot.resolve_right fun hh => hne (hresult.mpr hh)
    rw [h0,Nat.add_zero,Nat.max_eq_left hoff] at hsize
    have hsame : Dir.byte ⟨r.1,d.inum,r.2.1⟩=d.byte := by
      funext j
      rw [hbyte,h0]
      exact if_neg (by omega)
    simp only [Dir.table,hsize,hsame]

theorem Entered.slot_of_ne (h : Entered d k f e direntSize) (hi : i≠k) :
    e.table.slot i=d.table.slot i := by
  have hsame (j : Nat) (hj : j < direntSize) : e.byte (direntSize*i+j)=d.byte (direntSize*i+j) := by
    rw [h.byte rfl,if_neg]
    simp only [direntSize] at hj ⊢
    omega
  have hinum : entryInum e.byte i=entryInum d.byte i := by
    refine get_congr fun j hj hj' => ?_
    have hjs := hsame (j-direntSize*i) (by simp only [direntSize] at *; omega)
    rwa [show direntSize*i+(j-direntSize*i)=j by omega] at hjs
  have hname : key (entryName e.byte i)=key (entryName d.byte i) := by
    refine strncpy_congr fun j hj => ?_
    simp only [entryName,Nat.add_assoc]
    exact hsame (2+j) (by simp only [dirsiz,direntSize] at *; omega)
  simp only [Dir.table,entryTable,hinum,hname]

theorem entry_of_bytes (hlt : inum < ushort)
    (hnew : ∀ j < direntSize, b (direntSize*k+j)=direntBytes inum name j) :
    entryInum b k=inum ∧ key (entryName b k)=key name := by
  constructor
  · have hget : get (direntBytes inum name) 0 2=inum := get_put_of_lt hlt
    rw [entryInum,← Nat.add_zero (direntSize*k),← get_shift,← hget]
    refine get_congr fun j _ hj => hnew j ?_
    simp only [direntSize]
    omega
  · refine Eq.trans (strncpy_congr fun j hj => ?_) (strncpy_stored name dirsiz)
    have hj' : 2+j < direntSize := by
      simp only [dirsiz,direntSize] at hj ⊢
      omega
    rw [entryName,Nat.add_assoc,hnew _ hj',direntBytes,put_of_not_mem (by omega),
      Nat.add_sub_cancel_left]

theorem Entered.table_put (h : Entered d k (direntBytes inum name) e direntSize)
    (h0 : 0 < inum) (hlt : inum < ushort) : e.table=d.table.put k (key name, inum) := by
  have hsize := h.size rfl
  have hbyte := h.byte rfl
  have hnew (j : Nat) (hj : j < direntSize) :
      e.byte (direntSize*k+j)=direntBytes inum name j := by
    rw [hbyte,if_pos (by omega),Nat.add_sub_cancel_left]
  obtain ⟨hinum,hname⟩ := entry_of_bytes hlt hnew
  have hlen : e.table.len=max d.table.len (k+1) := by
    simp only [Dir.table,entryTable,hsize,direntSize]
    omega
  have hall : e.table.slot=update d.table.slot k (some (key name, inum)) := by
    funext i
    by_cases hi : i=k
    · subst hi
      rw [update_self]
      simp only [Dir.table,entryTable,hinum,hname]
      exact if_neg (by omega)
    · rw [update_of_ne hi,h.slot_of_ne hi]
  calc e.table=⟨e.table.len,e.table.slot⟩ := rfl
    _ = d.table.put k (key name, inum) := by rw [hlen,hall]; rfl

theorem Entered.table_clear (h : Entered d k (fun _ => 0) e direntSize) (hk : k < d.table.len) :
    e.table=d.table.clear k := by
  have hsize := h.size rfl
  have hinum : entryInum e.byte k=0 := by
    refine get_zero fun j hj hj' => ?_
    rw [h.byte rfl,if_pos ⟨hj,by simp only [direntSize] at hj' ⊢; omega⟩]
  have hlen : e.table.len=d.table.len := by
    simp only [Dir.table,entryTable,hsize,direntSize] at hk ⊢
    omega
  have hall : e.table.slot=update d.table.slot k none := by
    funext i
    by_cases hi : i=k
    · subst hi
      simp [Dir.table,entryTable,hinum]
    · rw [update_of_ne hi,h.slot_of_ne hi]
  calc e.table=⟨e.table.len,e.table.slot⟩ := rfl
    _ = d.table.clear k := by rw [hlen,hall]; rfl

structure Directory (d : Dir) : Prop where
  whole : Whole d
  unique : d.table.Unique

theorem find_isSome_iff {t : Table (List UInt8) Nat} {x : List UInt8} :
    (t.find x).isSome=true ↔ t.lookup x≠none := by
  rw [ne_eq,lookup_eq_none_iff,← find_eq_none_iff]
  cases t.find x <;> simp

structure Linked (d : Dir) (name : Str) (inum : Nat) (e : Dir) (r : Int) : Prop where
  directory : Directory e
  iff : r=0 ↔ d.table.lookup (key name)=none ∧ Space d d.table.firstEmpty
  bound : r=0 → e.table.lookup=update d.table.lookup (key name) (some inum)
  same : r≠0 → e.table.lookup=d.table.lookup

theorem Directory.dirlink (h : Directory d) (name : Str) (h0 : 0 < inum) (hlt : inum < ushort) :
    Yields (dirlink d.fs d.inum d.dp name inum) fun r => Linked d name inum ⟨r.1,d.inum,r.2.1⟩ r.2.2 := by
  unfold FileBytes.dirlink
  rw [h.whole.dirlookup_eq]
  refine .ok_bind ?_
  simp only [Option.isSome_map]
  by_cases hfound : (d.table.find (key name)).isSome=true
  · rw [if_pos hfound]
    have hsome := find_isSome_iff.mp hfound
    exact .ok ⟨h,iff_of_false (by simp) fun hn => hsome hn.1,fun hr => by simp at hr,fun _ => rfl⟩
  rw [if_neg hfound,h.whole.empty_eq]
  refine .ok_bind ?_
  have hnone : d.table.lookup (key name)=none := by
    by_contra hne
    exact hfound (find_isSome_iff.mpr hne)
  obtain ⟨hk,hempty⟩ := firstEmpty_spec d.table
  refine (h.whole.entered hk (direntBytes inum name)).bind ?_
  rintro ⟨fs,dp,r⟩ he
  by_cases hr : r=(direntSize : Nat)
  · simp only [hr,ne_eq,not_true_eq_false,if_false]
    have htable : Dir.table ⟨fs,d.inum,dp⟩=d.table.put d.table.firstEmpty (key name, inum) :=
      Entered.table_put (hr ▸ he) h0 hlt
    refine .ok ⟨⟨he.whole,?_⟩,iff_of_true rfl ⟨hnone,he.iff.mp hr⟩,fun _ => ?_,fun hne => absurd rfl hne⟩
    · rw [htable]
      exact h.unique.put hnone hk
    · rw [htable]
      exact h.unique.lookup_put hnone hk hempty
  · simp only [ne_eq,hr,not_false_eq_true,if_true]
    have htable : Dir.table ⟨fs,d.inum,dp⟩=d.table := he.same hr
    refine .ok ⟨⟨he.whole,?_⟩,iff_of_false (by simp) fun hn => hr (he.iff.mpr hn.2),
      fun hz => by simp at hz,fun _ => ?_⟩
    · rw [htable]
      exact h.unique
    · rw [htable]

structure Unlinked (d : Dir) (name : Str) (e : Dir) (r : Int) : Prop where
  directory : Directory e
  iff : r=0 ↔ d.table.lookup (key name)≠none
  bound : e.table.lookup=update d.table.lookup (key name) none

theorem Whole.space (h : Whole d) (hk : k < d.table.len) : Space d k := by
  have hle := h.size_le
  have hlt : direntSize*k+direntSize ≤ d.dp.size := by
    simp only [Dir.table,entryTable,direntSize] at hk ⊢
    omega
  have hslot : d.dp.slot d.fs.block (direntSize*k/bsize)≠0 := by
    refine h.blocks _ ((Nat.div_mul_le_self _ _).trans_lt ?_)
    simp only [direntSize] at hlt ⊢
    omega
  exact ⟨by omega,_,bmap_found hslot,hslot⟩

theorem Directory.dirunlink (h : Directory d) (name : Str) :
    Yields (dirunlink d.fs d.inum d.dp name) fun r => Unlinked d name ⟨r.1,d.inum,r.2.1⟩ r.2.2 := by
  unfold FileBytes.dirunlink
  rw [h.whole.dirlookup_eq]
  refine .ok_bind ?_
  cases hfind : d.table.find (key name) with
  | none =>
    have hnone : d.table.lookup (key name)=none := lookup_eq_none_iff.mpr (find_eq_none_iff.mp hfind)
    refine .ok ⟨h,iff_of_false (by simp) (not_not_intro hnone),?_⟩
    rw [← hnone,update_eq_self]
  | some k =>
    obtain ⟨hk,v,hv⟩ := find_eq_some hfind
    refine (h.whole.entered (Nat.le_of_lt hk) fun _ => 0).bind ?_
    rintro ⟨fs,dp,r⟩ he
    have hr : r=(direntSize : Nat) := he.iff.mpr (h.whole.space hk)
    simp only [hr,ne_eq,not_true_eq_false,if_false]
    have htable : Dir.table ⟨fs,d.inum,dp⟩=d.table.clear k := Entered.table_clear (hr ▸ he) hk
    refine .ok ⟨⟨he.whole,?_⟩,iff_of_true rfl ?_,?_⟩
    · rw [htable]
      exact h.unique.clear
    · rw [lookup_eq_some_of_find hfind hv]
      exact Option.some_ne_none v
    · rw [htable]
      exact h.unique.lookup_clear hfind

theorem Directory.step {op : DirOp} (h : Directory d) (hstep : dirStep d op=some e) : Directory e := by
  unfold dirStep at hstep
  split at hstep
  case isFalse => cases hstep
  next hfits =>
  cases op with
  | link name inum =>
    obtain ⟨r,hr,hl⟩ := h.dirlink name hfits.1 hfits.2
    simp only [DirOp.exec,hr,Option.some.injEq] at hstep
    exact hstep ▸ hl.directory
  | unlink name =>
    obtain ⟨r,hr,hu⟩ := h.dirunlink name
    simp only [DirOp.exec,hr,Option.some.injEq] at hstep
    exact hstep ▸ hu.directory

theorem Directory.reaches (h : Directory d) (hrun : Reaches dirStep d e) : Directory e := by
  obtain ⟨ops,hops⟩ := hrun
  exact run_invariant (I := Directory) (fun _ _ _ h hs => h.step hs) h hops

/-- **A directory is a finite map.** In every directory reached by linking and unlinking, whatever
blocks are free, no two entries in use have the same name, and `dirlookup`, `dirlink` and the
removal of an entry look up, bind and unbind a name and affect no other. -/
theorem directory_is_finite_map (d e : Dir) (hd : Directory d) (hrun : Reaches dirStep d e) :
    (∀ i < e.dp.size/direntSize, ∀ j < e.dp.size/direntSize, entryInum e.byte i≠0 →
      entryInum e.byte j≠0 → namecmp (entryName e.byte i) (entryName e.byte j)=0 → i=j) ∧
    (∀ name, Yields (dirlookup e.fs e.dp name) fun r => r.2.2.map (·.2)=e.table.lookup (key name)) ∧
    (∀ name inum, 0 < inum → inum < ushort → Yields (dirlink e.fs e.inum e.dp name inum) fun r =>
      Linked e name inum ⟨r.1,e.inum,r.2.1⟩ r.2.2) ∧
    ∀ name, Yields (dirunlink e.fs e.inum e.dp name) fun r => Unlinked e name ⟨r.1,e.inum,r.2.1⟩ r.2.2 := by
  have he := hd.reaches hrun
  refine ⟨fun i hi j hj hi0 hj0 hname => ?_,fun name => ?_,
    fun name inum h0 hlt => he.dirlink name h0 hlt,fun name => he.dirunlink name⟩
  · have hslot {k : Nat} (hk0 : entryInum e.byte k≠0) :
        e.table.slot k=some (key (entryName e.byte k), entryInum e.byte k) := if_neg hk0
    exact he.unique i hi j hj _ _ _ (hslot hi0) (namecmp_eq_zero_iff.mp hname ▸ hslot hj0)
  · rw [he.whole.dirlookup_eq]
    refine .ok ?_
    cases hfind : e.table.find (key name) with
    | none => exact (lookup_eq_none_iff.mpr (find_eq_none_iff.mp hfind)).symm
    | some k =>
      obtain ⟨-,v,hv⟩ := find_eq_some hfind
      rw [lookup_eq_some_of_find hfind hv]
      have hinum : entryInum e.byte k=v := by
        simp only [Dir.table,entryTable] at hv
        split at hv
        · cases hv
        · exact (Prod.mk.inj (Option.some.inj hv)).2
      simp [hinum]

theorem directory_of_empty (h : Whole d) (hsize : d.dp.size=0) : Directory d := by
  refine ⟨h,fun i hi => ?_⟩
  simp only [Dir.table,entryTable,hsize] at hi
  exact absurd hi (by simp)

def emptyDir : Dir where
  fs := tinyDisk
  inum := 2
  dp := ⟨tDir,0,0,1,0,fun _ => 0⟩

theorem emptyDir_live : Live emptyDir.fs emptyDir.inum emptyDir.dp where
  lt := by decide
  type := by decide
  fits := ⟨by decide,by decide,by decide,by decide,by decide,fun _ => (by decide : 0 < uint),fun _ _ => rfl⟩

theorem emptyDir_addr (i : Nat) (x : Option Nat) : emptyDir.fs.addr emptyDir.inum emptyDir.dp i x =
    if i=2 then 0 else tinyDisk.addr 1 tinyFile i x := by
  by_cases hi : i=2
  · subst hi
    refine emptyDir_live.addr.trans ?_
    cases x with
    | none => rfl
    | some bn =>
      simp only [place,Dinode.slot]
      split
      · rfl
      · exact if_neg fun h => h.2 rfl
  · have hsame : emptyDir.fs.inodes emptyDir.inum emptyDir.dp i=tinyDisk.inodes 1 tinyFile i := by
      simp only [Fs.inodes,tinyFile,update_eq_self]
      exact update_of_ne hi _ _
    simp only [if_neg hi,Fs.addr,hsame]
    rfl

theorem emptyDir_directory : Directory emptyDir := by
  refine directory_of_empty ⟨⟨tinyDisk_consistent.layout,tinyDisk_consistent.reserved,?_,?_⟩,
    emptyDir_live,rfl,fun bn hbn => absurd hbn (Nat.not_lt_zero _),rfl⟩ rfl
  · intro i x hx
    rw [emptyDir_addr] at hx ⊢
    split at hx
    · exact absurd rfl hx
    · next hi =>
      rw [if_neg hi]
      exact tinyDisk_consistent.area i x hx
  · intro i x j y hx he
    rw [emptyDir_addr] at hx
    rw [emptyDir_addr,emptyDir_addr] at he
    split at hx
    · exact absurd rfl hx
    · next hi =>
      rw [if_neg hi] at he
      split at he
      · exact absurd he hx
      · exact tinyDisk_consistent.once i x j y hx he

def threeOps : List DirOp :=
  [.link (fun j => if j=0 then 97 else 0) 5, .link (fun j => if j=0 then 98 else 0) 6,
    .unlink fun j => if j=0 then 97 else 0]

def threeOpsEnd : Dir := (run dirStep threeOps emptyDir).get (by decide +kernel)

theorem threeOps_finite_map : Reaches dirStep emptyDir threeOpsEnd ∧
      ∀ name, Yields (dirlookup threeOpsEnd.fs threeOpsEnd.dp name) fun r =>
        r.2.2.map (·.2)=threeOpsEnd.table.lookup (key name) := by
  have hrun : Reaches dirStep emptyDir threeOpsEnd := ⟨threeOps,(Option.some_get _).symm⟩
  exact ⟨hrun,(directory_is_finite_map emptyDir threeOpsEnd emptyDir_directory hrun).2.1⟩

end Xv6.FileBytes
