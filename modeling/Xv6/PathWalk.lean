import Xv6.InodeRefs

/-! What `namex` comes to: the components of the path are followed through directories, on a file
system that does not change meanwhile, and only the inode found is referenced afterwards. -/
namespace Xv6.FileSystem
open Function Xv6.Total
variable {s t : Fs} {m : Multiset Inum} {i ip : Inum} {path : List UInt8} {names : List Name}

/-- The maximal components of a path without a slash, cut to `DIRSIZ` bytes. -/
def components (path : List UInt8) : List Name :=
  ((path.splitOn slash).filter (· ≠ [])).map (List.take dirsiz)

theorem components_append_slash (xs ys : List UInt8) :
    components (xs++slash::ys)=components xs++components ys := by
  rw [components,List.splitOn_append_cons_self,List.filter_append,List.map_append]
  rfl

theorem components_nil : components []=[] := rfl

theorem components_word {w : List UInt8} (h : slash∉w) (hne : w≠[]) :
    components w=[w.take dirsiz] := by
  rw [components,List.splitOn_eq_singleton h]
  simp [hne]

theorem components_dropSlashes (path : List UInt8) :
    components (path.dropWhile (· = slash))=components path := by
  induction path with
  | nil => rfl
  | cons c path ih =>
    by_cases hc : c=slash
    · subst hc
      rw [List.dropWhile_cons_of_pos (by simp),ih]
      exact (components_append_slash [] path).symm
    · rw [List.dropWhile_cons_of_neg (by simpa using hc)]

theorem head_of_dropWhile {p : UInt8 → Bool} {l rest : List UInt8} {x : UInt8}
    (h : l.dropWhile p=x::rest) : p x=false := by
  have hhead := List.head_dropWhile_not p (l := l) (by rw [h]; simp)
  simpa [h] using hhead

theorem components_word_rest {c : UInt8} (hc : c≠slash) (path : List UInt8) :
    components (c::path)=((c::path).takeWhile (· ≠ slash)).take dirsiz ::
      components ((c::path).dropWhile (· ≠ slash)) := by
  have hsplit := List.takeWhile_append_dropWhile (p := (· ≠ slash)) (l := c::path)
  have hw : slash∉(c::path).takeWhile (· ≠ slash) := by
    intro hmem
    simpa using List.all_eq_true.mp List.all_takeWhile _ hmem
  have hne : (c::path).takeWhile (· ≠ slash)≠[] := by simp [hc]
  generalize (c::path).takeWhile (· ≠ slash)=w at hsplit hw hne ⊢
  cases hd : (c::path).dropWhile (· ≠ slash) with
  | nil =>
    rw [hd,List.append_nil] at hsplit
    rw [← hsplit,components_word hw hne,components_nil]
  | cons x rest =>
    obtain rfl : x=slash := by simpa using head_of_dropWhile hd
    rw [hd] at hsplit
    rw [← hsplit,components_append_slash,components_word hw hne]
    exact congrArg _ (components_append_slash [] rest).symm

theorem skipelem_components (path : List UInt8) : match skipelem path with
    | none => components path=[]
    | some (name, rest) =>
      components path=name :: components rest ∧ rest.length < path.length ∧
        (components rest=[] → rest=[]) := by
  have hdrop := components_dropSlashes path
  have hlen := (List.dropWhile_sublist (· = slash) (l := path)).length_le
  unfold skipelem
  cases hd : path.dropWhile (· = slash) with
  | nil =>
    rw [hd] at hdrop
    exact hdrop.symm
  | cons c rest =>
    have hc : c≠slash := by simpa using head_of_dropWhile hd
    rw [hd] at hdrop hlen
    refine ⟨?_,?_,?_⟩
    · rw [← hdrop,components_word_rest hc,components_dropSlashes]
    · rw [List.dropWhile_cons_of_pos (by simpa using hc)]
      have h1 := (List.dropWhile_sublist (· ≠ slash) (l := rest)).length_le
      have h2 := (List.dropWhile_sublist (· = slash) (l := rest.dropWhile (· ≠ slash))).length_le
      rw [List.length_cons] at hlen
      omega
    · intro hnil
      generalize (c::rest).dropWhile (· ≠ slash)=xs at hnil ⊢
      cases hx : xs.dropWhile (· = slash) with
      | nil => rfl
      | cons y ys =>
        have hy : y≠slash := by simpa using head_of_dropWhile hx
        rw [hx,components_word_rest hy] at hnil
        cases hnil

variable {name : Name}

theorem skipelem_suffix {rest : List UInt8} (h : skipelem path=some (name, rest)) :
    rest <:+ path := by
  unfold skipelem at h
  split at h
  · cases h
  · next c xs hd =>
    cases h
    rw [← hd]
    exact ((List.dropWhile_suffix _).trans (List.dropWhile_suffix _)).trans (List.dropWhile_suffix _)

theorem elemsFrom_eq {n : Nat} (h : path.length ≤ n) : elemsFrom n path=components path := by
  induction n generalizing path with
  | zero =>
    obtain rfl := List.length_eq_zero_iff.mp (Nat.le_zero.mp h)
    rfl
  | succ n ih =>
    have hskip := skipelem_components path
    unfold elemsFrom
    cases hs : skipelem path with
    | none =>
      rw [hs] at hskip
      exact hskip.symm
    | some r =>
      rw [hs] at hskip
      obtain ⟨hcomp,hlen,-⟩ := hskip
      rw [hcomp]
      exact congrArg _ (ih (by omega))

theorem elems_eq (path : List UInt8) : elems path=components path := elemsFrom_eq le_rfl

def Fs.lookup (s : Fs) (dp : Inum) (name : Name) : Option Inum :=
  if (s.inode dp).type=.dir then ((s.inode dp).find name).map (s.inode dp).inumAt else none

/-- The inode found by following names through directories. -/
def Fs.walk (s : Fs) : Inum → List Name → Option Inum
  | ip, [] => some ip
  | ip, name :: names => (s.lookup ip name).bind fun next => s.walk next names

/-- The directory in which the last of the names is looked up, with that name. -/
def Fs.walkParent (s : Fs) (ip : Inum) (names : List Name) : Option (Inum × Name) :=
  names.getLast?.bind fun name =>
    (s.walk ip names.dropLast).bind fun dp =>
      if (s.inode dp).type=.dir then some (dp, name) else none

theorem Fs.walkParent_cons {name' : Name} (s : Fs) (ip : Inum) (names : List Name) :
    s.walkParent ip (name::name'::names) =
      (s.lookup ip name).bind fun next => s.walkParent next (name'::names) := by
  simp only [walkParent,List.getLast?_cons_cons,List.dropLast_cons_cons,walk]
  cases s.lookup ip name <;> cases (name'::names).getLast? <;> rfl

theorem find_spec {x : Inode} {off : Nat} (h : x.find name=some off) :
    ∃ e∈x.ents, e.inum≠0 ∧ e.name=name ∧ x.inumAt off=e.inum := by
  obtain ⟨hlt,hp,-⟩ := List.findIdx?_eq_some_iff_getElem.mp h
  refine ⟨x.ents[off],List.getElem_mem hlt,?_,?_,?_⟩
  · simpa using (of_decide_eq_true hp).1
  · exact (of_decide_eq_true hp).2
  · rw [Inode.inumAt,List.getD_eq_getElem?_getD,List.getElem?_eq_getElem hlt]
    rfl

/-- The inode table has an entry for each inode that is referenced. -/
structure Fs.Tabled (s : Fs) : Prop where
  nonneg : ∀ i, 0 ≤ s.ref i
  mem : ∀ i, i∈s.table ↔ 0 < s.ref i
  nodup : s.table.Nodup

def Fs.Live (s : Fs) : Prop := ∀ i, 0 < s.ref i → s.valid i → (s.inode i).type≠.free

/-- If the inode has no links then it is referenced. -/
def Fs.Kept (s : Fs) (i : Inum) : Prop :=
  (s.inode i).type≠.free → (s.inode i).nlink=0 → 0 < s.ref i

/-- A state between two calls: an inode that an entry leads to has links or is referenced. -/
structure Fs.Settled (s : Fs) : Prop where
  tabled : s.Tabled
  live : s.Live
  root : s.Kept rootino
  kept : ∀ dp, (s.inode dp).type=.dir → ∀ e∈(s.inode dp).ents, e.inum≠0 → s.Kept e.inum

theorem Fs.Settled.lookup {j : Inum} (h : s.Settled) (hj : s.lookup ip name=some j) : s.Kept j := by
  obtain ⟨hdir,hfind⟩ := Option.ite_none_right_eq_some.mp hj
  obtain ⟨off,hoff,rfl⟩ := Option.map_eq_some_iff.mp hfind
  obtain ⟨e,he,hne,-,hinum⟩ := find_spec hoff
  exact hinum ▸ h.kept ip hdir e he hne

structure Fs.Holding (s : Fs) (m : Multiset Inum) (t : Fs) : Prop where
  frame : t = { s with ref := t.ref, valid := t.valid, table := t.table }
  ref : ∀ j, t.ref j=s.ref j+m.count j
  valid : ∀ j, 0 < s.ref j → s.valid j → t.valid j
  tabled : t.Tabled
  live : t.Live

theorem Fs.Settled.holding (h : s.Settled) : s.Holding 0 s :=
  ⟨rfl,fun _ => by simp,fun _ _ hv => hv,h.tabled,h.live⟩

theorem Fs.Holding.inode (h : s.Holding m t) : t.inode=s.inode := by rw [h.frame]

theorem Fs.Holding.pos (h : s.Holding (m+{i}) t) (hs : 0 ≤ s.ref i) : 0 < t.ref i := by
  rw [h.ref i]
  simp
  omega

theorem Fs.Holding.table_length (h : s.Holding m t) (hs : s.Tabled) :
    t.table.length ≤ s.table.length+m.card := by
  have hsub : (t.table : Multiset Inum)⊆s.table+m := by
    intro i hi
    rw [Multiset.mem_coe,h.tabled.mem i,h.ref i] at hi
    by_cases hpos : 0 < s.ref i
    · exact Multiset.mem_add.mpr (.inl ((hs.mem i).mpr hpos))
    · have hcount : 0 < m.count i := by omega
      exact Multiset.mem_add.mpr (.inr (Multiset.count_pos.mp hcount))
  have hle := Multiset.card_le_card
    ((Multiset.le_iff_subset (Multiset.coe_nodup.mpr h.tabled.nodup)).mpr hsub)
  rwa [Multiset.card_add,Multiset.coe_card,Multiset.coe_card] at hle

theorem Fs.Holding.change {m' : Multiset Inum} {valid : Inum → Bool} {table : List Inum} {n : Int}
    (h : s.Holding m t) (hs : 0 ≤ s.ref i) (hn : n=s.ref i+m'.count i)
    (hother : ∀ j≠i, m'.count j=m.count j) (hvalid : ∀ j, 0 < s.ref j → s.valid j → valid j)
    (hlive : ∀ j, 0 < update t.ref i n j → valid j → (t.inode j).type≠.free)
    (hnodup : table.Nodup) (hmem : ∀ j, j∈table ↔ 0 < update t.ref i n j) :
    s.Holding m' { t with ref := update t.ref i n, valid := valid, table := table } := by
  refine ⟨by rw [h.frame],fun j => ?_,hvalid,⟨fun j => ?_,hmem,hnodup⟩,hlive⟩
  · by_cases hj : j=i
    · subst hj
      exact (update_self ..).trans hn
    · rw [hother j hj,← h.ref j]
      exact update_of_ne hj ..
  · by_cases hj : j=i
    · subst hj
      have hself : update t.ref j n j=n := update_self ..
      dsimp only
      omega
    · exact (h.tabled.nonneg j).trans_eq (update_of_ne hj ..).symm

theorem Fs.setValid_of_ne {j : Inum} (s : Fs) (b : Bool) (h : j≠i) :
    (s.setValid i b).valid j=s.valid j := update_of_ne h ..

theorem Fs.setValid_self (s : Fs) (i : Inum) (b : Bool) : (s.setValid i b).valid i=b :=
  update_self ..

theorem Fs.Holding.idup (h : s.Holding m t) (hs : s.Tabled) (hi : 0 < t.ref i) :
    s.Holding (m+{i}) (idup t i) := by
  have hupd : ∀ j, 0 < update t.ref i (t.ref i+1) j ↔ 0 < t.ref j := fun j => by
    by_cases hj : j=i
    · subst hj
      rw [update_self]
      omega
    · rw [update_of_ne hj]
  refine h.change (hs.nonneg i) ?_ (fun _ => count_add_single) h.valid (fun j hj => ?_) h.tabled.nodup
    fun j => (h.tabled.mem j).trans (hupd j).symm
  · rw [h.ref i]
    simp [add_assoc]
  · exact h.live j ((hupd j).mp hj)

theorem Fs.Holding.iget (h : s.Holding m t) (hs : s.Tabled) :
    Ends (fun e => e=.igetNoInodes ∧ ninode ≤ s.table.length+m.card) (iget t i)
      fun u => s.Holding (m+{i}) u := by
  unfold FileSystem.iget
  split
  · next hpos => exact .ok (h.idup hs hpos)
  · next hpos =>
    split
    · next hfull => exact .error ⟨rfl,hfull.trans (h.table_length hs)⟩
    · -- the entry is new: nothing refers to the inode yet
      have hnew := h.ref i
      have hnonneg := hs.nonneg i
      have hupd : ∀ j, 0 < update t.ref i 1 j ↔ j=i ∨ 0 < t.ref j := fun j => by
        by_cases hj : j=i
        · simp [hj]
        · simp [hj]
      refine .ok (h.change hnonneg ?_ (fun _ => count_add_single) ?_ ?_ ?_ ?_)
      · rw [Multiset.count_add,Multiset.count_singleton_self]
        omega
      · intro j hj hv
        have hne : j≠i := by
          rintro rfl
          omega
        rw [Fs.setValid_of_ne _ _ hne]
        exact h.valid j hj hv
      · intro j hj hv
        have hne : j≠i := by
          rintro rfl
          rw [Fs.setValid_self] at hv
          cases hv
        rw [Fs.setValid_of_ne _ _ hne] at hv
        exact h.live j (((hupd j).mp hj).resolve_left hne) hv
      · exact List.nodup_cons.mpr ⟨fun hmem => hpos ((h.tabled.mem i).mp hmem),h.tabled.nodup⟩
      · intro j
        rw [hupd j,List.mem_cons,h.tabled.mem j]

theorem Fs.Holding.ilock (h : s.Holding m t) (hi : 0 < t.ref i) :
    Ends (fun e => e=.ilockNoType ∧ (s.inode i).type=.free) (ilock t i)
      fun u => s.Holding m u ∧ u.valid i ∧ (s.inode i).type≠.free := by
  unfold FileSystem.ilock
  rw [if_neg (by omega)]
  split
  · next hv =>
    have hlive := h.live i hi hv
    rw [h.inode] at hlive
    exact .ok ⟨h,hv,hlive⟩
  · split
    · next hfree =>
      rw [h.inode] at hfree
      exact .error ⟨rfl,hfree⟩
    · next hfree =>
      refine .ok ⟨⟨?_,h.ref,fun j hpos hv => ?_,⟨h.tabled.nonneg,h.tabled.mem,h.tabled.nodup⟩,?_⟩,?_,?_⟩
      · rw [h.frame]
        rfl
      · by_cases hj : j=i
        · subst hj
          exact t.setValid_self j true
        · rw [Fs.setValid_of_ne _ _ hj]
          exact h.valid j hpos hv
      · intro j hj hv
        by_cases heq : j=i
        · subst heq
          exact hfree
        · rw [Fs.setValid_of_ne _ _ heq] at hv
          exact h.live j hj hv
      · exact t.setValid_self i true
      · rwa [h.inode] at hfree

theorem Fs.Holding.iput (h : s.Holding (m+{i}) t) (hs : s.Tabled) (hi : s.Kept i) :
    s.Holding m (iput t i) := by
  have hnonneg := hs.nonneg i
  have href := h.ref i
  rw [Multiset.count_add,Multiset.count_singleton_self] at href
  have hkeep : ¬(t.ref i=1 ∧ t.valid i ∧ (t.inode i).nlink=0) := by
    rintro ⟨hone,hv,hlink⟩
    have hlive := h.live i (by omega) hv
    rw [h.inode] at hlive hlink
    have hpos := hi hlive hlink
    omega
  unfold FileSystem.iput
  rw [if_neg hkeep]
  have hupd : ∀ j, 0 < update t.ref i (t.ref i-1) j ↔ 0 < t.ref j ∧ (j=i → t.ref i≠1) := fun j => by
    by_cases hj : j=i
    · subst hj
      simp only [update_self,forall_const]
      omega
    · simp [hj]
  refine h.change hnonneg ?_ (fun _ hj => (count_add_single hj).symm) h.valid (fun j hj => ?_) ?_
    fun j => ?_
  · omega
  · exact h.live j ((hupd j).mp hj).1
  · split
    · exact h.tabled.nodup.erase i
    · exact h.tabled.nodup
  · rw [hupd j]
    split
    · next hone =>
      rw [h.tabled.nodup.mem_erase_iff,h.tabled.mem j]
      tauto
    · next hone =>
      rw [h.tabled.mem j]
      tauto

/-- Why a walk along the names can end in a panic: the inode table is full, or an entry leads to
a free inode. -/
def Fs.Stops (s : Fs) (ip : Inum) (names : List Name) (e : Panic) : Prop :=
  e=.igetNoInodes ∧ ninode ≤ s.table.length+1 ∨
    e=.ilockNoType ∧ ∃ pre j, pre <+: names ∧ s.walk ip pre=some j ∧ (s.inode j).type=.free

theorem Fs.Stops.cons {next : Inum} {e : Panic} (hnext : s.lookup ip name=some next)
    (h : s.Stops next names e) : s.Stops ip (name::names) e := by
  rcases h with hfull | ⟨he,pre,j,hpre,hwalk,hfree⟩
  · exact .inl hfull
  · refine .inr ⟨he,name::pre,j,?_,?_,hfree⟩
    · exact List.cons_prefix_cons.mpr ⟨rfl,hpre⟩
    · rw [Fs.walk,hnext]
      exact hwalk

def Fs.resolve (s : Fs) (parent : Bool) (ip : Inum) (names : List Name) : Option (Inum × Name) :=
  if parent then s.walkParent ip names else (s.walk ip names).map fun i => (i, [])

theorem Fs.resolve_cons {parent : Bool} (s : Fs) (ip : Inum)
    (h : ¬(parent=true ∧ names=[])) : s.resolve parent ip (name::names) =
      (s.lookup ip name).bind fun next => s.resolve parent next names := by
  cases parent with
  | false =>
    simp only [Fs.resolve,Fs.walk,Bool.false_eq_true,if_false]
    cases s.lookup ip name <;> rfl
  | true =>
    cases names with
    | nil => exact absurd ⟨rfl,rfl⟩ h
    | cons name' names => exact s.walkParent_cons ip names

theorem Fs.resolve_of_not_dir {parent : Bool} (h : (s.inode ip).type≠.dir) :
    s.resolve parent ip (name::names)=none := by
  by_cases hlast : parent=true ∧ names=[]
  · obtain ⟨rfl,rfl⟩ := hlast
    simp [Fs.resolve,Fs.walkParent,Fs.walk,h]
  · rw [s.resolve_cons ip hlast,Fs.lookup,if_neg h]
    rfl

theorem Fs.resolve_last (h : (s.inode ip).type=.dir) :
    s.resolve true ip [name]=some (ip, name) := by
  simp [Fs.resolve,Fs.walkParent,Fs.walk,h]

theorem Fs.Holding.dirlookup (h : s.Holding m t) (hs : s.Tabled) (name : Name)
    (hdir : (s.inode ip).type=.dir) :
    Ends (fun e => e=.igetNoInodes ∧ ninode ≤ s.table.length+m.card) (dirlookup t ip name)
      fun r => s.Holding (got m (r.2.map Prod.snd)) r.1 ∧ r.2.map Prod.snd=s.lookup ip name := by
  unfold FileSystem.dirlookup Fs.lookup
  rw [h.inode,if_neg (not_not_intro hdir),if_pos hdir]
  cases hfind : (s.inode ip).find name with
  | none => exact .ok ⟨h,rfl⟩
  | some off => exact (h.iget hs).bind fun u hu => .ok ⟨hu,rfl⟩

theorem Fs.Settled.namexFrom (hs : s.Settled) (parent : Bool) (h : s.Holding {ip} t)
    (hip : s.Kept ip) :
    Ends (s.Stops ip names) (namexFrom parent t ip names) fun r =>
      s.Holding (got 0 (r.2.map Prod.fst)) r.1 ∧ r.2=s.resolve parent ip names := by
  induction names generalizing ip t with
  | nil =>
    cases parent with
    | false => exact .ok ⟨h,rfl⟩
    | true => exact .ok ⟨Fs.Holding.iput (m := 0) h hs.tabled hip,rfl⟩
  | cons name rest ih =>
    have hpos := Fs.Holding.pos (m := 0) h (hs.tabled.nonneg ip)
    have hlock := (h.ilock hpos).weaken_error (F := s.Stops ip (name::rest))
      fun e he => .inr ⟨he.1,[],ip,List.nil_prefix,rfl,he.2⟩
    refine hlock.bind fun u hu => ?_
    obtain ⟨hu,-,-⟩ := hu
    rw [hu.inode]
    by_cases hdir : (s.inode ip).type=.dir
    · rw [if_neg (not_not_intro hdir)]
      split
      · next hlast =>
        obtain ⟨rfl,rfl⟩ := hlast
        exact .ok ⟨hu,(Fs.resolve_last hdir).symm⟩
      · next hlast =>
        rw [s.resolve_cons ip hlast]
        have hlook := (hu.dirlookup hs.tabled name hdir).weaken_error (F := s.Stops ip (name::rest))
          fun e he => .inl he
        refine hlook.bind fun r hr => ?_
        obtain ⟨v,found⟩ := r
        obtain ⟨hv,hfound⟩ := hr
        cases found with
        | none =>
          rw [← hfound]
          exact .ok ⟨Fs.Holding.iput (m := 0) hv hs.tabled hip,rfl⟩
        | some x =>
          -- the directory is put before the entry found in it is looked at
          have hswap : s.Holding ({x.2}+{ip}) v := by
            rw [add_comm]
            exact hv
          rw [← hfound]
          exact (ih (hswap.iput hs.tabled hip) (hs.lookup hfound.symm)).weaken_error fun e he =>
            he.cons hfound.symm
    · rw [if_pos hdir]
      exact .ok ⟨Fs.Holding.iput (m := 0) hu hs.tabled hip,(Fs.resolve_of_not_dir hdir).symm⟩

def origin (cwd : Inum) (path : List UInt8) : Inum :=
  if path.head?=some slash then rootino else cwd

theorem Fs.Settled.namex {cwd : Inum} (hs : s.Settled) (parent : Bool) (hcwd : 0 < s.ref cwd)
    (path : List UInt8) :
    Ends (s.Stops (origin cwd path) (components path)) (namex parent s cwd path) fun r =>
      s.Holding (got 0 (r.2.map Prod.fst)) r.1 ∧
        r.2=s.resolve parent (origin cwd path) (components path) := by
  unfold FileSystem.namex origin
  rw [elems_eq]
  split
  · have hget := (hs.holding.iget (i := rootino) hs.tabled).weaken_error
      (F := s.Stops rootino (components path)) fun e he => .inl ⟨he.1,he.2.trans (Nat.le_succ _)⟩
    exact hget.bind fun t ht => hs.namexFrom parent ht hs.root
  · exact hs.namexFrom parent (hs.holding.idup hs.tabled hcwd) fun _ _ => hcwd
end Xv6.FileSystem
