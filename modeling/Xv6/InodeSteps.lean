import Xv6.InodeTable

/-! What holds of the inode table between any two steps, and that each kind of change
keeps it: of the place in the code, of the locks, of an entry by the holder of its
sleep-lock, and of the references. -/
namespace Xv6.InodeTable
open Function Xv6.Machine
variable {P : Type} [DecidableEq P] {s t : Sys P} {p q : P} {e e' : Entry} {k : Pc}

section Refs
variable {refs : Refs P} {r : Entry × Finset P}

def count (refs : Refs P) (e : Entry) : Nat := refs.countP fun r => r.1=e

theorem shares_cons : shares (r::refs) q e=shares refs q e + if r.1=e ∧ q∈r.2 then 1 else 0 := by
  simp [shares,List.countP_cons]

omit [DecidableEq P] in
theorem count_cons : count (r::refs) e=count refs e + if r.1=e then 1 else 0 := by
  simp [count,List.countP_cons]

theorem shares_erase (h : r∈refs) : shares refs q e =
    shares (refs.erase r) q e + if r.1=e ∧ q∈r.2 then 1 else 0 := by
  rw [← shares_cons]
  exact (List.perm_cons_erase h).countP_eq _

theorem count_erase (h : r∈refs) :
    count refs e=count (refs.erase r) e + if r.1=e then 1 else 0 := by
  rw [← count_cons]
  exact (List.perm_cons_erase h).countP_eq _

theorem shares_le_count (refs : Refs P) (q : P) (e : Entry) : shares refs q e ≤ count refs e :=
  List.countP_mono_left fun r _ hr => by simp_all

theorem shares_pos_of_mem (h : (e, {p})∈refs) : 0 < shares refs p e := by
  rw [shares_erase h]
  simp

theorem shares_cons_of_ne (h : q≠p) : shares ((e, {p})::refs) q e'=shares refs q e' := by
  simp [shares_cons,h]

theorem shares_erase_of_ne (hr : (e, {p})∈refs) (h : q≠p) :
    shares (refs.erase (e, {p})) q e'=shares refs q e' := by
  rw [shares_erase hr]
  simp [h]

theorem two_le_count (h : (e, {p})∈refs) (hqp : q≠p) (hq : 0 < shares refs q e) :
    2 ≤ count refs e := by
  have hrest : 0 < shares (refs.erase (e, {p})) q e := by rwa [shares_erase_of_ne h hqp]
  have hle := shares_le_count (refs.erase (e, {p})) q e
  rw [count_erase h,if_pos rfl]
  omega

end Refs

def Pc.table : Pc → Bool
  | .iget _ | .idup _ | .tableRelease | .iput _ | .iputSleep _ | .iputRelease _ | .iputDrop _ => true
  | _ => false

/-- The entry is marked as valid but may hold a dinode of type 0. -/
def Pc.raw : Pc → Option Entry
  | .ilockCheck e | .iputUpdate e | .iputInvalid e => some e
  | _ => none

def Sys.Read (s : Sys P) (e : Entry) : Prop :=
  (s.copy e).type≠0 → s.copy e=s.disk (s.key e)

def Sys.Put (s : Sys P) (p : P) (e : Entry) : Prop :=
  (e, {p})∈s.refs ∧ (s.sleepLock e=some p → 2 ≤ shares s.refs p e)

def Sys.At (s : Sys P) (p : P) : Pc → Prop
  | .idle | .igetAcquire _ | .iget _ | .tableRelease | .ialloc _ _ _ => True
  | .idupAcquire e | .idup e | .ilock e | .ilockSleep e => 0 < shares s.refs p e
  | .ilockTest e => s.sleepLock e=some p ∧ s.changed e=false
  | .ilockRead e => s.sleepLock e=some p ∧ s.changed e=false ∧ s.valid e=false
  | .ilockValid e => s.sleepLock e=some p ∧ s.changed e=false ∧ s.valid e=false ∧ s.Read e
  | .ilockCheck e => s.sleepLock e=some p ∧ s.changed e=false ∧ s.valid e=true ∧ s.Read e
  | .iputAcquire e | .iput e | .iputReacquire e | .iputDrop e => s.Put p e
  | .iputSleep e => s.Put p e ∧ s.ref e=1
  | .iputRelease e | .itrunc e | .iputType e | .iputInvalid e | .iputWake e =>
      (e, {p})∈s.refs ∧ s.sleepLock e=some p ∧ s.changed e=false
  | .itruncUpdate e | .iputUpdate e => (e, {p})∈s.refs ∧ s.sleepLock e=some p

/-- An entry in use that was read and is not being freed is an inode, and the same as on
disk if it was not changed since the last `iupdate`. -/
def Sys.Settled (s : Sys P) (e : Entry) : Prop :=
  0 < s.ref e → s.valid e=true → (∀ p, (s.pc p).raw≠some e) →
    (s.copy e).type≠0 ∧ (s.disk (s.key e)).type=(s.copy e).type ∧
      (s.changed e=false → s.copy e=s.disk (s.key e))

structure Inv (s : Sys P) : Prop where
  count : ∀ e, s.ref e=count s.refs e
  unique : ∀ e e', 0 < s.ref e → 0 < s.ref e' → s.key e=s.key e' → e=e'
  table : ∀ p, (s.pc p).table=true ↔ s.tableLock=some p
  owner : ∀ p e, s.sleepLock e=some p → 0 < shares s.refs p e
  at_pc : ∀ p, s.At p (s.pc p)
  clean : ∀ e, s.sleepLock e=none → s.changed e=false
  settled : ∀ e, s.Settled e

structure Agrees (s t : Sys P) (q : P) : Prop where
  shares : ∀ e, shares s.refs q e ≤ shares t.refs q e
  single : ∀ e, (e, {q})∈s.refs → (e, {q})∈t.refs
  lock : ∀ e, t.sleepLock e=some q ↔ s.sleepLock e=some q
  ref : (s.pc q).table=true → t.ref=s.ref
  data : ∀ e, s.sleepLock e=some q →
    t.valid e=s.valid e ∧ t.changed e=s.changed e ∧ (s.Read e → t.Read e)

theorem Agrees.put (h : Agrees s t q) (hp : s.Put q e) : t.Put q e :=
  ⟨h.single e hp.1,fun hl => (hp.2 ((h.lock e).mp hl)).trans (h.shares e)⟩

theorem Agrees.at_pc (h : Agrees s t q) (hq : s.At q (s.pc q)) : t.At q (s.pc q) := by
  have href := h.ref
  cases hpc : s.pc q with
  | idle | igetAcquire k | iget k | tableRelease | ialloc dev type inum => trivial
  | idupAcquire e | idup e | ilock e | ilockSleep e =>
    rw [hpc] at hq
    exact lt_of_lt_of_le hq (h.shares e)
  | ilockTest e =>
    rw [hpc] at hq
    obtain ⟨-,hchanged,-⟩ := h.data e hq.1
    exact ⟨(h.lock e).mpr hq.1,hchanged.trans hq.2⟩
  | ilockRead e =>
    rw [hpc] at hq
    obtain ⟨hvalid,hchanged,-⟩ := h.data e hq.1
    exact ⟨(h.lock e).mpr hq.1,hchanged.trans hq.2.1,hvalid.trans hq.2.2⟩
  | ilockValid e | ilockCheck e =>
    rw [hpc] at hq
    obtain ⟨hvalid,hchanged,hread⟩ := h.data e hq.1
    exact ⟨(h.lock e).mpr hq.1,hchanged.trans hq.2.1,hvalid.trans hq.2.2.1,hread hq.2.2.2⟩
  | iputAcquire e | iput e | iputReacquire e | iputDrop e =>
    rw [hpc] at hq
    exact h.put hq
  | iputSleep e =>
    rw [hpc] at hq href
    exact ⟨h.put hq.1,by rw [href rfl]; exact hq.2⟩
  | iputRelease e | itrunc e | iputType e | iputInvalid e | iputWake e =>
    rw [hpc] at hq
    obtain ⟨-,hchanged,-⟩ := h.data e hq.2.1
    exact ⟨h.single e hq.1,(h.lock e).mpr hq.2.1,hchanged.trans hq.2.2⟩
  | itruncUpdate e | iputUpdate e =>
    rw [hpc] at hq
    exact ⟨h.single e hq.1,(h.lock e).mpr hq.2⟩

variable (h : Inv s)
include h

theorem Inv.ref_pos (hp : 0 < shares s.refs p e) : 0 < s.ref e := by
  rw [h.count e]
  exact lt_of_lt_of_le hp (shares_le_count _ _ _)

theorem Inv.lock_of_raw (hp : (s.pc p).raw=some e) : s.sleepLock e=some p := by
  have hat := h.at_pc p
  cases hpc : s.pc p with
  | ilockCheck e' =>
    rw [hpc] at hat hp
    cases hp
    exact hat.1
  | iputUpdate e' =>
    rw [hpc] at hat hp
    cases hp
    exact hat.2
  | iputInvalid e' =>
    rw [hpc] at hat hp
    cases hp
    exact hat.2.1
  | _ => simp [hpc,Pc.raw] at hp

theorem Inv.table_eq (hp : (s.pc p).table=true) (hq : (s.pc q).table=true) : p=q :=
  Option.some.inj (((h.table p).mp hp).symm.trans ((h.table q).mp hq))

/-- With `itable.lock` and the only reference, which no other process shares: the
sleep-lock is free, and nobody is about to take it. -/
theorem Inv.alone (hput : s.Put p e) (href : s.ref e=1) :
    s.sleepLock e=none ∧ ∀ q, q≠p → shares s.refs q e=0 := by
  have hother : ∀ q, q≠p → shares s.refs q e=0 := by
    intro q hq
    by_contra hne
    have := two_le_count hput.1 hq (Nat.pos_of_ne_zero hne)
    rw [← h.count e] at this
    omega
  refine ⟨?_,hother⟩
  cases hl : s.sleepLock e with
  | none => rfl
  | some q =>
    exfalso
    by_cases hq : q=p
    · have hle := (hput.2 (hq ▸ hl)).trans (shares_le_count _ _ _)
      rw [← h.count e] at hle
      omega
    · have := h.owner q e hl
      rw [hother q hq] at this
      omega

/-- An entry in use that nobody has locked holds an inode as it is on disk. -/
theorem Inv.agrees (href : 0 < s.ref e) (hvalid : s.valid e=true)
    (hfree : s.sleepLock e=none) : (s.copy e).type≠0 ∧ s.copy e=s.disk (s.key e) := by
  have hnot : ∀ q, (s.pc q).raw≠some e :=
    fun q hq => absurd (hfree.symm.trans (h.lock_of_raw hq)) (by simp)
  obtain ⟨htype,-,hcopy⟩ := h.settled e href hvalid hnot
  exact ⟨htype,hcopy (h.clean e hfree)⟩

section Steps
variable {lock' : Option P} {d : Dinode} {disk' : Key → Dinode} {copy' : Entry → Dinode}
  {valid' changed' : Entry → Bool}

omit h in
theorem at_update {F : P → Pc → Prop} (hp : F p k) (hq : ∀ q, q≠p → F q (s.pc q)) (q : P) :
    F q (update s.pc p k q) := by
  by_cases h : q=p
  · rw [h,update_self]
    exact hp
  · rw [update_of_ne h]
    exact hq q h

omit h in
theorem not_raw (hp : (s.pc p).raw=some e → k.raw=some e)
    (h : ∀ q, (update s.pc p k q).raw≠some e) (q : P) : (s.pc q).raw≠some e := by
  intro hq
  by_cases hqp : q=p
  · subst hqp
    exact h q (by rw [update_self]; exact hp hq)
  · exact h q (by rwa [update_of_ne hqp])

theorem Inv.table_keep (hk : k.table=(s.pc p).table) (q : P) :
    (update s.pc p k q).table=true ↔ s.tableLock=some q := by
  by_cases hq : q=p
  · rw [hq,update_self,hk]
    exact h.table p
  · rw [update_of_ne hq]
    exact h.table q

theorem Inv.table_acquire (hlock : s.tableLock=none) (hk : k.table=true) (q : P) :
    (update s.pc p k q).table=true ↔ some p=some q := by
  by_cases hq : q=p
  · simp [hq,hk]
  · rw [update_of_ne hq,h.table q,hlock]
    simp [Ne.symm hq]

theorem Inv.table_release (hp : (s.pc p).table=true) (hk : k.table=false) (q : P) :
    (update s.pc p k q).table=true ↔ (none : Option P)=some q := by
  by_cases hq : q=p
  · simp [hq,hk]
  · rw [update_of_ne hq,h.table q,(h.table p).mp hp]
    simp [Ne.symm hq]

theorem Inv.move (hat : s.At p k) (htable : ∀ q, (update s.pc p k q).table=true ↔ lock'=some q)
    (hraw : ∀ e, (s.pc p).raw=some e → k.raw=some e ∨
      (s.copy e).type≠0 ∧ s.copy e=s.disk (s.key e)) :
    Inv ({ s with tableLock := lock' }.goto p k) where
  count := h.count
  unique := h.unique
  table := htable
  owner := h.owner
  at_pc := at_update (F := fun q => s.At q) hat fun q _ => h.at_pc q
  clean := h.clean
  settled := fun e href hvalid hnot => by
    by_cases hp : (s.pc p).raw=some e
    · rcases hraw e hp with hk | ⟨htype,hcopy⟩
      · exact h.settled e href hvalid (not_raw (fun _ => hk) hnot)
      · exact ⟨htype,congrArg Dinode.type hcopy.symm,fun _ => hcopy⟩
    · exact h.settled e href hvalid (not_raw (fun hp' => absurd hp' hp) hnot)

/-- The sleep lock of `e` passes between `p` and nobody. -/
theorem Inv.relock {x : Option P} (hfree : ∀ q≠p, s.sleepLock e≠some q ∧ x≠some q)
    (hat : Sys.At { s with sleepLock := update s.sleepLock e x } p k)
    (hshare : x=some p → 0 < shares s.refs p e) (hclean : x=none → s.changed e=false)
    (hk : k.table=(s.pc p).table) (hraw : (s.pc p).raw=none) :
    Inv ({ s with sleepLock := update s.sleepLock e x }.goto p k) where
  count := h.count
  unique := h.unique
  table := h.table_keep hk
  owner := fun q e' hq => by
    change update s.sleepLock e x e'=some q at hq
    by_cases he : e'=e
    · rw [he,update_self] at hq
      by_cases hqp : q=p
      · rw [he,hqp]
        exact hshare (hqp ▸ hq)
      · exact absurd hq (hfree q hqp).2
    · rw [update_of_ne he] at hq
      exact h.owner q e' hq
  at_pc := by
    refine at_update (F := fun q => Sys.At _ q) hat fun q hq => ?_
    refine Agrees.at_pc (s := s) ⟨fun _ => le_rfl,fun _ => id,fun e' => ?_,fun _ => rfl,
      fun _ _ => ⟨rfl,rfl,id⟩⟩ (h.at_pc q)
    change update s.sleepLock e x e'=some q ↔ _
    by_cases he : e'=e
    · subst he
      simp [hfree q hq]
    · rw [update_of_ne he]
  clean := fun e' hnone => by
    change update s.sleepLock e x e'=none at hnone
    by_cases he : e'=e
    · rw [he,update_self] at hnone
      exact he ▸ hclean hnone
    · rw [update_of_ne he] at hnone
      exact h.clean e' hnone
  settled := fun e' href hvalid hnot =>
    h.settled e' href hvalid (not_raw (fun hp => absurd (hraw.symm.trans hp) (by simp)) hnot)

theorem Inv.key_ne (hlock : s.sleepLock e=some p) (href : 0 < s.ref e')
    (he : e'≠e) : s.key e'≠s.key e :=
  fun hkey => he (h.unique e' e href (h.ref_pos (h.owner p e hlock)) hkey)

theorem Inv.write (hlock : s.sleepLock e=some p) (hcopy : ∀ e', e'≠e → copy' e'=s.copy e')
    (hvalid : ∀ e', e'≠e → valid' e'=s.valid e') (hchanged : ∀ e', e'≠e → changed' e'=s.changed e')
    (hdisk : ∀ x, x≠s.key e → disk' x=s.disk x)
    (hat : Sys.At { s with
      copy := copy', valid := valid', changed := changed', disk := disk' } p k)
    (hk : k.table=(s.pc p).table) (hraw : ∀ e', (s.pc p).raw=some e' → e'=e)
    (hsettled : valid' e=true → k.raw≠some e →
      (copy' e).type≠0 ∧ (disk' (s.key e)).type=(copy' e).type ∧
        (changed' e=false → copy' e=disk' (s.key e))) :
    Inv ({ s with
      copy := copy', valid := valid', changed := changed', disk := disk' }.goto p k) where
  count := h.count
  unique := h.unique
  table := h.table_keep hk
  owner := h.owner
  at_pc := by
    refine at_update (F := fun q => Sys.At _ q) hat fun q hq => ?_
    refine Agrees.at_pc (s := s) ⟨fun _ => le_rfl,fun _ => id,fun e' => Iff.rfl,fun _ => rfl,
      fun e' hq' => ?_⟩ (h.at_pc q)
    have he : e'≠e := by
      rintro rfl
      exact hq (Option.some.inj (hq'.symm.trans hlock))
    refine ⟨hvalid e' he,hchanged e' he,fun hread => ?_⟩
    change (copy' e').type≠0 → copy' e'=disk' (s.key e')
    rw [hcopy e' he,hdisk _ (h.key_ne hlock (h.ref_pos (h.owner q e' hq')) he)]
    exact hread
  clean := fun e' hnone => by
    have he : e'≠e := by
      rintro rfl
      cases hnone.symm.trans hlock
    exact (hchanged e' he).trans (h.clean e' hnone)
  settled := fun e' href hv hnot => by
    change valid' e'=true at hv
    change (copy' e').type≠0 ∧ (disk' (s.key e')).type=(copy' e').type ∧
      (changed' e'=false → copy' e'=disk' (s.key e'))
    by_cases he : e'=e
    · subst he
      refine hsettled hv ?_
      have := hnot p
      rwa [show (Sys.goto _ p k).pc p=k from update_self _ _ _] at this
    · rw [hvalid e' he] at hv
      rw [hcopy e' he,hchanged e' he,hdisk _ (h.key_ne hlock href he)]
      exact h.settled e' href hv (not_raw (fun hp => absurd (hraw e' hp) he) hnot)

theorem Inv.add (hp : (s.pc p).table=true) (hraw : (s.pc p).raw=none)
    (hpos : 0 < s.ref e) : Inv ({ s with
      ref := update s.ref e (s.ref e+1)
      refs := (e, {p})::s.refs }.goto p .tableRelease) := by
  have hiff : ∀ e', 0 < update s.ref e (s.ref e+1) e' ↔ 0 < s.ref e' := by
    intro e'
    by_cases he : e'=e
    · simp [he,hpos]
    · rw [update_of_ne he]
  exact {
    count := fun e' => by
      change update s.ref e (s.ref e+1) e'=InodeTable.count ((e, {p})::s.refs) e'
      rw [count_cons,← h.count e']
      by_cases he : e'=e
      · simp [he]
      · simp [he,Ne.symm he]
    unique := fun e₁ e₂ h₁ h₂ => h.unique e₁ e₂ ((hiff e₁).mp h₁) ((hiff e₂).mp h₂)
    table := h.table_keep hp.symm
    owner := fun q e' hq => by
      change 0 < shares ((e, {p})::s.refs) q e'
      rw [shares_cons]
      exact Nat.add_pos_left (h.owner q e' hq) _
    at_pc := by
      refine at_update (F := fun q => Sys.At _ q) trivial fun q hq => ?_
      refine Agrees.at_pc (s := s) ⟨fun e' => ?_,fun _ => List.mem_cons_of_mem _,fun _ => Iff.rfl,
        fun ht => absurd (h.table_eq ht hp) hq,fun _ _ => ⟨rfl,rfl,id⟩⟩ (h.at_pc q)
      exact (shares_cons_of_ne hq).ge
    clean := h.clean
    settled := fun e' href hvalid hnot => h.settled e' ((hiff e').mp href) hvalid
      (not_raw (fun hr => absurd (hraw.symm.trans hr) (by simp)) hnot) }

theorem Inv.recycle (hp : (s.pc p).table=true) (hraw : (s.pc p).raw=none)
    {x : Key} (hzero : s.ref e=0) (hnew : ∀ e', 0 < s.ref e' → s.key e'≠x) :
    Inv ({ s with
      key := update s.key e x
      ref := update s.ref e 1
      valid := update s.valid e false
      refs := (e, {p})::s.refs }.goto p .tableRelease) where
  count := fun e' => by
    change update s.ref e 1 e'=InodeTable.count ((e, {p})::s.refs) e'
    rw [count_cons,← h.count e']
    by_cases he : e'=e
    · simp [he,hzero]
    · simp [he,Ne.symm he]
  unique := fun e₁ e₂ => by
    change 0 < update s.ref e 1 e₁ → 0 < update s.ref e 1 e₂ →
      update s.key e x e₁=update s.key e x e₂ → e₁=e₂
    by_cases h₁ : e₁=e
    · by_cases h₂ : e₂=e
      · exact fun _ _ _ => h₁.trans h₂.symm
      · rw [h₁,update_self,update_self,update_of_ne h₂,update_of_ne h₂]
        exact fun _ hpos hkey => absurd hkey.symm (hnew e₂ hpos)
    · rw [update_of_ne h₁,update_of_ne h₁]
      by_cases h₂ : e₂=e
      · rw [h₂,update_self,update_self]
        exact fun hpos _ hkey => absurd hkey (hnew e₁ hpos)
      · rw [update_of_ne h₂,update_of_ne h₂]
        exact h.unique e₁ e₂
  table := h.table_keep hp.symm
  owner := fun q e' hq => by
    change 0 < shares ((e, {p})::s.refs) q e'
    rw [shares_cons]
    exact Nat.add_pos_left (h.owner q e' hq) _
  at_pc := by
    refine at_update (F := fun q => Sys.At _ q) trivial fun q hq => ?_
    refine Agrees.at_pc (s := s) ⟨fun e' => (shares_cons_of_ne hq).ge,
      fun _ => List.mem_cons_of_mem _,fun _ => Iff.rfl,fun ht => absurd (h.table_eq ht hp) hq,
      fun e' hlock => ?_⟩ (h.at_pc q)
    have he : e'≠e := by
      rintro rfl
      have := h.ref_pos (h.owner q e' hlock)
      omega
    refine ⟨update_of_ne he _ _,rfl,fun hread => ?_⟩
    change (s.copy e').type≠0 → s.copy e'=s.disk (update s.key e x e')
    rw [update_of_ne he]
    exact hread
  clean := h.clean
  settled := fun e' href hvalid hnot => by
    change 0 < update s.ref e 1 e' at href
    change update s.valid e false e'=true at hvalid
    have he : e'≠e := by
      rintro rfl
      simp at hvalid
    rw [update_of_ne he] at href hvalid
    change (s.copy e').type≠0 ∧ (s.disk (update s.key e x e')).type=(s.copy e').type ∧
      (s.changed e'=false → s.copy e'=s.disk (update s.key e x e'))
    rw [update_of_ne he]
    exact h.settled e' href hvalid
      (not_raw (fun hr => absurd (hraw.symm.trans hr) (by simp)) hnot)

theorem Inv.drop (hp : (s.pc p).table=true) (hraw : (s.pc p).raw=none)
    (hput : s.Put p e) : Inv ({ s with
      ref := update s.ref e (s.ref e-1)
      refs := s.refs.erase (e, {p}) }.goto p .tableRelease) := by
  have hle : ∀ e', update s.ref e (s.ref e-1) e' ≤ s.ref e' := by
    intro e'
    by_cases he : e'=e
    · simp [he]
    · rw [update_of_ne he]
  exact {
    count := fun e' => by
      change update s.ref e (s.ref e-1) e'=InodeTable.count (s.refs.erase (e, {p})) e'
      have hcount := h.count e'
      rw [count_erase hput.1] at hcount
      by_cases he : e'=e
      · subst he
        rw [update_self,hcount]
        simp
      · rw [update_of_ne he,hcount,if_neg (Ne.symm he),Nat.add_zero]
    unique := fun e₁ e₂ h₁ h₂ =>
      h.unique e₁ e₂ (lt_of_lt_of_le h₁ (hle e₁)) (lt_of_lt_of_le h₂ (hle e₂))
    table := h.table_keep hp.symm
    owner := fun q e' hq => by
      change 0 < shares (s.refs.erase (e, {p})) q e'
      by_cases hqp : q=p
      · subst hqp
        have hshares := h.owner q e' hq
        have heq := shares_erase (q := q) (e := e') hput.1
        by_cases he : e=e'
        · subst he
          have := hput.2 hq
          simp only [Finset.mem_singleton,and_self,if_true] at heq
          omega
        · rw [if_neg (fun hc => he hc.1),Nat.add_zero] at heq
          omega
      · rw [shares_erase_of_ne hput.1 hqp]
        exact h.owner q e' hq
    at_pc := by
      refine at_update (F := fun q => Sys.At _ q) trivial fun q hq => ?_
      refine Agrees.at_pc (s := s) ⟨fun e' => (shares_erase_of_ne hput.1 hq).ge,fun e' hmem => ?_,
        fun _ => Iff.rfl,fun ht => absurd (h.table_eq ht hp) hq,fun _ _ => ⟨rfl,rfl,id⟩⟩ (h.at_pc q)
      refine (List.mem_erase_of_ne ?_).mpr hmem
      intro heq
      exact hq (Finset.singleton_injective (Prod.ext_iff.mp heq).2)
    clean := h.clean
    settled := fun e' href hvalid hnot => h.settled e' (lt_of_lt_of_le href (hle e')) hvalid
      (not_raw (fun hr => absurd (hraw.symm.trans hr) (by simp)) hnot) }

theorem Inv.alloc {x : Key} (hzero : (s.disk x).type=0)
    (hat : Sys.At { s with disk := update s.disk x d } p k) (hk : k.table=(s.pc p).table)
    (hraw : (s.pc p).raw=none) : Inv ({ s with disk := update s.disk x d }.goto p k) where
  count := h.count
  unique := h.unique
  table := h.table_keep hk
  owner := h.owner
  at_pc := by
    refine at_update (F := fun q => Sys.At _ q) hat fun q hq => ?_
    refine Agrees.at_pc (s := s) ⟨fun _ => le_rfl,fun _ => id,fun _ => Iff.rfl,fun _ => rfl,
      fun e' _ => ⟨rfl,rfl,fun hread htype => ?_⟩⟩ (h.at_pc q)
    have hcopy := hread htype
    have hne : s.key e'≠x := by
      rintro rfl
      exact htype ((congrArg Dinode.type hcopy).trans hzero)
    exact hcopy.trans (update_of_ne hne _ _).symm
  clean := h.clean
  settled := fun e' href hvalid hnot => by
    obtain ⟨htype,hdisk,hcopy⟩ := h.settled e' href hvalid
      (not_raw (fun hr => absurd (hraw.symm.trans hr) (by simp)) hnot)
    have hne : s.key e'≠x := by
      rintro rfl
      exact htype (hdisk.symm.trans hzero)
    change (s.copy e').type≠0 ∧ (update s.disk x d (s.key e')).type=(s.copy e').type ∧
      (s.changed e'=false → s.copy e'=update s.disk x d (s.key e'))
    rw [update_of_ne hne]
    exact ⟨htype,hdisk,hcopy⟩

theorem Inv.reshare {r : Entry × Finset P} {us : Finset P} (hr : r∈s.refs)
    (hp : p∈r.2) (hpc : s.pc p=.idle) (hus : ∀ q, q≠p → q∈r.2 → q∈us)
    (hlock : s.sleepLock r.1=some p → p∈us ∨ 2 ≤ shares s.refs p r.1) :
    Inv { s with refs := (r.1, us) :: s.refs.erase r } := by
  have hmono : ∀ q, q≠p → ∀ e', shares s.refs q e' ≤
      shares ((r.1, us) :: s.refs.erase r) q e' := by
    intro q hq e'
    rw [shares_cons,shares_erase hr]
    refine Nat.add_le_add_left ?_ _
    by_cases hmem : r.1=e' ∧ q∈r.2
    · rw [if_pos hmem,if_pos ⟨hmem.1,hus q hq hmem.2⟩]
    · rw [if_neg hmem]
      exact Nat.zero_le _
  exact { h with
    count := fun e' => by
      rw [h.count e',count_erase hr,count_cons]
    owner := fun q e' hq => by
      by_cases hqp : q=p
      · subst hqp
        have hshares := h.owner q e' hq
        rw [shares_erase hr] at hshares
        rw [shares_cons]
        by_cases he : r.1=e'
        · subst he
          rcases hlock hq with hmem | htwo
          · rw [if_pos ⟨rfl,hmem⟩]
            omega
          · rw [shares_erase hr,if_pos ⟨rfl,hp⟩] at htwo
            omega
        · rw [if_neg (fun hc => he hc.1)] at hshares
          omega
      · exact lt_of_lt_of_le (h.owner q e' hq) (hmono q hqp e')
    at_pc := fun q => by
      by_cases hqp : q=p
      · rw [hqp,hpc]
        trivial
      · refine Agrees.at_pc (s := s) ⟨hmono q hqp,fun e' hmem => List.mem_cons_of_mem _ ?_,
          fun _ => Iff.rfl,fun _ => rfl,fun _ _ => ⟨rfl,rfl,id⟩⟩ (h.at_pc q)
        refine (List.mem_erase_of_ne ?_).mpr hmem
        rintro rfl
        exact hqp (Finset.mem_singleton.mp hp).symm }

theorem Inv.settled_of_held (hlock : s.sleepLock e=some p) (hv : s.valid e=true)
    (hraw : (s.pc p).raw≠some e) : (s.copy e).type≠0 ∧
      (s.disk (s.key e)).type=(s.copy e).type ∧
        (s.changed e=false → s.copy e=s.disk (s.key e)) := by
  refine h.settled e (h.ref_pos (h.owner p e hlock)) hv fun q hq => ?_
  have hqp : p=q := Option.some.inj (hlock.symm.trans (h.lock_of_raw hq))
  exact hraw (hqp ▸ hq)

theorem Inv.iupdate (hlock : s.sleepLock e=some p) (hat : Sys.At (s.iupdate e) p k)
    (hk : k.table=(s.pc p).table) (hraw : ∀ e', (s.pc p).raw=some e' → e'=e)
    (htype : s.valid e=true → k.raw≠some e → (s.copy e).type≠0) : Inv ((s.iupdate e).goto p k) := by
  refine h.write hlock (fun _ _ => rfl) (fun _ _ => rfl) (fun e' he => update_of_ne he _ _)
    (fun x hx => update_of_ne hx _ _) hat hk hraw fun hv hkr => ?_
  rw [update_self]
  exact ⟨htype hv hkr,rfl,fun _ => rfl⟩

theorem Inv.panic : Inv { s with panicked := true } := { h with }

theorem Inv.acquire (hs : s.acquire p k=some t) (hat : s.At p k)
    (hk : k.table=true) (hraw : (s.pc p).raw=none) : Inv t := by
  unfold Sys.acquire at hs
  split at hs
  · rename_i hlock
    cases hs
    exact h.move hat (h.table_acquire hlock hk) fun e he => absurd (hraw.symm.trans he) (by simp)
  · cases hs

theorem Inv.goto (hat : s.At p k) (hk : k.table=(s.pc p).table)
    (hraw : (s.pc p).raw=none) : Inv (s.goto p k) :=
  h.move hat (h.table_keep hk) fun e he => absurd (hraw.symm.trans he) (by simp)

end Steps

end Xv6.InodeTable
