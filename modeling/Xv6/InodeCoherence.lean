import Xv6.InodeSteps

/-! Coherence of the inode table over whole runs. A process in `iput` that drops the only reference
shares it with nobody, so nobody is at the sleep-lock that it takes under `itable.lock`. -/
namespace Xv6.InodeTable
open Function Xv6.Machine
variable {P : Type} [DecidableEq P] {s t : Sys P} {p q : P} {e : Entry} {k : Pc}

omit [DecidableEq P] in
theorem lookup_some {x : Key} (h : s.lookup x=some e) : 0 < s.ref e ∧ s.key e=x := by
  simpa using List.find?_some h

omit [DecidableEq P] in
theorem lookup_none {x : Key} (h : s.lookup x=none) (e : Entry) (hpos : 0 < s.ref e) :
    s.key e≠x := by
  have := List.find?_eq_none.mp h e (List.mem_finRange e)
  simpa [hpos] using this

theorem Inv.iget (h : Inv s) {x : Key} (hpc : s.pc p=.iget x)
    (hs : s.advance p=some t) : Inv t := by
  have hp : (s.pc p).table=true := by rw [hpc]; rfl
  have hraw : (s.pc p).raw=none := by rw [hpc]; rfl
  simp only [Sys.advance,hpc] at hs
  cases hl : s.lookup x with
  | some e =>
    rw [hl] at hs
    cases hs
    exact h.add hp hraw (lookup_some hl).1
  | none =>
    rw [hl] at hs
    cases he : s.empty with
    | none =>
      rw [he] at hs
      cases hs
      exact h.panic
    | some e =>
      rw [he] at hs
      cases hs
      exact h.recycle hp hraw (by simpa using List.find?_some he) (lookup_none hl)

theorem Inv.at_place (h : Inv s) (hpc : s.pc p=k) : s.At p k := hpc ▸ h.at_pc p

section Places
variable (h : Inv s) (hs : s.advance p=some t)
include h hs

theorem Inv.ilockStart (hpc : s.pc p=.ilock e) : Inv t := by
  have hat := h.at_place hpc
  simp only [Sys.advance,hpc] at hs
  split at hs
  · cases hs
    exact h.panic
  · cases hs
    exact h.goto hat (by rw [hpc]; rfl) (by rw [hpc]; rfl)

theorem Inv.ilockSleep (hpc : s.pc p=.ilockSleep e) : Inv t := by
  have hat := h.at_place hpc
  simp only [Sys.advance,hpc,Sys.acquiresleep] at hs
  split at hs
  · rename_i hfree
    cases hs
    exact h.relock (fun q hq => by simp [hfree,Ne.symm hq]) ⟨update_self _ _ _,h.clean e hfree⟩
      (fun _ => hat) (by simp) (by rw [hpc]; rfl) (by rw [hpc]; rfl)
  · cases hs

theorem Inv.ilockTest (hpc : s.pc p=.ilockTest e) : Inv t := by
  have hat := h.at_place hpc
  simp only [Sys.advance,hpc] at hs
  cases hs
  cases hvalid : s.valid e with
  | true => exact h.goto trivial (by rw [hpc]; rfl) (by rw [hpc]; rfl)
  | false => exact h.goto ⟨hat.1,hat.2,hvalid⟩ (by rw [hpc]; rfl) (by rw [hpc]; rfl)

theorem Inv.ilockRead (hpc : s.pc p=.ilockRead e) : Inv t := by
  have hat := h.at_place hpc
  simp only [Sys.advance,hpc] at hs
  cases hs
  refine h.write (k := .ilockValid e) hat.1 (fun e' he => update_of_ne he _ _) (fun _ _ => rfl)
    (fun _ _ => rfl) (fun _ _ => rfl) ⟨hat.1,hat.2.1,hat.2.2,fun _ => update_self _ _ _⟩
    (by rw [hpc]; rfl) (by simp [hpc,Pc.raw]) fun hv => ?_
  cases hat.2.2.symm.trans hv

theorem Inv.ilockValid (hpc : s.pc p=.ilockValid e) : Inv t := by
  have hat := h.at_place hpc
  simp only [Sys.advance,hpc] at hs
  cases hs
  exact h.write (k := .ilockCheck e) hat.1 (fun _ _ => rfl) (fun e' he => update_of_ne he _ _)
    (fun _ _ => rfl) (fun _ _ => rfl) ⟨hat.1,hat.2.1,update_self _ _ _,hat.2.2.2⟩
    (by rw [hpc]; rfl) (by simp [hpc,Pc.raw]) fun _ hk => absurd rfl hk

theorem Inv.ilockCheck (hpc : s.pc p=.ilockCheck e) : Inv t := by
  have hat := h.at_place hpc
  simp only [Sys.advance,hpc] at hs
  split at hs
  · cases hs
    exact h.panic
  · rename_i htype
    cases hs
    refine h.move trivial (h.table_keep (by rw [hpc]; rfl)) fun e' he => .inr ?_
    rw [hpc] at he
    cases he
    exact ⟨htype,hat.2.2.2 htype⟩

theorem Inv.iputTest (hpc : s.pc p=.iput e) : Inv t := by
  have hat := h.at_place hpc
  simp only [Sys.advance,hpc] at hs
  cases hs
  split
  · rename_i hlast
    exact h.goto ⟨hat,hlast.1⟩ (by rw [hpc]; rfl) (by rw [hpc]; rfl)
  · exact h.goto hat (by rw [hpc]; rfl) (by rw [hpc]; rfl)

theorem Inv.iputSleep (hpc : s.pc p=.iputSleep e) : Inv t := by
  have hat := h.at_place hpc
  simp only [Sys.advance,hpc,Sys.acquiresleep] at hs
  split at hs
  · rename_i hfree
    cases hs
    exact h.relock (fun q hq => by simp [hfree,Ne.symm hq])
      ⟨hat.1.1,update_self _ _ _,h.clean e hfree⟩ (fun _ => shares_pos_of_mem hat.1.1) (by simp)
      (by rw [hpc]; rfl) (by rw [hpc]; rfl)
  · cases hs

theorem Inv.itrunc (hpc : s.pc p=.itrunc e) : Inv t := by
  have hat := h.at_place hpc
  simp only [Sys.advance,hpc] at hs
  cases hs
  refine h.write (k := .itruncUpdate e) hat.2.1 (fun e' he => update_of_ne he _ _)
    (fun _ _ => rfl) (fun e' he => update_of_ne he _ _) (fun _ _ => rfl) ⟨hat.1,hat.2.1⟩
    (by rw [hpc]; rfl) (by simp [hpc,Pc.raw]) fun hv _ => ?_
  obtain ⟨htype,hdisk,-⟩ := h.settled_of_held hat.2.1 hv (by simp [hpc,Pc.raw])
  rw [update_self,update_self]
  exact ⟨htype,hdisk,fun hfalse => absurd hfalse (by simp)⟩

theorem Inv.itruncUpdate (hpc : s.pc p=.itruncUpdate e) : Inv t := by
  have hat := h.at_place hpc
  simp only [Sys.advance,hpc] at hs
  cases hs
  exact h.iupdate hat.2 ⟨hat.1,hat.2,update_self _ _ _⟩ (by rw [hpc]; rfl)
    (by simp [hpc,Pc.raw]) fun hv _ => (h.settled_of_held hat.2 hv (by simp [hpc,Pc.raw])).1

theorem Inv.iputType (hpc : s.pc p=.iputType e) : Inv t := by
  have hat := h.at_place hpc
  simp only [Sys.advance,hpc] at hs
  cases hs
  exact h.write (k := .iputUpdate e) hat.2.1 (fun e' he => update_of_ne he _ _)
    (fun _ _ => rfl) (fun e' he => update_of_ne he _ _) (fun _ _ => rfl) ⟨hat.1,hat.2.1⟩
    (by rw [hpc]; rfl) (by simp [hpc,Pc.raw]) fun _ hk => absurd rfl hk

theorem Inv.iputUpdate (hpc : s.pc p=.iputUpdate e) : Inv t := by
  have hat := h.at_place hpc
  simp only [Sys.advance,hpc] at hs
  cases hs
  refine h.iupdate (k := .iputInvalid e) hat.2 ⟨hat.1,hat.2,update_self _ _ _⟩
    (by rw [hpc]; rfl) (fun e' he => ?_) fun _ hk => absurd rfl hk
  rw [hpc] at he
  exact (Option.some.inj he).symm

theorem Inv.iputInvalid (hpc : s.pc p=.iputInvalid e) : Inv t := by
  have hat := h.at_place hpc
  simp only [Sys.advance,hpc] at hs
  cases hs
  refine h.write (k := .iputWake e) hat.2.1 (fun _ _ => rfl) (fun e' he => update_of_ne he _ _)
    (fun _ _ => rfl) (fun _ _ => rfl) hat (by rw [hpc]; rfl) (fun e' he => ?_) fun hv => ?_
  · rw [hpc] at he
    exact (Option.some.inj he).symm
  · simp at hv

theorem Inv.iputWake (hpc : s.pc p=.iputWake e) : Inv t := by
  have hat := h.at_place hpc
  simp only [Sys.advance,hpc] at hs
  cases hs
  refine h.relock (k := .iputReacquire e) (fun q hq => by simp [hat.2.1,Ne.symm hq])
    ⟨hat.1,fun hl => ?_⟩ (by simp) (fun _ => hat.2.2) (by rw [hpc]; rfl) (by rw [hpc]; rfl)
  simp at hl

end Places

theorem Inv.ialloc (h : Inv s) {dev inum : Nat} {type : Int} (hpc : s.pc p=.ialloc dev type inum)
    (hs : s.advance p=some t) : Inv t := by
  simp only [Sys.advance,hpc] at hs
  split at hs
  · split at hs
    · rename_i hzero
      cases hs
      exact h.alloc hzero trivial (by rw [hpc]; rfl) (by rw [hpc]; rfl)
    · cases hs
      exact h.goto trivial (by rw [hpc]; rfl) (by rw [hpc]; rfl)
  · cases hs
    exact h.goto trivial (by rw [hpc]; rfl) (by rw [hpc]; rfl)

theorem Inv.advance (h : Inv s) (hs : s.advance p=some t) :
    Inv t := by
  have hat := h.at_pc p
  cases hpc : s.pc p with
  | idle => simp [Sys.advance,hpc] at hs
  | igetAcquire x =>
    simp only [Sys.advance,hpc] at hs
    exact h.acquire hs trivial rfl (by rw [hpc]; rfl)
  | iget x => exact h.iget hpc hs
  | idupAcquire e | iputAcquire e | iputReacquire e =>
    rw [hpc] at hat
    simp only [Sys.advance,hpc] at hs
    exact h.acquire hs hat rfl (by rw [hpc]; rfl)
  | idup e =>
    rw [hpc] at hat
    simp only [Sys.advance,hpc] at hs
    cases hs
    exact h.add (by rw [hpc]; rfl) (by rw [hpc]; rfl) (h.ref_pos hat)
  | tableRelease | iputRelease e =>
    rw [hpc] at hat
    simp only [Sys.advance,hpc] at hs
    cases hs
    exact h.move hat (h.table_release (by rw [hpc]; rfl) rfl) (by simp [hpc,Pc.raw])
  | ilock e => exact h.ilockStart hs hpc
  | ilockSleep e => exact h.ilockSleep hs hpc
  | ilockTest e => exact h.ilockTest hs hpc
  | ilockRead e => exact h.ilockRead hs hpc
  | ilockValid e => exact h.ilockValid hs hpc
  | ilockCheck e => exact h.ilockCheck hs hpc
  | iput e => exact h.iputTest hs hpc
  | iputSleep e => exact h.iputSleep hs hpc
  | itrunc e => exact h.itrunc hs hpc
  | itruncUpdate e => exact h.itruncUpdate hs hpc
  | iputType e => exact h.iputType hs hpc
  | iputUpdate e => exact h.iputUpdate hs hpc
  | iputInvalid e => exact h.iputInvalid hs hpc
  | iputWake e => exact h.iputWake hs hpc
  | iputDrop e =>
    rw [hpc] at hat
    simp only [Sys.advance,hpc] at hs
    cases hs
    exact h.drop (by rw [hpc]; rfl) (by rw [hpc]; rfl) hat
  | ialloc dev type inum => exact h.ialloc hpc hs

theorem goto_self (hpc : s.pc p=k) : s.goto p k=s := by
  rw [Sys.goto,← hpc,update_eq_self]

theorem Inv.step {l : Label P} (h : Inv s) (hs : step s l=some t) :
    Inv t := by
  unfold InodeTable.step at hs
  split at hs
  · cases hs
  cases l with
  | call p c =>
    dsimp only at hs
    split at hs
    · rename_i hc
      obtain ⟨hpc,hallow⟩ := hc
      cases hs
      refine h.goto ?_ ?_ (by rw [hpc]; rfl)
      · cases c with
        | iget x | ialloc dev type => trivial
        | idup e | ilock e | iput e => exact hallow
      · rw [hpc]
        cases c <;> rfl
    · cases hs
  | run p => exact h.advance hs
  | iunlock p e =>
    dsimp only at hs
    split at hs
    · rename_i hc
      obtain ⟨hpc,hlock,hclean⟩ := hc
      split at hs
      · cases hs
        exact h.panic
      · cases hs
        have := h.relock (p := p) (k := .idle) (x := none)
          (fun q hq => by simp [hlock,Ne.symm hq]) trivial (by simp) (fun _ => hclean) (by rw [hpc])
          (by rw [hpc]; rfl)
        rwa [goto_self (by exact hpc)] at this
    · cases hs
  | change p e d =>
    dsimp only at hs
    split at hs
    · rename_i hc
      obtain ⟨hpc,hlock⟩ := hc
      cases hs
      have hgoto : ∀ u : Sys P, u.pc=s.pc → Inv (u.goto p .idle) → Inv u := by
        intro u hu hinv
        rwa [goto_self ((congrFun hu p).trans hpc)] at hinv
      refine hgoto _ rfl (h.write hlock (fun e' he => update_of_ne he _ _) (fun _ _ => rfl)
        (fun e' he => update_of_ne he _ _) (fun _ _ => rfl) trivial (by rw [hpc])
        (by simp [hpc,Pc.raw]) fun hv _ => ?_)
      obtain ⟨htype,hdisk,-⟩ := h.settled_of_held hlock hv (by simp [hpc,Pc.raw])
      rw [update_self,update_self]
      exact ⟨htype,hdisk,fun hfalse => absurd hfalse (by simp)⟩
    · cases hs
  | iupdate p e =>
    dsimp only at hs
    split at hs
    · rename_i hc
      obtain ⟨hpc,hlock⟩ := hc
      cases hs
      have := h.iupdate (k := .idle) hlock trivial (by rw [hpc]) (by simp [hpc,Pc.raw])
        fun hv _ => (h.settled_of_held hlock hv (by simp [hpc,Pc.raw])).1
      rwa [goto_self (by exact hpc)] at this
    · cases hs
  | share p q r =>
    dsimp only at hs
    split at hs
    · rename_i hc
      obtain ⟨hpc,hr,hp⟩ := hc
      cases hs
      exact h.reshare hr hp hpc (fun q' _ hq' => Finset.mem_insert_of_mem hq')
        fun _ => .inl (Finset.mem_insert_of_mem hp)
    · cases hs
  | unshare p r =>
    dsimp only at hs
    split at hs
    · rename_i hc
      obtain ⟨hpc,hr,hp,-,hlock⟩ := hc
      cases hs
      exact h.reshare hr hp hpc (fun q' hq hq' => Finset.mem_erase.mpr ⟨hq,hq'⟩)
        fun hl => .inr (hlock hl)
    · cases hs

theorem inv_start (disk : Key → Dinode) (ninodes : Nat) : Inv (start disk ninodes : Sys P) where
  count := fun _ => rfl
  unique := fun _ _ h => absurd h (by simp [start])
  table := fun _ => by simp [start,Pc.table]
  owner := fun _ _ h => by simp [start] at h
  at_pc := fun _ => trivial
  clean := fun _ _ => rfl
  settled := fun _ h => absurd h (by simp [start])

def Pc.locking : Pc → Option Entry
  | .ilock e | .ilockSleep e | .ilockTest e | .ilockRead e | .ilockValid e | .ilockCheck e => some e
  | .iputSleep e | .iputRelease e | .itrunc e | .itruncUpdate e | .iputType e | .iputUpdate e
  | .iputInvalid e | .iputWake e => some e
  | _ => none

theorem Inv.shares_of_locking (h : Inv s) (hq : (s.pc q).locking=some e) :
    0 < shares s.refs q e := by
  have hat := h.at_pc q
  cases hpc : s.pc q with
  | ilock e' | ilockSleep e' =>
    rw [hpc] at hat hq
    cases hq
    exact hat
  | ilockTest e' | ilockRead e' | ilockValid e' | ilockCheck e' =>
    rw [hpc] at hat hq
    cases hq
    exact h.owner q e hat.1
  | iputSleep e' =>
    rw [hpc] at hat hq
    cases hq
    exact shares_pos_of_mem hat.1.1
  | iputRelease e' | itrunc e' | itruncUpdate e' | iputType e' | iputUpdate e' | iputInvalid e'
  | iputWake e' =>
    rw [hpc] at hat hq
    cases hq
    exact shares_pos_of_mem hat.1
  | _ => simp [hpc,Pc.locking] at hq

/-- The freeing branch of `iput`: its condition holds, or it has been taken. -/
def Sys.Frees (s : Sys P) (p : P) (e : Entry) : Prop :=
  s.pc p=.iput e ∧ s.ref e=1 ∧ s.valid e=true ∧ (s.copy e).nlink=0 ∨ s.pc p=.iputSleep e

theorem Inv.frees (h : Inv s) (hfrees : s.Frees p e) :
    s.sleepLock e=none ∧ ∀ q, q≠p → (s.pc q).locking≠some e := by
  have hlast : s.Put p e ∧ s.ref e=1 := by
    rcases hfrees with ⟨hpc,href,-⟩ | hpc
    · exact ⟨h.at_place hpc,href⟩
    · exact h.at_place hpc
  obtain ⟨hfree,hother⟩ := h.alone hlast.1 hlast.2
  refine ⟨hfree,fun q hq hlock => ?_⟩
  have := h.shares_of_locking hlock
  rw [hother q hq] at this
  omega

structure Coherent (s : Sys P) : Prop where
  unique : ∀ e e', 0 < s.ref e → 0 < s.ref e' → s.key e=s.key e' → e=e'
  agrees : ∀ e, s.valid e=true → s.sleepLock e=none → s.copy e=s.disk (s.key e)
  frees : ∀ p e, s.Frees p e →
    s.sleepLock e=none ∧ ∀ q, q≠p → (s.pc q).locking≠some e

/-- `iput` drops the last reference only of an entry that is not valid. -/
def Sys.Clears (s : Sys P) : Label P → Prop
  | .run p => ∀ e, s.pc p=.iputDrop e → s.ref e=1 → s.valid e=false
  | _ => True

instance Sys.Clears.decidable (s : Sys P) : ∀ l, Decidable (s.Clears l)
  | .run p => inferInstanceAs (Decidable (∀ e, s.pc p=.iputDrop e → s.ref e=1 → s.valid e=false))
  | .call .. | .iunlock .. | .change .. | .iupdate .. | .share .. | .unshare .. =>
    inferInstanceAs (Decidable True)

/-- No free entry is valid. -/
def Sys.Cleared (s : Sys P) : Prop := ∀ e, s.ref e=0 → s.valid e=false

omit [DecidableEq P] in
theorem Sys.Cleared.entry (h : s.Cleared) (href : ∀ e', e'≠e → t.ref e'=s.ref e')
    (hvalid : ∀ e', e'≠e → t.valid e'=s.valid e') (he : t.ref e=0 → t.valid e=false) :
    t.Cleared := by
  intro e' hzero
  by_cases hne : e'=e
  · subst hne
    exact he hzero
  · rw [hvalid e' hne]
    exact h e' ((href e' hne).symm.trans hzero)

theorem Sys.Cleared.advance (h : s.Cleared) (hinv : Inv s) (hclears : s.Clears (.run p))
    (hs : s.advance p=some t) : t.Cleared := by
  cases hpc : s.pc p with
  | idle => simp [Sys.advance,hpc] at hs
  | iget x =>
    simp only [Sys.advance,hpc] at hs
    split at hs
    · cases hs
      exact h.entry (fun e' he => update_of_ne he _ _) (fun _ _ => rfl) (by simp [Sys.goto])
    · split at hs
      · cases hs
        exact h
      · cases hs
        exact h.entry (fun e' he => update_of_ne he _ _) (fun e' he => update_of_ne he _ _)
          (by simp [Sys.goto])
  | idup e =>
    simp only [Sys.advance,hpc] at hs
    cases hs
    exact h.entry (fun e' he => update_of_ne he _ _) (fun _ _ => rfl) (by simp [Sys.goto])
  | ilockValid e =>
    have href := hinv.ref_pos (hinv.owner p e (hinv.at_place hpc).1)
    simp only [Sys.advance,hpc] at hs
    cases hs
    exact h.entry (fun _ _ => rfl) (fun e' he => update_of_ne he _ _) (by simp [Sys.goto]; omega)
  | iputInvalid e =>
    simp only [Sys.advance,hpc] at hs
    cases hs
    exact h.entry (fun _ _ => rfl) (fun e' he => update_of_ne he _ _) fun _ => update_self ..
  | iputDrop e =>
    have href := hinv.ref_pos (shares_pos_of_mem (hinv.at_place hpc).1)
    simp only [Sys.advance,hpc] at hs
    cases hs
    refine h.entry (fun e' he => update_of_ne he _ _) (fun _ _ => rfl) fun hzero => ?_
    simp only [Sys.goto,update_self] at hzero
    exact hclears e hpc (by omega)
  | igetAcquire | idupAcquire | iputAcquire | iputReacquire | ilockSleep | iputSleep | ilock
  | ilockCheck | ialloc =>
    simp only [Sys.advance,hpc,Sys.acquire,Sys.acquiresleep] at hs
    split_ifs at hs <;> cases hs <;> exact h
  | _ =>
    simp only [Sys.advance,hpc] at hs
    cases hs
    exact h

theorem Sys.Cleared.step {l : Label P} (h : s.Cleared) (hinv : Inv s) (hclears : s.Clears l)
    (hs : step s l=some t) : t.Cleared := by
  unfold InodeTable.step at hs
  split at hs
  · cases hs
  cases l with
  | run p => exact h.advance hinv hclears hs
  | _ =>
    dsimp only at hs
    split_ifs at hs <;> cases hs <;> exact h

/-- If `iput` drops the last reference only of entries that are not valid: an inode has at most one
entry in use; an entry that is valid and not locked agrees with the disk; and `iput` in its freeing
branch finds the sleep-lock free, with no other process at it. -/
theorem inode_table_coherent {disk : Key → Dinode} {ninodes : Nat} {ls : List (Label P)}
    (hclears : Along step (fun _ (s : Sys P) => s.Clears) [] (start disk ninodes) ls)
    (hrun : run step ls (start disk ninodes)=some s) : Coherent s := by
  have hstep : ∀ (_ : List (Label P)) (u : Sys P) l t, Inv u ∧ u.Cleared → u.Clears l →
      step u l=some t → Inv t ∧ t.Cleared :=
    fun _ _ _ _ h hl hs => ⟨h.1.step hs,h.2.step h.1 hl hs⟩
  obtain ⟨h,hcleared⟩ : Inv s ∧ s.Cleared := run_induction (I := fun _ s => Inv s ∧ s.Cleared) hstep
    ⟨inv_start disk ninodes,fun _ _ => rfl⟩ hclears hrun
  refine ⟨h.unique,fun e hvalid hfree => ?_,fun p e hfrees => h.frees hfrees⟩
  refine (h.agrees (Nat.pos_of_ne_zero fun hzero => ?_) hvalid hfree).2
  cases (hcleared e hzero).symm.trans hvalid

def entry0 : Entry := ⟨0,by decide⟩

def entry1 : Entry := ⟨1,by decide⟩

def igets (k : Key) : List (Label Unit) := [.call () (.iget k), .run (), .run (), .run ()]

def ilocks (e : Entry) : List (Label Unit) :=
  [.call () (.ilock e), .run (), .run (), .run (), .run (), .run (), .run ()]

def iputs (e : Entry) : List (Label Unit) :=
  [.call () (.iput e), .run (), .run (), .run (), .run ()]

def changes (e : Entry) : List (Label Unit) :=
  [.change () e ⟨2,0,0,1,5,noAddrs⟩, .iupdate () e, .iunlock () e]

def linked : Sys Unit := start (fun _ => ⟨2,0,0,1,0,noAddrs⟩) 200

/-- The inode is opened twice, changed under its lock and put once. -/
def reopens : List (Label Unit) :=
  igets (1, 1)++igets (1, 1)++ilocks entry0++changes entry0++iputs entry0

def reopensEnd : Sys Unit := (run step reopens linked).get (by decide +kernel)

theorem reopened_entry_agrees : reopensEnd.ref entry0=1 ∧ (reopensEnd.copy entry0).size=5 ∧
    reopensEnd.copy entry0=reopensEnd.disk (1, 1) := by
  have hagrees := (inode_table_coherent (by decide +kernel)
    (show run step reopens linked=some reopensEnd from (Option.some_get _).symm)).agrees entry0
      (by decide +kernel) (by decide +kernel)
  exact ⟨by decide +kernel,by decide +kernel,hagrees⟩

/-- The inode gets a second entry while the first, free by then, is still valid. -/
def reuse : List (Label Unit) :=
  igets (1, 1)++igets (1, 2)++ilocks entry1++[.iunlock () entry1]++iputs entry1 ++
    iputs entry0++igets (1, 2)++ilocks entry0++changes entry0

/-- `iput` leaves `valid` set in an entry that is no longer in use, and the inode then
changes through another entry. -/
theorem free_entry_stale : ∃ s, run step reuse linked=some s ∧ s.valid entry1=true ∧
      s.sleepLock entry1=none ∧ s.copy entry1≠s.disk (s.key entry1) :=
  ⟨(run step reuse linked).get (by decide +kernel),(Option.some_get _).symm,by decide +kernel,
    by decide +kernel,by decide +kernel⟩

end Xv6.InodeTable
