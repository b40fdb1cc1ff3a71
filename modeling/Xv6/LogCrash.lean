import Xv6.LogRecovery

/-! Crashes are atomic. The machine implements a store with a volatile and a durable side, which the
header of a commit makes durable and a crash brings back. -/
namespace Xv6.Log
open Function Xv6.Machine Xv6.BufferCache Xv6.RedoLog
variable {P : Type*} [DecidableEq P] [Fintype P]
variable {M : Mount P} {s t : Sys P} {p : P} {l : Label P} {ls : List (Label P)}

def events (M : Mount P) : Sys P → List (Label P) → List (Event Nat Data)
  | _, [] => []
  | s, l :: ls =>
      match Log.step M s l with
      | none => []
      | some t => s.event l++events M t ls

/-- What the cache contained when the header of a commit last reached the disk in
a run, or `d` if it never did. -/
def lastCommit (M : Mount P) (d : Nat → Data) : Sys P → List (Label P) → Nat → Data
  | _, [] => d
  | s, l :: ls =>
      match Log.step M s l with
      | none => d
      | some t => lastCommit M (if s.commits l then s.bio.contents M.dev else d) t ls

theorem Inv.run (h : Inv M s) {past : List (Label P)}
    (hok : Along (Log.step M) (fun _ u l => Bracketed M u l) past s ls)
    (hrun : Machine.run (Log.step M) ls s=some t) :
    Shows M ((M.store s).replay (events M s ls)) t := by
  induction ls generalizing past s with
  | nil =>
    cases hrun
    exact ⟨h,.refl _ _⟩
  | cons l ls ih =>
    obtain ⟨u,hu,hls⟩ := run_cons.mp hrun
    obtain ⟨hinv,hagree⟩ := h.step hok.1 hu
    obtain ⟨hinv',hagree'⟩ := ih hinv (hok.2 u hu) hls
    refine ⟨hinv',hagree'.trans ?_⟩
    simp only [events,hu]
    rw [Store.replay_append]
    exact hagree.replay _

theorem Inv.lastCommit (h : Inv M s) {past : List (Label P)} {d : Nat → Data}
    (hd : ∀ x, M.Home x → M.recovered s.bio.disk x=d x)
    (hok : Along (Log.step M) (fun _ u l => Bracketed M u l) past s ls)
    (hrun : Machine.run (Log.step M) ls s=some t) {x : Nat} (hx : M.Home x) :
    M.recovered t.bio.disk x=Log.lastCommit M d s ls x := by
  induction ls generalizing past s d with
  | nil =>
    cases hrun
    exact hd x hx
  | cons l ls ih =>
    obtain ⟨u,hu,hls⟩ := run_cons.mp hrun
    simp only [Log.lastCommit,hu]
    refine ih (h.step hok.1 hu).1 (fun y hy => ?_) (hok.2 u hu) hls
    rw [h.durable hok.1 hu hy]
    split
    · rfl
    · exact hd y hy

/-- In a run of operations, commits and crashes in any order: what recovery makes of the disk is what
the cache contained when the header of a commit last reached the disk; that is what the operations
wrote before that commit, each with all its writes or none; the home blocks are that when recovery
has completed, and recovery completes if it is left alone. -/
theorem log_crash_atomic (M : Mount P) (disk : Nat → Data) (hdisk : M.Fits (M.head disk))
    (ls : List (Label P)) (t : Sys P)
    (hok : Along (Log.step M) (fun _ s l => Bracketed M s l) [] (boot M disk) ls)
    (hrun : Machine.run (Log.step M) ls (boot M disk)=some t) :
    (∀ x, M.Home x → M.recovered t.bio.disk x =
        Log.lastCommit M (M.recovered disk) (boot M disk) ls x) ∧
      (t.up=true → t.committing=false → ∀ x, M.Home x →
        t.bio.disk x=Log.lastCommit M (M.recovered disk) (boot M disk) ls x) ∧
      (∃ n u, Machine.run (Log.step M) (.crash :: List.replicate n (.run M.initproc)) t=some u ∧
        u.up=true ∧ u.committing=false ∧ ∀ x, M.Home x →
          u.bio.disk x=Log.lastCommit M (M.recovered disk) (boot M disk) ls x) ∧
      (∀ x, M.Home x → Log.lastCommit M (M.recovered disk) (boot M disk) ls x =
        (Store.replay ⟨M.recovered disk,M.recovered disk⟩
          (events M (boot M disk) ls)).durable x) ∧
      ∀ u l v s, ls=u++l :: v → Machine.run (Log.step M) u (boot M disk)=some s →
        s.commits l=true → ∀ p, s.op p=false := by
  have hboot := boot_inv hdisk
  have hlast (x : Nat) (hx : M.Home x) : M.recovered t.bio.disk x =
      Log.lastCommit M (M.recovered disk) (boot M disk) ls x :=
    hboot.lastCommit (fun _ _ => rfl) hok hrun hx
  obtain ⟨hinv,hagree⟩ := hboot.run hok hrun
  refine ⟨hlast,fun hup hcom x hx => ?_,?_,fun x hx => ?_,?_⟩
  · rw [hinv.settled hup hcom]
    exact hlast x hx
  · obtain ⟨n,u,hu,hup,hcom,hdone⟩ := (boot_recovering hinv.head).completes
    refine ⟨n,u,run_cons.mpr ⟨_,rfl,hu⟩,hup,hcom,fun x hx => ?_⟩
    exact (hdone x hx).trans (hlast x hx)
  · rw [← hlast x hx]
    exact (hagree x hx).2
  · rintro u l v s rfl hu hc
    obtain ⟨hpre,-⟩ := along_append.mp hok
    exact ((hboot.run hpre hu).1.commits hc).2

def mkfsMount : Mount (Fin 2) := ⟨1,2,30,0,by decide,by decide⟩

def blankDisk : Nat → Data := fun _ _ => 0

theorem blankDisk_fits : mkfsMount.Fits (mkfsMount.head blankDisk) := by
  have hnil : mkfsMount.head blankDisk=[] := by decide
  exact hnil ▸ fits_nil _

def turns (n : Nat) (p : Fin 2) : List (Label (Fin 2)) := List.replicate n (.run p)

def oneWrite : List (Label (Fin 2)) :=
  .request 1 .beginOp :: .run 1 :: .request 1 (.bread 1 40) :: turns 3 1 ++
    .request 1 (.modify ⟨1,by decide⟩ fun _ => 7) :: .request 1 (.logWrite ⟨1,by decide⟩) ::
    .run 1 :: .request 1 (.brelse ⟨1,by decide⟩) :: turns 2 1++[.request 1 .endOp]

def crashedTwice : List (Label (Fin 2)) :=
  turns 19 0++oneWrite++turns 25 1++.crash :: turns 15 0++.crash :: turns 35 0

def crashedTwiceEnd : Sys (Fin 2) :=
  (Machine.run (Log.step mkfsMount) crashedTwice (boot mkfsMount blankDisk)).get
    (by decide +kernel)

theorem crashedTwice_run : Machine.run (Log.step mkfsMount) crashedTwice
    (boot mkfsMount blankDisk)=some crashedTwiceEnd :=
  (Option.some_get _).symm

theorem crashedTwice_recovered : crashedTwiceEnd.up=true ∧
    crashedTwiceEnd.bio.disk 40 ⟨0,by decide⟩=7 ∧
    crashedTwiceEnd.bio.disk 40=Log.lastCommit mkfsMount (mkfsMount.recovered blankDisk)
      (boot mkfsMount blankDisk) crashedTwice 40 := by
  refine ⟨by decide +kernel,by decide +kernel,?_⟩
  exact (log_crash_atomic mkfsMount blankDisk blankDisk_fits crashedTwice crashedTwiceEnd
    (by decide +kernel) crashedTwice_run).2.1 (by decide +kernel) (by decide +kernel) 40
    (by decide)

end Xv6.Log
