import Xv6.DataSpec
import Xv6.PageAccount

/-! The address space of a process over whole runs: which pages it maps, and what `sbrk`
does to it and to its contents. -/
namespace Xv6.UserData
open Function Xv6.PageTree Xv6.Total Xv6.Vm Xv6.Machine
open Xv6.UserMemory (Task Laid Space Sys Call boot step trapframeVa_eq trampolineVa_eq)
open Xv6.Proc (Slot initproc)
variable {kend : Nat} {r : Ram} {rest : Multiset Page} {pt : Pagetable} {p : Task} {n : Int}

def Exact (pt : Pagetable) (sz : Nat) : Prop :=
  ∀ v < maxva/pgsize, (leaf pt v).isSome ↔
    v*pgsize < pgroundup sz ∨ v*pgsize=trapframeVa ∨ v*pgsize=trampolineVa

theorem exact_of_laid {sz : Nat} (h : Laid pt sz) : Exact pt sz := by
  intro v hv
  have hv : v<2^26 := hv
  have hpages : v*pgsize < pgroundup sz ↔ v < npages sz := by
    rw [pgroundup_npages]
    exact Nat.mul_lt_mul_right (by decide)
  rw [hpages,trapframeVa_eq,trampolineVa_eq,Nat.mul_left_inj (by decide),
    Nat.mul_left_inj (by decide)]
  constructor
  · intro hsome
    by_contra hnot
    rw [h.unmapped v (by rw [trapframeVpn]; omega) (by omega)] at hsome
    cases hsome
  · rintro (hlow | hhigh)
    · obtain ⟨e,he,-⟩ := h.mapped v (Nat.zero_le v) (by omega)
      simp [he]
    · obtain ⟨e,he,-⟩ := h.high.mapped v (by rw [trapframeVpn]; omega) (by rw [trapframeVpn]; omega)
      simp [he]

structure Grown (r : Ram) (pt : Pagetable) (sz : Nat) (n : Int) (r' : Ram) (pt' : Pagetable)
    (sz' : Nat) (ok : Bool) : Prop where
  /-- A failure leaves the size and all translations as they were. -/
  failed : ok=false → sz'=sz ∧ ∀ v < 2 ^ 27, leaf pt' v=leaf pt v
  /-- The pages that were there stay; those that are new hold zeros. -/
  grown : ok=true → 0 < n → (sz' : Int)=sz+n ∧
    (∀ a < pgroundup sz, userByte r' pt' a=userByte r pt a) ∧
    ∀ a, pgroundup sz ≤ a → a < pgroundup sz' → userByte r' pt' a=some 0
  shrunk : n < 0 → -n ≤ sz → ok=true ∧ (sz' : Int)=sz+n ∧
    ∀ a < sz', userByte r' pt' a=userByte r pt a

theorem growproc_data (hpt : p.pagetable=some pt) (hlaid : Laid pt p.sz)
    (h : Accounts kend r.mem (rest+p.held)) (hn : -2^31 ≤ n ∧ n<2^31) :
    Yields (growproc r p n) fun x => ∃ pt',
      x.2.1 = { p with pagetable := some pt', sz := x.2.1.sz } ∧
        Grown r pt p.sz n x.1 pt' x.2.1.sz x.2.2 := by
  have hspace : Space kend r.mem (rest+p.trapframe.elim 0 fun pa => {pa}) pt (npages p.sz) := by
    refine hlaid.space (h.congr ?_)
    rw [Task.held,hpt,Option.elim_some,add_assoc]
  have hsmall := hlaid.small
  rw [phystop_eq] at hsmall
  have hfew : npages p.sz ≤ 557056 := hspace.few
  unfold growproc
  rw [hpt]
  dsimp only
  split
  · rename_i hpos
    refine (uvmalloc_full hlaid.small true false hspace.toHeld).bind ?_
    rintro ⟨r₁,pt₁,sz₁⟩ ⟨hsame,hkeep,⟨hz,hheld⟩ | ⟨hz,hle,hheld,has,hzero⟩⟩
    · rw [hz]
      refine .ok ⟨pt₁,rfl,fun _ => ⟨rfl,fun v hv => ?_⟩,by simp,fun hneg => absurd hneg (by omega)⟩
      by_cases hout : v < npages p.sz ∨ trapframeVpn ≤ v
      · exact hkeep v hv hout
      · rw [hheld.unmapped v (by omega) (by omega),hspace.unmapped v (by omega) (by omega)]
    · dsimp only at hz hle hheld hkeep has hsame hzero
      have hfew₁ : npages sz₁ ≤ 557056 := hheld.few
      simp only [show sz₁≠0 by omega,if_false]
      refine .ok ⟨pt₁,rfl,by simp,fun _ _ => ⟨by simp only; omega,fun a ha => ?_,fun a ha ha' => ?_⟩,
        fun hneg => absurd hneg (by omega)⟩
      · refine userByte_kept (by omega) hkeep (hsame.mono ?_) (lt_npages_iff.mpr ha)
        exact Multiset.le_add_left _ _
      · have hw : npages p.sz ≤ a/pgsize := Nat.not_lt.mp fun hlt =>
          absurd (lt_npages_iff.mp hlt) (Nat.not_lt.mpr ha)
        have hw' : a/pgsize < npages sz₁ := lt_npages_iff.mpr ha'
        obtain ⟨pa,hpa⟩ := has (a/pgsize) hw (by omega)
        rw [userByte,hpa,Option.map_some]
        rw [hzero (a/pgsize) hw (by rw [trapframeVpn]; omega) _ hpa]
  split
  · rename_i hneg
    refine ((Yields.of_erase (uvmdealloc_erase ..)
      (uvmdealloc_spec hlaid.small hspace.toHeld)).and fun x hx => uvmdealloc_frees hx).bind ?_
    rintro ⟨r₁,pt₁,sz₁⟩ ⟨⟨hz,hheld,hkeep⟩,hfrees⟩
    dsimp only at hz hheld hkeep hfrees
    refine .ok ⟨pt₁,rfl,by simp,fun _ hpos => absurd hpos (by omega),fun _ hle => ?_⟩
    refine ⟨rfl,by simp only; omega,fun a ha => ?_⟩
    have ha : a < sz₁ := ha
    have hfew₁ : npages sz₁ ≤ 557056 := hheld.few
    have hpages : pagesFrom pt₁ 0 (npages sz₁)=pagesFrom pt 0 (npages sz₁) :=
      pagesFrom_congr fun w _ hw => hkeep w (by omega) (.inl (by omega))
    have hpage : a/pgsize < npages sz₁ := by
      rw [npages_eq (by rw [phystop_eq]; omega),pgsize_eq]
      omega
    refine userByte_kept (by omega) hkeep ((hfrees.same hheld.accounts).mono ?_) hpage
    rw [← hpages]
    exact Multiset.le_add_left _ _
  · rename_i hpos hneg
    exact .ok ⟨pt,by rw [← hpt],by simp,fun _ h0 => absurd h0 hpos,fun h0 => absurd h0 hneg⟩

theorem step_sbrk {s : Sys} {q : Slot} {data : Page → Nat → UInt8} {r' : Ram} {t : Task}
    {ok : Bool} (hcalm : s.panicked=none) (hlive : (s.proc q).state.live=true)
    (hg : growproc ⟨s.mem,data⟩ (s.proc q) n=.ok (r', t, ok)) :
    step s (q, .sbrk n)=some { s with mem := r'.mem, proc := update s.proc q t } := by
  have herase := growproc_erase ⟨s.mem,data⟩ (s.proc q) n
  rw [hg] at herase
  rw [step,if_pos ⟨hcalm,hlive⟩]
  simp only [UserMemory.syscall,UserMemory.onTask,← herase]
  rfl

/-- In every reachable state the table of a process maps its user pages, `TRAPFRAME` and `TRAMPOLINE`
and nothing else, and `sbrk` by any amount does what `Grown` says. No call has panicked, unless
`initproc` has called `exit`. -/
theorem address_space_exact {m : Mem} {k : Nat} {s₀ s : Sys} {calls : List (Slot × Call)}
    (hend : 0 < m.kernelEnd ∧ m.kernelEnd ≤ phystop) (hboot : boot m k=some s₀)
    (hrun : run step calls s₀=some s) :
    (s.panicked=none ∨ s.panicked=some .initExiting) ∧
    ∀ q, (s.proc q).state≠.unused → ∃ pt, (s.proc q).pagetable=some pt ∧
      Exact pt (s.proc q).sz ∧
      ∀ data (n : Int), -2 ^ 31 ≤ n → n < 2 ^ 31 → ∃ r' pt' sz' ok,
        growproc ⟨s.mem,data⟩ (s.proc q) n =
          .ok (r', { s.proc q with pagetable := some pt', sz := sz' }, ok) ∧
        Grown ⟨s.mem,data⟩ pt (s.proc q).sz n r' pt' sz' ok ∧
        (s.panicked=none → (s.proc q).state.live=true → step s (q, .sbrk n)=some { s with
          mem := r'.mem
          proc := update s.proc q { s.proc q with pagetable := some pt', sz := sz' } }) := by
  have hgood := UserMemory.run_good hend hboot hrun
  refine ⟨hgood.2,fun q hq => ?_⟩
  obtain ⟨pt,hpt,hlaid⟩ := (hgood.1.slots q).ready hq
  refine ⟨pt,hpt,exact_of_laid hlaid,fun data n hlow hhigh => ?_⟩
  obtain ⟨⟨r',t,ok⟩,hg,pt',ht,hgrown⟩ :=
    growproc_data (r := ⟨s.mem,data⟩) hpt hlaid (hgood.1.account q) ⟨hlow,hhigh⟩
  dsimp only at ht hgrown
  rw [ht] at hg
  exact ⟨r',pt',t.sz,ok,hg,hgrown,fun hcalm hlive => step_sbrk hcalm hlive hg⟩

def grownCalls : List (Slot × Call) := [(initproc, .sbrk 5000), (initproc, .sbrk (-4096))]

def grownEnd : Sys := (run step grownCalls UserMemory.tinyBoot).get (by decide +kernel)

theorem grown_space_exact : (grownEnd.proc initproc).sz=5000 ∧
    ∃ pt, (grownEnd.proc initproc).pagetable=some pt ∧ Exact pt 5000 := by
  have hboot : boot UserMemory.tiny 1=some UserMemory.tinyBoot := (Option.some_get _).symm
  have hrun : run step grownCalls UserMemory.tinyBoot=some grownEnd := (Option.some_get _).symm
  have hsz : (grownEnd.proc initproc).sz=5000 := by decide +kernel
  obtain ⟨pt,hpt,hexact,-⟩ :=
    (address_space_exact (by decide) hboot hrun).2 initproc (by decide +kernel)
  exact ⟨hsz,pt,hpt,hsz ▸ hexact⟩

end Xv6.UserData
