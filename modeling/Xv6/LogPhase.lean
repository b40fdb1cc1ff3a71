import Xv6.Log
import Xv6.BufferSteps

/-! The invariant of the log: between commits the header on the disk is empty; a commit or a recovery
runs alone, and what it has achieved can be read off where it is. -/
namespace Xv6.Log
open Function Xv6.BufferCache
variable {P : Type*}

def Mount.head (M : Mount P) (disk : Nat → Data) : List Nat := headerOf (disk M.start)

def Mount.recovered (M : Mount P) (disk : Nat → Data) (x : Nat) : Data :=
  RedoLog.recovered disk (fun i => disk (M.slot i)) (M.head disk) x

structure Mount.Fits (M : Mount P) (h : List Nat) : Prop where
  nodup : h.Nodup
  home : ∀ x∈h, M.Home x
  size : h.length < M.size
  le : h.length ≤ logSize

section Blocks
variable {M : Mount P} {h : List Nat} {disk : Nat → Data} {i j x : Nat} {d : Data}

theorem fits_nil (M : Mount P) : M.Fits [] := ⟨.nil,by simp,M.size_pos,Nat.zero_le _⟩

theorem home_ne_start (hx : M.Home x) : x≠M.start := by
  have := M.size_pos
  unfold Mount.Home at hx
  omega

theorem home_ne_slot (hx : M.Home x) (hi : i+1 < M.size) : x≠M.slot i := by
  unfold Mount.Home at hx
  unfold Mount.slot
  omega

theorem slot_ne_start : M.slot i≠M.start := by
  unfold Mount.slot
  omega

theorem slot_ne_slot (hij : i≠j) : M.slot i≠M.slot j := by
  unfold Mount.slot
  omega

theorem Mount.Fits.slot (hf : M.Fits h) (hi : i < h.length) : i+1 < M.size := by
  have := hf.size
  omega

theorem head_update (hx : x≠M.start) : M.head (update disk x d)=M.head disk := by
  simp [Mount.head,Ne.symm hx]

theorem recovered_of_head_nil (hh : M.head disk=[]) : M.recovered disk x=disk x := by
  rw [Mount.recovered,hh,RedoLog.recovered_nil]

end Blocks

def Point.recovering : Point → Bool
  | .readHead | .readHeadBuf => true
  | .commit | .copy .writeLog _ _ | .writeHead .commit _ => false
  | .copy (.installTrans recovering) _ _ | .clear recovering | .writeHead (.erase recovering) _
  | .finish recovering => recovering

def Point.pinned (lh : List Nat) : Point → List Nat
  | .commit | .copy .writeLog _ _ | .writeHead .commit _ => lh
  | .copy (.installTrans false) tail (.release _) => lh.drop (tail+1)
  | .copy (.installTrans false) tail _ => lh.drop tail
  | .copy (.installTrans true) _ _ | .readHead | .readHeadBuf | .clear _ | .writeHead (.erase _) _
  | .finish _ => []

def Point.scratch : Point → List Buf
  | .copy c _ (.write l d) => [c.dst l d]
  | .writeHead _ (.write b) => [b]
  | _ => []

/-- What the process in the log's code is doing with the cache. -/
def Point.Using (M : Mount P) (s : Sys P) (p : P) : Point → Prop
  | .readHeadBuf | .writeHead _ .reading => s.bio.Fetching p M.start []
  | .copy _ tail .first => s.bio.Fetching p (M.slot tail) []
  | .copy _ tail (.second l) =>
      s.bio.Fetching p (s.lh.getD tail 0) [l] ∧ s.bio.blockno l=M.slot tail
  | .copy _ tail (.write l d) | .copy _ tail (.written l d) =>
      s.bio.Keeping p [d,l] ∧ s.bio.blockno l=M.slot tail ∧ s.bio.blockno d=s.lh.getD tail 0
  | .copy _ _ (.release b) => s.bio.Keeping p [b]
  | .writeHead _ (.write b) | .writeHead _ (.written b) =>
      s.bio.Keeping p [b] ∧ s.bio.blockno b=M.start
  | .readHead | .commit | .copy _ _ .test | .clear _ | .writeHead _ .start | .finish _ =>
      s.bio.Keeping p []

def Point.Loaded (M : Mount P) (s : Sys P) : Point → Prop
  | .copy c tail (.write l d) =>
      s.bio.data l=s.bio.data d ∧ (c≠.writeLog → s.bio.data d=s.bio.disk (M.slot tail))
  | .copy (.installTrans false) _ (.written _ d) => s.bio.data d=s.bio.disk (s.bio.blockno d)
  | .writeHead _ (.write b) => headerOf (s.bio.data b)=s.lh
  | _ => True

def Saved (M : Mount P) (s : Sys P) (n : Nat) : Prop :=
  ∀ i x, i < n → s.lh[i]?=some x → s.bio.disk (M.slot i)=s.bio.contents M.dev x

def Installed (M : Mount P) (disk : Nat → Data) (h : List Nat) (n : Nat) : Prop :=
  ∀ i x, i < n → h[i]?=some x → disk x=disk (M.slot i)

def Copy.Progress (M : Mount P) (s : Sys P) (n : Nat) : Copy → Prop
  | .writeLog => M.head s.bio.disk=[] ∧ Saved M s n
  | .installTrans recovering =>
      M.head s.bio.disk=s.lh ∧ Installed M s.bio.disk s.lh n ∧
        (recovering=false → Saved M s s.lh.length)

def Point.Achieved (M : Mount P) (s : Sys P) : Point → Prop
  | .readHead | .readHeadBuf => s.lh=[]
  | .commit => M.head s.bio.disk=[]
  | .copy c tail .test => c.Progress M s tail
  | .copy c tail .first | .copy c tail (.second _) | .copy c tail (.write _ _) =>
      tail < s.lh.length ∧ c.Progress M s tail
  | .copy c tail (.written _ _) | .copy c tail (.release _) =>
      tail < s.lh.length ∧ c.Progress M s (tail+1)
  | .clear recovering => (Copy.installTrans recovering).Progress M s s.lh.length
  | .writeHead .commit (.written _) => M.head s.bio.disk=s.lh ∧ Saved M s s.lh.length
  | .writeHead .commit _ => M.head s.bio.disk=[] ∧ Saved M s s.lh.length
  | .writeHead (.erase _) (.written _) | .finish _ => s.lh=[] ∧ M.head s.bio.disk=[]
  | .writeHead (.erase _) _ =>
      s.lh=[] ∧ Installed M s.bio.disk (M.head s.bio.disk) (M.head s.bio.disk).length

/-- Process `p` is at point `k` of the log's code, no other process is in it, and
no operation is under way; in a recovery, no other process has begun. -/
structure Busy (M : Mount P) (s : Sys P) (p : P) (k : Point) : Prop where
  pc : s.pc p=.log k
  alone : ∀ q j, s.pc q=.log j → q=p
  down : s.up=false → ∀ q, q≠p → s.pc q=.fs
  noOp : ∀ q, s.op q=false
  up : s.up = !k.recovering
  committing : s.committing = !k.recovering
  cache : k.Using M s p
  loaded : k.Loaded M s
  achieved : k.Achieved M s

structure Quiet (M : Mount P) (s : Sys P) : Prop where
  pc : ∀ p k, s.pc p≠.log k
  up : s.up=true
  committing : s.committing=false
  head : M.head s.bio.disk=[]

inductive Phase (M : Mount P) (s : Sys P) : List Nat → (Buf → Prop) → Prop
  | busy {p : P} {k : Point} (h : Busy M s p k) : Phase M s (k.pinned s.lh) (· ∈ k.scratch)
  | quiet (h : Quiet M s) : Phase M s s.lh fun b => ∃ p, b∈s.modified p ∧ b∉s.logged p

def Pc.Bracket (s : Sys P) (p : P) : Pc → Prop
  | .fs => True
  | .beginOp | .asleep | .log _ => s.op p=false
  | .logWrite b => b∈s.bio.held p ∧ s.op p=true
  | .endOp => s.bio.held p=[] ∧ s.bio.call p=.idle ∧ s.op p=true

structure Client (M : Mount P) (s : Sys P) (p : P) : Prop where
  within : (∀ k, s.pc p≠.log k) → s.bio.Within p M.Home
  modified : ∀ b∈s.modified p, b∈s.bio.held p ∧ s.op p=true
  logged : ∀ b∈s.logged p, b∈s.bio.held p ∧ s.op p=true ∧ s.bio.blockno b∈s.lh
  bracket : (s.pc p).Bracket s p

def openOps [Fintype P] (op : P → Bool) : Int := ∑ p, if op p then 1 else 0

structure Inv [DecidableEq P] [Fintype P] (M : Mount P) (s : Sys P) : Prop where
  head : M.Fits (M.head s.bio.disk)
  lh : M.Fits s.lh
  outstanding : s.outstanding=openOps s.op
  client : ∀ p, Client M s p
  phase : ∃ pinned scratch, Phase M s pinned scratch ∧ s.bio.Coherent M.dev pinned scratch

/-- The store the machine implements: what its programs see, which is what
recovery makes of the disk until it is up, and what a crash leaves. -/
def Mount.store (M : Mount P) (s : Sys P) : RedoLog.Store Nat Data where
  volatile := if s.up then s.bio.contents M.dev else M.recovered s.bio.disk
  durable := M.recovered s.bio.disk

/-- What a step is to that store. -/
def Sys.event [DecidableEq P] (s : Sys P) : Label P → List (RedoLog.Event Nat Data)
  | .request _ (.modify b d) => [.write (s.bio.blockno b) d]
  | .request _ _ => []
  | .run p => if s.commits (.run p) then [.commit] else []
  | .crash => [.crash]

theorem commits_iff [DecidableEq P] {s : Sys P} {l : Label P} : s.commits l=true ↔
    ∃ p b, l=.run p ∧ s.pc p=.log (.writeHead .commit (.write b)) ∧
      s.bio.call p=.idle ∧ s.bio.holdingsleep p b=true := by
  cases l with
  | request p r | crash => simp [Sys.commits]
  | run p =>
    unfold Sys.commits
    dsimp only
    split
    next b hpc => simp [hpc]
    next hne =>
      refine ⟨fun h => by simp at h,?_⟩
      rintro ⟨q,b,hq,hpc,-⟩
      cases hq
      exact absurd hpc (hne b)

end Xv6.Log
