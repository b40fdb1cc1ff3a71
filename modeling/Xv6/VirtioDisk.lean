import Xv6.Proc

/-! The driver of `kernel/virtio_disk.c` with its device. Every process can be in a call of
`virtio_disk_rw`, every CPU in `virtio_disk_intr`, and the device works at any time; a step
is one access to memory that the other parties can notice, or what a function does with
memory that only the holder of `vdisk_lock` uses. `sleep` gives up the lock and marks the
process as sleeping at once; `wakeup`, and `kill` at any time, make it run again. -/
namespace Xv6.Virtio
open Function Xv6.Machine
open Xv6.Proc (Slot)

/-- `NUM`, the number of descriptors and of the entries of each ring. -/
def num : Nat := 8

abbrev Cpu : Type := Fin 8

def uint16 (n : Nat) : Nat := n%65536

/-- `VRING_DESC_F_NEXT` and `VRING_DESC_F_WRITE`. -/
def descNext : Nat := 1

def descWrite : Nat := 2

/-- `VIRTIO_BLK_T_IN` and `VIRTIO_BLK_T_OUT`. -/
def blkIn : Nat := 0

def blkOut : Nat := 1

abbrev Buf : Type := Nat

/-- The addresses that the driver stores in descriptors: `&disk.ops[i]`, `b->data` and
`&disk.info[i].status`. -/
inductive Addr where
  | null
  | op (i : Nat)
  | data (b : Buf)
  | status (i : Nat)
deriving DecidableEq, Repr

structure Desc where
  addr : Addr
  len : Nat
  flags : Nat
  next : Nat
deriving DecidableEq, Repr

structure BlkReq where
  type : Nat
  reserved : Nat
  sector : Nat
deriving DecidableEq, Repr

structure Info where
  b : Option Buf
  status : Nat
deriving DecidableEq, Repr

/-- The array `idx` that `alloc3_desc` fills. -/
structure Chain where
  idx0 : Nat
  idx1 : Nat
  idx2 : Nat
deriving DecidableEq, Repr

def Chain.descs (c : Chain) : List Nat := [c.idx0, c.idx1, c.idx2]

structure Call where
  b : Buf
  blockno : Nat
  write : Bool
deriving DecidableEq, Repr

/-- `b->blockno * (BSIZE / 512)`, a product of 32 bits. -/
def Call.sector (a : Call) : Nat := a.blockno*(bsize/512)%4294967296

def Call.op (a : Call) : BlkReq := ⟨if a.write then blkOut else blkIn,0,a.sector⟩

/-- A request as the device reads it out of a chain. The serial number is the position in
the avail ring, counted from the start. -/
structure Request where
  serial : Nat
  head : Nat
  op : BlkReq
  buf : Buf
  status : Nat
deriving DecidableEq, Repr

/-- The panics of the driver, the use of a null `info[id].b`, and a chain that is not a
request to the device. -/
inductive Fault where
  | freeDesc1
  | freeDesc2
  | intrStatus
  | nullBuf
  | badChain
deriving DecidableEq, Repr

/-- The channels: `&disk.free[0]` and the buffers. -/
inductive Chan where
  | free
  | buf (b : Buf)
deriving DecidableEq, Repr

inductive Pc where
  | idle
  /-- `acquire(&disk.vdisk_lock)`, at the start and at the end of a sleep for descriptors. -/
  | acquire
  | alloc
  /-- The three descriptors, the fields for the handler, the ring and its index. -/
  | header (c : Chain)
  | data (c : Chain)
  | status (c : Chain)
  | record (c : Chain)
  | ring (c : Chain)
  | index (c : Chain)
  | wait (c : Chain)
  /-- The end of a sleep for the buffer. -/
  | reacquire (c : Chain)
  | clear (c : Chain)
  /-- `free_chain`, at descriptor `i`. -/
  | freeing (c : Chain) (i : Nat)
  | release (c : Chain)
deriving DecidableEq, Repr

inductive IntrPc where
  | idle
  | acquire
  | test
  | read
  | complete (id : Nat)
  | release
deriving DecidableEq, Repr

inductive Holder where
  | rw (p : Slot)
  | intr (c : Cpu)
deriving DecidableEq, Repr

structure Sys where
  desc : Nat → Desc
  ops : Nat → BlkReq
  info : Nat → Info
  /-- `disk.avail` and `disk.used`. -/
  availIdx : Nat
  availRing : Nat → Nat
  usedIdx : Nat
  usedRing : Nat → Nat
  free : Nat → Bool
  /-- `disk.used_idx`. -/
  seenIdx : Nat
  lock : Option Holder
  /-- `b->disk`. -/
  busy : Buf → Bool
  pc : Slot → Pc
  call : Slot → Call
  sleeping : Slot → Option Chan
  intr : Cpu → IntrPc
  /-- The number of entries that the device has taken from the avail ring, the requests
  that it works on, those whose status it has written, and the one that it has written to
  the used ring without counting it yet. -/
  taken : Nat
  inflight : List Request
  written : List Request
  appending : Option Request
  /-- History: the requests in the avail ring that the device has not taken, those in the
  used ring that the handler has not seen, those that it has seen, and the serial number of
  the last request of each process. -/
  queue : List Request
  news : List Request
  done : List Request
  serial : Slot → Nat
  fault : Option Fault

def start : Sys where
  desc := fun _ => ⟨.null,0,0,0⟩
  ops := fun _ => ⟨0,0,0⟩
  info := fun _ => ⟨none,0⟩
  availIdx := 0
  availRing := fun _ => 0
  usedIdx := 0
  usedRing := fun _ => 0
  free := fun i => decide (i < num)
  seenIdx := 0
  lock := none
  busy := fun _ => false
  pc := fun _ => .idle
  call := fun _ => ⟨0,0,false⟩
  sleeping := fun _ => none
  intr := fun _ => .idle
  taken := 0
  inflight := []
  written := []
  appending := none
  queue := []
  news := []
  done := []
  serial := fun _ => 0
  fault := none

def Sys.goto (s : Sys) (p : Slot) (k : Pc) : Sys := { s with pc := update s.pc p k }

def Sys.intrGoto (s : Sys) (c : Cpu) (k : IntrPc) : Sys := { s with intr := update s.intr c k }

def Sys.wakeup (s : Sys) (chan : Chan) : Sys :=
  { s with sleeping := fun q => if s.sleeping q=some chan then none else s.sleeping q }

def Sys.sleep (s : Sys) (p : Slot) (chan : Chan) : Sys :=
  { s with lock := none, sleeping := update s.sleeping p (some chan) }

def Sys.allocDesc (s : Sys) : Option (Sys × Nat) :=
  ((List.range num).find? s.free).map fun i => ({ s with free := update s.free i false }, i)

def Sys.freeDesc (s : Sys) (i : Nat) : Except Fault Sys :=
  if num ≤ i then .error .freeDesc1
  else if s.free i then .error .freeDesc2
  else
    .ok ({ s with
      desc := update s.desc i ⟨.null,0,0,0⟩
      free := update s.free i true }.wakeup .free)

/-- `alloc3_desc`, with its loop unrolled. -/
def Sys.alloc3Desc (s : Sys) : Except Fault (Sys × Option Chain) :=
  match s.allocDesc with
  | none => .ok (s, none)
  | some (s, i) =>
    match s.allocDesc with
    | none => do
      let s ← s.freeDesc i
      .ok (s, none)
    | some (s, j) =>
      match s.allocDesc with
      | none => do
        let s ← s.freeDesc i
        let s ← s.freeDesc j
        .ok (s, none)
      | some (s, k) => .ok (s, some ⟨i,j,k⟩)

/-- A statement of `virtio_disk_rw`. -/
def Sys.advance (s : Sys) (p : Slot) : Option Sys :=
  let a := s.call p
  match s.pc p with
  | .idle => none
  | .acquire =>
      if s.lock=none then some ({ s with lock := some (.rw p) }.goto p .alloc) else none
  | .alloc =>
      match s.alloc3Desc with
      | .error e => some { s with fault := some e }
      | .ok (s, some c) => some (s.goto p (.header c))
      | .ok (s, none) => some ((s.sleep p .free).goto p .acquire)
  | .header c =>
      some ({ s with
        ops := update s.ops c.idx0 a.op
        desc := update s.desc c.idx0 ⟨.op c.idx0,16,descNext,c.idx1⟩ }.goto p (.data c))
  | .data c =>
      some ({ s with
        desc := update s.desc c.idx1
          ⟨.data a.b,bsize,(if a.write then 0 else descWrite) ||| descNext,c.idx2⟩ }.goto p (.status c))
  | .status c =>
      some ({ s with
        info := update s.info c.idx0 ⟨(s.info c.idx0).b,0xff⟩
        desc := update s.desc c.idx2 ⟨.status c.idx0,1,descWrite,0⟩ }.goto p (.record c))
  | .record c =>
      some ({ s with
        busy := update s.busy a.b true
        info := update s.info c.idx0 ⟨some a.b,(s.info c.idx0).status⟩ }.goto p (.ring c))
  | .ring c =>
      some ({ s with
        availRing := update s.availRing (s.availIdx%num) c.idx0 }.goto p (.index c))
  | .index c =>
      let r : Request := ⟨s.taken+s.queue.length,c.idx0,a.op,a.b,c.idx0⟩
      some ({ s with
        availIdx := uint16 (s.availIdx+1)
        serial := update s.serial p r.serial
        queue := s.queue++[r] }.goto p (.wait c))
  | .wait c =>
      if s.busy a.b then some ((s.sleep p (.buf a.b)).goto p (.reacquire c))
      else some (s.goto p (.clear c))
  | .reacquire c =>
      if s.lock=none then some ({ s with lock := some (.rw p) }.goto p (.wait c)) else none
  | .clear c =>
      some ({ s with
        info := update s.info c.idx0 ⟨none,(s.info c.idx0).status⟩ }.goto p (.freeing c c.idx0))
  | .freeing c i =>
      match s.freeDesc i with
      | .error e => some { s with fault := some e }
      | .ok t =>
          some (t.goto p (if (s.desc i).flags &&& descNext≠0 then .freeing c (s.desc i).next
            else .release c))
  | .release _ => some ({ s with lock := none }.goto p .idle)

/-- A statement of `virtio_disk_intr`. -/
def Sys.handle (s : Sys) (c : Cpu) : Option Sys :=
  match s.intr c with
  | .idle => none
  | .acquire =>
      if s.lock=none then some ({ s with lock := some (.intr c) }.intrGoto c .test) else none
  | .test => some (s.intrGoto c (if s.seenIdx≠s.usedIdx then .read else .release))
  | .read => some (s.intrGoto c (.complete (s.usedRing (s.seenIdx%num))))
  | .complete id =>
      if (s.info id).status≠0 then some { s with fault := some .intrStatus }
      else
        match (s.info id).b with
        | none => some { s with fault := some .nullBuf }
        | some b =>
            some (({ s with
              busy := update s.busy b false
              seenIdx := uint16 (s.seenIdx+1)
              news := s.news.tail
              done := s.done++s.news.take 1 }.wakeup (.buf b)).intrGoto c .test)
  | .release => some ({ s with lock := none }.intrGoto c .idle)

/-- The request that a chain of three descriptors makes: the header, the data, which the
device writes if the command is to read the disk, and the status. -/
def Sys.requestAt (s : Sys) (serial head : Nat) : Option Request :=
  let d0 := s.desc head
  let d1 := s.desc d0.next
  let d2 := s.desc d1.next
  match d0.addr, d1.addr, d2.addr with
  | .op i, .data b, .status j =>
      if d0.flags=descNext ∧ d2.flags=descWrite ∧
          d1.flags=(if (s.ops i).type=blkOut then 0 else descWrite) ||| descNext then
        some ⟨serial,head,s.ops i,b,j⟩
      else none
  | _, _, _ => none

inductive DeviceStep where
  /-- The device takes the next entry of the avail ring. -/
  | take
  /-- It has transferred the data of a request, in any order, and writes status 0. -/
  | write (r : Request)
  | append (r : Request)
  | publish
deriving DecidableEq, Repr

def Sys.device (s : Sys) : DeviceStep → Option Sys
  | .take =>
      if uint16 s.taken=s.availIdx then none
      else
        match s.requestAt s.taken (s.availRing (s.taken%num)) with
        | none => some { s with fault := some .badChain }
        | some r =>
            some { s with
              taken := s.taken+1
              queue := s.queue.tail
              inflight := r :: s.inflight }
  | .write r =>
      if r∈s.inflight then
        some { s with
          info := update s.info r.status ⟨(s.info r.status).b,0⟩
          inflight := s.inflight.erase r
          written := r :: s.written }
      else none
  | .append r =>
      if s.appending=none ∧ r∈s.written then
        some { s with
          usedRing := update s.usedRing (s.usedIdx%num) r.head
          written := s.written.erase r
          appending := some r }
      else none
  | .publish =>
      match s.appending with
      | none => none
      | some r =>
          some { s with
            usedIdx := uint16 (s.usedIdx+1)
            appending := none
            news := s.news++[r] }

inductive Label where
  /-- A call of `virtio_disk_rw` with a buffer that no other call has. -/
  | call (p : Slot) (a : Call)
  | run (p : Slot)
  | kill (p : Slot)
  | interrupt (c : Cpu)
  | handle (c : Cpu)
  | device (d : DeviceStep)
deriving DecidableEq, Repr

def step (s : Sys) (l : Label) : Option Sys :=
  if s.fault≠none then none
  else
    match l with
    | .call p a =>
        if s.pc p=.idle ∧ ∀ q, s.pc q≠.idle → (s.call q).b≠a.b then
          some ({ s with call := update s.call p a }.goto p .acquire)
        else none
    | .run p => if s.sleeping p=none then s.advance p else none
    | .kill p => some { s with sleeping := update s.sleeping p none }
    | .interrupt c => if s.intr c=.idle then some (s.intrGoto c .acquire) else none
    | .handle c => s.handle c
    | .device d => s.device d

end Xv6.Virtio
