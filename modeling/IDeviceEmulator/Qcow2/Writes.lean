import Mathlib.Algebra.Group.Int.Defs
import IDeviceEmulator.Qcow2.Cluster

namespace IDeviceEmulator.Qcow2.Writes

/-- `QCowAIOCB`. A released one keeps its contents. -/
structure Request where
  live : Bool := false
  sectorNum : Nat := 0
  remainingSectors : Nat := 0
  curNrSectors : Nat := 0
  hdAiocb : Bool := false
  l2meta : L2Meta := {}

/-- Where a call of `qcow2_aio_write_cb` stands. -/
inductive Frame
  | entered (r : Nat) (ok : Bool)
  /-- In the loop of `run_dependent_requests`. -/
  | restarting (r : Nat) (ok : Bool)
  | resumed (r : Nat) (ok : Bool)
  /-- In the callback of the request, which may issue further requests. -/
  | done (r : Nat)
deriving DecidableEq

def Frame.request : Frame → Nat
  | .entered r _ | .restarting r _ | .resumed r _ | .done r => r

structure State where
  image : Image
  requests : Nat → Request := fun _ ↦ {}
  clusterAllocs : List Nat := []
  stack : List Frame := []
  next : Nat := 0

inductive Input
  /-- `qcow2_aio_writev`, from the main loop or from a callback. -/
  | write (sectorNum nbSectors : Nat)
  /-- The data of a request has been written, or not. -/
  | complete (r : Nat) (ok : Bool)
  /-- The call on top goes on. The host answers the accesses to metadata in turn, the `qcow2_cache_put` after an
  allocation and the request to write the data. -/
  | run (answers : List Answer) (put submitted : Bool)

/-- What happens to requests that wait. -/
inductive Label
  | waits (r m : Nat)
  | leaves (m : Nat)
  | restarts (r : Nat)
deriving DecidableEq

inductive Fault
  | abort
  /-- Nothing has this step to take. -/
  | illegal
deriving DecidableEq

inductive Allocation
  | existing (clusterOffset nbClusters : Nat)
  | waitFor (m : Nat)
  | fresh (clusterOffset nbClusters : Nat)

section Allocation

variable (g : Geometry)

/-- The clusters up to the end of the request in its L2 table, in the `int` arithmetic of the source. -/
def wantedClusters (offset nEnd : Nat) : Nat :=
  min (((Int.bmod (nEnd * 512) (2 ^ 32) + g.clusterSize - 1) / g.clusterSize) % 2 ^ 32).toNat
    (g.l2Size - l2Index g offset)

/-- The bytes of some clusters as an `unsigned int`. -/
def clusterBytes (n : Nat) : Nat := n * g.clusterSize % 2 ^ 32

/-- The end of an allocation in flight. The product is an `int`, which the sum extends to 64 bits; offsets are far from
the end of those. -/
def oldEndOffset (m : L2Meta) : Nat :=
  let bytes := Int.bmod (m.nbClusters * g.clusterSize) (2 ^ 32)
  if bytes < 0 then ((m.offset + bytes) % 2 ^ 64).toNat else m.offset + bytes.toNat

/-- The loop over the requests in flight, which ends with a request to wait for or with the clusters that are left. -/
def shrink (metas : Nat → L2Meta) (offset : Nat) : List Nat → Nat → Except Nat Nat
  | [], n => .ok n
  | m :: ms, n =>
    if offset + clusterBytes g n < (metas m).offset ∨ oldEndOffset g (metas m) < offset then
      shrink metas offset ms n
    else if offset < (metas m).offset ∧ (metas m).offset - offset ≥ g.clusterSize then
      shrink metas offset ms (((metas m).offset - offset) / g.clusterSize)
    else .error m

def freshClusters (n : Nat) : Io Allocation := do
  let clusterOffset ← allocClusters g (clusterBytes g n)
  pure (.fresh clusterOffset n)

def chooseClusters (metas : Nat → L2Meta) (allocs : List Nat) (offset n : Nat) : Io Allocation :=
  match shrink g metas offset allocs n with
  | .error m => do
    let _ ← attempt hostIo
    pure (.waitFor m)
  | .ok n => if n = 0 then throw .abort else freshClusters g n

/-- `qcow2_alloc_cluster_offset` up to the last `qcow2_cache_put` of an allocation. -/
def allocClusterOffset (metas : Nat → L2Meta) (allocs : List Nat) (offset nEnd : Nat) : Io Allocation := do
  let table ← getClusterTable g offset
  let img ← getImage
  if isCopied (img.l2Table table (l2Index g offset)) then do
    hostIo
    pure (.existing (target (img.l2Table table (l2Index g offset))).toNat
      (countContiguousClusters g (wantedClusters g offset nEnd)
        (fun k ↦ img.l2Table table (l2Index g offset + k)) 0 0#64))
  else
    let n := if isCompressed (img.l2Table table (l2Index g offset)) then 1 else wantedClusters g offset nEnd
    chooseClusters g metas allocs offset
      (availableClusters g (fun k ↦ img.l2Table table (l2Index g offset + k)) n n 0)

end Allocation

section Machine

variable (g : Geometry) (encrypted : Bool)

def State.setRequest (s : State) (r : Nat) (req : Request) : State :=
  { s with requests := Function.update s.requests r req }

def State.l2meta (s : State) (r : Nat) : L2Meta := (s.requests r).l2meta

/-- `QCOW_MAX_CRYPT_CLUSTERS`. -/
def maxCryptClusters : Nat := 32

def requestEnd (req : Request) : Nat :=
  let nEnd := req.sectorNum % g.clusterSectors + req.remainingSectors
  if encrypted then min nEnd (maxCryptClusters * g.clusterSectors) else nEnd

def advance (req : Request) : Request :=
  { req with
    remainingSectors := req.remainingSectors - req.curNrSectors
    sectorNum := req.sectorNum + req.curNrSectors }

/-- The rest of the request after its L2 table has been dealt with. -/
def leave (s : State) (r : Nat) (ok : Bool) (rest : List Frame) : State × List Label :=
  if (s.l2meta r).nbClusters = 0 then ({ s with stack := .restarting r ok :: rest }, [])
  else ({ s with clusterAllocs := s.clusterAllocs.erase r, stack := .restarting r ok :: rest }, [.leaves r])

def enter (s : State) (r : Nat) (ok : Bool) (rest : List Frame) (answers : List Answer) :
    Except Fault (State × List Label) :=
  if ok then
    match allocClusterLinkL2 g (s.l2meta r) ⟨s.image, answers⟩ with
    | .ok _ w => .ok (leave { s with image := w.image } r true rest)
    | .error .failed w => .ok (leave { s with image := w.image } r false rest)
    | .error .abort _ => .error .abort
  else .ok (leave s r false rest)

def restart (s : State) (r : Nat) (ok : Bool) (rest : List Frame) : State × List Label :=
  match (s.l2meta r).dependentRequests with
  | [] => ({ s with stack := .resumed r ok :: rest }, [])
  | d :: ds =>
    ({ s.setRequest r { s.requests r with l2meta := { s.l2meta r with dependentRequests := ds } } with
      stack := .entered d true :: .restarting r ok :: rest }, [.restarts d])

/-- The data is handed to the host. -/
def submit (s : State) (r : Nat) (rest : List Frame) (submitted : Bool) : State × List Label :=
  if submitted then
    ({ s.setRequest r { s.requests r with hdAiocb := true } with stack := rest }, [])
  else if (s.l2meta r).nbClusters = 0 then ({ s with stack := .done r :: rest }, [])
  else ({ s with clusterAllocs := s.clusterAllocs.erase r, stack := .done r :: rest }, [.leaves r])

/-- What `qcow2_alloc_cluster_offset` leaves in the request when it succeeds. -/
def located (req : Request) (nStart nEnd clusterOffset n : Nat) (m : L2Meta) : Request :=
  { req with
    curNrSectors := min (n * g.clusterSectors) nEnd - nStart
    l2meta := { m with
      nbAvailable := min (n * g.clusterSectors) nEnd
      clusterOffset := clusterOffset } }

def wait (s : State) (r m : Nat) (req : Request) (rest : List Frame) : State × List Label :=
  let s := s.setRequest r
    { req with curNrSectors := 0, l2meta := { req.l2meta with nbClusters := 0, dependsOn := some m } }
  ({ s.setRequest m { s.requests m with
      l2meta := { s.l2meta m with dependentRequests := r :: (s.l2meta m).dependentRequests } } with
    stack := rest }, [.waits r m])

def allocated (s : State) (r : Nat) (req : Request) (rest : List Frame) (put submitted : Bool) :
    Allocation → Except Fault (State × List Label)
  | .existing clusterOffset n =>
    if clusterOffset % 512 ≠ 0 then .error .abort
    else
      let req := located g req (req.sectorNum % g.clusterSectors) (requestEnd g encrypted req) clusterOffset n
        { req.l2meta with nbClusters := 0, dependsOn := none }
      .ok (submit (s.setRequest r req) r rest submitted)
  | .waitFor m => .ok (wait s r m req rest)
  | .fresh clusterOffset n =>
    let m :=
      { req.l2meta with
        offset := req.sectorNum * 512
        nStart := req.sectorNum % g.clusterSectors
        nbClusters := n }
    let s := { s with clusterAllocs := r :: s.clusterAllocs }
    if put then
      let req := located g req (req.sectorNum % g.clusterSectors) (requestEnd g encrypted req) clusterOffset n m
      .ok (submit (s.setRequest r req) r rest submitted)
    else .ok ({ s.setRequest r { req with l2meta := m } with stack := .done r :: rest }, [])

/-- The end of `qcow2_aio_write_cb`. -/
def resume (s : State) (r : Nat) (ok : Bool) (rest : List Frame) (answers : List Answer) (put submitted : Bool) :
    Except Fault (State × List Label) :=
  let req := advance (s.requests r)
  if ok = false ∨ req.remainingSectors = 0 then .ok ({ s with stack := .done r :: rest }, [])
  else
    match allocClusterOffset g s.l2meta s.clusterAllocs (req.sectorNum * 512) (requestEnd g encrypted req)
      ⟨s.image, answers⟩ with
    | .ok a w => allocated g encrypted { s with image := w.image } r req rest put submitted a
    | .error .failed w => .ok ({ s with image := w.image, stack := .done r :: rest }, [])
    | .error .abort _ => .error .abort

/-- The main loop, or a callback, has control. -/
def outside : List Frame → Bool
  | [] | .done _ :: _ => true
  | _ => false

def step (s : State) : Input → Except Fault (State × List Label)
  | .write sectorNum nbSectors =>
    if outside s.stack then
      .ok ({ s.setRequest s.next { live := true, sectorNum := sectorNum, remainingSectors := nbSectors } with
        stack := .entered s.next true :: s.stack
        next := s.next + 1 }, [])
    else .error .illegal
  | .complete r ok =>
    if s.stack = [] ∧ (s.requests r).hdAiocb = true then
      .ok ({ s.setRequest r { s.requests r with hdAiocb := false } with stack := [.entered r ok] }, [])
    else .error .illegal
  | .run answers put submitted =>
    match s.stack with
    | [] => .error .illegal
    | .entered r ok :: rest => enter g s r ok rest answers
    | .restarting r ok :: rest => .ok (restart s r ok rest)
    | .resumed r ok :: rest => resume g encrypted s r ok rest answers put submitted
    | .done r :: rest => .ok ({ s.setRequest r { s.requests r with live := false } with stack := rest }, [])

end Machine

end IDeviceEmulator.Qcow2.Writes
