/-
# The ATA driver

`src/drivers/ata/ata.c`: programmed I/O with one drive, and the queue of requests that
`ata_submit` fills and the interrupt handler empties.

| source | here |
| --- | --- |
| `inb`, `inw`, `outb`, `outw` on the ports of the drive | an entry of `AtaIo.ops` |
| what the drive answers | `AtaDrive`, from all that went over the ports so far |
| the memory the buffers lie in | `AtaIo.memory` |
| an `ata_request_t*` | a number; its fields are `Ata.requests`, its link `Ata.next` |
| a wait loop that goes on | `none`, when the rounds it may go are used up |

`Ata.trace` is a record beside the state: the calls of `ata_submit` and `ata_irq_handler`, and in
them those of `ata_start_request` and of the completion callback, and the returns of
`ata_finish_request`.  A callback is code of the owner of a request; it does not submit, so what it
does is a list of writes to request objects.  `ata_lock`, the log and the unused `ata_queue.lock`
are left out.
-/

import Flopperating.Data.ByteMemory
import Flopperating.Data.FifoServer
import Flopperating.Machine

namespace Flopperating

open ByteMemory

/-! ### The ports of the drive -/

/-- `ata_port_t`; a read of `ATA_PORT_COMMAND` is one of `ATA_PORT_STATUS`. -/
inductive AtaPort
  | data
  | error
  | sectorCount
  | lbaLow
  | lbaMid
  | lbaHigh
  | driveHead
  | status
  | command
  deriving DecidableEq

/-- An access to a port, with the value that was read or written. -/
inductive PortOp
  | inb (port : AtaPort) (v : BitVec 8)
  | inw (v : BitVec 16)
  | outb (port : AtaPort) (v : BitVec 8)
  | outw (v : BitVec 16)
  deriving DecidableEq

/-- A drive: the status, the error and the data it gives after the accesses so far. -/
structure AtaDrive where
  status : List PortOp → BitVec 8
  error : List PortOp → BitVec 8
  data : List PortOp → BitVec 16

/-- The accesses to the ports, oldest first, and the memory. -/
structure AtaIo where
  ops : List PortOp
  memory : Memory

abbrev ataErr : BitVec 8 := 0x01
abbrev ataBsy : BitVec 8 := 0x80
abbrev ataDrq : BitVec 8 := 0x08
abbrev ataRdy : BitVec 8 := 0x40
abbrev ataCmdRead : BitVec 8 := 0x20
abbrev ataCmdWrite : BitVec 8 := 0x30
abbrev ataCmdIdent : BitVec 8 := 0xEC
abbrev maxSectors : ℕ := 256
abbrev ataSectorSize : ℕ := 512

section Ports

variable (drive : AtaDrive)

/-- `inb(ATA_PORT_STATUS)`. -/
def inbStatus (s : AtaIo) : BitVec 8 × AtaIo :=
  (drive.status s.ops, { s with ops := s.ops ++ [.inb .status (drive.status s.ops)] })

/-- `inb(ATA_PORT_ERROR)`. -/
def inbError (s : AtaIo) : BitVec 8 × AtaIo :=
  (drive.error s.ops, { s with ops := s.ops ++ [.inb .error (drive.error s.ops)] })

/-- `inw(ATA_PORT_DATA)`. -/
def inwData (s : AtaIo) : BitVec 16 × AtaIo :=
  (drive.data s.ops, { s with ops := s.ops ++ [.inw (drive.data s.ops)] })

/-- `outw(ATA_PORT_DATA, v)`. -/
def outwData (v : BitVec 16) (s : AtaIo) : AtaIo := { s with ops := s.ops ++ [.outw v] }

/-- `outb(port, v)`. -/
def outb (port : AtaPort) (v : BitVec 8) (s : AtaIo) : AtaIo :=
  { s with ops := s.ops ++ [.outb port v] }

/-- `ata_bs_wait`: until `BSY` is clear and, in the next read, `RDY` is set. -/
def ataBsWait : ℕ → AtaIo → Option AtaIo
  | 0, _ => none
  | n + 1, s =>
    let (v, s) := inbStatus drive s
    if v &&& ataBsy ≠ 0 then ataBsWait n s
    else
      let (v, s) := inbStatus drive s
      if v &&& ataRdy = 0 then ataBsWait n s else some s

/-- `ata_drq_wait`. -/
def ataDrqWait : ℕ → AtaIo → Option AtaIo
  | 0, _ => none
  | n + 1, s =>
    let (v, s) := inbStatus drive s
    if v &&& ataDrq = 0 then ataDrqWait n s else some s

/-- `CATCH_DRIVE_ERR`: the error is logged. -/
def catchDriveErr (s : AtaIo) : AtaIo :=
  let (v, s) := inbStatus drive s
  if v &&& ataErr ≠ 0 then (inbError drive s).2 else s

/-- `ATA_PREPARE_OP`, as it numbers the sectors. -/
def ataPrepareOp (driveNum : BitVec 8) (lba : BitVec 32) (sectors : BitVec 8) (cmd : BitVec 8)
    (s : AtaIo) : AtaIo :=
  let s := outb .driveHead (0xE0 ||| driveNum >>> 4 ||| ((lba >>> 24).setWidth 8 &&& 0x0F)) s
  let s := outb .sectorCount sectors s
  let s := outb .lbaLow ((lba >>> 8).setWidth 8) s
  let s := outb .lbaMid ((lba >>> 16).setWidth 8) s
  let s := outb .lbaHigh ((lba >>> 16).setWidth 8) s
  outb .command cmd s

/-- `ATA_IDENTIFY_DRIVE`. -/
def ataIdentifyDrive (driveNum : BitVec 8) (s : AtaIo) : AtaIo :=
  let s := outb .driveHead driveNum s
  let s := outb .sectorCount 0 s
  let s := outb .lbaLow 0 s
  let s := outb .lbaMid 0 s
  let s := outb .lbaHigh 0 s
  outb .command ataCmdIdent s

/-! ### Transfers -/

/-- `ata_op_validate`; `(uint8_t) MAX_SECTORS` is what the count is compared with. -/
def ataOpValidate (sectors : BitVec 8) (buffer : ℕ) : ℤ :=
  if buffer = 0 ∨ sectors = 0 then -1
  else if BitVec.ofNat 8 maxSectors < sectors then -1
  else 0

/-- `SECTOR_WORD_ITERATE` and `ID_WORD_ITERATE`: `n` rounds from `j` on. -/
def wordIterate (word : ℕ → AtaIo → AtaIo) : ℕ → ℕ → AtaIo → AtaIo
  | 0, _, s => s
  | n + 1, j, s => wordIterate word n (j + 1) (word j s)

/-- `((uint16_t*) buffer)[j] = inw(ATA_PORT_DATA)`. -/
def readWordAt (buffer j : ℕ) (s : AtaIo) : AtaIo :=
  let (v, s) := inwData drive s
  { s with memory := writeHalf s.memory (buffer + 2 * j) v }

/-- `outw(ATA_PORT_DATA, ((uint16_t*) buffer)[j])`. -/
def writeWordAt (buffer j : ℕ) (s : AtaIo) : AtaIo :=
  outwData (readHalf s.memory (buffer + 2 * j)) s

/-- The `SECTOR_ITERATE` loop of `ata_read` and `ata_write`, which differ in what they do with a
word.  The counter has eight bits, as `sectors` has, and does not wrap below it. -/
def sectorIterate (fuel : ℕ) (word : ℕ → ℕ → AtaIo → AtaIo) : ℕ → ℕ → AtaIo → Option AtaIo
  | 0, _, s => some s
  | n + 1, buffer, s =>
    (ataBsWait drive fuel s).bind fun s =>
      (ataDrqWait drive fuel (catchDriveErr drive s)).bind fun s =>
        sectorIterate fuel word n (buffer + ataSectorSize)
          (wordIterate (word buffer) (ataSectorSize / 2) 0 s)

/-- `ata_read`. -/
def ataRead (fuel : ℕ) (driveNum : BitVec 8) (lba : BitVec 32) (sectors : BitVec 8) (buffer : ℕ)
    (queued : Bool) (s : AtaIo) : Option AtaIo :=
  if ataOpValidate sectors buffer ≠ 0 then some s
  else
    let s := if queued then s else ataPrepareOp driveNum lba sectors ataCmdRead s
    sectorIterate drive fuel (readWordAt drive) sectors.toNat buffer s

/-- `ata_write`. -/
def ataWrite (fuel : ℕ) (driveNum : BitVec 8) (lba : BitVec 32) (sectors : BitVec 8) (buffer : ℕ)
    (queued : Bool) (s : AtaIo) : Option AtaIo :=
  if ataOpValidate sectors buffer ≠ 0 then some s
  else
    let s := if queued then s else ataPrepareOp driveNum lba sectors ataCmdWrite s
    sectorIterate drive fuel writeWordAt sectors.toNat buffer s

end Ports

/-! ### Requests -/

/-- `ata_req_type_t`, with a case for all other values of the field. -/
inductive AtaReqType
  | read
  | write
  | identify
  | unknown
  deriving DecidableEq

/-- `ata_request_t`, but for `next`. -/
structure AtaRequest where
  type : AtaReqType
  drive : BitVec 8
  lba : BitVec 32
  sectorCount : BitVec 16
  buffer : ℕ
  completion : Option ℕ

/-- `ata_finish_request`: what it returns, and what went over the ports. -/
def ataFinishRequest (drive : AtaDrive) (fuel : ℕ) (req : AtaRequest) (s : AtaIo) :
    Option (ℤ × AtaIo) :=
  match req.type with
  | .identify => some (0, wordIterate (fun _ s => (inwData drive s).2) 256 0 s)
  | .read =>
    (ataRead drive fuel req.drive req.lba (req.sectorCount.setWidth 8) req.buffer true s).map (0, ·)
  | .write =>
    (ataWrite drive fuel req.drive req.lba (req.sectorCount.setWidth 8) req.buffer true s).map (0, ·)
  | .unknown => some (-1, s)

/-- The switch of `ata_start_request`. -/
def startCommand (req : AtaRequest) (s : AtaIo) : AtaIo :=
  match req.type with
  | .read => ataPrepareOp req.drive req.lba (req.sectorCount.setWidth 8) ataCmdRead s
  | .write => ataPrepareOp req.drive req.lba (req.sectorCount.setWidth 8) ataCmdWrite s
  | .identify => ataIdentifyDrive req.drive s
  | .unknown => s

/-! ### The queue -/

/-- `ata_queue_t`. -/
structure AtaQueue where
  head : Option ℕ
  tail : Option ℕ
  length : ℕ
  deriving DecidableEq

/-- A call or a return: `arrive` is `ata_submit`, `tick` is `ata_irq_handler`. -/
abbrev AtaEvent : Type := FifoServer.Event ℕ ℤ ℕ

structure Ata where
  queue : AtaQueue
  requests : ℕ → AtaRequest
  next : ℕ → Option ℕ
  io : AtaIo
  trace : List AtaEvent

/-- What an owner of request objects writes. -/
inductive AtaStore
  | fields (req : ℕ) (r : AtaRequest)
  | link (req : ℕ) (p : Option ℕ)

namespace Ata

def record (e : AtaEvent) (σ : Ata) : Ata := { σ with trace := σ.trace ++ [e] }

def store (σ : Ata) : AtaStore → Ata
  | .fields req r => { σ with requests := Function.update σ.requests req r }
  | .link req p => { σ with next := Function.update σ.next req p }

end Ata

/-- `ata_queue_init`. -/
def ataQueueInit (σ : Ata) : Ata := { σ with queue := ⟨none, none, 0⟩ }

/-- `ata_queue_enqueue_unlocked`. -/
def ataQueueEnqueueUnlocked (req : ℕ) (σ : Ata) : Ata :=
  let next := Function.update σ.next req none
  match σ.queue.tail with
  | none => { σ with next := next, queue := ⟨some req, some req, u32 (σ.queue.length + 1)⟩ }
  | some tail =>
    { σ with
      next := Function.update next tail (some req)
      queue := ⟨σ.queue.head, some req, u32 (σ.queue.length + 1)⟩ }

/-- `ata_queue_dequeue_unlocked`. -/
def ataQueueDequeueUnlocked (σ : Ata) : Ata :=
  match σ.queue.head with
  | none => σ
  | some r =>
    let head := σ.next r
    { σ with
      next := Function.update σ.next r none
      queue := ⟨head, if head = none then none else σ.queue.tail, u32 (σ.queue.length + 2 ^ 32 - 1)⟩ }

/-- `ata_start_request`, of a request that is not `NULL`. -/
def ataStartRequest (req : ℕ) (σ : Ata) : Ata :=
  { σ with io := startCommand (σ.requests req) σ.io }.record (.start req)

/-- `ata_submit`. -/
def ataSubmit (req : ℕ) (σ : Ata) : Ata :=
  let wasEmpty := σ.queue.head = none
  let σ := ataQueueEnqueueUnlocked req (σ.record (.arrive req))
  if wasEmpty then ataStartRequest req σ else σ

/-- `req->completion(req, st)`, of a request that has one. -/
def ataComplete (req : ℕ) (st : ℤ) (callback : List AtaStore) (σ : Ata) : Ata :=
  match (σ.requests req).completion with
  | none => σ
  | some c => callback.foldl Ata.store (σ.record (.reply req st c))

/-- `ata_start_request(next)`, if there is a next one. -/
def ataStartNext (σ : Ata) : Ata :=
  match σ.queue.head with
  | none => σ
  | some next => ataStartRequest next σ

/-- `ata_irq_handler`; `callback` is what the completion callback writes. -/
def ataIrqHandler (drive : AtaDrive) (fuel : ℕ) (callback : List AtaStore) (σ : Ata) : Option Ata :=
  let σ := { σ with io := (inbStatus drive σ.io).2 }.record .tick
  match σ.queue.head with
  | none => some σ
  | some req =>
    (ataFinishRequest drive fuel (σ.requests req) σ.io).map fun (st, io) =>
      let σ := { σ with io := io }.record (.finish req st)
      ataStartNext (ataComplete req st callback (ataQueueDequeueUnlocked σ))

end Flopperating
