import NexusKernel.HeapBytes
import NexusKernel.Vfs

/-!
The files of fs/ramfs.c with their bytes in the kernel heap. Beside the machine, whose heap has
only headers, there is the memory as bytes. What a heap call stores there does not matter for
files: such bytes are given as noise.

The buffer of `ramfs_write` is the list of its bytes, and `ramfs_read` returns the bytes it
copies.
-/

namespace NexusKernel.RamfsFiles

open Lib.ByteMemory Hardware KernelHeap HeapInvariant HeapMapped HeapBytes Vfs

structure FileStore where
  heap : HeapUse
  mem : Memory
  node : ℕ → VfsNode

def FileStore.withHeap (s : FileStore) (noise : Memory) (after : HeapUse) : FileStore :=
  { s with
    heap := after
    mem := scribble (HeapStored s.heap.machine.heap after.machine.heap) noise s.mem }

def ramfsRead (s : FileStore) (n : ℕ) (offset size : UInt64) : UInt64 × List UInt8 :=
  if (s.node n).flags &&& fsFile ≠ fsFile then (0, [])
  else
    match (s.node n).impl with
    | none => (0, [])
    | some priv =>
        if priv.data = 0 then (0, [])
        else if offset ≥ (s.node n).length then (0, [])
        else
          let readable := (s.node n).length - offset
          let size := if size > readable then readable else size
          (size, load s.mem (priv.data + offset) size.toNat)

def newCapacity (required : UInt64) : UInt64 := (required + 4096) &&& ~~~4095

def linkMapped (m : Machine) (b : HeapBlock) : Bool :=
  mapped m (b.addr + 8) 4 && mapped m (b.addr + 16) 8

/-- The headers that `kfree` meets while it joins free neighbours. -/
def joinMapped (m : Machine) : List HeapBlock → Bool
  | [] => true
  | [b] => linkMapped m b
  | b :: c :: rest =>
      linkMapped m b &&
        if b.free && c.free then
          mapped m b.addr 8 && headerMapped m c.addr &&
            joinMapped m ({ b with size := b.size + (headerSize + c.size) } :: rest)
        else joinMapped m (c :: rest)
  termination_by blocks => blocks.length

def kfreeReturns (m : Machine) (ptr : UInt64) : Bool :=
  mapped m (ptr - 16) 4 && joinMapped m (m.heap.blocks.map fun b =>
    if b.addr = ptr - headerSize then { b with free := true } else b)

def moveData (s : FileStore) (noise : Memory) (length : UInt64) (priv : RamfsInternal)
    (newData : UInt64) : FileStore :=
  if priv.data = 0 then s
  else
    { s with mem := put s.mem newData (load s.mem priv.data length.toNat) }.withHeap noise
      ⟨kfree s.heap.machine priv.data, s.heap.live.erase ⟨priv.data, priv.capacity⟩⟩

/-- The part of `ramfs_write` that replaces a block too small. There is no result if a heap call
or `memset`, which clears the new block, meets an unmapped page. The null pointer of a failed
allocation gives no `priv`. -/
def reserve (s : FileStore) (noise noise' : Memory) (length : UInt64) (priv : RamfsInternal)
    (required : UInt64) : Option (FileStore × Option RamfsInternal) :=
  if required > priv.capacity then
    let newCap := newCapacity required
    let newData := (kmalloc s.heap.machine newCap).2
    let returns := kmallocReturns s.heap.machine newCap
    let s := s.withHeap noise (s.heap.afterKmalloc newCap)
    if returns = false then none
    else if newData = 0 then some (s, none)
    else if (∀ o < newCap.toNat, Translated s.heap.machine (newData + UInt64.ofNat o)) ∧
        (priv.data ≠ 0 → kfreeReturns s.heap.machine priv.data = true) then
      let s := { s with mem := fill s.mem newData newCap.toNat 0 }
      some (moveData s noise' length priv newData,
        some { priv with data := newData, capacity := newCap })
    else none
  else some (s, some priv)

def ramfsWrite (s : FileStore) (noise noise' : Memory) (n : ℕ) (offset : UInt64)
    (buffer : List UInt8) : Option (FileStore × UInt64) :=
  if (s.node n).flags &&& fsFile ≠ fsFile then some (s, 0)
  else
    match (s.node n).impl with
    | none => some (s, 0)
    | some priv =>
        let size := UInt64.ofNat buffer.length
        let required := offset + size
        match reserve s noise noise' (s.node n).length priv required with
        | none => none
        | some (s', none) => some (s', 0)
        | some (s', some priv') =>
            some ({ s' with
                mem := put s'.mem (priv'.data + offset) buffer
                node := Function.update s'.node n { s.node n with
                    impl := some priv'
                    length :=
                      if required > (s.node n).length then required else (s.node n).length } },
              size)

end NexusKernel.RamfsFiles
