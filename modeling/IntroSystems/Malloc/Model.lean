import IntroSystems.Lib.ByteMem

/-!
# The implicit-list allocator

`implicit.c` of assignment 5, on a 64-bit build: an `int` is a `BitVec 32` with wrapping
arithmetic, a `size_t` (so `HEADER_SIZE`) is a `BitVec 64`, a pointer is an integer, and memory is
passed through every function that writes it. The fields of `struct heap` are read, never written,
after `heapCreate`.

* The accessors `blockIsInUse` … `isWithinHeapRange`, and `setBlockHeader`.
* `coalesce`, `getSizeToAllocate`, `splitAndMarkUsed`.
* `heapCreate`, `myfree`, `mymalloc`. The loop of `mymalloc` is given fuel; `none` is a scan that
  ran out of it.
-/

set_option autoImplicit false

namespace IntroSystems.Malloc

open ByteMem

/-- `struct heap`. -/
structure Heap where
  size : BitVec 32
  start : ℤ

/-- `sizeof(int)`, the size of a header and of a footer. -/
def HEADER_SIZE : BitVec 64 := 4

/-- `sizeof(struct heap)`: an `int`, padding, and a pointer. -/
def sizeofHeap : BitVec 64 := 16

/-- Pointer arithmetic with a `size_t` offset. -/
abbrev ofSize (n : BitVec 64) : ℤ := n.toNat

def blockIsInUse (m : Mem) (block_start : ℤ) : BitVec 32 := 1 &&& load32 m block_start

/-- The header with its last two bits cleared. -/
def getBlockSize (m : Mem) (block_start : ℤ) : BitVec 32 :=
  (-HEADER_SIZE &&& (load32 m block_start).signExtend 64).setWidth 32

def getPayloadSize (m : Mem) (block_start : ℤ) : BitVec 32 :=
  ((getBlockSize m block_start).signExtend 64 - HEADER_SIZE * 2).setWidth 32

def getBlockStart (payload : ℤ) : ℤ := payload - ofSize HEADER_SIZE

def getPayload (block_start : ℤ) : ℤ := block_start + ofSize HEADER_SIZE

/-- Write the header and its copy at the other end of the block. -/
def setBlockHeader (m : Mem) (block_start : ℤ) (block_size in_use : BitVec 32) : Mem :=
  let header_value := block_size ||| in_use
  let header_position := block_start
  let trailer_position := block_start + block_size.toInt - ofSize HEADER_SIZE
  store32 (store32 m header_position header_value) trailer_position header_value

def getNextBlock (m : Mem) (block_start : ℤ) : ℤ := block_start + (getBlockSize m block_start).toInt

/-- The block before, by the trailer just below `block_start`. -/
def getPreviousBlock (m : Mem) (block_start : ℤ) : ℤ :=
  block_start - (getBlockSize m (block_start - ofSize HEADER_SIZE)).toInt

def isFirstBlock (h : Heap) (block_start : ℤ) : Bool := block_start == h.start

def isLastBlock (h : Heap) (m : Mem) (block_start : ℤ) : Bool :=
  getNextBlock m block_start == h.start + h.size.toInt

def isWithinHeapRange (h : Heap) (addr : ℤ) : Bool :=
  decide (addr ≥ h.start) && decide (addr < h.start + h.size.toInt)

/-- Join a free block with the next one if that is free too. -/
def coalesce (h : Heap) (m : Mem) (first_block_start : ℤ) : Mem × ℤ :=
  if !isLastBlock h m first_block_start && blockIsInUse m first_block_start == 0 &&
      blockIsInUse m (getNextBlock m first_block_start) == 0 then
    (setBlockHeader m first_block_start (getBlockSize m first_block_start +
      getBlockSize m (getNextBlock m first_block_start)) 0, first_block_start)
  else (m, first_block_start)

/-- The size of a block for a request of `user_size` bytes: rounded up in `size_t`, cut back to
`int`, and again for the header and the footer. -/
def getSizeToAllocate (user_size : BitVec 32) : BitVec 32 :=
  let payload_size : BitVec 32 :=
    (((user_size.signExtend 64 + (HEADER_SIZE - 1)) >>> 2) <<< 2).setWidth 32
  (payload_size.signExtend 64 + 2 * HEADER_SIZE).setWidth 32

def splitAndMarkUsed (_h : Heap) (m : Mem) (block_start : ℤ) (needed_size : BitVec 32) : Mem × ℤ :=
  -- the difference of two `int`s is compared as a `size_t`
  if (getBlockSize m block_start - needed_size).signExtend 64 ≥ 3 * HEADER_SIZE then
    let m₁ := setBlockHeader m (block_start + needed_size.toInt)
      (getBlockSize m block_start - needed_size) 0
    (setBlockHeader m₁ block_start needed_size 1, block_start + ofSize HEADER_SIZE)
  else
    (setBlockHeader m block_start (getBlockSize m block_start) 1,
      block_start + ofSize HEADER_SIZE)

/-- `sbrk` returns the start of the new region, or fails. -/
def heapCreate (sbrk : Option ℤ) (m : Mem) (size : BitVec 32) : Option (Heap × Mem) :=
  sbrk.map fun heap_start =>
    let h : Heap := ⟨(size.setWidth 64 - sizeofHeap).setWidth 32, heap_start + ofSize sizeofHeap⟩
    (h, setBlockHeader m h.start h.size 0)

def myfree (h : Heap) (m : Mem) (payload : ℤ) : Mem :=
  let block_start := getBlockStart payload
  let m := setBlockHeader m block_start (getBlockSize m block_start) 0
  let (m, block_start) :=
    if !isLastBlock h m block_start && isWithinHeapRange h (getNextBlock m block_start) &&
        blockIsInUse m (getNextBlock m block_start) == 0 then
      coalesce h m block_start
    else (m, block_start)
  if !isFirstBlock h block_start && isWithinHeapRange h (getPreviousBlock m block_start) &&
      blockIsInUse m (getPreviousBlock m block_start) == 0 then
    (coalesce h m (getPreviousBlock m block_start)).1
  else m

/-- The first-fit scan from `blk`. A payload of `none` is `NULL`. -/
def mymallocScan (h : Heap) (m : Mem) (user_size : BitVec 32) : ℕ → ℤ → Option (Mem × Option ℤ)
  | 0, _ => none
  | fuel + 1, blk =>
    if isWithinHeapRange h blk then
      if blockIsInUse m blk == 0 &&
          decide ((getBlockSize m blk).toInt ≥ (getSizeToAllocate user_size).toInt) then
        let (m', mallocBlock) := splitAndMarkUsed h m blk (getSizeToAllocate user_size)
        some (m', some mallocBlock)
      else mymallocScan h m user_size fuel (getNextBlock m blk)
    else some (m, none)

def mymalloc (fuel : ℕ) (h : Heap) (m : Mem) (user_size : BitVec 32) : Option (Mem × Option ℤ) :=
  mymallocScan h m user_size fuel h.start

end IntroSystems.Malloc
