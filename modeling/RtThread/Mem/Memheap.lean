import RtThread.Lib.Linked

/-!
The memory heaps of `memheap.c`, with 32-bit addresses and sizes, an `RT_ALIGN_SIZE` of 4 and item headers of six words.
The lock of the heap, which each call takes, is left out.
-/

namespace RtThread

open Function

def add32 (a b : ℕ) : ℕ := (a + b) % 2 ^ 32

def sub32 (a b : ℕ) : ℕ := (2 ^ 32 - b + a) % 2 ^ 32

def null : ℕ := 0

def memheapMagic : BitVec 32 := 0x1ea01ea0

def memheapMask : BitVec 32 := 0xfffffffe

def memheapUsed : BitVec 32 := 0x01

def memheapMiniAlloc : ℕ := 12

def memheapSize : ℕ := 24

structure Memheap where
  self : ℕ
  freeHeader : ℕ
  startAddr : ℕ
  poolSize : ℕ
  availableSize : ℕ
  maxUsedSize : ℕ
  freeList : ℕ
  magic : ℕ → BitVec 32
  poolPtr : ℕ → ℕ
  block : Linked ℕ
  free : Linked ℕ

namespace Memheap

def isUsed (h : Memheap) (a : ℕ) : Bool := h.magic a &&& memheapUsed ≠ 0

def memItemSize (h : Memheap) (a : ℕ) : ℕ := sub32 (sub32 (h.block.next a) a) memheapSize

def setItem (h : Memheap) (a : ℕ) (magic : BitVec 32) : Memheap :=
  { h with magic := update h.magic a magic, poolPtr := update h.poolPtr a h.self }

def markUsed (h : Memheap) (a : ℕ) : Memheap :=
  { h with magic := update h.magic a (h.magic a ||| memheapUsed) }

def markFreed (h : Memheap) (a : ℕ) : Memheap :=
  { h with magic := update h.magic a (h.magic a &&& ~~~memheapUsed) }

def insertFree (h : Memheap) (a : ℕ) : Memheap := { h with free := h.free.insertAfter h.freeList a }

def removeFree (h : Memheap) (a : ℕ) : Memheap :=
  { h with free := h.free.join (h.free.prev a) (h.free.next a) }

def clearFree (h : Memheap) (a : ℕ) : Memheap := { h with free := h.free.set a null null }

def splitBlock (h : Memheap) (header new : ℕ) : Memheap :=
  { h.setItem new memheapMagic with block := h.block.insertAfter header new }

def joinBlocks (h : Memheap) (a c : ℕ) : Memheap := { h with block := h.block.join a c }

def mergeBehind (h : Memheap) (a : ℕ) : Memheap :=
  (h.joinBlocks a (h.block.next (h.block.next a))).removeFree (h.block.next a)

def setAvailable (h : Memheap) (available : ℕ) : Memheap := { h with availableSize := available }

def takeAvailable (h : Memheap) (available : ℕ) : Memheap :=
  { h with
    availableSize := available
    maxUsedSize := if h.maxUsedSize < sub32 h.poolSize available then sub32 h.poolSize available else h.maxUsedSize }

end Memheap

open Memheap

def memheapInit (h : Memheap) (startAddr size : ℕ) : Memheap :=
  let poolSize := size / 4 * 4
  let availableSize := sub32 poolSize (2 * memheapSize)
  let tail := add32 (add32 startAddr availableSize) memheapSize
  let h := { h with
    startAddr
    poolSize
    availableSize
    maxUsedSize := sub32 poolSize availableSize
    freeList := h.freeHeader }
  let h := { h.setItem h.freeHeader memheapMagic with
    block := h.block.set h.freeHeader null null
    free := h.free.set h.freeHeader h.freeHeader h.freeHeader }
  let h := { h.setItem startAddr memheapMagic with
    block := h.block.set startAddr tail tail
    free := h.free.set startAddr startAddr startAddr }
  let h := h.insertFree startAddr
  { h.setItem tail (memheapMagic ||| memheapUsed) with
    block := h.block.set tail startAddr startAddr
    free := h.free.set tail null null }

def requestSize (size : ℕ) : ℕ :=
  let size := add32 size 3 / 4 * 4
  if size < memheapMiniAlloc then memheapMiniAlloc else size

def searchFree (h : Memheap) (size : ℕ) : ℕ → ℕ → ℕ → Option (ℕ × ℕ)
  | 0, _, _ => none
  | fuel + 1, header, freeSize =>
    if header ≠ h.freeList ∧ freeSize < size then
      let freeSize := h.memItemSize header
      if freeSize < size then searchFree h size fuel (h.free.next header) freeSize
      else searchFree h size fuel header freeSize
    else some (header, freeSize)

def allocBlock (h : Memheap) (header freeSize size : ℕ) : Memheap :=
  if add32 (add32 size memheapSize) memheapMiniAlloc ≤ freeSize then
    let new := add32 (add32 header size) memheapSize
    let h := h.splitBlock header new
    let h := (h.removeFree header).clearFree header
    let h := h.insertFree new
    (h.takeAvailable (sub32 (sub32 h.availableSize size) memheapSize)).markUsed header
  else
    let h := h.takeAvailable (sub32 h.availableSize freeSize)
    let h := (h.removeFree header).clearFree header
    h.markUsed header

/-- The heap and the returned pointer; `none` if the search does not end. A block takes more than one byte, so
that the size of the pool bounds the length of the free list. -/
def memheapAlloc (h : Memheap) (size : ℕ) : Option (Memheap × ℕ) :=
  let size := requestSize size
  if size < h.availableSize then
    (searchFree h size h.poolSize (h.free.next h.freeList) 0).map (fun (header, freeSize) =>
      if size ≤ freeSize then (allocBlock h header freeSize size, add32 header memheapSize) else (h, null))
  else some (h, null)

def mergeNext (h : Memheap) (header : ℕ) : Memheap :=
  if h.isUsed (h.block.next header) then h
  else (h.setAvailable (add32 h.availableSize memheapSize)).mergeBehind header

def coalesce (h : Memheap) (header : ℕ) : Memheap :=
  if h.isUsed (h.block.prev header) then (mergeNext h header).insertFree header
  else
    -- `left` is in the free list already
    let left := h.block.prev header
    let h := h.setAvailable (add32 h.availableSize memheapSize)
    mergeNext (h.joinBlocks left (h.block.next header)) left

def freeBlock (h : Memheap) (header : ℕ) : Memheap :=
  let h := h.markFreed header
  coalesce (h.setAvailable (add32 h.availableSize (h.memItemSize header))) header

def memheapFree (h : Memheap) (ptr : ℕ) : Option Memheap :=
  if ptr = null then some h
  else
    let header := sub32 ptr memheapSize
    if h.magic header &&& memheapMask = memheapMagic ∧ h.isUsed header ∧
        h.magic (h.block.next header) &&& memheapMask = memheapMagic ∧ h.poolPtr header = h.self then
      some (freeBlock h header)
    else none

def growBlock (h : Memheap) (ptr header next oldsize newsize : ℕ) : Memheap :=
  let h := h.takeAvailable (sub32 h.availableSize (sub32 newsize oldsize))
  let h := h.removeFree next
  let h := h.joinBlocks (h.block.prev next) (h.block.next next)
  let new := add32 ptr newsize
  (h.splitBlock header new).insertFree new

def shrinkBlock (h : Memheap) (header newsize : ℕ) : Memheap :=
  let new := add32 (add32 header newsize) memheapSize
  let h := h.splitBlock header new
  let next := h.block.next new
  let h :=
    if h.isUsed next then h
    else (h.setAvailable (sub32 h.availableSize (h.memItemSize next))).mergeBehind new
  let h := h.insertFree new
  h.setAvailable (add32 h.availableSize (h.memItemSize new))

def moveBlock (h : Memheap) (ptr newsize : ℕ) : Option (Memheap × ℕ) :=
  (memheapAlloc h newsize).bind (fun (h, new) =>
    if new = null then some (h, null) else (memheapFree h ptr).map (fun h => (h, new)))

def memheapRealloc (h : Memheap) (ptr newsize : ℕ) : Option (Memheap × ℕ) :=
  if newsize = 0 then (memheapFree h ptr).map (fun h => (h, null))
  else
    let newsize := requestSize newsize
    if ptr = null then memheapAlloc h newsize
    else
      let header := sub32 ptr memheapSize
      let oldsize := h.memItemSize header
      if oldsize < newsize then
        let next := h.block.next header
        if header < next then
          -- the signed `nextsize` becomes unsigned in the sum, and both sums are taken modulo `2 ^ 32`
          if h.isUsed next = false ∧ add32 newsize memheapMiniAlloc < add32 (h.memItemSize next) oldsize then
            some (growBlock h ptr header next oldsize newsize, ptr)
          else moveBlock h ptr newsize
        else none
      else if oldsize ≤ add32 (add32 newsize memheapSize) memheapMiniAlloc then some (h, ptr)
      else some (shrinkBlock h header newsize, ptr)

end RtThread
