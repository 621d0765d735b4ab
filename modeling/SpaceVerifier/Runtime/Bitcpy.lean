import SpaceVerifier.Foundation.Traced
import SpaceVerifier.Foundation.BitMem

/-!
# `bitcpy.c`: copying a range of bits

The two operands live in one address space, so the pointer test
`src_org == dst_org` of the source is an equality of base addresses here and
two separate buffers are two disjoint ranges of addresses. The trace of a copy
is the list of byte addresses it loads.

`size_t` sums that the source forms are taken modulo `2^64` (`add64`); the
words of the bulk loops are loaded and stored in little-endian order, which is
what `memcpy` into a `uint64_t` does on the hosts the runtime is built for.
-/

namespace SpaceVerifier.Runtime

open Foundation

/-- Addition of `size_t` and `uint64_t`. -/
def add64 (a b : Nat) : Nat := (a + b) % 2 ^ 64

theorem add64_of_lt {a b : Nat} (h : a + b < 2 ^ 64) : add64 a b = a + b :=
  Nat.mod_eq_of_lt h

/-! ## Byte and word accesses -/

def load (m : Mem) (i : Nat) : Traced Nat Byte := ⟨m i, [i]⟩

/-- `memmove(dst, src, n)`: all bytes are read before any is written. -/
def memmove (m : Mem) (dst src n : Nat) : Traced Nat Mem :=
  ⟨fun j => if dst ≤ j ∧ j < dst + n then m (src + (j - dst)) else m j,
    List.range' src n⟩

/-- `memcpy(&a, p, 8)`: byte `p` is the least significant one. -/
def load64 (m : Mem) (p : Nat) : Traced Nat (BitVec 64) :=
  ⟨m (p + 7) ++ m (p + 6) ++ m (p + 5) ++ m (p + 4) ++
    m (p + 3) ++ m (p + 2) ++ m (p + 1) ++ m p, List.range' p 8⟩

/-- `memcpy(p, &w, 8)`. -/
def store64 (m : Mem) (p : Nat) (w : BitVec 64) : Mem :=
  fun j => if p ≤ j ∧ j < p + 8 then w.extractLsb' (8 * (j - p)) 8 else m j

/-! ## Single bits -/

def bitGetPtr (m : Mem) (p bitpos : Nat) : Traced Nat Bool := do
  let byte ← load m (p + bitpos / 8)
  let shift := 7 - bitpos % 8
  return decide ((byte >>> shift) &&& 1 ≠ 0)

def bitSetPtr (m : Mem) (p bitpos : Nat) (v : Bool) : Traced Nat Mem := do
  let b := p + bitpos / 8
  let shift := 7 - bitpos % 8
  let mask := (1 : Byte) <<< shift
  let byte ← load m b
  return m.store b (if v then byte ||| mask else byte &&& ~~~mask)

/-- Bit by bit, in the direction that never overwrites an unread source bit. -/
def bitcpyOverlapFallback (m : Mem) (nBits src srcBit dst dstBit : Nat) :
    Traced Nat Mem :=
  let body (i : Nat) (m : Mem) : Traced Nat Mem := do
    let v ← bitGetPtr m src (add64 srcBit i)
    bitSetPtr m dst (add64 dstBit i) v
  if dstBit < srcBit then forUp body nBits m else forDown body nBits m

/-! ## Masks -/

/-- `keep_hi[k]`: the top `k` bits. -/
def keepHi (k : Nat) : Byte :=
  [0x00, 0x80, 0xC0, 0xE0, 0xF0, 0xF8, 0xFC, 0xFE, 0xFF].getD k 0

/-- `keep_lo[k]`: the bottom `8 - k` bits. -/
def keepLo (k : Nat) : Byte :=
  [0xFF, 0x7F, 0x3F, 0x1F, 0x0F, 0x07, 0x03, 0x01, 0x00].getD k 0

/-! ## The fast paths

The pointers `src` and `dst` and the count `n_bits` move together; a `Cursor`
holds the three next to the memory. -/

structure Cursor where
  nBits : Nat
  src : Nat
  dst : Nat
  mem : Mem

/-- `*dst = (*dst & ~mask) | (c & mask)` for the last `nBits` bits, with
`mask = keep_hi[n_bits]`; nothing is written when no bit is left. -/
def writeTail (c : Cursor) (value : Mem → Nat → Traced Nat Byte) :
    Traced Nat Mem := do
  if c.nBits ≠ 0 then
    let mask := keepHi c.nBits
    let old ← load c.mem c.dst
    let new ← value c.mem c.src
    return c.mem.store c.dst ((old &&& ~~~mask) ||| (new &&& mask))
  else return c.mem

/-- Whole bytes by `memmove`; used by the two byte-granular paths. -/
def moveBytes (c : Cursor) : Traced Nat Cursor := do
  let nbytes := c.nBits / 8
  if nbytes ≠ 0 then
    let mem ← memmove c.mem c.dst c.src nbytes
    return { nBits := c.nBits % 8, src := c.src + nbytes,
             dst := c.dst + nbytes, mem := mem }
  else return { c with nBits := c.nBits % 8 }

/-- Both offsets are multiples of eight. -/
def bitcpyAligned (c : Cursor) : Traced Nat Mem := do
  let c ← moveBytes c
  writeTail c load

/-- The first, partial destination byte: `value` supplies the bits below
`dst_mod`, the bits above are kept. -/
def writeHead (c : Cursor) (dstMod : Nat) (value : Mem → Nat → Traced Nat Byte)
    (step : Nat) : Traced Nat Cursor := do
  let head := if 8 - dstMod > c.nBits then c.nBits else 8 - dstMod
  let maskKeep := keepHi dstMod ||| keepLo (dstMod + head)
  let new ← value c.mem c.src
  let old ← load c.mem c.dst
  let mem := c.mem.store c.dst ((old &&& maskKeep) ||| (new &&& ~~~maskKeep))
  return { nBits := c.nBits - head, src := c.src + step, dst := c.dst + 1,
           mem := mem }

/-- One round of the 64-bit loop of the same-offset path. -/
def sameOffsetWord (srcMod : Nat) (c : Cursor) : Traced Nat Cursor := do
  let a ← load64 c.mem c.src
  let b ← load64 c.mem (c.src + 8)
  let w := if srcMod = 0 then a else (a <<< srcMod) ||| (b >>> (64 - srcMod))
  return { nBits := c.nBits - 64, src := c.src + 8, dst := c.dst + 8,
           mem := store64 c.mem c.dst w }

/-- Same offset inside the byte: align once, then copy whole bytes. -/
def bitcpySameOffset (c : Cursor) (srcMod dstMod : Nat) : Traced Nat Mem := do
  let c ← if dstMod ≠ 0 then
      writeHead c dstMod (fun m p => do
        let s ← load m p
        return s &&& keepLo dstMod) 1
    else pure c
  let c ← whileLoop (fun c => decide (64 ≤ c.nBits)) (sameOffsetWord srcMod)
    c.nBits c
  let c ← moveBytes c
  writeTail c load

/-- `(src[0] << left) | (src[1] >> right)` with `right = 8 - left`. -/
def mergeBytes (left : Nat) (m : Mem) (p : Nat) : Traced Nat Byte := do
  let hi ← load m p
  let lo ← load m (p + 1)
  return (hi <<< left) ||| (lo >>> (8 - left))

/-- One round of the 64-bit sliding window of the different-offset path. -/
def slidingWord (left : Nat) (c : Cursor) : Traced Nat Cursor := do
  let a ← load64 c.mem c.src
  let b ← load64 c.mem (c.src + 8)
  let w := (a <<< left) ||| (b >>> (8 - left))
  return { nBits := c.nBits - 64, src := c.src + 8, dst := c.dst + 8,
           mem := store64 c.mem c.dst w }

/-- One round of the byte loop of the different-offset path. -/
def slidingByte (left : Nat) (c : Cursor) : Traced Nat Cursor := do
  let new ← mergeBytes left c.mem c.src
  return { nBits := c.nBits - 8, src := c.src + 1, dst := c.dst + 1,
           mem := c.mem.store c.dst new }

/-- `left` of the source: how far a source byte is shifted up. -/
def leftShift (srcMod dstMod : Nat) : Nat :=
  if srcMod > dstMod then srcMod - dstMod else 8 - (dstMod - srcMod)

def bitcpyDiffOffset (c : Cursor) (srcMod dstMod : Nat) : Traced Nat Mem := do
  let left := leftShift srcMod dstMod
  -- the head merges `src[0]` and `src[1]`, whichever offset is larger
  let c ← if dstMod ≠ 0 then
      writeHead c dstMod (mergeBytes left) (if srcMod > dstMod then 1 else 0)
    else pure c
  let c ← whileLoop (fun c => decide (64 ≤ c.nBits)) (slidingWord left)
    c.nBits c
  let c ← whileLoop (fun c => decide (8 ≤ c.nBits)) (slidingByte left)
    c.nBits c
  writeTail c (mergeBytes left)

/-! ## The copy -/

def bitcpy (m : Mem) (nBits src srcBit dst dstBit : Nat) : Traced Nat Mem :=
  if nBits = 0 then pure m
  else if src = dst ∧ srcBit = dstBit then pure m
  else if nBits < 8 then bitcpyOverlapFallback m nBits src srcBit dst dstBit
  else if src = dst ∧ srcBit < add64 dstBit nBits ∧
      dstBit < add64 srcBit nBits then
    bitcpyOverlapFallback m nBits src srcBit dst dstBit
  else
    let c : Cursor :=
      { nBits := nBits, src := src + srcBit / 8, dst := dst + dstBit / 8,
        mem := m }
    let srcMod := srcBit % 8
    let dstMod := dstBit % 8
    if (srcBit ||| dstBit) % 8 = 0 then bitcpyAligned c
    else if srcMod = dstMod then bitcpySameOffset c srcMod dstMod
    else bitcpyDiffOffset c srcMod dstMod

end SpaceVerifier.Runtime
