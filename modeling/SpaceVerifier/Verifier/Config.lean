import SpaceVerifier.Foundation.PyVal

/-!
# `config.py`: protected and allowed regions

A configuration holds whatever JSON the file gives: the fields are `PyVal`s and
a wrong type surfaces where the program first computes with it. The parameter
`ceilLog2` is `math.ceil ∘ math.log2` on positive finite numbers, the only
place where the program rounds.
-/

namespace SpaceVerifier.Verifier

open Foundation

def deriveAddrBits (ceilLog2 : ℚ → Int) (spaceBits : PyVal) :
    Except PyExc Int := do
  if ← spaceBits.le (.int 0) then return 8
  let raw ← spaceBits.mathCeilLog2 ceilLog2
  let addrBits := (raw + 7) / 8 * 8
  return if addrBits < 8 then 8 else addrBits

/-- A half-open range `[begin, end)` of bit addresses. -/
structure Region where
  name : PyVal
  begin : PyVal
  endBit : PyVal

def Region.contains (r : Region) (addr n : Int) : Except PyExc Bool := do
  if r.begin.isNone || r.endBit.isNone then return false
  if ← (PyVal.int addr).lt r.begin then return false
  if ← r.endBit.lt (.int (addr + n)) then return false
  return true

def Region.intersects (r : Region) (addr n : Int) : Except PyExc Bool := do
  if r.begin.isNone || r.endBit.isNone then return false
  if ← (PyVal.int (addr + n)).le r.begin then return false
  if ← r.endBit.le (.int addr) then return false
  return true

structure Config where
  spaceBytes : PyVal
  processorN : PyVal
  addrBits : PyVal
  protectedRegions : List Region
  allowedRegions : List Region

namespace Config

/-- The values set before a file is loaded. -/
def default : Config :=
  { spaceBytes := .int 524288, processorN := .int 64, addrBits := .none,
    protectedRegions := [], allowedRegions := [] }

/-- `Region(r["name"], r.get("begin"), r.get("end"))`. -/
def loadRegion (r : PyVal) : Except PyExc Region := do
  let name ← r.item "name"
  let begin ← r.getD "begin" .none
  let endBit ← r.getD "end" .none
  return { name, begin, endBit }

def loadRegions (d : PyVal) (key : String) : Except PyExc (List Region) := do
  let rs ← (← d.getD key (.list [])).iter
  rs.mapM loadRegion

/-- `_load`, from the parsed JSON on. -/
def load (c : Config) (d : PyVal) : Except PyExc Config := do
  let spaceBytes ← d.getD "space_bytes" c.spaceBytes
  let processorN ← d.getD "processor_n" c.processorN
  let addrBits ← d.getD "addr_bits" .none
  let protectedRegions ← loadRegions d "protected_regions"
  let allowedRegions ← loadRegions d "allowed_regions"
  return { spaceBytes, processorN, addrBits,
           protectedRegions := c.protectedRegions ++ protectedRegions,
           allowedRegions := c.allowedRegions ++ allowedRegions }

def spaceBits (c : Config) : Except PyExc PyVal := c.spaceBytes.mulPow2 3

/-- `_resolve`: only `addr_bits` is derived, and only when it is `None`. -/
def resolve (ceilLog2 : ℚ → Int) (c : Config) : Except PyExc Config := do
  if c.addrBits.isNone then
    let a ← deriveAddrBits ceilLog2 (← c.spaceBits)
    return { c with addrBits := .int a }
  else return c

def instrBits (c : Config) : Except PyExc Int := do
  return 3 * (← c.addrBits.asInt)

def nBits (c : Config) : Except PyExc Int := c.addrBits.asInt

def offN (_ : Config) : Int := 0

def offDst (c : Config) : Except PyExc Int := c.nBits

def offSrc (c : Config) : Except PyExc Int := do
  return (← c.nBits) + (← c.addrBits.asInt)

end Config

end SpaceVerifier.Verifier
