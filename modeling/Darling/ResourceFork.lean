import Darling.Reader
import Darling.UnorderedMap

/-!
# The resource fork

`Resources::loadResources` of CarbonCore: how a resource file becomes the store that the Resource
Manager looks resources up in.  Every number of the file is big-endian.  The structs are read field
by field, so the padding behind the last field of `ResourceMapHeader` is not.
-/

namespace Darling.ResourceFork

inductive Stop
  /-- A byte outside `mem` is read. -/
  | outside
  /-- `OSErr(eofErr)`. -/
  | eofErr
  /-- `std::length_error`. -/
  | lengthError
  deriving DecidableEq

/-- The field of `n` bytes at offset `i` of a struct, in the machine's order. -/
def field (n : ℕ) (b : Bytes) (i : ℕ) : ℕ := unle ((b.drop i).take n)

def bswap24 (v : ℕ) : ℕ := v >>> 16 &&& 0xff ||| v &&& 0xff00 ||| v <<< 16 % 2 ^ 32 &&& 0xff0000

structure ResourcesHeader where
  resourceDataOffset : ℕ
  resourceMapOffset : ℕ
  resourceDataLength : ℕ
  resourceMapLength : ℕ

structure ResourceMapHeader where
  attributes : ℕ
  typeListOffset : ℕ
  nameListOffset : ℕ
  numOfTypesMinusOne : ℕ

structure ResourceType where
  resourceType : ℕ
  numOfThisTypeMinusOne : ℕ
  referenceListOffset : ℕ

structure ReferenceListItem where
  resourceID : ℕ
  resourceNameListOffset : ℕ
  attributes : ℕ
  resourceDataOffset : ℕ

def ResourcesHeader.ofBytes (b : Bytes) : ResourcesHeader where
  resourceDataOffset := bswap 4 (field 4 b 0)
  resourceMapOffset := bswap 4 (field 4 b 4)
  resourceDataLength := bswap 4 (field 4 b 8)
  resourceMapLength := bswap 4 (field 4 b 12)

def ResourceMapHeader.ofBytes (b : Bytes) : ResourceMapHeader where
  attributes := bswap 2 (field 2 b 22)
  typeListOffset := bswap 2 (field 2 b 24)
  nameListOffset := bswap 2 (field 2 b 26)
  numOfTypesMinusOne := bswap 2 (field 2 b 28)

def ResourceType.ofBytes (b : Bytes) : ResourceType where
  resourceType := bswap 4 (field 4 b 0)
  numOfThisTypeMinusOne := bswap 2 (field 2 b 4)
  referenceListOffset := bswap 2 (field 2 b 6)

/-- The two bit-fields share the word at offset 4, `attributes` in its low byte. -/
def ReferenceListItem.ofBytes (b : Bytes) : ReferenceListItem where
  resourceID := bswap 2 (field 2 b 0)
  resourceNameListOffset := bswap 2 (field 2 b 2)
  attributes := field 1 b 4
  resourceDataOffset := bswap24 (field 3 b 5)

structure ResourceData where
  id : ℕ
  type : ℕ
  name : Bytes
  attributes : ℕ
  dataBacking : Bytes
  deriving DecidableEq

/-- The record that the move constructor makes of `that`: it sets every member but `type`, which
stays what the new memory held. -/
def ResourceData.move (that : ResourceData) (garbage : ℕ) : ResourceData :=
  { that with type := garbage }

/-- What the move constructor leaves of `that`: its string and its vector are moved from, so
empty. -/
def ResourceData.movedFrom (that : ResourceData) : ResourceData :=
  { that with name := [], dataBacking := [] }

structure ResourceTypeData (π : Type) where
  type : ℕ
  resources : List π
  idMap : UnorderedMap ℕ π
  nameMap : UnorderedMap Bytes π

def ResourceTypeData.push {π : Type} (rtd : ResourceTypeData π) (d : π) (id : ℕ) (name : Bytes) :
    ResourceTypeData π :=
  { rtd with
    resources := rtd.resources ++ [d]
    idMap := rtd.idMap.emplace id d
    nameMap := rtd.nameMap.emplace name d }

/-- `emplace_back(make_unique<ResourceData>(move(res)))` and the two insertions, whose keys are
taken from `res` after the move. -/
def ResourceTypeData.append (rtd : ResourceTypeData ResourceData) (garbage : ℕ)
    (res : ResourceData) : ResourceTypeData ResourceData :=
  rtd.push (res.move garbage) res.movedFrom.id res.movedFrom.name

/-- `name.assign(pascalStringName + 1, *pascalStringName)`.  The length is a `char`: a negative one
becomes a `size_t` beyond the longest string. -/
def loadName (mem : Bytes) (pascalStringName : ℕ) : Except Stop Bytes := do
  let length ← read .outside 1 mem pascalStringName
  if unle length < 128 then read .outside (unle length) mem (pascalStringName + 1)
  else throw .lengthError

def loadData (mem : Bytes) (dataHeader : ℕ) : Except Stop Bytes := do
  let dataLength ← read .outside 4 mem dataHeader
  read .outside (bswap 4 (unle dataLength)) mem (dataHeader + 4)

def itemName (mem : Bytes) (header : ResourcesHeader) (mapHeader : ResourceMapHeader)
    (refListItem : ReferenceListItem) : Except Stop Bytes :=
  if refListItem.resourceNameListOffset ≠ 0xffff then
    loadName mem (header.resourceMapOffset + mapHeader.nameListOffset +
      refListItem.resourceNameListOffset)
  else pure []

def itemData (mem : Bytes) (header : ResourcesHeader) (refListItem : ReferenceListItem) :
    Except Stop Bytes :=
  if refListItem.resourceDataOffset ≠ 0xffff then
    loadData mem (header.resourceDataOffset + refListItem.resourceDataOffset)
  else pure []

/-- One round of the loop over a reference list, up to the record that it fills. -/
def loadResource (mem : Bytes) (header : ResourcesHeader) (mapHeader : ResourceMapHeader)
    (type rli : ℕ) : Except Stop ResourceData := do
  let refListItem := ReferenceListItem.ofBytes (← read .outside 12 mem rli)
  let name ← itemName mem header mapHeader refListItem
  let dataBacking ← itemData mem header refListItem
  return { id := refListItem.resourceID, type := type, name := name,
           attributes := refListItem.attributes, dataBacking := dataBacking }

/-- One round of the loop over the type list.  `garbage j` is what the memory of the `j`-th record
held. -/
def loadType (garbage : ℕ → ℕ) (mem : Bytes) (header : ResourcesHeader)
    (mapHeader : ResourceMapHeader) (t : ℕ) : Except Stop (ResourceTypeData ResourceData) := do
  let type := ResourceType.ofBytes (← read .outside 8 mem t)
  let rli := header.resourceMapOffset + mapHeader.typeListOffset + type.referenceListOffset
  (List.range (type.numOfThisTypeMinusOne + 1)).foldlM (fun rtd j => do
    let res ← loadResource mem header mapHeader type.resourceType (rli + 12 * j)
    return rtd.append (garbage j) res) ⟨type.resourceType, [], ∅, ∅⟩

structure Resources where
  attributes : ℕ
  resourceTypes : UnorderedMap ℕ (ResourceTypeData ResourceData)

def loadMap (garbage : ℕ → ℕ → ℕ) (mem : Bytes) (header : ResourcesHeader) :
    Except Stop Resources := do
  let mapHeader := ResourceMapHeader.ofBytes (← read .outside 30 mem header.resourceMapOffset)
  let t := header.resourceMapOffset + mapHeader.typeListOffset + 2
  let types ← (List.range (mapHeader.numOfTypesMinusOne + 1)).foldlM (fun types i => do
    let rtd ← loadType (garbage i) mem header mapHeader (t + 8 * i)
    return types.emplace rtd.type rtd) ∅
  return { attributes := mapHeader.attributes, resourceTypes := types }

def loadResources (garbage : ℕ → ℕ → ℕ) (mem : Bytes) : Except Stop Resources := do
  if mem.length < 16 then throw .eofErr
  let header := ResourcesHeader.ofBytes (← read .outside 16 mem 0)
  if mem.length < (header.resourceDataOffset + header.resourceDataLength) % 2 ^ 32 ∨
      mem.length < (header.resourceMapOffset + header.resourceMapLength) % 2 ^ 32 then
    throw .eofErr
  loadMap garbage mem header

def get1Resource (r : Resources) (type resId : ℕ) : Option ResourceData := do
  (← r.resourceTypes.lookup type).idMap.lookup resId

def get1NamedResource (r : Resources) (type : ℕ) (name : Bytes) : Option ResourceData := do
  (← r.resourceTypes.lookup type).nameMap.lookup name

end Darling.ResourceFork
