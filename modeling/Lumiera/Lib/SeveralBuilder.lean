import Lumiera.Base.Storage
import Lumiera.Base.Machine

/-! # Building a sequence of elements (`lib/several-builder.hpp`)

A `SeveralBuilder` places elements into a buffer, at a uniform distance, the *spread*. The buffer is
allocated with some reserve and replaced by a larger one when necessary; elements of any type may be added,
and when these are larger than the spread, then the elements already present are spread out. The type of
the elements is not recorded: whether they can be moved, and how, is decided based on the interface type
`I` and the common element type `E`, and on a flag which locks such movements altogether.

The buffer is a function from offsets to bytes. For each element present the model records its type,
only to detect that an object is moved in a way not suitable for its type. What the source must not do
ends in `Breakage`, in contrast to the exceptions. -/

namespace Lumiera.Lib

/-- Number of storage slots to open initially. -/
def INITIAL_ELM_CNT : Nat := 10

def LUMIERA_MAX_ORDINAL_NUMBER : Nat := 1000

/-- Storage size of the metadata record placed before the data (`sizeof(ArrayBucket)`). -/
def storageOffset : Nat := 64

/-- Reserve to place with proper alignment. -/
def alignRes (alignment : Nat) : Nat := alignment - 8

/-- The value of an expression of type `size_t`. -/
def size_t (n : Nat) : Nat := n % 2 ^ 64

/-! ## Element types -/

/-- The traits of a type, as far as they are used here. -/
structure TypeTraits where
  size : Nat
  alignment : Nat
  triviallyCopyable : Bool
  triviallyDestructible : Bool
  subclassOfInterface : Bool
  size_pos : 0 < size
  alignment_pow : alignment.isPowerOfTwo
  alignment_dvd : alignment ∣ size

/-- The spread required to hold elements of a type with proper alignment. -/
def TypeTraits.reqSiz (traits : TypeTraits) : Nat :=
  let quant := traits.alignment
  let siz := max traits.size quant
  let req := (siz / quant) * quant
  if req < siz then req + quant else req

/-- The type of an element: the common element type `E`, or another type. -/
inductive ElmType where
  | commonType
  | other (traits : TypeTraits)

/-- The parameters of the builder: the interface type `I`, the common element type `E` and the limit of
the allocator. -/
structure Config where
  sizeofInterface : Nat
  virtualDestructor : Bool
  common : TypeTraits
  commonMovable : Bool
  ALLOC_LIMIT : Nat
  sizeofInterface_pos : 0 < sizeofInterface

/-- The traits of a type. -/
def Config.traits (conf : Config) : ElmType → TypeTraits
  | .commonType => conf.common
  | .other traits => traits

/-- An element, with its representation in memory. -/
structure Element (conf : Config) where
  type : ElmType
  bytes : List UInt8
  length_bytes : bytes.length = (conf.traits type).size

/-! ## Failures -/

/-- What must not happen: a failing assertion, a division by zero, an access outside of the buffer, and
moving an object in a way not suitable for its type. -/
inductive Breakage where
  | assertion
  | divisionByZero
  | outsideBuffer
  | improperMove
  deriving DecidableEq, Repr

/-- An exception is raised, or worse. -/
inductive Failure where
  | unsuitableElement (requiredSiz spread : Nat)
  | storageExhausted (buffSiz : Nat)
  | safetyLimit (safetyLim : Nat)
  | immovableElement
  | unsupportedDestructor
  | destructorMismatch
  | broken (breakage : Breakage)
  deriving DecidableEq, Repr

/-- The quotient of two numbers. -/
def divide (n d : Nat) : Except Failure Nat :=
  if d = 0 then .error (.broken .divisionByZero) else .ok (n / d)

/-! ## The storage -/

/-- The metadata and the buffer (`ArrayBucket`); `types` are the types of the elements present. -/
structure ArrayBucket where
  cnt : Nat
  spread : Nat
  buffSiz : Nat
  buffOffset : Nat
  mem : Nat → UInt8
  types : List ElmType

/-- What the allocator answers during an operation: where it places an allocation, and whether it is
able to adjust the current one to some size (heap allocators never do so). -/
structure Allocator where
  loc : Nat
  canAdjust : Nat → Bool
  loc_aligned : 8 ∣ loc

/-- An allocator which never adjusts an allocation. -/
def heapAlloc : Allocator := ⟨0, fun _ => false, Nat.dvd_zero 8⟩

/-- The way to invoke the destructors. -/
inductive DestructionMethod where
  | trivial
  | element
  | virtual
  deriving DecidableEq, Repr

structure SeveralBuilder where
  data_ : Option ArrayBucket
  destructor : Option DestructionMethod
  lock_move : Bool

namespace ArrayBucket

/-- Acquire and prepare a storage buffer (`ElementFactory::create`). -/
def create (conf : Config) (alloc : Allocator) (cnt spread : Nat) : Except Failure ArrayBucket :=
  if cnt = 0 ∨ spread = 0 then .error (.broken .assertion)
  else
    let storageBytes := storageOffset + cnt * spread + alignRes conf.common.alignment
    let start := alignUp conf.common.alignment (alloc.loc + storageOffset)
    let offset := start - alloc.loc
    if storageBytes - offset < cnt * spread then .error (.broken .assertion)
    else .ok ⟨0, spread, storageBytes - offset, offset, fun _ => 0, []⟩

/-- Objects of this type can be moved with the means available for the common element type. -/
def movesProperly (conf : Config) (type : ElmType) : Bool :=
  if conf.common.triviallyCopyable then (conf.traits type).triviallyCopyable
  else match type with
    | .commonType => conf.commonMovable
    | .other _ => false

/-- Move an element into another buffer, with `memmove` or with the move constructor. -/
def moveElem (conf : Config) (idx : Nat) (src tar : ArrayBucket) : Except Failure ArrayBucket :=
  match src.types[idx]? with
  | none => .error (.broken .outsideBuffer)
  | some type =>
    if ¬ movesProperly conf type then .error (.broken .improperMove)
    else
      let amount := if conf.common.triviallyCopyable then min src.spread tar.spread
        else (conf.traits type).size
      if src.buffSiz < idx * src.spread + amount ∨ tar.buffSiz < idx * tar.spread + amount then
        .error (.broken .outsideBuffer)
      else
        .ok { tar with
          mem := blit src.mem tar.mem (idx * src.spread) (idx * tar.spread) amount
          cnt := idx + 1
          types := tar.types ++ [type] }

/-- Move the first elements, one after the other. -/
def moveElems (conf : Config) (src tar : ArrayBucket) : Nat → Except Failure ArrayBucket
  | 0 => .ok tar
  | elms + 1 => (moveElems conf src tar elms).bind (moveElem conf elms src)

/-- Move an element within the buffer, to its place with another spread. -/
def shiftStorage (conf : Config) (idx oldSpread newSpread : Nat) (bucket : ArrayBucket) :
    Except Failure ArrayBucket :=
  let amount := min oldSpread newSpread
  if idx = 0 ∨ oldSpread = 0 ∨ newSpread = 0 then .error (.broken .assertion)
  else if bucket.buffSiz < idx * oldSpread + amount ∨ bucket.buffSiz < idx * newSpread + amount then
    .error (.broken .outsideBuffer)
  else if ¬ (bucket.types[idx]?).all (movesProperly conf) then .error (.broken .improperMove)
  else .ok { bucket with
    mem := blit bucket.mem bucket.mem (idx * oldSpread) (idx * newSpread) amount }

/-- Spread out the elements, starting with the last one (`for (i = size()-1; 0 < i; --i)`). -/
def spreadOut (conf : Config) (oldSpread newSpread : Nat) :
    Nat → ArrayBucket → Except Failure ArrayBucket
  | 0, bucket => .ok bucket
  | i + 1, bucket =>
    (shiftStorage conf (i + 1) oldSpread newSpread bucket).bind
      (spreadOut conf oldSpread newSpread i)

/-- Condense the elements, starting with the second one (`for (i = 1; i < size(); ++i)`); the number of
elements left to move is given. -/
def condense (conf : Config) (oldSpread newSpread : Nat) :
    Nat → Nat → ArrayBucket → Except Failure ArrayBucket
  | 0, _, bucket => .ok bucket
  | left + 1, i, bucket =>
    (shiftStorage conf i oldSpread newSpread bucket).bind
      (condense conf oldSpread newSpread left (i + 1))

/-- **Move existing data to accommodate the spread.** The index of the last element is calculated as
`size() - 1`, which is huge when there are no elements. -/
def adjustSpread (conf : Config) (newSpread : Nat) (bucket : ArrayBucket) :
    Except Failure ArrayBucket :=
  if bucket.buffSiz < size_t (newSpread * bucket.cnt) then .error (.broken .assertion)
  else
    let oldSpread := bucket.spread
    (if newSpread > oldSpread then
        spreadOut conf oldSpread newSpread (size_t (bucket.cnt + (2 ^ 64 - 1))) bucket
      else
        condense conf oldSpread newSpread (bucket.cnt - 1) 1 bucket).map
      fun moved => { moved with spread := newSpread }

end ArrayBucket

namespace SeveralBuilder

variable (conf : Config) (alloc : Allocator) (builder : SeveralBuilder)

/-- A builder without any storage. -/
def initial : SeveralBuilder := ⟨none, none, false⟩

def size : Nat := (builder.data_.map (·.cnt)).getD 0

def empty : Bool := builder.data_.isNone

def spread : Nat := (builder.data_.map (·.spread)).getD conf.sizeofInterface

def storageBuffSiz : Nat := (builder.data_.map (·.buffSiz)).getD 0

def capacity : Except Failure Nat := divide builder.storageBuffSiz (builder.spread conf)

/-- The storage has enough reserve for further elements, given their size. -/
def hasReserve (requiredSize newElms : Nat) : Bool :=
  match builder.data_ with
  | none => false
  | some bucket =>
    let required := max requiredSize bucket.spread
    let extraSize := size_t (size_t (required * newElms) + (required - bucket.spread) * bucket.cnt)
    size_t (bucket.cnt * bucket.spread + extraSize) ≤ bucket.buffSiz

/-- The allocator is able to adjust the current allocation to the requested buffer size. -/
def canExpand (request : Nat) : Bool :=
  (builder.data_.map fun bucket => alloc.canAdjust (bucket.buffOffset + request)).getD false

def canWildMove : Bool := conf.common.triviallyCopyable && !builder.lock_move

def canDynGrow : Bool := !builder.lock_move

/-! ## Checks -/

/-- Mark that elements are of a type otherwise unknown, which can not be moved trivially. -/
def probeMoveCapability (type : ElmType) : SeveralBuilder :=
  match type with
  | .commonType => builder
  | .other traits =>
    if traits.triviallyCopyable then builder else { builder with lock_move := true }

/-- Ensure sufficient element capacity or the ability to adapt the spread. -/
def ensureElementCapacity (requiredSiz : Nat) : Except Failure Unit :=
  if builder.spread conf < requiredSiz ∧ ¬ (builder.empty ∨ builder.canWildMove conf) then
    .error (.unsuitableElement requiredSiz (builder.spread conf))
  else
    .ok ()

/-- Ensure sufficient storage reserve or the ability to re-allocate. -/
def ensureStorageCapacity (requiredSiz newElms : Nat) : Except Failure Unit :=
  if builder.empty ∨ builder.hasReserve requiredSiz newElms ∨
      builder.canExpand alloc (size_t (requiredSiz * (builder.size + newElms))) ∨
      builder.canDynGrow then
    .ok ()
  else
    .error (.storageExhausted builder.storageBuffSiz)

/-- Select the method for invoking the destructors, which must be the one used thus far. -/
def selectDestructor (type : ElmType) : Except Failure SeveralBuilder :=
  let traits := conf.traits type
  let ensureMark (required : DestructionMethod) : Except Failure SeveralBuilder :=
    if builder.destructor.isSome ∧ builder.destructor ≠ some required then
      .error .destructorMismatch
    else
      .ok { builder with destructor := some required }
  if traits.subclassOfInterface ∧ conf.virtualDestructor then ensureMark .virtual
  else if traits.triviallyDestructible then ensureMark .trivial
  else match type with
    | .commonType =>
      if conf.common.subclassOfInterface then ensureMark .element
      else .error .unsupportedDestructor
    | .other _ => .error .unsupportedDestructor

/-! ## Adjusting the storage -/

/-- Replace the buffer, or adjust the current allocation when the allocator is able to do so. -/
def realloc (cnt spread : Nat) : Except Failure SeveralBuilder :=
  let request := cnt * spread
  if request = 0 then .error (.broken .assertion)
  else match builder.data_ with
    | none => (ArrayBucket.create conf alloc cnt spread).map fun bucket =>
      { builder with data_ := some bucket }
    | some bucket =>
      if builder.canExpand alloc request then
        .ok { builder with data_ := some { bucket with buffSiz := request } }
      else
        ((ArrayBucket.create conf alloc cnt spread).bind fun newBucket =>
          bucket.moveElems conf newBucket (min cnt bucket.cnt)).map fun moved =>
            { builder with data_ := some moved }

/-- The safety limit for the expansion of the storage. -/
def safetyLim : Nat := size_t (LUMIERA_MAX_ORDINAL_NUMBER * builder.spread conf)

/-- The storage size to expand to, in order to hold a number of elements: twice the current size,
unless this exceeds the limits. -/
def expandAlloc (cnt spread : Nat) : Nat :=
  let overhead := storageOffset + alignRes conf.common.alignment
  min (min (builder.safetyLim conf) conf.ALLOC_LIMIT - overhead)
    (max (size_t (2 * builder.storageBuffSiz)) (size_t (cnt * spread)))

/-- Grow into an exponentially expanded new allocation. -/
def growStorage (cnt spread : Nat) : Except Failure SeveralBuilder :=
  let demand := size_t (cnt * spread)
  (if spread > builder.spread conf then
      -- retain reserve
      (divide builder.storageBuffSiz (builder.spread conf)).map (max cnt)
    else
      .ok cnt).bind fun cnt =>
    -- round down to a straight number of elements
    (divide (builder.expandAlloc conf cnt spread) spread).bind fun newCnt =>
      if newCnt * spread < demand then .error (.safetyLimit (builder.safetyLim conf))
      else builder.realloc conf alloc newCnt spread

/-- **Possibly grow storage and re-arrange elements** to accommodate the desired capacity. -/
def adjustStorage (cnt spread : Nat) : Except Failure SeveralBuilder :=
  let demand := size_t (cnt * spread)
  if demand = builder.storageBuffSiz then
    .ok builder
  else
    (if demand > builder.storageBuffSiz then builder.growStorage conf alloc cnt spread
      else .ok builder).bind fun adjusted =>
        match adjusted.data_ with
        | none => .error (.broken .assertion)
        | some bucket =>
          if adjusted.canWildMove conf ∧ spread ≠ bucket.spread then
            (bucket.adjustSpread conf spread).map fun moved =>
              { adjusted with data_ := some moved }
          else
            .ok adjusted

/-- Replace the buffer by one without reserve. -/
def fitStorage : Except Failure SeveralBuilder :=
  match builder.data_ with
  | none => .error (.broken .assertion)
  | some bucket =>
    if ¬ (builder.canExpand alloc bucket.cnt ∨ builder.canDynGrow) then .error .immovableElement
    else builder.realloc conf alloc bucket.cnt bucket.spread

/-! ## Builder API -/

/-- Construct an object within the buffer. -/
def createAt (idx : Nat) (elm : Element conf) (bucket : ArrayBucket) :
    Except Failure ArrayBucket :=
  if bucket.buffSiz ≤ idx * bucket.spread then .error (.broken .assertion)
  else if bucket.buffSiz < idx * bucket.spread + elm.bytes.length then
    .error (.broken .outsideBuffer)
  else .ok { bucket with
    mem := overwrite bucket.mem (idx * bucket.spread) elm.bytes
    types := bucket.types ++ [elm.type] }

/-- **Append an element** (`emplace`, `append`). -/
def emplaceNewElm (elm : Element conf) : Except Failure SeveralBuilder :=
  let builder := builder.probeMoveCapability elm.type
  let elmSiz := (conf.traits elm.type).reqSiz
  (builder.ensureElementCapacity conf elmSiz).bind fun _ =>
  (builder.ensureStorageCapacity alloc elmSiz 1).bind fun _ =>
  let newPos := builder.size
  let newCnt := if builder.empty then INITIAL_ELM_CNT else newPos + 1
  (builder.adjustStorage conf alloc newCnt (max elmSiz (builder.spread conf))).bind fun adjusted =>
  match adjusted.data_ with
  | none => .error (.broken .assertion)
  | some bucket =>
    (adjusted.selectDestructor conf elm.type).bind fun armed =>
    (createAt conf newPos elm bucket).map fun filled =>
      { armed with data_ := some { filled with cnt := newPos + 1 } }

/-- **Ensure up-front that a desired capacity is allocated.** -/
def reserve (cntElm elmSiz : Nat) : Except Failure SeveralBuilder :=
  let extraElm := cntElm - builder.size
  (builder.ensureElementCapacity conf elmSiz).bind fun _ =>
  (builder.ensureStorageCapacity alloc elmSiz extraElm).bind fun _ =>
  builder.adjustStorage conf alloc cntElm (max elmSiz (builder.spread conf))

/-- **Discard excess reserve capacity.** -/
def shrinkFit : Except Failure SeveralBuilder :=
  if ¬ builder.empty then builder.fitStorage conf alloc
  else (builder.capacity conf).bind fun capacity =>
    if builder.size < capacity then builder.fitStorage conf alloc else .ok builder

end SeveralBuilder

/-! ## Usage -/

/-- The operations of the builder. -/
inductive Operation (conf : Config) where
  | emplace (elm : Element conf)
  | reserve (cntElm elmSiz : Nat)
  | shrinkFit

/-- A builder in use, together with the elements appended thus far. -/
structure Building (conf : Config) where
  builder : SeveralBuilder
  elms : List (Element conf)

namespace Building

variable {conf : Config}

/-- Perform an operation, with the given answers of the allocator. -/
def perform (s : Building conf) (alloc : Allocator) : Operation conf → Except Failure (Building conf)
  | .emplace elm => (s.builder.emplaceNewElm conf alloc elm).map fun builder =>
    ⟨builder, s.elms ++ [elm]⟩
  | .reserve cntElm elmSiz => (s.builder.reserve conf alloc cntElm elmSiz).map fun builder =>
    { s with builder := builder }
  | .shrinkFit => (s.builder.shrinkFit conf alloc).map fun builder => { s with builder := builder }

/-- The builder, as long as no exception is raised. -/
def machine (conf : Config) : Machine (Building conf) (Allocator × Operation conf) :=
  .ofFun ⟨.initial, []⟩ fun s op => (s.perform op.1 op.2).toOption

end Building

end Lumiera.Lib
