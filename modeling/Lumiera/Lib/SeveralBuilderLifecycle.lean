import Mathlib.Data.List.Count
import Lumiera.Base.Attempt
import Lumiera.Lib.SeveralBuilder

/-! # The lifecycle of the storage of a SeveralBuilder

The buffer of a `SeveralBuilder` is placed into a block of memory, which belongs to an `ArrayBucket`.
Such a bucket can destroy itself: when it is *armed* with a deleter, this deleter is invoked by the
destructor and hands the block back to the allocator. The deleter is installed with the first element
appended, and it is passed on when a larger bucket replaces the one before.

In between, constructors may raise: those which copy the elements into another bucket, and the one of
the element appended. Here the blocks obtained and released are recorded; once its block is released, a
bucket must no longer be accessed. -/

namespace Lumiera.Lib

/-- A bucket in a block of memory, with its deleter functor when this is installed. -/
structure Placed where
  block : Nat
  bucket : ArrayBucket
  dtor_ : Option DestructionMethod

/-- A builder, with the number of blocks obtained from the allocator and those which were released. -/
structure ManagedBuilder where
  data_ : Option Placed
  destructor : Option DestructionMethod
  lock_move : Bool
  obtained : Nat
  released : List Nat

/-- What happens during an operation: the answers of the allocator, whether it is able to obtain memory at
all, and which constructors raise: the one to copy the element with some index into another bucket, and
the one of a new element. -/
structure Circumstances where
  alloc : Allocator
  exhausted : Bool
  copyRaises : Nat → Bool
  ctorRaises : Bool

/-- `ArrayBucket::destroy`: the deleter releases the block; without one, nothing is released. -/
def Placed.destroy (placed : Placed) (released : List Nat) : List Nat :=
  if placed.dtor_.isSome then placed.block :: released else released

/-- Failing assertions and the like halt the program; any other failure is raised as exception. -/
def Attempt.lift {σ α : Type} (r : Except Failure α) (s : σ) : Attempt σ α :=
  match r with
  | .ok a => .ok a s
  | .error (.broken _) => .halted
  | .error _ => .raised s

/-- **Copy or move an element into another bucket.** A type which is not copied trivially is copied by a
constructor which may raise, unless it can be moved without raising. -/
def moveElem (conf : Config) (env : Circumstances) (idx : Nat) (src tar : ArrayBucket) :
    Attempt ArrayBucket Unit :=
  if !conf.common.triviallyCopyable && conf.commonMovable && env.copyRaises idx then .raised tar
  else match ArrayBucket.moveElem conf idx src tar with
    | .ok moved => .ok () moved
    | .error _ => .halted

/-- The first elements are moved one after the other. -/
def moveElems (conf : Config) (env : Circumstances) (src tar : ArrayBucket) :
    Nat → Attempt ArrayBucket Unit
  | 0 => .ok () tar
  | elms + 1 => (moveElems conf env src tar elms).bind fun _ tar => moveElem conf env elms src tar

namespace ManagedBuilder

/-- A builder without any storage. -/
def initial : ManagedBuilder := ⟨none, none, false, 0, []⟩

/-- The builder as such. -/
def view (s : ManagedBuilder) : SeveralBuilder := ⟨s.data_.map (·.bucket), s.destructor, s.lock_move⟩

/-- The block of the current bucket. -/
def block (s : ManagedBuilder) : Option Nat := s.data_.map (·.block)

/-- The current bucket was already released. -/
def dangling (s : ManagedBuilder) : Bool := (s.block.map fun block => s.released.contains block).getD false

variable (conf : Config) (env : Circumstances)

/-! ## Adjusting the storage -/

/-- `ElementFactory::create`: the new bucket is not armed. -/
def create (cnt spread : Nat) (s : ManagedBuilder) : Attempt ManagedBuilder Placed :=
  if cnt = 0 ∨ spread = 0 then .halted
  else if env.exhausted then .raised s
  else match ArrayBucket.create conf env.alloc cnt spread with
    | .ok bucket => .ok ⟨s.obtained, bucket, none⟩ { s with obtained := s.obtained + 1 }
    | .error _ => .halted

/-- `AllocationPolicy::realloc` for a bucket with data: it is replaced by a new one, which receives the
deleter and then the elements. -/
def replaceBucket (data : Placed) (cnt spread : Nat) (s : ManagedBuilder) : Attempt ManagedBuilder Unit :=
  (create conf env cnt spread s).bind fun newBucket s =>
    let newBucket := { newBucket with dtor_ := data.dtor_ }
    match moveElems conf env data.bucket newBucket.bucket (min cnt data.bucket.cnt) with
    | .halted => .halted
    | .ok _ moved =>
      .ok () { s with
        data_ := some { newBucket with bucket := moved }
        released := data.destroy s.released }
    | .raised moved =>
      -- the new bucket is destroyed, and returned nonetheless
      .ok () { s with
        data_ := some { newBucket with bucket := moved }
        released := newBucket.destroy s.released }

/-- **Obtain a bucket or replace it**, unless the allocator is able to adjust the current allocation. -/
def realloc (cnt spread : Nat) (s : ManagedBuilder) : Attempt ManagedBuilder Unit :=
  if cnt * spread = 0 then .halted
  else match s.data_ with
  | none => (create conf env cnt spread s).bind fun newBucket s => .ok () { s with data_ := some newBucket }
  | some data =>
    if s.view.canExpand env.alloc (cnt * spread) then
      .ok () { s with data_ := some { data with bucket := { data.bucket with buffSiz := cnt * spread } } }
    else s.replaceBucket conf env data cnt spread

/-- The number of elements for an exponentially expanded new allocation. -/
def expandedCount (cnt spread : Nat) (builder : SeveralBuilder) : Except Failure Nat :=
  let demand := size_t (cnt * spread)
  (if spread > builder.spread conf then
      -- retain reserve
      (divide builder.storageBuffSiz (builder.spread conf)).map (max cnt)
    else
      .ok cnt).bind fun cnt =>
    -- round down to a straight number of elements
    (divide (builder.expandAlloc conf cnt spread) spread).bind fun newCnt =>
      if newCnt * spread < demand then .error (.safetyLimit (builder.safetyLim conf)) else .ok newCnt

/-- Grow into a new allocation. -/
def growStorage (cnt spread : Nat) (s : ManagedBuilder) : Attempt ManagedBuilder Unit :=
  (Attempt.lift (expandedCount conf cnt spread s.view) s).bind fun newCnt s => s.realloc conf env newCnt spread

/-- **Possibly grow storage and re-arrange elements** to accommodate the desired capacity. -/
def adjustStorage (cnt spread : Nat) (s : ManagedBuilder) : Attempt ManagedBuilder Unit :=
  let demand := size_t (cnt * spread)
  if demand = s.view.storageBuffSiz then .ok () s
  else
    (if demand > s.view.storageBuffSiz then s.growStorage conf env cnt spread else .ok () s).bind fun _ s =>
      match s.data_ with
      | none => .halted
      | some data =>
        if s.view.canWildMove conf then
          if s.dangling then .halted
          else if spread ≠ data.bucket.spread then
            (Attempt.lift (data.bucket.adjustSpread conf spread) s).bind fun moved s =>
              .ok () { s with data_ := some { data with bucket := moved } }
          else .ok () s
        else .ok () s

/-- Replace the bucket by one without reserve. -/
def fitStorage (s : ManagedBuilder) : Attempt ManagedBuilder Unit :=
  match s.data_ with
  | none => .halted
  | some data =>
    if s.view.canExpand env.alloc data.bucket.cnt ∨ s.view.canDynGrow then
      s.realloc conf env data.bucket.cnt data.bucket.spread
    else .raised s

/-! ## Builder API -/

/-- Ensure clean-up can be handled properly: the bucket is armed with a deleter. -/
def ensureDeleter (type : ElmType) (s : ManagedBuilder) : Attempt ManagedBuilder Unit :=
  (Attempt.lift (s.view.selectDestructor conf type) s).bind fun marked s =>
    let s := { s with destructor := marked.destructor }
    match s.data_ with
    | none => .halted
    | some data =>
      if s.dangling then .halted
      else if data.dtor_.isSome then .ok () s
      else .ok () { s with data_ := some { data with dtor_ := marked.destructor } }

/-- Construct the new element within the bucket; only then it counts. -/
def createAt (newPos : Nat) (elm : Element conf) (s : ManagedBuilder) : Attempt ManagedBuilder Unit :=
  match s.data_ with
  | none => .halted
  | some data =>
    match SeveralBuilder.createAt conf newPos elm data.bucket with
    | .error _ => .halted
    | .ok filled =>
      if env.ctorRaises then .raised s
      else .ok () { s with data_ := some { data with bucket := { filled with cnt := newPos + 1 } } }

/-- `probeMoveCapability` -/
def probe (elm : Element conf) (s : ManagedBuilder) : ManagedBuilder :=
  { s with lock_move := (s.view.probeMoveCapability elm.type).lock_move }

/-- **Append an element.** -/
def emplaceNewElm (elm : Element conf) (s : ManagedBuilder) : Attempt ManagedBuilder Unit :=
  let s := s.probe conf elm
  let elmSiz := (conf.traits elm.type).reqSiz
  (Attempt.lift (s.view.ensureElementCapacity conf elmSiz) s).bind fun _ s =>
  (Attempt.lift (s.view.ensureStorageCapacity env.alloc elmSiz 1) s).bind fun _ s =>
  let newPos := s.view.size
  let newCnt := if s.view.empty then INITIAL_ELM_CNT else newPos + 1
  (s.adjustStorage conf env newCnt (max elmSiz (s.view.spread conf))).bind fun _ s =>
  (s.ensureDeleter conf elm.type).bind fun _ s =>
  s.createAt conf env newPos elm

/-- **Ensure up-front that a desired capacity is allocated.** -/
def reserve (cntElm elmSiz : Nat) (s : ManagedBuilder) : Attempt ManagedBuilder Unit :=
  let extraElm := cntElm - s.view.size
  (Attempt.lift (s.view.ensureElementCapacity conf elmSiz) s).bind fun _ s =>
  (Attempt.lift (s.view.ensureStorageCapacity env.alloc elmSiz extraElm) s).bind fun _ s =>
  s.adjustStorage conf env cntElm (max elmSiz (s.view.spread conf))

/-- **Discard excess reserve capacity.** -/
def shrinkFit (s : ManagedBuilder) : Attempt ManagedBuilder Unit :=
  if ¬ s.view.empty then s.fitStorage conf env
  else (Attempt.lift (s.view.capacity conf) s).bind fun capacity s =>
    if s.view.size < capacity then s.fitStorage conf env else .ok () s

/-- Perform an operation. All of them look into the metadata of the bucket, when there is one. -/
def perform (s : ManagedBuilder) : Operation conf → Attempt ManagedBuilder Unit
  | .emplace elm => if s.dangling then .halted else s.emplaceNewElm conf env elm
  | .reserve cntElm elmSiz => if s.dangling then .halted else s.reserve conf env cntElm elmSiz
  | .shrinkFit => if s.dangling then .halted else s.shrinkFit conf env

/-- The destructor, either of the builder or of the collection built: the blocks released in the end; none
if it can not be performed. -/
def destroy (s : ManagedBuilder) : Option (List Nat) :=
  match s.data_ with
  | none => some s.released
  | some data => if s.dangling then none else some (data.destroy s.released)

end ManagedBuilder

end Lumiera.Lib
