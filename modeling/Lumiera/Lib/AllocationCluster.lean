import Lumiera.Base.Storage
import Lumiera.Base.Machine
import Mathlib.Data.List.Range

/-! # Clustered allocation (`lib/allocation-cluster.hpp`)

An `AllocationCluster` hands out memory from storage extents of a fixed size, by bumping a position;
whenever a request does not fit into the rest of the current extent, a new extent is allocated from
the heap. All extents are linked into a list, through a header at the start of each of them, and they
are discarded together. While the cluster is in use, only the position and the remaining size are
stored: the start of the current extent, and thus the list, is recovered from these two by pointer
arithmetics.

Addresses are numbers, with 0 for the `nullptr`. The heap is a parameter: the sequence of addresses at
which it places the extents, as requested one after the other. -/

namespace Lumiera.Lib

/-- Hard wired size of storage extents. -/
def EXTENT_SIZ : Nat := 256

/-- The link header of an extent: the pointer to the next one and the list of destructors. -/
def ADMIN_OVERHEAD : Nat := 2 * 8

/-- Maximum individual allocation size that can be handled. -/
def max_size : Nat := EXTENT_SIZ - ADMIN_OVERHEAD

/-- The alignment of any storage provided by the heap. -/
def DEFAULT_NEW_ALIGNMENT : Nat := 16

/-- **The heap**, as far as `new Extent` is concerned: the `n`-th extent is placed at `start n`, with
the default alignment, and clear of the others. -/
structure Heap where
  start : Nat → Nat
  start_ne_null : ∀ n, start n ≠ 0
  aligned : ∀ n, DEFAULT_NEW_ALIGNMENT ∣ start n
  disjoint : ∀ m n, m ≠ n →
    start m + EXTENT_SIZ ≤ start n ∨ start n + EXTENT_SIZ ≤ start m

/-- What may be thrown: the failure of a `REQUIRE`, the two cases of `err::Fatal` for an allocation
beyond the limits, and `err::Invalid` for an adjustment which is not possible. -/
inductive AllocError where
  | requirement
  | allocationTooLarge (allocSiz maxSize : Nat)
  | alignmentTooLarge (align maxSize : Nat)
  | unableToAdjust
  deriving DecidableEq, Repr

/-- The value of a `size_t` after conversion into an `int`. -/
def toInt (n : Nat) : Int := Int.bmod n (2 ^ 32)

/-- `std::align`: the aligned position within the given space, and the space left behind. -/
def align (alignment size ptr space : Nat) : Option (Nat × Nat) :=
  let aligned := alignUp alignment ptr
  if size ≤ space ∧ aligned - ptr ≤ space - size then
    some (aligned, space - (aligned - ptr))
  else
    none

/-! ## The storage descriptor -/

/-- The position within the current extent, and the size of the rest. -/
structure Storage where
  pos : Nat
  rest : Nat
  deriving DecidableEq, Repr

namespace Storage

variable (storage : Storage)

/-- Place an allocation into the rest of the current extent, if possible. -/
def allot (bytes alignment : Nat) : Option (Nat × Storage) :=
  (align alignment bytes storage.pos storage.rest).map fun (loc, rest) =>
    (loc, ⟨loc + bytes, rest - bytes⟩)

def hasReserve (offset : Int) : Bool := offset ≤ toInt storage.rest

def matches_last_allocation (loc siz : Nat) : Bool := loc + siz = storage.pos

/-- Move the position; a negative offset is assumed to be properly limited. -/
def adjustPos (offset : Int) : Except AllocError Storage :=
  if storage.pos ≠ 0 ∧ storage.hasReserve offset then
    .ok ⟨(storage.pos + offset).toNat, (storage.rest - offset).toNat⟩
  else
    .error .requirement

end Storage

/-! ## The cluster -/

/-- The storage descriptor, the link headers of the extents (`next extent`, by address), and the
number of extents requested from the heap so far. -/
structure AllocationCluster where
  storage_ : Storage
  next : Nat → Nat
  claimed : Nat

namespace AllocationCluster

/-- A new cluster does not allocate anything. -/
def create : AllocationCluster := ⟨⟨0, 0⟩, fun _ => 0, 0⟩

variable (clu : AllocationCluster)

def empty : Bool := clu.storage_.pos = 0

/-- The start of the current extent, recovered from the position and the rest. -/
def getCurrentBlockStart : Nat := clu.storage_.pos + clu.storage_.rest - EXTENT_SIZ

/-- Relocate the position to the start of the current extent, where it is the head of the list. -/
def closeCurrentBlock : AllocationCluster :=
  if clu.empty then clu else { clu with storage_ := ⟨clu.getCurrentBlockStart, 0⟩ }

/-- Get a new extent from the heap and link it in front of the list. -/
def prependNextBlock (heap : Heap) : AllocationCluster :=
  let extent := heap.start clu.claimed
  { storage_ := ⟨extent + ADMIN_OVERHEAD, max_size⟩
    next := Function.update clu.next extent clu.storage_.pos
    claimed := clu.claimed + 1 }

/-- Expand the storage by an extent (`expandStorage`, `addBlock`). -/
def expandStorage (heap : Heap) : AllocationCluster := clu.closeCurrentBlock.prependNextBlock heap

/-- The limits for a single allocation (`__enforce_limits`). -/
def enforce_limits (allocSiz align : Nat) : Except AllocError Unit :=
  if ¬ (0 < allocSiz ∧ align.isPowerOfTwo) then .error .requirement
  else if allocSiz > max_size then .error (.allocationTooLarge allocSiz max_size)
  else if align > max_size then .error (.alignmentTooLarge align max_size)
  else .ok ()

/-- **Portion out the requested amount of memory**, possibly claiming new extents; the result is the
location and the cluster afterwards. This calls itself after each extent claimed: `none` means that it
did so for more than `fuel` times. -/
def allotMemory (heap : Heap) (bytes alignment : Nat) :
    Nat → AllocationCluster → Option (Except AllocError (Nat × AllocationCluster))
  | 0, _ => none
  | fuel + 1, clu =>
    match enforce_limits bytes alignment with
    | .error failure => some (.error failure)
    | .ok () =>
      match clu.storage_.allot bytes alignment with
      | some (loc, storage) => some (.ok (loc, { clu with storage_ := storage }))
      | none => allotMemory heap bytes alignment fuel (clu.expandStorage heap)

/-- The adjustment is possible: this is the latest allocation, and the extent has enough reserve. -/
def canAdjust (loc oldSiz newSiz : Nat) : Bool :=
  clu.storage_.matches_last_allocation loc oldSiz &&
    clu.storage_.hasReserve (toInt newSiz - toInt oldSiz)

/-- Adjust the size of the latest allocation dynamically. -/
def doAdjust (loc oldSiz newSiz : Nat) : Except AllocError AllocationCluster :=
  if ¬ clu.canAdjust loc oldSiz newSiz then .error .unableToAdjust
  else (clu.storage_.adjustPos (toInt newSiz - toInt oldSiz)).map fun storage =>
    { clu with storage_ := storage }

/-- Follow the links from an extent to the end of the list, in less than `fuel` steps. -/
def follow (next : Nat → Nat) : Nat → Nat → Option (List Nat)
  | 0, _ => none
  | fuel + 1, extent =>
    if extent = 0 then some [] else (follow next fuel (next extent)).map (extent :: ·)

/-- The extents given back to the heap when the cluster is discarded (`discardAll`). -/
def discardAll (fuel : Nat) : Option (List Nat) :=
  follow clu.next fuel clu.closeCurrentBlock.storage_.pos

end AllocationCluster

/-! ## Usage -/

/-- An allocation as known to the client: the location, the size and alignment requested, and (for
bookkeeping only) the number of the extent it was taken from. -/
structure Block where
  loc : Nat
  size : Nat
  alignment : Nat
  extent : Nat
  deriving DecidableEq, Repr

/-- A cluster in use, together with the blocks handed out, the latest one first. Blocks are never
given back individually, they live until the cluster is discarded. -/
structure Usage where
  clu : AllocationCluster
  blocks : List Block

/-- The requests of the client: to allot memory, or to adjust the latest allocation. -/
inductive Request where
  | allot (bytes alignment : Nat)
  | adjust (newSiz : Nat)
  deriving DecidableEq, Repr

namespace Usage

/-- One request which is served or refused; when refused, nothing is changed. A request which is
never served is no step. -/
inductive Step (heap : Heap) : Usage → Request → Usage → Prop
  | allot {use : Usage} {bytes alignment fuel loc : Nat} {clu : AllocationCluster} :
      use.clu.allotMemory heap bytes alignment fuel = some (.ok (loc, clu)) →
      Step heap use (.allot bytes alignment)
        ⟨clu, ⟨loc, bytes, alignment, clu.claimed - 1⟩ :: use.blocks⟩
  | allotRefused {use : Usage} {bytes alignment fuel : Nat} {failure : AllocError} :
      use.clu.allotMemory heap bytes alignment fuel = some (.error failure) →
      Step heap use (.allot bytes alignment) use
  | adjust {use : Usage} {newSiz : Nat} {latest : Block} {others : List Block}
      {clu : AllocationCluster} :
      use.blocks = latest :: others →
      use.clu.doAdjust latest.loc latest.size newSiz = .ok clu →
      Step heap use (.adjust newSiz) ⟨clu, { latest with size := newSiz } :: others⟩
  | adjustRefused {use : Usage} {newSiz : Nat} {latest : Block} {others : List Block}
      {failure : AllocError} :
      use.blocks = latest :: others →
      use.clu.doAdjust latest.loc latest.size newSiz = .error failure →
      Step heap use (.adjust newSiz) use

/-- An allocation cluster, from its creation on. -/
def machine (heap : Heap) : Machine Usage Request where
  init use := use = ⟨AllocationCluster.create, []⟩
  step := Step heap

end Usage

/-! ## Extents of an allocation cluster

The position and the rest denote the end of the extent claimed last, and all extents claimed are linked
from there. A single request is traced to the sequence of expansions, as each of these yields an empty
extent, which is either suitable for the request or leads to the next expansion.

Thus a request is served if and only if it fits into the rest, or into one of the extents to come. Whether
the latter holds depends on the heap, as soon as the alignment is larger than the one of the extents;
then the padding may take up the space left for the request. -/

/-! ## Limits and conversions -/

variable {n : Nat}

theorem toInt_of_lt (h : n < 2 ^ 31) : toInt n = n := by
  unfold toInt
  rw [Int.bmod_def, Int.emod_eq_of_lt (by omega) (by omega), if_pos (by omega)]

namespace AllocationCluster

theorem enforce_limits_ok {bytes alignment : Nat} : enforce_limits bytes alignment = .ok () ↔ 0 < bytes ∧
    alignment.isPowerOfTwo ∧ bytes ≤ max_size ∧ alignment ≤ max_size := by
  unfold enforce_limits
  by_cases hreq : 0 < bytes ∧ alignment.isPowerOfTwo
  · rw [if_neg (not_not.mpr hreq)]
    obtain ⟨hpos, hpow⟩ := hreq
    by_cases hbytes : bytes > max_size
    · rw [if_pos hbytes]
      constructor
      · rintro ⟨⟩
      · rintro ⟨-, -, hle, -⟩
        omega
    · rw [if_neg hbytes]
      by_cases hal : alignment > max_size
      · rw [if_pos hal]
        constructor
        · rintro ⟨⟩
        · rintro ⟨-, -, -, hle⟩
          omega
      · rw [if_neg hal]
        exact ⟨fun _ => ⟨hpos, hpow, by omega, by omega⟩, fun _ => rfl⟩
  · rw [if_pos hreq]
    constructor
    · rintro ⟨⟩
    · rintro ⟨hpos, hpow, -⟩
      exact absurd ⟨hpos, hpow⟩ hreq

end AllocationCluster

/-! ## Placing an allocation -/

namespace Storage

variable {storage storage' : Storage} {bytes alignment loc : Nat}

/-- There is space for the request and for the padding it needs. -/
def Fits (storage : Storage) (bytes alignment : Nat) : Prop :=
  alignUp alignment storage.pos + bytes ≤ storage.pos + storage.rest

instance : Decidable (storage.Fits bytes alignment) :=
  inferInstanceAs (Decidable (_ ≤ _))

theorem allot_eq (ha : 0 < alignment) : storage.allot bytes alignment =
    if storage.Fits bytes alignment then
      some (alignUp alignment storage.pos, ⟨alignUp alignment storage.pos + bytes,
        storage.pos + storage.rest - (alignUp alignment storage.pos + bytes)⟩)
    else none := by
  have hle := le_alignUp (x := storage.pos) ha
  unfold allot align
  by_cases hfits : storage.Fits bytes alignment
  · rw [if_pos hfits]
    unfold Fits at hfits
    rw [if_pos (by omega)]
    simp only [Option.map_some, Option.some.injEq, Prod.mk.injEq, true_and]
    rw [Storage.mk.injEq]
    exact ⟨rfl, by omega⟩
  · rw [if_neg hfits]
    unfold Fits at hfits
    rw [if_neg (by omega), Option.map_none]

end Storage

/-! ## The extents claimed -/

namespace AllocationCluster

variable {heap : Heap} {clu clu' : AllocationCluster}

/-- The links lead through the given extents and then end. -/
def Linked (next : Nat → Nat) : Nat → List Nat → Prop
  | extent, [] => extent = 0
  | extent, first :: others => extent = first ∧ extent ≠ 0 ∧ Linked next (next extent) others

/-- The extents claimed from the heap, the latest one first. -/
def extents (heap : Heap) (cnt : Nat) : List Nat := (List.range cnt).reverse.map heap.start

theorem extents_succ (heap : Heap) (cnt : Nat) : extents heap (cnt + 1) = heap.start cnt :: extents heap cnt := by
  simp [extents, List.range_succ]

theorem Linked.update {next : Nat → Nat} {extent target : Nat} {l : List Nat} {first : Nat} (h : Linked next first l)
    (hnotin : extent ∉ l) : Linked (Function.update next extent target) first l := by
  induction l generalizing first with
  | nil => exact h
  | cons head others ih =>
    obtain ⟨rfl, hne, hrest⟩ := h
    have hdiff : first ≠ extent := fun heq => hnotin (heq ▸ List.mem_cons_self)
    refine ⟨rfl, hne, ?_⟩
    rw [Function.update_of_ne hdiff]
    exact ih hrest fun hmem => hnotin (List.mem_cons_of_mem _ hmem)

theorem start_inj {m : Nat} (h : heap.start m = heap.start n) : m = n := by
  by_contra hne
  have hdisjoint := heap.disjoint m n hne
  simp only [EXTENT_SIZ] at hdisjoint
  omega

theorem start_not_mem_extents (cnt : Nat) : heap.start cnt ∉ extents heap cnt := by
  intro hmem
  obtain ⟨n, hn, heq⟩ := List.mem_map.mp hmem
  rw [List.mem_reverse, List.mem_range] at hn
  have := start_inj heq
  omega

/-- **The storage descriptor denotes the extent claimed last**, and all extents are linked from there. -/
structure Valid (heap : Heap) (clu : AllocationCluster) : Prop where
  unused : clu.claimed = 0 → clu.storage_ = ⟨0, 0⟩
  behindHeader : ∀ n, clu.claimed = n + 1 → heap.start n + ADMIN_OVERHEAD ≤ clu.storage_.pos
  atEnd : ∀ n, clu.claimed = n + 1 →
    clu.storage_.pos + clu.storage_.rest = heap.start n + EXTENT_SIZ
  linked : Linked clu.next clu.closeCurrentBlock.storage_.pos (extents heap clu.claimed)

theorem Valid.empty_iff (h : clu.Valid heap) : clu.empty = true ↔ clu.claimed = 0 := by
  unfold empty
  rw [decide_eq_true_eq]
  constructor
  · intro hpos
    rcases hclaimed : clu.claimed with _ | n
    · rfl
    · have hlow := h.behindHeader n hclaimed
      simp only [ADMIN_OVERHEAD] at hlow
      omega
  · intro hclaimed
    rw [h.unused hclaimed]

/-- The start of the current extent can be recovered from the position and the rest. -/
theorem Valid.getCurrentBlockStart (h : clu.Valid heap) (hclaimed : clu.claimed = n + 1) :
    clu.getCurrentBlockStart = heap.start n := by
  have hend := h.atEnd n hclaimed
  rw [AllocationCluster.getCurrentBlockStart]
  omega

theorem create_valid : create.Valid heap where
  unused _ := rfl
  behindHeader n hclaimed := by cases hclaimed
  atEnd n hclaimed := by cases hclaimed
  linked := rfl

theorem closeCurrentBlock_next : clu.closeCurrentBlock.next = clu.next := by
  unfold closeCurrentBlock
  split_ifs <;> rfl

theorem closeCurrentBlock_claimed : clu.closeCurrentBlock.claimed = clu.claimed := by
  unfold closeCurrentBlock
  split_ifs <;> rfl

theorem Valid.closed_pos (h : clu.Valid heap) (hclaimed : clu.claimed = n + 1) :
    clu.closeCurrentBlock.storage_.pos = heap.start n := by
  have hne : ¬ clu.empty = true := by
    rw [h.empty_iff]
    omega
  rw [closeCurrentBlock, if_neg hne]
  exact h.getCurrentBlockStart hclaimed

/-- Expanding the storage yields a pristine extent. -/
theorem expandStorage_storage : (clu.expandStorage heap).storage_ =
    ⟨heap.start clu.claimed + ADMIN_OVERHEAD, max_size⟩ := by
  rw [expandStorage, prependNextBlock, closeCurrentBlock_claimed]

theorem expandStorage_claimed : (clu.expandStorage heap).claimed = clu.claimed + 1 := by
  rw [expandStorage, prependNextBlock, closeCurrentBlock_claimed]

theorem Valid.moved (h : clu.Valid heap) (hclaimed : clu.claimed = n + 1) {pos rest : Nat}
    (hlow : heap.start n + ADMIN_OVERHEAD ≤ pos) (hend : pos + rest = heap.start n + EXTENT_SIZ) :
    Valid heap { clu with storage_ := ⟨pos, rest⟩ } where
  unused hnone := absurd (hclaimed.symm.trans hnone) n.succ_ne_zero
  behindHeader m hm := by
    obtain rfl : m = n := by
      have hm' : clu.claimed = m + 1 := hm
      omega
    exact hlow
  atEnd m hm := by
    obtain rfl : m = n := by
      have hm' : clu.claimed = m + 1 := hm
      omega
    exact hend
  linked := by
    have hne : ¬ ({ clu with storage_ := ⟨pos, rest⟩ } : AllocationCluster).empty = true := by
      simp only [empty, decide_eq_true_eq]
      simp only [ADMIN_OVERHEAD] at hlow
      omega
    have hstart : ({ clu with storage_ := ⟨pos, rest⟩ } : AllocationCluster).closeCurrentBlock.storage_.pos
        = clu.closeCurrentBlock.storage_.pos := by
      rw [h.closed_pos hclaimed, closeCurrentBlock, if_neg hne]
      simp only [AllocationCluster.getCurrentBlockStart]
      omega
    rw [hstart]
    exact h.linked

theorem Valid.expandStorage (h : clu.Valid heap) : (clu.expandStorage heap).Valid heap where
  unused hnone := by
    rw [expandStorage_claimed] at hnone
    omega
  behindHeader n hclaimed := by
    obtain rfl : n = clu.claimed := by
      rw [expandStorage_claimed] at hclaimed
      omega
    rw [expandStorage_storage]
  atEnd n hclaimed := by
    obtain rfl : n = clu.claimed := by
      rw [expandStorage_claimed] at hclaimed
      omega
    rw [expandStorage_storage]
    exact Nat.add_assoc _ ADMIN_OVERHEAD max_size
  linked := by
    have hpos : (clu.expandStorage heap).closeCurrentBlock.storage_.pos = heap.start clu.claimed := by
      have hne : ¬ (clu.expandStorage heap).empty = true := by
        simp only [empty, decide_eq_true_eq]
        exact Nat.succ_ne_zero _
      rw [closeCurrentBlock, if_neg hne]
      simp only [AllocationCluster.getCurrentBlockStart, expandStorage_storage, max_size, EXTENT_SIZ,
        ADMIN_OVERHEAD]
      omega
    have hnext : (clu.expandStorage heap).next = Function.update clu.next (heap.start clu.claimed)
        clu.closeCurrentBlock.storage_.pos := by
      rw [AllocationCluster.expandStorage, prependNextBlock, closeCurrentBlock_claimed,
        closeCurrentBlock_next]
    rw [hpos, hnext, expandStorage_claimed, extents_succ]
    refine ⟨rfl, heap.start_ne_null _, ?_⟩
    rw [Function.update_self]
    exact h.linked.update (start_not_mem_extents _)

/-! ## Serving a request -/

/-- The cluster after claiming further extents, one after the other. -/
def expanded (heap : Heap) (clu : AllocationCluster) (cnt : Nat) : AllocationCluster :=
  (fun clu => clu.expandStorage heap)^[cnt] clu

theorem expanded_succ (cnt : Nat) : expanded heap clu (cnt + 1) = expanded heap (clu.expandStorage heap) cnt := rfl

theorem expanded_claimed (heap : Heap) (clu : AllocationCluster) (cnt : Nat) :
    (expanded heap clu cnt).claimed = clu.claimed + cnt := by
  induction cnt generalizing clu with
  | zero => rfl
  | succ cnt ih =>
    rw [expanded_succ, ih, expandStorage_claimed]
    omega

theorem expanded_storage (cnt : Nat) : (expanded heap clu (cnt + 1)).storage_ =
    ⟨heap.start (clu.claimed + cnt) + ADMIN_OVERHEAD, max_size⟩ := by
  induction cnt generalizing clu with
  | zero => exact expandStorage_storage
  | succ cnt ih =>
    rw [expanded_succ, ih, expandStorage_claimed]
    congr 3
    omega

theorem Valid.expanded (h : clu.Valid heap) (cnt : Nat) : (expanded heap clu cnt).Valid heap := by
  induction cnt generalizing clu with
  | zero => exact h
  | succ cnt ih => exact ih h.expandStorage

variable {bytes alignment fuel loc : Nat}

/-- The request fits into the rest of the current extent, or into one of the extents to come. -/
def Served (heap : Heap) (clu : AllocationCluster) (bytes alignment : Nat) : Prop :=
  clu.storage_.Fits bytes alignment ∨
    ∃ n ≥ clu.claimed, Storage.Fits ⟨heap.start n + ADMIN_OVERHEAD, max_size⟩ bytes alignment

theorem served_iff_expanded : clu.Served heap bytes alignment ↔
    ∃ cnt, (expanded heap clu cnt).storage_.Fits bytes alignment := by
  constructor
  · rintro (hfits | ⟨n, hn, hfits⟩)
    · exact ⟨0, hfits⟩
    · refine ⟨n - clu.claimed + 1, ?_⟩
      rw [expanded_storage, show clu.claimed + (n - clu.claimed) = n by omega]
      exact hfits
  · rintro ⟨_ | cnt, hfits⟩
    · exact .inl hfits
    · rw [expanded_storage] at hfits
      exact .inr ⟨clu.claimed + cnt, by omega, hfits⟩

/-- Place a request which is known to fit. -/
def place (clu : AllocationCluster) (bytes alignment : Nat) : Nat × AllocationCluster :=
  let loc := alignUp alignment clu.storage_.pos
  (loc, { clu with
    storage_ := ⟨loc + bytes, clu.storage_.pos + clu.storage_.rest - (loc + bytes)⟩ })

/-- A request is placed into the first extent which it fits, starting from the current one. -/
theorem allotMemory_eq_some (hok : enforce_limits bytes alignment = .ok ())
    {result : Except AllocError (Nat × AllocationCluster)} :
    clu.allotMemory heap bytes alignment fuel = some result ↔
      ∃ cnt < fuel, (∀ m < cnt, ¬ (expanded heap clu m).storage_.Fits bytes alignment) ∧
        (expanded heap clu cnt).storage_.Fits bytes alignment ∧
        result = .ok ((expanded heap clu cnt).place bytes alignment) := by
  have hal : 0 < alignment := Nat.pos_of_isPowerOfTwo (enforce_limits_ok.mp hok).2.1
  induction fuel generalizing clu with
  | zero =>
    constructor
    · rintro ⟨⟩
    · rintro ⟨cnt, hcnt, -⟩
      omega
  | succ fuel ih =>
    rw [allotMemory, hok]
    rw [Storage.allot_eq hal]
    by_cases hfits : clu.storage_.Fits bytes alignment
    · rw [if_pos hfits]
      constructor
      · intro h
        exact ⟨0, by omega, fun m hm => absurd hm (Nat.not_lt_zero m), hfits,
          (Option.some.inj h).symm⟩
      · rintro ⟨cnt, -, hfirst, -, rfl⟩
        rcases cnt with _ | cnt
        · rfl
        · exact absurd hfits (hfirst 0 (by omega))
    · rw [if_neg hfits]
      refine Iff.trans ih ?_
      constructor
      · rintro ⟨cnt, hcnt, hfirst, hat, hresult⟩
        refine ⟨cnt + 1, by omega, ?_, hat, hresult⟩
        intro m hm
        rcases m with _ | m
        · exact hfits
        · exact hfirst m (by omega)
      · rintro ⟨cnt, hcnt, hfirst, hat, hresult⟩
        rcases cnt with _ | cnt
        · exact absurd hat hfits
        · exact ⟨cnt, by omega, fun m hm => hfirst (m + 1) (by omega), hat, hresult⟩

/-- The call terminates, and yields a block. -/
def Yields (heap : Heap) (clu : AllocationCluster) (bytes alignment : Nat) : Prop :=
  ∃ fuel loc clu', clu.allotMemory heap bytes alignment fuel = some (.ok (loc, clu'))

/-- Exactly the requests which fit at some point are served. -/
theorem yields_iff_served (hok : enforce_limits bytes alignment = .ok ()) :
    clu.Yields heap bytes alignment ↔ clu.Served heap bytes alignment := by
  rw [served_iff_expanded]
  constructor
  · rintro ⟨fuel, loc, clu', h⟩
    obtain ⟨cnt, -, -, hfits, -⟩ := (allotMemory_eq_some hok).mp h
    exact ⟨cnt, hfits⟩
  · intro hex
    -- the first of the extents which are suitable
    refine ⟨Nat.find hex + 1, _, _, (allotMemory_eq_some hok).mpr ⟨Nat.find hex, by omega, ?_,
      Nat.find_spec hex, rfl⟩⟩
    intro m hm
    exact Nat.find_min hex hm

/-- Every extent is suitable for a request which leaves room for its padding. -/
theorem fits_pristine (hok : enforce_limits bytes alignment = .ok ()) (hroom : bytes + alignment ≤ EXTENT_SIZ)
    (n : Nat) : Storage.Fits ⟨heap.start n + ADMIN_OVERHEAD, max_size⟩ bytes alignment := by
  obtain ⟨-, ⟨k, hk⟩, hbytes, -⟩ := enforce_limits_ok.mp hok
  have hal : 0 < alignment := hk ▸ Nat.two_pow_pos k
  have hbase : (2 : Nat) ^ 4 ∣ heap.start n + ADMIN_OVERHEAD :=
    Nat.dvd_add (heap.aligned n) ⟨1, rfl⟩
  simp only [Storage.Fits]
  simp only [max_size, ADMIN_OVERHEAD] at *
  by_cases hsmall : k ≤ 4
  · -- the extents have this alignment anyway
    have hdvd : alignment ∣ heap.start n + 2 * 8 := hk ▸ (pow_dvd_pow 2 hsmall).trans hbase
    rw [alignUp_of_dvd hal hdvd]
    omega
  · have hdvd : (2 : Nat) ^ 4 ∣ alignment := hk ▸ pow_dvd_pow 2 (by omega)
    have hpad := alignUp_add_le hal hdvd hbase
    omega

theorem allotMemory_of_room (heap : Heap) (clu : AllocationCluster)
    (hok : enforce_limits bytes alignment = .ok ())
    (hroom : bytes + alignment ≤ EXTENT_SIZ) :
    ∃ loc clu', clu.allotMemory heap bytes alignment 2 = some (.ok (loc, clu')) := by
  by_cases hfits : clu.storage_.Fits bytes alignment
  · refine ⟨_, _, (allotMemory_eq_some hok).mpr ⟨0, by omega, ?_, hfits, rfl⟩⟩
    intro m hm
    omega
  · refine ⟨_, _, (allotMemory_eq_some hok).mpr ⟨1, by omega, ?_, ?_, rfl⟩⟩
    · intro m hm
      obtain rfl : m = 0 := by omega
      exact hfits
    · exact fits_pristine hok hroom _

/-- A heap with extents at multiples of their size. -/
def Heap.dense : Heap where
  start n := EXTENT_SIZ * (n + 1)
  start_ne_null n := by
    simp only [EXTENT_SIZ]
    omega
  aligned n := (Dvd.intro 16 rfl : DEFAULT_NEW_ALIGNMENT ∣ EXTENT_SIZ).mul_right _
  disjoint m n hne := by
    simp only [EXTENT_SIZ]
    omega

/-- Without room for the padding, no extent is suitable when the heap aligns them to their size. -/
theorem not_fits_dense (hok : enforce_limits bytes alignment = .ok ()) (hroom : ¬ bytes + alignment ≤ EXTENT_SIZ)
    (n : Nat) : ¬ Storage.Fits ⟨Heap.dense.start n + ADMIN_OVERHEAD, max_size⟩ bytes alignment := by
  obtain ⟨-, ⟨k, hk⟩, hbytes, hle⟩ := enforce_limits_ok.mp hok
  simp only [max_size, EXTENT_SIZ, ADMIN_OVERHEAD, Storage.Fits] at *
  have hdvd : alignment ∣ Heap.dense.start n := by
    have hk8 : k < 8 := (Nat.pow_lt_pow_iff_right (by omega : 1 < 2)).mp (by omega : 2 ^ k < 2 ^ 8)
    have h256 : alignment ∣ 256 := hk ▸ pow_dvd_pow 2 (by omega : k ≤ 8)
    exact h256.mul_right _
  rw [alignUp_add hdvd (by omega) (by omega)]
  omega

theorem not_served_dense (hok : enforce_limits bytes alignment = .ok ()) (hroom : ¬ bytes + alignment ≤ EXTENT_SIZ) :
    ¬ create.Served Heap.dense bytes alignment := by
  rintro (hfits | ⟨n, -, hfits⟩)
  · obtain ⟨hpos, -⟩ := enforce_limits_ok.mp hok
    simp only [Storage.Fits, create] at hfits
    omega
  · exact not_fits_dense hok hroom n hfits

end AllocationCluster

end Lumiera.Lib
