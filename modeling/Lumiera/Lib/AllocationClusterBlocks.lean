import Lumiera.Lib.AllocationCluster

/-! # Blocks of an allocation cluster

The blocks handed out lie one behind the other, each within its extent, up to the position of the
cluster; this holds after every run, provided that an adjustment accepted does not ask for a size beyond
the range of an `int`. -/

namespace Lumiera.Lib

open List

/-! ## Blocks handed out -/

/-- The blocks do not overlap. -/
def Block.Disjoint (b c : Block) : Prop := b.loc + b.size ≤ c.loc ∨ c.loc + c.size ≤ b.loc

/-- The block lies completely within the given extent, behind the link header. -/
def Block.Inside (b : Block) (extent : Nat) : Prop :=
  extent + ADMIN_OVERHEAD ≤ b.loc ∧ b.loc + b.size ≤ extent + EXTENT_SIZ

namespace Usage

open AllocationCluster

variable {heap : Heap} {use use' : Usage} {clu : AllocationCluster} {bytes alignment newSiz : Nat}
  {latest : Block} {others : List Block}

/-- **All blocks are sound**: they have the alignment demanded, lie within one of the extents claimed,
and do not overlap each other; and the current extent can be recovered. -/
structure Sound (heap : Heap) (use : Usage) : Prop where
  aligned : ∀ b ∈ use.blocks, b.alignment ∣ b.loc
  inside : ∀ b ∈ use.blocks, ∃ n < use.clu.claimed, b.Inside (heap.start n)
  disjoint : use.blocks.Pairwise Block.Disjoint
  recoverable : ∀ n, use.clu.claimed = n + 1 → use.clu.getCurrentBlockStart = heap.start n

/-- **The blocks lie one behind the other**, up to the position of the cluster. -/
structure Placed (heap : Heap) (use : Usage) : Prop where
  valid : use.clu.Valid heap
  aligned : ∀ b ∈ use.blocks, b.alignment ∣ b.loc
  inside : ∀ b ∈ use.blocks, b.extent < use.clu.claimed ∧ b.Inside (heap.start b.extent)
  behind : use.blocks.Pairwise fun later earlier =>
    earlier.extent = later.extent → earlier.loc + earlier.size ≤ later.loc
  latest : ∀ b others, use.blocks = b :: others →
    b.extent + 1 = use.clu.claimed ∧ b.loc + b.size = use.clu.storage_.pos

theorem create_placed (heap : Heap) : Placed heap ⟨create, []⟩ where
  valid := create_valid
  aligned := by simp
  inside := by simp
  behind := .nil
  latest := by simp

theorem Placed.end_le (h : use.Placed heap) {b : Block} (hmem : b ∈ use.blocks)
    (hext : b.extent + 1 = use.clu.claimed) : b.loc + b.size ≤ use.clu.storage_.pos := by
  rcases hblocks : use.blocks with _ | ⟨latest, others⟩
  · rw [hblocks] at hmem
    cases hmem
  · obtain ⟨hcurrent, hpos⟩ := h.latest _ _ hblocks
    rw [hblocks] at hmem
    rcases mem_cons.mp hmem with rfl | hother
    · omega
    · have hbehind := h.behind
      rw [hblocks, pairwise_cons] at hbehind
      have hle := hbehind.1 b hother (by omega)
      omega

theorem Placed.sound (h : use.Placed heap) : use.Sound heap where
  aligned := h.aligned
  inside b hb := ⟨b.extent, h.inside b hb⟩
  disjoint := by
    refine h.behind.imp_of_mem ?_
    intro later earlier hlater hearlier hbehind
    obtain ⟨-, hlow, hhigh⟩ := h.inside later hlater
    obtain ⟨-, hlow', hhigh'⟩ := h.inside earlier hearlier
    by_cases hsame : earlier.extent = later.extent
    · exact .inr (hbehind hsame)
    · unfold Block.Disjoint
      rcases heap.disjoint _ _ hsame with hdisj | hdisj
      · omega
      · omega
  recoverable _ hclaimed := h.valid.getCurrentBlockStart hclaimed

/-- A further block, behind the position of a cluster which may have got new extents meanwhile. -/
theorem Placed.push (h : use.Placed heap) {base : AllocationCluster} (hvalid : base.Valid heap)
    (hgrown : use.clu.claimed ≤ base.claimed)
    (hsame : use.clu.claimed = base.claimed → base.storage_ = use.clu.storage_)
    {n loc rest : Nat} (hn : base.claimed = n + 1) (hpos : base.storage_.pos ≤ loc)
    (hend : loc + bytes + rest = heap.start n + EXTENT_SIZ) (hal : alignment ∣ loc) :
    Placed heap ⟨{ base with storage_ := ⟨loc + bytes, rest⟩ },
      ⟨loc, bytes, alignment, n⟩ :: use.blocks⟩ := by
  have hlow := hvalid.behindHeader n hn
  constructor
  case valid => exact hvalid.moved hn (by omega) hend
  case aligned =>
    intro b hb
    rcases mem_cons.mp hb with rfl | hb
    · exact hal
    · exact h.aligned b hb
  case inside =>
    intro b hb
    rcases mem_cons.mp hb with rfl | hb
    · exact ⟨hn ▸ n.lt_succ_self, hlow.trans hpos, (Nat.le_add_right _ rest).trans_eq hend⟩
    · obtain ⟨hext, hin⟩ := h.inside b hb
      exact ⟨hext.trans_le hgrown, hin⟩
  case behind =>
    refine pairwise_cons.mpr ⟨?_, h.behind⟩
    intro b hb hext
    -- only a block of the current extent can share it with the new one
    have hold := (h.inside b hb).1
    have heq : use.clu.claimed = base.claimed := by
      simp only at hext
      omega
    have hle := h.end_le hb (by simp only at hext; omega)
    rw [← hsame heq] at hle
    exact hle.trans hpos
  case latest =>
    rintro b others ⟨⟩
    exact ⟨hn.symm, rfl⟩

theorem enforce_limits_of_served {fuel : Nat} {result : Nat × AllocationCluster}
    (h : use.clu.allotMemory heap bytes alignment fuel = some (.ok result)) :
    enforce_limits bytes alignment = .ok () := by
  cases hlim : enforce_limits bytes alignment with
  | ok => rfl
  | error failure =>
    cases fuel with
    | zero => cases h
    | succ fuel =>
      rw [allotMemory, hlim] at h
      cases h

/-- An allocation is placed behind all others. -/
theorem Placed.allot (h : use.Placed heap) {fuel loc : Nat}
    (hallot : use.clu.allotMemory heap bytes alignment fuel = some (.ok (loc, clu))) :
    Placed heap ⟨clu, ⟨loc, bytes, alignment, clu.claimed - 1⟩ :: use.blocks⟩ := by
  have hok := enforce_limits_of_served hallot
  obtain ⟨hpos, hpow, -⟩ := enforce_limits_ok.mp hok
  obtain ⟨cnt, -, -, hfits, hresult⟩ := (allotMemory_eq_some hok).mp hallot
  obtain rfl : loc = ((expanded heap use.clu cnt).place bytes alignment).1 :=
    congrArg Prod.fst (Except.ok.inj hresult)
  obtain rfl : clu = ((expanded heap use.clu cnt).place bytes alignment).2 :=
    congrArg Prod.snd (Except.ok.inj hresult)
  have hvalid := h.valid.expanded cnt
  have hclaimed := expanded_claimed heap use.clu cnt
  -- there is an extent, since nothing fits into an unused cluster
  obtain ⟨n, hn⟩ : ∃ n, (expanded heap use.clu cnt).claimed = n + 1 := by
    rcases hnone : (expanded heap use.clu cnt).claimed with _ | n
    · rw [hvalid.unused hnone, Storage.Fits] at hfits
      simp only at hfits
      omega
    · exact ⟨n, rfl⟩
  have hend := hvalid.atEnd n hn
  have hsame : use.clu.claimed = (expanded heap use.clu cnt).claimed →
      (expanded heap use.clu cnt).storage_ = use.clu.storage_ := by
    intro heq
    obtain rfl : cnt = 0 := by omega
    rfl
  rw [Storage.Fits] at hfits
  have hext : ((expanded heap use.clu cnt).place bytes alignment).2.claimed - 1 = n := by
    show (expanded heap use.clu cnt).claimed - 1 = n
    omega
  rw [hext]
  exact h.push hvalid (by omega) hsame hn (le_alignUp (Nat.pos_of_isPowerOfTwo hpow)) (by omega)
    dvd_alignUp

theorem Placed.resize (h : use.Placed heap) (hblocks : use.blocks = latest :: others) {rest : Nat}
    (hend : latest.loc + newSiz + rest = heap.start latest.extent + EXTENT_SIZ) :
    Placed heap ⟨{ use.clu with storage_ := ⟨latest.loc + newSiz, rest⟩ },
      { latest with size := newSiz } :: others⟩ := by
  have hmem : latest ∈ use.blocks := hblocks ▸ mem_cons_self
  obtain ⟨hcurrent, -⟩ := h.latest _ _ hblocks
  obtain ⟨hext, hlow, -⟩ := h.inside latest hmem
  have hbehind := h.behind
  rw [hblocks, pairwise_cons] at hbehind
  have hothers : ∀ b ∈ others, b ∈ use.blocks := fun b hb => hblocks ▸ mem_cons_of_mem _ hb
  constructor
  case valid => exact h.valid.moved hcurrent.symm (by omega) hend
  case aligned =>
    intro b hb
    rcases mem_cons.mp hb with rfl | hb
    · exact h.aligned latest hmem
    · exact h.aligned b (hothers b hb)
  case inside =>
    intro b hb
    rcases mem_cons.mp hb with rfl | hb
    · exact ⟨hext, hlow, (Nat.le_add_right _ rest).trans_eq hend⟩
    · exact h.inside b (hothers b hb)
  case behind => exact pairwise_cons.mpr hbehind
  case latest =>
    rintro b others ⟨⟩
    exact ⟨hcurrent, rfl⟩

theorem doAdjust_eq_ok {clu clu' : AllocationCluster} {loc oldSiz : Nat}
    (h : clu.doAdjust loc oldSiz newSiz = .ok clu') :
    clu.canAdjust loc oldSiz newSiz = true ∧
      toInt newSiz - toInt oldSiz ≤ toInt clu.storage_.rest ∧
      clu' = { clu with
        storage_ := ⟨(clu.storage_.pos + (toInt newSiz - toInt oldSiz)).toNat,
          (clu.storage_.rest - (toInt newSiz - toInt oldSiz)).toNat⟩ } := by
  unfold doAdjust at h
  split at h
  · cases h
  · next hcan =>
      rw [Bool.not_eq_true, Bool.not_eq_false] at hcan
      cases hmove : clu.storage_.adjustPos (toInt newSiz - toInt oldSiz) with
      | error failure =>
        rw [hmove] at h
        cases h
      | ok storage =>
        rw [hmove] at h
        unfold Storage.adjustPos at hmove
        split at hmove
        · next hreserve =>
            have hle := hreserve.2
            rw [Storage.hasReserve, decide_eq_true_eq] at hle
            refine ⟨hcan, hle, ?_⟩
            rw [Except.ok.inj hmove]
            exact (Except.ok.inj h).symm
        · cases hmove

/-- An adjustment moves the end of the latest block, as long as the new size is an `int`. -/
theorem Placed.adjust (h : use.Placed heap) (hblocks : use.blocks = latest :: others)
    (hadjust : use.clu.doAdjust latest.loc latest.size newSiz = .ok clu) (hsize : newSiz < 2 ^ 31) :
    Placed heap ⟨clu, { latest with size := newSiz } :: others⟩ := by
  have hmem : latest ∈ use.blocks := hblocks ▸ mem_cons_self
  obtain ⟨hcurrent, hpos⟩ := h.latest _ _ hblocks
  obtain ⟨-, hlow, hhigh⟩ := h.inside latest hmem
  have hend := h.valid.atEnd _ hcurrent.symm
  have hsiz : latest.size < 2 ^ 31 ∧ use.clu.storage_.rest < 2 ^ 31 := by
    simp only [EXTENT_SIZ] at hlow hhigh hend
    omega
  obtain ⟨-, hreserve, rfl⟩ := doAdjust_eq_ok hadjust
  rw [toInt_of_lt hsize, toInt_of_lt hsiz.1, toInt_of_lt hsiz.2] at hreserve
  rw [toInt_of_lt hsize, toInt_of_lt hsiz.1]
  have hmoved : ((use.clu.storage_.pos : Int) + (newSiz - latest.size)).toNat
      = latest.loc + newSiz := by omega
  rw [hmoved]
  exact h.resize hblocks (by omega)

/-! ## Runs -/

/-- An adjustment which is accepted asks for a size within the range of an `int`. -/
def SizeAsInt (use : Usage) : Request → Prop
  | .allot _ _ => True
  | .adjust newSiz => ∀ latest others, use.blocks = latest :: others →
      use.clu.canAdjust latest.loc latest.size newSiz = true → newSiz < 2 ^ 31

theorem step_placed {request : Request} (h : use.Placed heap) (hc : use.SizeAsInt request)
    (hstep : Step heap use request use') : use'.Placed heap := by
  cases hstep with
  | allot hallot => exact h.allot hallot
  | allotRefused => exact h
  | adjust hblocks hadjust =>
    exact h.adjust hblocks hadjust (hc _ _ hblocks (doAdjust_eq_ok hadjust).1)
  | adjustRefused => exact h

theorem placed_of_reachable (hreach : ((machine heap).restrict SizeAsInt).Reachable use) : use.Placed heap := by
  have hinv : ((machine heap).restrict SizeAsInt).Invariant (Placed heap) := by
    constructor
    case init =>
      rintro use rfl
      exact create_placed heap
    case step =>
      rintro use request use' hplaced ⟨hc, hstep⟩
      exact step_placed hplaced hc hstep
  exact hinv.reachable hreach

theorem adjust_sound_iff (h : use.Placed heap) (hblocks : use.blocks = latest :: others)
    (hadjust : use.clu.doAdjust latest.loc latest.size newSiz = .ok clu) :
    Sound heap ⟨clu, { latest with size := newSiz } :: others⟩ ↔ newSiz < 2 ^ 31 := by
  constructor
  · intro hsound
    obtain ⟨n, -, hlow, hhigh⟩ := hsound.inside _ mem_cons_self
    have hlt : newSiz ≤ EXTENT_SIZ := by
      have hhigh' : latest.loc + newSiz ≤ heap.start n + EXTENT_SIZ := hhigh
      have hlow' : heap.start n + ADMIN_OVERHEAD ≤ latest.loc := hlow
      omega
    exact hlt.trans_lt (by decide)
  · intro hsize
    exact (h.adjust hblocks hadjust hsize).sound

theorem doAdjust_wrapped (h : use.Placed heap) (hblocks : use.blocks = latest :: others) :
    ∃ clu, use.clu.doAdjust latest.loc latest.size (latest.size + 2 ^ 32) = .ok clu := by
  obtain ⟨hcurrent, hpos⟩ := h.latest _ _ hblocks
  have hlow := h.valid.behindHeader _ hcurrent.symm
  have hend := h.valid.atEnd _ hcurrent.symm
  simp only [EXTENT_SIZ, ADMIN_OVERHEAD] at hlow hend
  have hwrap : toInt (latest.size + 2 ^ 32) = toInt latest.size := by
    unfold toInt
    rw [Nat.cast_add]
    exact Int.add_bmod_right _ _
  have hreserve : use.clu.storage_.hasReserve 0 = true := by
    rw [Storage.hasReserve, decide_eq_true_eq, toInt_of_lt (by omega)]
    omega
  have hcan : use.clu.canAdjust latest.loc latest.size (latest.size + 2 ^ 32) = true := by
    rw [canAdjust, hwrap, sub_self, hreserve, Bool.and_true]
    exact decide_eq_true hpos
  rw [doAdjust, hcan, if_neg (not_not.mpr rfl), hwrap, sub_self, Storage.adjustPos,
    if_pos ⟨by omega, hreserve⟩]
  exact ⟨_, rfl⟩

/-- **Requests are served with sound blocks.** In every run without an adjustment beyond the range of
an `int`, all blocks are sound, a request is served if and only if it fits into some extent, and an
adjustment is sound if and only if it is within the range. And a request is served in every such run, on
every heap, if and only if it leaves room for its padding. -/
theorem served_and_sound (heap : Heap) (use : Usage)
    (hreach : ((machine heap).restrict SizeAsInt).Reachable use) :
    use.Sound heap ∧
    (∀ latest others newSiz clu, use.blocks = latest :: others →
      use.clu.doAdjust latest.loc latest.size newSiz = .ok clu →
      (Sound heap ⟨clu, { latest with size := newSiz } :: others⟩ ↔ newSiz < 2 ^ 31)) ∧
    ∀ bytes alignment, enforce_limits bytes alignment = .ok () →
      (use.clu.Yields heap bytes alignment ↔ use.clu.Served heap bytes alignment) ∧
      ((∀ heap use, ((machine heap).restrict SizeAsInt).Reachable use →
        use.clu.Yields heap bytes alignment) ↔ bytes + alignment ≤ EXTENT_SIZ) := by
  have hplaced := placed_of_reachable hreach
  refine ⟨hplaced.sound, ?_, ?_⟩
  · intro latest others newSiz clu hblocks hadjust
    exact adjust_sound_iff hplaced hblocks hadjust
  · intro bytes alignment hok
    refine ⟨yields_iff_served hok, ?_⟩
    constructor
    · intro hyields
      by_contra hroom
      have hserved := (yields_iff_served hok).mp
        (hyields Heap.dense ⟨create, []⟩ (.of_init rfl))
      exact not_served_dense hok hroom hserved
    · intro hroom heap use _
      obtain ⟨loc, clu, hallot⟩ := allotMemory_of_room heap use.clu hok hroom
      exact ⟨2, loc, clu, hallot⟩

/-- An object of 16 bytes, in a heap with extents at multiples of their size. -/
theorem served_and_sound_dense : ∃ use : Usage, use.blocks.length = 1 ∧ use.Sound Heap.dense ∧
    (use.clu.Yields Heap.dense 240 32 ↔ use.clu.Served Heap.dense 240 32) := by
  obtain ⟨loc, clu, hallot⟩ : ∃ loc clu,
      create.allotMemory Heap.dense 16 8 2 = some (.ok (loc, clu)) :=
    allotMemory_of_room _ _ (by decide) (by decide)
  have hinit : ((machine Heap.dense).restrict SizeAsInt).Reachable ⟨create, []⟩ := .of_init rfl
  have hstep : ((machine Heap.dense).restrict SizeAsInt).step ⟨create, []⟩ (.allot 16 8) _ :=
    ⟨trivial, .allot hallot⟩
  obtain ⟨hsound, -, hserved⟩ := served_and_sound Heap.dense _ (hinit.step hstep)
  exact ⟨_, rfl, hsound, (hserved 240 32 (by decide)).1⟩

/-- **A request may claim extents without end**, when its padding takes up too much space: 240 bytes
aligned to 32. And a block adjusted to more than 4 GiB is accepted, but does not fit into an extent. -/
theorem not_served_or_not_sound :
    (∃ use, (machine Heap.dense).Reachable use ∧ enforce_limits 240 32 = .ok () ∧
      ¬ use.clu.Yields Heap.dense 240 32) ∧
    ∃ use, (machine Heap.dense).Reachable use ∧ ¬ use.Sound Heap.dense := by
  have hinit : (machine Heap.dense).Reachable ⟨create, []⟩ := .of_init rfl
  have hok : enforce_limits 240 32 = .ok () := by decide
  constructor
  · refine ⟨_, hinit, hok, ?_⟩
    rw [yields_iff_served hok]
    exact not_served_dense hok (by decide)
  · obtain ⟨loc, clu, hallot⟩ : ∃ loc clu,
        create.allotMemory Heap.dense 16 8 2 = some (.ok (loc, clu)) :=
      allotMemory_of_room _ _ (by decide) (by decide)
    have hallotted := (create_placed Heap.dense).allot hallot
    obtain ⟨clu', hadjust⟩ := doAdjust_wrapped hallotted rfl
    refine ⟨_, (hinit.step (.allot hallot)).step (.adjust rfl hadjust), ?_⟩
    rw [adjust_sound_iff hallotted rfl hadjust]
    exact (by decide : ¬ 16 + 2 ^ 32 < 2 ^ 31)

/-! ## Discarding the cluster -/

theorem follow_of_linked {next : Nat → Nat} {extent fuel : Nat} {extents : List Nat}
    (h : Linked next extent extents) (hfuel : extents.length < fuel) : follow next fuel extent = some extents := by
  induction fuel generalizing extent extents with
  | zero => exact absurd hfuel (Nat.not_lt_zero _)
  | succ fuel ih =>
    rw [follow]
    cases extents with
    | nil => exact if_pos h
    | cons first others =>
      obtain ⟨rfl, hne, hothers⟩ := h
      rw [if_neg hne, ih hothers (Nat.lt_of_succ_lt_succ hfuel)]
      rfl

/-- **Each extent is given back exactly once** when the cluster is discarded after any run, and with
them all the blocks. -/
theorem discarded_once (hreach : ((machine heap).restrict SizeAsInt).Reachable use) {fuel : Nat}
    (hfuel : use.clu.claimed < fuel) : ∃ discarded, use.clu.discardAll fuel = some discarded ∧
      discarded.Nodup ∧ (∀ extent, extent ∈ discarded ↔ ∃ n < use.clu.claimed, heap.start n = extent) ∧
      ∀ b ∈ use.blocks, ∃ extent ∈ discarded, b.Inside extent := by
  have hplaced := placed_of_reachable hreach
  refine ⟨_, follow_of_linked hplaced.valid.linked (by simpa [extents] using hfuel), ?_, ?_, ?_⟩
  · exact (pairwise_reverse.mpr (nodup_range.imp Ne.symm)).map _ fun _ _ hne heq => hne (start_inj heq)
  · simp [extents]
  · intro b hb
    obtain ⟨n, hn, hinside⟩ := hplaced.sound.inside b hb
    exact ⟨_, mem_map.mpr ⟨n, by simpa using hn, rfl⟩, hinside⟩

theorem discarded_once_dense : ∃ use : Usage, use.blocks.length = 1 ∧
    ∃ discarded, use.clu.discardAll (use.clu.claimed + 1) = some discarded ∧ discarded.Nodup := by
  obtain ⟨loc, clu, hallot⟩ : ∃ loc clu, create.allotMemory Heap.dense 16 8 2 = some (.ok (loc, clu)) :=
    allotMemory_of_room _ _ (by decide) (by decide)
  have hinit : ((machine Heap.dense).restrict SizeAsInt).Reachable ⟨create, []⟩ := .of_init rfl
  obtain ⟨discarded, hdiscard, hnodup, -⟩ :=
    discarded_once (hinit.step (a := .allot 16 8) ⟨trivial, .allot hallot⟩) (Nat.lt_succ_self _)
  exact ⟨_, rfl, discarded, hdiscard, hnodup⟩

end Usage

end Lumiera.Lib
