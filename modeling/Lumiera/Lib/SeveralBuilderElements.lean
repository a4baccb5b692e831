import Lumiera.Lib.SeveralBuilderStorage

/-! # Elements appended to a builder

The operations of the builder keep the elements appended, provided that each adjustment of the storage is
`Adjustable`. This condition leaves out some combinations in which the decisions taken by `adjustStorage` do
not match: with a demand equal to the buffer size the spread is not adapted; with storage reserved, but no
element yet, the elements are spread out starting from an index before the first one; reserving storage for
less elements than present, but with a larger spread, does not account for those present; storage without
any element is not to be shrunken; and neither the allocation of further storage nor shrinking it accounts for
elements which can not be moved by the means of the common element type. -/

namespace Lumiera.Lib

open List

namespace SeveralBuilder

variable {conf : Config} {alloc : Allocator} {builder : SeveralBuilder} {bucket : ArrayBucket}
  {elms : List (Element conf)} {cnt spread : Nat}

/-! ## Conditions -/

/-- The limit for the size of an allocation. -/
def sizeLimit (conf : Config) (builder : SeveralBuilder) : Nat :=
  min (builder.safetyLim conf) conf.ALLOC_LIMIT - (storageOffset + alignRes conf.common.alignment)

/-- **Sizes which may be requested** from the allocator when the storage does not suffice. -/
structure Requestable (conf : Config) (builder : SeveralBuilder) (bucket : ArrayBucket)
    (cnt spread request : Nat) : Prop where
  straight : spread ∣ request
  demanded : cnt * spread ≤ request
  limited : request ≤ builder.sizeLimit conf
  /-- Twice the present size, unless more is needed to retain the capacity with the new spread. -/
  expansion : request ≤ max (2 * bucket.buffSiz) (max cnt (bucket.buffSiz / bucket.spread) * spread)

/-- **The storage can be adjusted** to hold `cnt` elements with the given spread. -/
structure Adjustable (conf : Config) (alloc : Allocator) (builder : SeveralBuilder)
    (bucket : ArrayBucket) (cnt spread : Nat) : Prop where
  /-- Sizes are within the range of `size_t`. -/
  range : cnt * spread < 2 ^ 64 ∧ spread * bucket.cnt < 2 ^ 64
  /-- There are elements to be spread out within the buffer, and the space suffices. -/
  inPlace : cnt * spread < bucket.buffSiz → bucket.spread < spread →
    0 < bucket.cnt ∧ bucket.cnt * spread ≤ bucket.buffSiz
  /-- The elements present fit below the limit, and the capacity retained is a valid size. -/
  enough : bucket.buffSiz < cnt * spread → bucket.cnt ≤ cnt ∨
    bucket.cnt * spread ≤ builder.sizeLimit conf ∧ bucket.buffSiz / bucket.spread * spread < 2 ^ 64
  /-- An allocation without any element is not expanded and spread out. -/
  expanded : bucket.buffSiz < cnt * spread → bucket.spread < spread → bucket.cnt = 0 →
    ∀ request, Requestable conf builder bucket cnt spread request → builder.canExpand alloc request = false
  /-- All elements can be moved, unless the allocation can be expanded. -/
  moved : bucket.buffSiz < cnt * spread →
    (∀ request, Requestable conf builder bucket cnt spread request → builder.canExpand alloc request = true) ∨
      ∀ type ∈ bucket.types, ArrayBucket.movesProperly conf type = true

/-- An operation which adjusts the storage only in a way which is possible. -/
def Harmless (conf : Config) (alloc : Allocator) (builder : SeveralBuilder) : Operation conf → Prop
  | .emplace elm =>
    let probed := builder.probeMoveCapability elm.type
    let spread := max (conf.traits elm.type).reqSiz (probed.spread conf)
    match builder.data_ with
    | none => INITIAL_ELM_CNT * spread < 2 ^ 64
    | some bucket => Adjustable conf alloc probed bucket (bucket.cnt + 1) spread ∧
        ((bucket.cnt + 1) * spread = bucket.buffSiz → elm.bytes.length ≤ bucket.spread)
  | .reserve cntElm elmSiz =>
    let spread := max elmSiz (builder.spread conf)
    match builder.data_ with
    | none => cntElm * spread < 2 ^ 64
    | some bucket => Adjustable conf alloc builder bucket cntElm spread
  | .shrinkFit =>
    ∀ bucket, builder.data_ = some bucket → 0 < bucket.cnt ∧
      (builder.canExpand alloc (bucket.cnt * bucket.spread) = true ∨
        ∀ type ∈ bucket.types, ArrayBucket.movesProperly conf type = true)

/-! ## The invariant -/

/-- **The container holds exactly the elements appended**, and low-level moves are only possible with
elements which are suitable for it. -/
structure Sound (conf : Config) (builder : SeveralBuilder) (elms : List (Element conf)) : Prop where
  none : builder.data_ = none → elms = []
  holds : ∀ bucket, builder.data_ = some bucket → bucket.Holds conf elms
  range : ∀ bucket, builder.data_ = some bucket → bucket.cnt * bucket.spread < 2 ^ 64
  unlocked : builder.lock_move = false → ∀ elm ∈ elms,
    elm.type = .commonType ∨ (conf.traits elm.type).triviallyCopyable = true

theorem initial_sound : Sound conf initial [] where
  none _ := rfl
  holds bucket hdata := by cases hdata
  range bucket hdata := by cases hdata
  unlocked _ elm helm := by cases helm

theorem Sound.movesProperly (h : builder.Sound conf elms) (hdata : builder.data_ = some bucket)
    (hwild : builder.canWildMove conf = true) :
    ∀ type ∈ bucket.types, ArrayBucket.movesProperly conf type = true := by
  intro type htype
  obtain ⟨hcommon, hlock⟩ := Bool.and_eq_true_iff.mp hwild
  rw [(h.holds bucket hdata).types_eq] at htype
  obtain ⟨elm, helm, rfl⟩ := mem_map.mp htype
  unfold ArrayBucket.movesProperly
  rw [if_pos hcommon]
  rcases h.unlocked (by simpa using hlock) elm helm with htype | htrivial
  · rw [htype]
    exact hcommon
  · exact htrivial

/-! ## Adjusting the storage -/

/-- Re-allocation keeps the elements, when there is space for them. -/
theorem realloc_spec (alloc : Allocator) (h : bucket.Holds conf elms) (hdata : builder.data_ = some bucket)
    (hcnt : cnt ≠ 0) (hle : bucket.cnt ≤ cnt) (hspread : bucket.spread ≤ spread)
    (hmoves : builder.canExpand alloc (cnt * spread) = false →
      ∀ type ∈ bucket.types, ArrayBucket.movesProperly conf type = true) :
    ∃ bucket', builder.realloc conf alloc cnt spread = .ok { builder with data_ := some bucket' } ∧
      bucket'.Holds conf elms ∧ cnt * spread ≤ bucket'.buffSiz ∧
      (bucket'.spread = spread ∨ bucket'.spread = bucket.spread ∧
        builder.canExpand alloc (cnt * spread) = true) := by
  have hpos := h.spread_pos
  have hrequest : cnt * spread ≠ 0 := Nat.mul_ne_zero hcnt (by omega)
  have hspace : bucket.cnt * spread ≤ cnt * spread := Nat.mul_le_mul_right _ hle
  unfold realloc
  rw [if_neg hrequest, hdata]
  simp only
  by_cases hexpand : builder.canExpand alloc (cnt * spread) = true
  · rw [if_pos hexpand]
    refine ⟨_, rfl, ?_, le_rfl, .inr ⟨rfl, hexpand⟩⟩
    have hfits : bucket.cnt * bucket.spread ≤ bucket.cnt * spread := Nat.mul_le_mul_left _ hspread
    exact { h with fits := hfits.trans hspace }
  · rw [if_neg hexpand]
    obtain ⟨new, hcreate, hnew, hnewSpread, hnewSize⟩ :=
      ArrayBucket.create_spec conf alloc hcnt (show spread ≠ 0 by omega)
    have hlen : min cnt bucket.cnt = elms.length := by
      rw [Nat.min_eq_right hle, h.cnt_eq]
    obtain ⟨moved, hmoved, hholds, hmovedSpread, hmovedSize⟩ := ArrayBucket.moveElems_spec h hnew
      (fun elm helm => (h.size_le elm helm).trans (by omega)) (hmoves (Bool.not_eq_true _ ▸ hexpand))
      le_rfl (by rw [← h.cnt_eq, hnewSpread]; omega)
    rw [hcreate, hlen]
    refine ⟨moved, ?_, take_length (l := elms) ▸ hholds, by omega, .inl (by omega)⟩
    show (Except.map _ (ArrayBucket.moveElems conf bucket new elms.length)) = _
    rw [hmoved]
    rfl

theorem spread_eq (conf : Config) (hdata : builder.data_ = some bucket) : builder.spread conf = bucket.spread := by
  rw [SeveralBuilder.spread, hdata]
  rfl

theorem storageBuffSiz_eq (hdata : builder.data_ = some bucket) : builder.storageBuffSiz = bucket.buffSiz := by
  rw [storageBuffSiz, hdata]
  rfl

/-- The number of elements the storage is expanded to, in order to hold `cnt` elements. -/
def expandedCnt (conf : Config) (builder : SeveralBuilder) (cnt spread : Nat) : Nat :=
  let retained :=
    if spread > builder.spread conf then max cnt (builder.storageBuffSiz / builder.spread conf) else cnt
  builder.expandAlloc conf retained spread / spread

/-- The storage is expanded within these bounds, and there is space for the elements present. -/
theorem expandedCnt_spec (hholds : bucket.Holds conf elms) (hdata : builder.data_ = some bucket)
    (hadj : Adjustable conf alloc builder bucket cnt spread) (hle : bucket.spread ≤ spread)
    (hgrow : bucket.buffSiz < cnt * spread)
    (hlimit : cnt * spread ≤ builder.expandedCnt conf cnt spread * spread) :
    Requestable conf builder bucket cnt spread (builder.expandedCnt conf cnt spread * spread) ∧
      bucket.cnt ≤ builder.expandedCnt conf cnt spread := by
  have hspread : 0 < spread := hholds.spread_pos.trans_le hle
  have hfits := hholds.fits
  have hexpanded : builder.expandedCnt conf cnt spread * spread ≤
      builder.expandAlloc conf (if spread > bucket.spread then max cnt (bucket.buffSiz / bucket.spread)
        else cnt) spread := by
    rw [expandedCnt, spread_eq conf hdata, storageBuffSiz_eq hdata]
    exact Nat.div_mul_le_self _ _
  constructor
  · refine ⟨Nat.dvd_mul_left _ _, hlimit, hexpanded.trans (Nat.min_le_left _ _), ?_⟩
    refine (hexpanded.trans (Nat.min_le_right _ _)).trans (max_le_max ?_ ?_)
    · rw [storageBuffSiz_eq hdata]
      exact Nat.mod_le _ _
    · refine (Nat.mod_le _ _).trans (Nat.mul_le_mul_right _ ?_)
      split_ifs
      · exact le_rfl
      · exact le_max_left _ _
  · by_cases hfew : bucket.cnt ≤ cnt
    · exact hfew.trans (Nat.le_of_mul_le_mul_right hlimit hspread)
    · -- only a larger spread demands more storage for less elements
      obtain ⟨hroom, hrange⟩ := (hadj.enough hgrow).resolve_left hfew
      have hlarger : spread > bucket.spread := by
        by_contra hsame
        obtain rfl : spread = bucket.spread := by omega
        exact hfew (Nat.le_of_mul_le_mul_right (hfits.trans hgrow.le) hspread)
      have hcap : bucket.cnt ≤ bucket.buffSiz / bucket.spread :=
        (Nat.le_div_iff_mul_le hholds.spread_pos).mpr hfits
      rw [expandedCnt, spread_eq conf hdata, storageBuffSiz_eq hdata, if_pos hlarger,
        Nat.le_div_iff_mul_le hspread, Nat.max_eq_right (by omega)]
      refine le_min hroom (le_max_of_le_right ?_)
      rw [size_t, Nat.mod_eq_of_lt hrange]
      exact Nat.mul_le_mul_right _ hcap

theorem growStorage_eq (hpos : 0 < builder.spread conf) (hspread : 0 < spread) :
    builder.growStorage conf alloc cnt spread =
      if builder.expandedCnt conf cnt spread * spread < size_t (cnt * spread) then
        .error (.safetyLimit (builder.safetyLim conf))
      else builder.realloc conf alloc (builder.expandedCnt conf cnt spread) spread := by
  have hdiv : ∀ n d, 0 < d → divide n d = .ok (n / d) := by
    intro n d hd
    rw [divide, if_neg (by omega)]
  unfold growStorage expandedCnt
  by_cases hlarger : spread > builder.spread conf
  · rw [if_pos hlarger, if_pos hlarger, hdiv _ _ hpos]
    show (divide _ spread).bind _ = _
    rw [hdiv _ _ hspread]
    rfl
  · rw [if_neg hlarger, if_neg hlarger]
    show (divide _ spread).bind _ = _
    rw [hdiv _ _ hspread]
    rfl

/-- **Adjusting the storage of a builder in use** keeps the elements and yields space for the number of
elements demanded, with the new spread. The latter is not established, though, when the demand equals the
size of the buffer. -/
theorem adjustStorage_spec (h : builder.Sound conf elms) (hdata : builder.data_ = some bucket)
    (hadj : Adjustable conf alloc builder bucket cnt spread) (hle : bucket.spread ≤ spread)
    (hwild : bucket.spread < spread → builder.canWildMove conf = true) :
    Outcome (fun builder' => ∃ bucket', builder' = { builder with data_ := some bucket' } ∧
        bucket'.Holds conf elms ∧ cnt * spread ≤ bucket'.buffSiz ∧
        (bucket'.spread = spread ∨ bucket' = bucket ∧ cnt * spread = bucket.buffSiz))
      (builder.adjustStorage conf alloc cnt spread) := by
  have hholds := h.holds bucket hdata
  have hpos := hholds.spread_pos
  have hdemand : size_t (cnt * spread) = cnt * spread := Nat.mod_eq_of_lt hadj.range.1
  -- the spread is adjusted at the end, when this is possible
  have hfinish : ∀ bucket' : ArrayBucket, bucket'.Holds conf elms → cnt * spread ≤ bucket'.buffSiz →
      bucket'.cnt = bucket.cnt →
      (bucket'.spread = spread ∨ bucket'.spread = bucket.spread ∧ (bucket.spread < spread →
        0 < bucket.cnt ∧ bucket.cnt * spread ≤ bucket'.buffSiz)) →
      Outcome (fun builder' => ∃ bucket', builder' = { builder with data_ := some bucket' } ∧
          bucket'.Holds conf elms ∧ cnt * spread ≤ bucket'.buffSiz ∧
          (bucket'.spread = spread ∨ bucket' = bucket ∧ cnt * spread = bucket.buffSiz))
        (if builder.canWildMove conf = true ∧ spread ≠ bucket'.spread then
          (bucket'.adjustSpread conf spread).map fun moved => { builder with data_ := some moved }
        else .ok { builder with data_ := some bucket' }) := by
    intro bucket' hholds' hspace hcnt hspread
    split_ifs with hadapt
    · rcases hspread with heq | ⟨hold, hroom⟩
      · exact absurd heq.symm hadapt.2
      · have hlt : bucket.spread < spread := by omega
        obtain ⟨hsome, hfits⟩ := hroom hlt
        have htypes : bucket'.types = bucket.types := hholds'.types_eq.trans hholds.types_eq.symm
        obtain ⟨moved, hmoved, hmovedHolds, hmovedSpread, hmovedSize⟩ :=
          ArrayBucket.adjustSpread_spec hholds' (by omega) (by omega) (hcnt ▸ hadj.range.2)
            (hcnt ▸ hfits) (htypes ▸ h.movesProperly hdata hadapt.1)
        rw [hmoved]
        exact ⟨moved, rfl, hmovedHolds, by omega, .inl hmovedSpread⟩
    · refine ⟨bucket', rfl, hholds', hspace, .inl ?_⟩
      rcases hspread with heq | ⟨hold, -⟩
      · exact heq
      · by_contra hne
        exact hadapt ⟨hwild (by omega), by omega⟩
  unfold adjustStorage
  simp only
  rw [hdemand, storageBuffSiz_eq hdata]
  split_ifs with hequal hgrow
  · refine ⟨bucket, ?_, hholds, hequal.le, .inr ⟨rfl, hequal⟩⟩
    rw [← hdata]
  · -- the storage is expanded
    have hspreadPos : 0 < spread := by omega
    rw [growStorage_eq (by rw [spread_eq conf hdata]; exact hpos) hspreadPos, hdemand]
    split_ifs with hlimit
    · trivial
    · obtain ⟨hrequest, henough⟩ := expandedCnt_spec hholds hdata hadj hle hgrow (not_lt.mp hlimit)
      have hne : builder.expandedCnt conf cnt spread ≠ 0 := by
        intro hzero
        rw [hzero] at hlimit
        omega
      obtain ⟨bucket', hrealloc, hholds', hspace, hspread⟩ :=
        realloc_spec alloc hholds hdata hne henough hle fun hno =>
          (hadj.moved hgrow).resolve_left fun hall => by
            rw [hall _ hrequest] at hno
            cases hno
      have hmul : bucket.cnt * spread ≤ builder.expandedCnt conf cnt spread * spread :=
        Nat.mul_le_mul_right _ henough
      rw [hrealloc]
      refine hfinish bucket' hholds' (by omega) (hholds'.cnt_eq.trans hholds.cnt_eq.symm) ?_
      rcases hspread with heq | ⟨heq, hexpand⟩
      · exact .inl heq
      · refine .inr ⟨heq, fun hlt => ⟨Nat.pos_of_ne_zero fun hzero => ?_, by omega⟩⟩
        rw [hadj.expanded hgrow hlt hzero _ hrequest] at hexpand
        cases hexpand
  · -- the storage suffices
    have hbuilder : builder = { builder with data_ := some bucket } := by rw [← hdata]
    have hsame := hfinish bucket hholds (by omega) rfl (.inr ⟨rfl, hadj.inPlace (by omega)⟩)
    rw [← hbuilder] at hsame
    show Outcome _ (match builder.data_ with
      | none => .error (.broken .assertion)
      | some bucket => _)
    rw [hdata]
    exact hsame

/-- The first storage of a builder. -/
theorem adjustStorage_first (hdata : builder.data_ = none) (hrange : cnt * spread < 2 ^ 64)
    (hspread : 0 < spread) :
    Outcome (fun builder' => cnt = 0 ∧ builder' = builder ∨
        ∃ bucket', builder' = { builder with data_ := some bucket' } ∧
          bucket'.Holds conf [] ∧ bucket'.spread = spread ∧ cnt * spread ≤ bucket'.buffSiz)
      (builder.adjustStorage conf alloc cnt spread) := by
  have hdemand : size_t (cnt * spread) = cnt * spread := Nat.mod_eq_of_lt hrange
  have hsize : builder.storageBuffSiz = 0 := by rw [storageBuffSiz, hdata]; rfl
  have hpos : 0 < builder.spread conf := by
    rw [SeveralBuilder.spread, hdata]
    exact conf.sizeofInterface_pos
  unfold adjustStorage
  rw [hdemand, hsize]
  rcases Nat.eq_zero_or_pos cnt with rfl | hcnt
  · rw [if_pos (Nat.zero_mul _)]
    exact .inl ⟨rfl, rfl⟩
  · have hpositive : 0 < cnt * spread := Nat.mul_pos hcnt hspread
    rw [if_neg (by omega), if_pos hpositive, growStorage_eq hpos hspread]
    split_ifs with hlimit
    · trivial
    · have hne : builder.expandedCnt conf cnt spread ≠ 0 := by
        intro hzero
        rw [hzero] at hlimit
        omega
      obtain ⟨bucket, hcreate, hholds, hbucketSpread, hspace⟩ :=
        ArrayBucket.create_spec conf alloc hne (show spread ≠ 0 by omega)
      have hrealloc : builder.realloc conf alloc (builder.expandedCnt conf cnt spread) spread =
          .ok { builder with data_ := some bucket } := by
        unfold realloc
        rw [if_neg (Nat.mul_ne_zero hne (by omega)), hdata]
        rw [hcreate]
        rfl
      rw [hrealloc]
      show Outcome _ (if builder.canWildMove conf = true ∧ spread ≠ bucket.spread then _ else _)
      rw [if_neg fun hadapt => hadapt.2 hbucketSpread.symm]
      exact .inr ⟨bucket, rfl, hholds, hbucketSpread, by omega⟩

/-! ## Operations -/

theorem ensureElementCapacity_spec (requiredSiz : Nat) :
    Outcome (fun _ => builder.spread conf < requiredSiz →
        builder.empty = true ∨ builder.canWildMove conf = true)
      (builder.ensureElementCapacity conf requiredSiz) := by
  unfold ensureElementCapacity
  split_ifs with hcheck
  · trivial
  · intro hlt
    by_contra hnot
    exact hcheck ⟨hlt, hnot⟩

theorem ensureStorageCapacity_spec (requiredSiz newElms : Nat) :
    Outcome (fun _ => True) (builder.ensureStorageCapacity alloc requiredSiz newElms) := by
  unfold ensureStorageCapacity
  split_ifs
  · trivial
  · trivial

theorem selectDestructor_spec (type : ElmType) :
    Outcome (fun armed => armed.data_ = builder.data_ ∧ armed.lock_move = builder.lock_move)
      (builder.selectDestructor conf type) := by
  unfold selectDestructor
  simp only
  cases type with
  | commonType =>
    split_ifs <;> trivial
  | other traits =>
    split_ifs <;> trivial

/-- Constructing an element behind those present. -/
theorem createAt_spec (h : bucket.Holds conf elms) {elm : Element conf}
    (hsize : elm.bytes.length ≤ bucket.spread)
    (hspace : (bucket.cnt + 1) * bucket.spread ≤ bucket.buffSiz) :
    ∃ filled, createAt conf bucket.cnt elm bucket = .ok filled ∧
      filled.spread = bucket.spread ∧ filled.buffSiz = bucket.buffSiz ∧
      ({ filled with cnt := bucket.cnt + 1 } : ArrayBucket).Holds conf (elms ++ [elm]) := by
  have hpos := h.spread_pos
  have hslot : (bucket.cnt + 1) * bucket.spread = bucket.cnt * bucket.spread + bucket.spread :=
    Nat.succ_mul _ _
  unfold createAt
  rw [if_neg (by omega), if_neg (by omega)]
  refine ⟨_, rfl, rfl, rfl, ?_⟩
  constructor
  case cnt_eq =>
    rw [length_append, ← h.cnt_eq]
    rfl
  case types_eq =>
    rw [map_append, ← h.types_eq]
    rfl
  case spread_pos => exact hpos
  case size_le =>
    intro e he
    rcases mem_append.mp he with he | he
    · exact h.size_le e he
    · rwa [mem_singleton.mp he]
  case fits => exact hspace
  case stored =>
    intro i e he
    rcases ArrayBucket.getElem?_snoc he with he | ⟨rfl, rfl⟩
    · have hi := (List.getElem?_eq_some_iff.mp he).1
      have hend : i * bucket.spread + bucket.spread ≤ bucket.cnt * bucket.spread :=
        ArrayBucket.slot_le (by rw [h.cnt_eq]; exact hi)
      have hlen := h.size_le e (mem_of_getElem? he)
      exact (h.stored i e he).overwrite (.inl (by omega))
    · rw [← h.cnt_eq]
      exact storedAt_overwrite

theorem probeMoveCapability_data (type : ElmType) : (builder.probeMoveCapability type).data_ = builder.data_ := by
  unfold probeMoveCapability
  cases type with
  | commonType => rfl
  | other traits =>
    simp only
    split_ifs
    · rfl
    · rfl

theorem probeMoveCapability_unlocked (conf : Config) {type : ElmType}
    (h : (builder.probeMoveCapability type).lock_move = false) : builder.lock_move = false ∧
    (type = .commonType ∨ (conf.traits type).triviallyCopyable = true) := by
  unfold probeMoveCapability at h
  cases type with
  | commonType => exact ⟨h, .inl rfl⟩
  | other traits =>
    simp only at h
    split_ifs at h with htrivial
    exact ⟨h, .inr htrivial⟩

section Sound

variable (h : builder.Sound conf elms)

include h

theorem Sound.probeMoveCapability (type : ElmType) :
    (builder.probeMoveCapability type).Sound conf elms where
  none hdata := h.none (probeMoveCapability_data type ▸ hdata)
  holds bucket hdata := h.holds bucket (probeMoveCapability_data type ▸ hdata)
  range bucket hdata := h.range bucket (probeMoveCapability_data type ▸ hdata)
  unlocked hlock := h.unlocked (probeMoveCapability_unlocked conf hlock).1

theorem Sound.adjusted {bucket' : ArrayBucket}
    (hholds : bucket'.Holds conf elms) (hrange : bucket'.cnt * bucket'.spread < 2 ^ 64) :
    ({ builder with data_ := some bucket' } : SeveralBuilder).Sound conf elms where
  none hdata := by cases hdata
  holds _ hdata := Option.some.inj hdata ▸ hholds
  range _ hdata := Option.some.inj hdata ▸ hrange
  unlocked := h.unlocked

/-- Appending an element. -/
theorem emplaceNewElm_spec {elm : Element conf}
    (hharmless : builder.Harmless conf alloc (.emplace elm)) :
    Outcome (fun builder' => builder'.Sound conf (elms ++ [elm]))
      (builder.emplaceNewElm conf alloc elm) := by
  have hsize : elm.bytes.length = (conf.traits elm.type).reqSiz := by
    rw [TypeTraits.reqSiz_eq, elm.length_bytes]
  have hprobed := h.probeMoveCapability elm.type
  have hdata' : (builder.probeMoveCapability elm.type).data_ = builder.data_ :=
    probeMoveCapability_data _
  have hunlocked : (builder.probeMoveCapability elm.type).lock_move = false →
      ∀ e ∈ elms ++ [elm], e.type = .commonType ∨ (conf.traits e.type).triviallyCopyable = true := by
    intro hlock e he
    rcases mem_append.mp he with he | he
    · exact hprobed.unlocked hlock e he
    · rw [mem_singleton.mp he]
      exact (probeMoveCapability_unlocked conf hlock).2
  unfold Harmless at hharmless
  simp only at hharmless
  unfold emplaceNewElm
  generalize builder.probeMoveCapability elm.type = probed at *
  refine (ensureElementCapacity_spec _).bind fun _ hcapacity => ?_
  refine (ensureStorageCapacity_spec _ _).bind fun _ _ => ?_
  -- whatever storage was obtained, the element is constructed behind the others
  have hfinish : ∀ bucket' : ArrayBucket, bucket'.Holds conf elms →
      elm.bytes.length ≤ bucket'.spread → (bucket'.cnt + 1) * bucket'.spread ≤ bucket'.buffSiz →
      (bucket'.cnt + 1) * bucket'.spread < 2 ^ 64 →
      Outcome (fun builder' : SeveralBuilder => builder'.Sound conf (elms ++ [elm]))
        ((({ probed with data_ := some bucket' } : SeveralBuilder).selectDestructor conf elm.type).bind
          fun armed => (createAt conf bucket'.cnt elm bucket').map fun filled =>
            { armed with data_ := some { filled with cnt := bucket'.cnt + 1 } }) := by
    intro bucket' hholds hfit hspace hrange
    refine (selectDestructor_spec elm.type).bind fun armed harmed => ?_
    obtain ⟨filled, hfilled, hspread, -, hnew⟩ := createAt_spec hholds hfit hspace
    rw [hfilled]
    exact {
      none := fun hnone => by cases hnone
      holds := fun _ hsome => Option.some.inj hsome ▸ hnew
      range := fun _ hsome => Option.some.inj hsome ▸ (hspread ▸ hrange)
      unlocked := fun hlock => hunlocked (harmed.2 ▸ hlock) }
  cases hdata : builder.data_ with
  | none =>
    rw [hdata] at hharmless hdata'
    obtain rfl : elms = [] := hprobed.none hdata'
    have hempty : probed.empty = true := by rw [empty, hdata']; rfl
    have hsize0 : probed.size = 0 := by rw [SeveralBuilder.size, hdata']; rfl
    have hpos : 0 < probed.spread conf := by
      rw [SeveralBuilder.spread, hdata']
      exact conf.sizeofInterface_pos
    rw [hempty, hsize0]
    refine (adjustStorage_first hdata' hharmless (by omega)).bind ?_
    rintro builder' (⟨hcnt, -⟩ | ⟨bucket', rfl, hholds, hspread, hspace⟩)
    · cases hcnt
    · have hcnt : bucket'.cnt = 0 := hholds.cnt_eq
      have hone : (bucket'.cnt + 1) * bucket'.spread ≤ INITIAL_ELM_CNT * bucket'.spread :=
        Nat.mul_le_mul_right _ (by rw [hcnt]; decide)
      have hfinal := hfinish bucket' hholds (by omega) (by rw [hspread] at hone ⊢; omega)
        (by rw [hspread] at hone ⊢; omega)
      rw [hcnt] at hfinal
      exact hfinal
  | some bucket =>
    rw [hdata] at hharmless hdata'
    obtain ⟨hadj, hequal⟩ := hharmless
    have hholds := hprobed.holds bucket hdata'
    have hempty : probed.empty = false := by rw [empty, hdata']; rfl
    have hsizeEq : probed.size = bucket.cnt := by rw [SeveralBuilder.size, hdata']; rfl
    have hspreadEq := spread_eq conf hdata'
    rw [hempty, hsizeEq]
    rw [hspreadEq] at hadj hequal hcapacity ⊢
    refine (adjustStorage_spec hprobed hdata' hadj (le_max_right _ _) ?_).bind ?_
    · intro hlt
      have hsmaller : bucket.spread < (conf.traits elm.type).reqSiz := by omega
      rcases hcapacity hsmaller with hnone | hwild
      · rw [hempty] at hnone
        cases hnone
      · exact hwild
    · rintro builder' ⟨bucket', rfl, hholds', hspace, hspread⟩
      have hcnt : bucket'.cnt = bucket.cnt := hholds'.cnt_eq.trans hholds.cnt_eq.symm
      have hfinal : elm.bytes.length ≤ bucket'.spread ∧
          bucket'.spread ≤ max (conf.traits elm.type).reqSiz bucket.spread := by
        rcases hspread with heq | ⟨rfl, hsame⟩
        · omega
        · exact ⟨hequal hsame, le_max_right _ _⟩
      have hmul : (bucket.cnt + 1) * bucket'.spread ≤
          (bucket.cnt + 1) * max (conf.traits elm.type).reqSiz bucket.spread :=
        Nat.mul_le_mul_left _ hfinal.2
      have hdone := hfinish bucket' hholds' hfinal.1 (by rw [hcnt]; omega)
        (by rw [hcnt]; exact hmul.trans_lt hadj.range.1)
      rw [hcnt] at hdone
      exact hdone

/-- Reserving storage. -/
theorem reserve_spec {cntElm elmSiz : Nat}
    (hharmless : builder.Harmless conf alloc (.reserve cntElm elmSiz)) :
    Outcome (fun builder' => builder'.Sound conf elms)
      (builder.reserve conf alloc cntElm elmSiz) := by
  unfold Harmless at hharmless
  refine (ensureElementCapacity_spec _).bind fun _ hcapacity => ?_
  refine (ensureStorageCapacity_spec _ _).bind fun _ _ => ?_
  cases hdata : builder.data_ with
  | none =>
    rw [hdata] at hharmless
    obtain rfl : elms = [] := h.none hdata
    have hpos : 0 < builder.spread conf := by
      rw [SeveralBuilder.spread, hdata]
      exact conf.sizeofInterface_pos
    refine (adjustStorage_first hdata hharmless (by omega)).imp ?_
    rintro builder' (⟨-, rfl⟩ | ⟨bucket', rfl, hholds, -, -⟩)
    · exact h
    · have hcnt : bucket'.cnt = 0 := hholds.cnt_eq
      exact h.adjusted hholds (by rw [hcnt]; omega)
  | some bucket =>
    rw [hdata] at hharmless
    have hspreadEq := spread_eq conf hdata
    have hholds := h.holds bucket hdata
    rw [hspreadEq] at hharmless hcapacity ⊢
    refine (adjustStorage_spec h hdata hharmless (le_max_right _ _) ?_).imp ?_
    · intro hlt
      rcases hcapacity (by omega) with hnone | hwild
      · rw [empty, hdata] at hnone
        cases hnone
      · exact hwild
    · rintro builder' ⟨bucket', rfl, hholds', -, hspread⟩
      refine h.adjusted hholds' ?_
      rw [hholds'.cnt_eq.trans hholds.cnt_eq.symm]
      rcases hspread with heq | ⟨rfl, -⟩
      · rw [heq, Nat.mul_comm]
        exact hharmless.range.2
      · exact h.range _ hdata

/-- Discarding excess storage. -/
theorem shrinkFit_spec (hharmless : builder.Harmless conf alloc .shrinkFit) :
    Outcome (fun builder' => builder'.Sound conf elms) (builder.shrinkFit conf alloc) := by
  unfold shrinkFit
  cases hdata : builder.data_ with
  | none =>
    have hempty : builder.empty = true := by rw [empty, hdata]; rfl
    have hcap : builder.capacity conf = .ok 0 := by
      unfold capacity divide SeveralBuilder.spread storageBuffSiz
      rw [hdata]
      have hpos := conf.sizeofInterface_pos
      show (if conf.sizeofInterface = 0 then _ else _) = _
      rw [if_neg (by omega)]
      show Except.ok (0 / conf.sizeofInterface) = _
      rw [Nat.zero_div]
    rw [if_neg (not_not.mpr hempty), hcap]
    exact h
  | some bucket =>
    have hempty : ¬ builder.empty = true := by
      rw [empty, hdata]
      exact Bool.false_ne_true
    obtain ⟨hcnt, hmoves⟩ := hharmless bucket hdata
    have hholds := h.holds bucket hdata
    unfold fitStorage
    rw [hdata]
    simp only
    split_ifs with hmovable
    · obtain ⟨bucket', hrealloc, hholds', hspace, hspread⟩ :=
        realloc_spec alloc hholds hdata (by omega) le_rfl le_rfl fun hno =>
          hmoves.resolve_left (by rw [hno]; exact Bool.false_ne_true)
      rw [hrealloc]
      refine h.adjusted hholds' ?_
      have hsame : bucket'.spread = bucket.spread := by
        rcases hspread with heq | ⟨heq, -⟩
        · exact heq
        · exact heq
      rw [hsame, hholds'.cnt_eq.trans hholds.cnt_eq.symm]
      exact h.range bucket hdata
    · trivial

end Sound

end SeveralBuilder

namespace Building

open SeveralBuilder

variable {conf : Config}

/-- The operation adjusts the storage only in a way which is possible. -/
def Harmless (s : Building conf) (op : Allocator × Operation conf) : Prop :=
  s.builder.Harmless conf op.1 op.2

/-- **The container holds exactly the elements appended**, in order, each within the spread at its index,
and all within the buffer. -/
def Sound (s : Building conf) : Prop :=
  match s.builder.data_ with
  | none => s.elms = []
  | some bucket => bucket.Holds conf s.elms

theorem perform_spec {s : Building conf} (h : s.builder.Sound conf s.elms) {op : Allocator × Operation conf}
    (hharmless : s.Harmless op) : Outcome (fun t => t.builder.Sound conf t.elms) (s.perform op.1 op.2) := by
  obtain ⟨alloc, op⟩ := op
  cases op with
  | emplace elm => exact (emplaceNewElm_spec h hharmless).map fun _ hsound => hsound
  | reserve cntElm elmSiz => exact (reserve_spec h hharmless).map fun _ hsound => hsound
  | shrinkFit => exact (shrinkFit_spec h hharmless).map fun _ hsound => hsound

theorem sound_of_reachable {s : Building conf} (hreach : ((machine conf).restrict Harmless).Reachable s) :
    s.builder.Sound conf s.elms := by
  have hinv : ((machine conf).restrict Harmless).Invariant
      fun s => s.builder.Sound conf s.elms := by
    constructor
    case init =>
      rintro s rfl
      exact initial_sound
    case step =>
      rintro s op t hsound ⟨hharmless, hstep⟩
      have houtcome := perform_spec hsound hharmless
      have hok : (s.perform op.1 op.2).toOption = some t := hstep
      cases hresult : s.perform op.1 op.2 with
      | error failure =>
        rw [hresult] at hok
        cases hok
      | ok t' =>
        rw [hresult] at hok houtcome
        cases hok
        exact houtcome
  exact hinv.reachable hreach

/-- **Elements are kept**: in every run which adjusts the storage only in a way which is possible, the
container holds the elements appended, and nothing breaks. -/
theorem elements_kept (s : Building conf) (hreach : ((machine conf).restrict Harmless).Reachable s) : s.Sound ∧
    ∀ alloc op breakage, s.Harmless (alloc, op) → s.perform alloc op ≠ .error (.broken breakage) := by
  have hsound := sound_of_reachable hreach
  constructor
  · unfold Sound
    cases hdata : s.builder.data_ with
    | none => exact hsound.none hdata
    | some bucket => exact hsound.holds bucket hdata
  · intro alloc op breakage hharmless
    exact (perform_spec hsound hharmless).ne_broken breakage

theorem isPowerOfTwo_eight : (8).isPowerOfTwo := ⟨3, rfl⟩

/-- Trivial types of a given number of machine words. -/
def words (n : Nat) (h : 0 < n) : TypeTraits where
  size := n * 8
  alignment := 8
  triviallyCopyable := true
  triviallyDestructible := true
  subclassOfInterface := false
  size_pos := by omega
  alignment_pow := isPowerOfTwo_eight
  alignment_dvd := Nat.dvd_mul_left 8 n

/-- A container for `long` values, on the heap. -/
def longConf : Config where
  sizeofInterface := 8
  virtualDestructor := false
  common := words 1 Nat.one_pos
  commonMovable := true
  ALLOC_LIMIT := (2 ^ 64 - 1) / 8
  sizeofInterface_pos := Nat.succ_pos 7

/-- A `long` value. -/
def longElm : Element longConf := ⟨.commonType, List.replicate 8 1, by decide⟩

/-- A trivial element of two machine words. -/
def doubleElm : Element longConf :=
  ⟨.other (words 2 Nat.two_pos), List.replicate 16 2, by decide⟩

/-- A trivial element of twelve machine words. -/
def wideElm : Element longConf :=
  ⟨.other (words 12 (Nat.succ_pos 11)), List.replicate 96 3, by decide⟩

/-- A `long` value is moved into a larger buffer, as a much wider element is appended. -/
theorem elements_kept_long : ∃ (s : Building longConf) (bucket : ArrayBucket),
    s.builder.data_ = some bucket ∧ (bucket.cnt, bucket.spread, bucket.buffSiz) = (2, 96, 960) ∧ s.Sound := by
  obtain ⟨builder, elms, hfirst, mem, rfl⟩ : ∃ builder elms, ((⟨.initial, []⟩ : Building longConf).perform
      heapAlloc (.emplace longElm)).toOption = some ⟨builder, elms⟩ ∧ ∃ mem, builder =
        ⟨some ⟨1, 8, 80, 64, mem, [.commonType]⟩, some .trivial, false⟩ := ⟨_, _, rfl, _, rfl⟩
  have hstep : ((machine longConf).restrict Harmless).step ⟨.initial, []⟩
      (heapAlloc, .emplace longElm) ⟨_, elms⟩ := ⟨(by decide : 10 * 8 < 2 ^ 64), hfirst⟩
  have hadj : Adjustable longConf heapAlloc ⟨some ⟨1, 8, 80, 64, mem, [.commonType]⟩, some .trivial, false⟩
      ⟨1, 8, 80, 64, mem, [.commonType]⟩ 2 96 :=
    { range := (by decide : 2 * 96 < 2 ^ 64 ∧ 96 * 1 < 2 ^ 64)
      inPlace := fun h => absurd (show 2 * 96 < 80 from h) (by decide)
      enough := fun _ => .inl (show 1 ≤ 2 by decide)
      expanded := fun _ _ h => absurd h Nat.one_ne_zero
      moved := fun _ => .inr fun type htype => by rw [mem_singleton.mp htype]; rfl }
  have hharmless : Harmless ⟨⟨some ⟨1, 8, 80, 64, mem, [.commonType]⟩, some .trivial, false⟩, elms⟩
      (heapAlloc, .emplace wideElm) :=
    ⟨hadj, fun h => absurd (show 2 * 96 = 80 from h) (by decide)⟩
  have houtcome : ((⟨.initial, []⟩ : Building longConf).perform heapAlloc (.emplace longElm)).toOption.bind
      (fun s => (s.perform heapAlloc (.emplace wideElm)).toOption.bind fun t => t.builder.data_.map
        fun bucket => (bucket.cnt, bucket.spread, bucket.buffSiz)) = some (2, 96, 960) := by
    decide +kernel
  rw [hfirst, Option.bind_some] at houtcome
  obtain ⟨t, hsecond, hresult⟩ := Option.bind_eq_some_iff.mp houtcome
  obtain ⟨bucket, hdata, hbucket⟩ := Option.map_eq_some_iff.mp hresult
  have hreach := ((Machine.Reachable.of_init rfl).step hstep).step (t := t) ⟨hharmless, hsecond⟩
  exact ⟨t, bucket, hdata, hbucket, (elements_kept t hreach).1⟩

/-- **A larger element added to reserved storage** is placed beyond the spread, when the demand happens to
equal the size of the buffer. Otherwise, the elements are spread out beyond the bounds of the buffer, since
there are none. -/
theorem not_kept_after_reserve :
    (∃ s : Building longConf, (machine longConf).Reachable s ∧ ¬ s.Sound) ∧
    ∃ s : Building longConf, (machine longConf).Reachable s ∧
      s.perform heapAlloc (.emplace doubleElm) = .error (.broken .outsideBuffer) := by
  constructor
  · obtain ⟨s, hreach, hp⟩ := Machine.exists_reachable_of_exec
      (fun (s : Building longConf) op => (s.perform op.1 op.2).toOption) ⟨.initial, []⟩
      [(heapAlloc, .reserve 2 8), (heapAlloc, .emplace doubleElm)]
      (fun s => s.builder.data_.any (·.spread == 8) && s.elms.any (·.bytes.length == 16)) rfl
    refine ⟨s, hreach, ?_⟩
    intro hsound
    obtain ⟨hspread, helm⟩ := Bool.and_eq_true_iff.mp hp
    obtain ⟨elm, hmem, hlen⟩ := any_eq_true.mp helm
    unfold Sound at hsound
    cases hdata : s.builder.data_ with
    | none =>
      rw [hdata] at hspread
      cases hspread
    | some bucket =>
      rw [hdata] at hspread hsound
      have hle := hsound.size_le elm hmem
      have h8 : bucket.spread = 8 := eq_of_beq hspread
      have h16 := eq_of_beq hlen
      omega
  · obtain ⟨s, hs⟩ : ∃ s, ((⟨.initial, []⟩ : Building longConf).perform heapAlloc
        (.reserve 4 8)).toOption = some s := ⟨_, rfl⟩
    have hstep : (machine longConf).step ⟨.initial, []⟩ (heapAlloc, .reserve 4 8) s := hs
    refine ⟨s, (Machine.Reachable.of_init rfl).step hstep, ?_⟩
    cases hs
    rfl

end Building

end Lumiera.Lib
