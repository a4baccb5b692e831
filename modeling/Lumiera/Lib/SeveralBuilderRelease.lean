import Lumiera.Lib.SeveralBuilderLifecycle

/-! # Growth of a SeveralBuilder, and the release of its storage

Growth of the storage should be all or nothing, and each block of memory should be released exactly once.
Yet when copying an element raises, `realloc` destroys the new bucket, returns it nonetheless, and does not
propagate the exception; and the block of a bucket which is not armed is never released
(`growsSafely_iff`). -/

namespace Lumiera.Lib

namespace ManagedBuilder

variable (conf : Config)

/-! ## What is expected -/

/-- The current bucket, if there is one, is armed with a deleter. -/
def Armed (s : ManagedBuilder) : Prop := ∀ data, s.data_ = some data → data.dtor_.isSome = true

/-- Copying an element into another bucket raises, when the bucket is replaced by one of this size. -/
def ReallocRaises (env : Circumstances) (cnt spread : Nat) (s : ManagedBuilder) : Prop :=
  ∃ data bucket moved, s.data_ = some data ∧ s.view.canExpand env.alloc (cnt * spread) = false ∧
    env.exhausted = false ∧ ArrayBucket.create conf env.alloc cnt spread = .ok bucket ∧
      moveElems conf env data.bucket bucket (min cnt data.bucket.cnt) = .raised moved

/-- Likewise, when the capacity is adjusted such that the storage has to grow. -/
def AdjustRaises (env : Circumstances) (cnt spread : Nat) (s : ManagedBuilder) : Prop :=
  s.view.storageBuffSiz < size_t (cnt * spread) ∧
    ∃ newCnt, expandedCount conf cnt spread s.view = .ok newCnt ∧ ReallocRaises conf env newCnt spread s

/-- **Copying an element raises during the operation**, while the storage is replaced. -/
def CopyRaises (env : Circumstances) (s : ManagedBuilder) : Operation conf → Prop
  | .emplace elm =>
    let s := s.probe conf elm
    let elmSiz := (conf.traits elm.type).reqSiz
    let newCnt := if s.view.empty then INITIAL_ELM_CNT else s.view.size + 1
    s.view.ensureElementCapacity conf elmSiz = .ok () ∧ s.view.ensureStorageCapacity env.alloc elmSiz 1 = .ok () ∧
      AdjustRaises conf env newCnt (max elmSiz (s.view.spread conf)) s
  | .reserve cntElm elmSiz =>
    s.view.ensureElementCapacity conf elmSiz = .ok () ∧
      s.view.ensureStorageCapacity env.alloc elmSiz (cntElm - s.view.size) = .ok () ∧
        AdjustRaises conf env cntElm (max elmSiz (s.view.spread conf)) s
  | .shrinkFit =>
    ∃ data, s.data_ = some data ∧ (s.view.canExpand env.alloc data.bucket.cnt ∨ s.view.canDynGrow) ∧
      ReallocRaises conf env data.bucket.cnt data.bucket.spread s

/-- **All or nothing**: the exception is propagated, and the builder holds the old elements, in storage
which is valid. -/
def AllOrNothing (env : Circumstances) (s : ManagedBuilder) (op : Operation conf) : Prop :=
  ∃ s', s.perform conf env op = .raised s' ∧ s'.data_ = s.data_ ∧ s'.dangling = false

/-- **Everything is released exactly once** when the builder, or the collection built, is destroyed. -/
def ReleasesOnce (s : ManagedBuilder) : Prop :=
  ∃ released, s.destroy = some released ∧ ∀ block < s.obtained, released.count block = 1

/-- **Growth is safe** in the course of a number of operations: when copying an element raises, then it is all
or nothing; and whenever the builder is destroyed, everything is released exactly once. -/
def GrowsSafely : ManagedBuilder → List (Circumstances × Operation conf) → Prop
  | s, [] => ReleasesOnce s
  | s, (env, op) :: ops => ReleasesOnce s ∧ (CopyRaises conf env s op → AllOrNothing conf env s op) ∧
      (s.perform conf env op).Yields fun s' => GrowsSafely s' ops

/-- **The operations are undisturbed**: copying an element never raises, and there is no bucket without a
deleter. -/
def Undisturbed : ManagedBuilder → List (Circumstances × Operation conf) → Prop
  | s, [] => Armed s
  | s, (env, op) :: ops => Armed s ∧ ¬ CopyRaises conf env s op ∧
      (s.perform conf env op).Yields fun s' => Undisturbed s' ops

/-! ## The account of blocks -/

/-- **The account of blocks**: all of those obtained have been released exactly once, other than the current one. -/
structure Settled (s : ManagedBuilder) : Prop where
  current_lt : ∀ block, s.block = some block → block < s.obtained
  count_released : ∀ block, s.released.count block =
    if block < s.obtained ∧ s.block ≠ some block then 1 else 0

/-- The account is the same. -/
structure SameAccount (s s' : ManagedBuilder) : Prop where
  block_eq : s'.block = s.block
  obtained_eq : s'.obtained = s.obtained
  released_eq : s'.released = s.released

variable {conf} {env : Circumstances} {s s' : ManagedBuilder} {cnt spread : Nat}

theorem SameAccount.refl (s : ManagedBuilder) : SameAccount s s := ⟨rfl, rfl, rfl⟩

theorem SameAccount.trans {s'' : ManagedBuilder} (h : SameAccount s s') (h' : SameAccount s' s'') :
    SameAccount s s'' :=
  ⟨h'.block_eq.trans h.block_eq, h'.obtained_eq.trans h.obtained_eq, h'.released_eq.trans h.released_eq⟩

theorem Settled.same (h : Settled s) (hsame : SameAccount s s') : Settled s' := by
  obtain ⟨hblock, hobtained, hreleased⟩ := hsame
  refine ⟨?_, ?_⟩
  · rw [hblock, hobtained]
    exact h.current_lt
  · rw [hblock, hobtained, hreleased]
    exact h.count_released

theorem settled_initial : Settled initial := by
  refine ⟨fun block hblock => ?_, fun block => ?_⟩
  · cases hblock
  · rfl

theorem Settled.not_dangling (h : Settled s) : s.dangling = false := by
  unfold dangling
  cases hblock : s.block with
  | none => rfl
  | some block =>
    have hcount := h.count_released block
    rw [if_neg fun hlt => hlt.2 hblock] at hcount
    rw [Option.map_some, Option.getD_some, List.contains_eq_mem, decide_eq_false_iff_not]
    exact List.count_eq_zero.mp hcount

/-- Destruction settles the account, if and only if the bucket is armed. -/
theorem Settled.releasesOnce_iff (h : Settled s) : ReleasesOnce s ↔ Armed s := by
  unfold ReleasesOnce Armed destroy
  rw [h.not_dangling]
  cases hdata : s.data_ with
  | none =>
    have hnone : s.block = none := by
      rw [ManagedBuilder.block, hdata]
      rfl
    refine iff_of_true ⟨_, rfl, fun block hlt => ?_⟩ fun _ hsome => by cases hsome
    rw [h.count_released, hnone, if_pos ⟨hlt, fun hsome => by cases hsome⟩]
  | some data =>
    have hcurrent : s.block = some data.block := by
      rw [ManagedBuilder.block, hdata]
      rfl
    simp only [Option.some.injEq, forall_eq', exists_eq_left', Bool.false_eq_true, ite_false]
    unfold Placed.destroy
    constructor
    · intro hreleased
      by_contra hunarmed
      rw [if_neg hunarmed] at hreleased
      have hone := hreleased data.block (h.current_lt _ hcurrent)
      rw [h.count_released, if_neg fun hlt => hlt.2 hcurrent] at hone
      cases hone
    · intro harmed block hlt
      rw [if_pos harmed, List.count_cons, h.count_released, hcurrent]
      by_cases heq : data.block = block
      · simp [heq]
      · simp [heq, hlt]

/-- A new block takes the place of the current one, which is released when it is armed. -/
theorem Settled.obtain (h : Settled s) (harmed : Armed s) (hblock : s'.block = some s.obtained)
    (hobtained : s'.obtained = s.obtained + 1)
    (hreleased : s'.released = (s.data_.map fun data => data.destroy s.released).getD s.released) :
    Settled s' := by
  refine ⟨fun block hcurrent => ?_, fun block => ?_⟩
  · obtain rfl : s.obtained = block := Option.some.inj (hblock.symm.trans hcurrent)
    rw [hobtained]
    exact Nat.lt_succ_self _
  · rw [hblock, hobtained, hreleased]
    have hcount := h.count_released block
    cases hdata : s.data_ with
    | none =>
      have hnone : s.block = none := by
        rw [ManagedBuilder.block, hdata]
        rfl
      rw [hnone] at hcount
      rw [Option.map_none, Option.getD_none, hcount]
      simp only [ne_eq, Option.some.injEq, reduceCtorEq, not_false_eq_true, and_true]
      congr 1
      exact propext (by omega)
    | some data =>
      have hcurrent : s.block = some data.block := by
        rw [ManagedBuilder.block, hdata]
        rfl
      have hlt := h.current_lt _ hcurrent
      rw [hcurrent] at hcount
      rw [Option.map_some, Option.getD_some, Placed.destroy, if_pos (harmed data hdata), List.count_cons, hcount]
      by_cases heq : data.block = block
      · subst heq
        have hne : s.obtained ≠ data.block := by omega
        simp [hne, Nat.lt_succ_of_lt hlt]
      · have hne : (data.block == block) = false := by simpa using heq
        have hiff : block < s.obtained + 1 ∧ some s.obtained ≠ some block ↔
            block < s.obtained ∧ some data.block ≠ some block := by
          simp only [ne_eq, Option.some.injEq]
          omega
        simp only [hne, Bool.false_eq_true, if_false, Nat.add_zero, hiff]

/-! ## The effect of the operations -/

theorem lift_cases {α : Type} (r : Except Failure α) (s : ManagedBuilder) :
    Attempt.lift r s = .halted ∨ Attempt.lift r s = .raised s ∨ ∃ a, r = .ok a ∧ Attempt.lift r s = .ok a s := by
  unfold Attempt.lift
  split
  · rename_i a
    exact .inr (.inr ⟨a, rfl, rfl⟩)
  · exact .inl rfl
  · exact .inr (.inl rfl)

variable {P : ManagedBuilder → Prop}

theorem lift_bind_yields {α β : Type} {r : Except Failure α} {f : α → ManagedBuilder → Attempt ManagedBuilder β}
    (hexc : P s) (hnext : ∀ a, r = .ok a → (f a s).Yields P) : ((Attempt.lift r s).bind f).Yields P := by
  rcases lift_cases r s with heq | heq | ⟨a, ha, heq⟩
  · rw [heq]
    exact Attempt.yields_halted
  · rw [heq]
    exact Attempt.yields_raised.mpr hexc
  · rw [heq]
    exact hnext a ha

theorem lift_ok {α : Type} {r : Except Failure α} {a : α} (h : r = .ok a) : Attempt.lift r s = .ok a s := by
  rw [h]
  rfl

theorem create_cases (conf : Config) (env : Circumstances) (cnt spread : Nat) (s : ManagedBuilder) :
    create conf env cnt spread s = .halted ∨ create conf env cnt spread s = .raised s ∨
      ∃ bucket, env.exhausted = false ∧ ArrayBucket.create conf env.alloc cnt spread = .ok bucket ∧
        create conf env cnt spread s = .ok ⟨s.obtained, bucket, none⟩ { s with obtained := s.obtained + 1 } := by
  unfold create
  split_ifs with hzero hexhausted
  · exact .inl rfl
  · exact .inr (.inl rfl)
  · cases hbucket : ArrayBucket.create conf env.alloc cnt spread with
    | ok bucket => exact .inr (.inr ⟨bucket, eq_false_of_ne_true hexhausted, rfl, rfl⟩)
    | error _ => exact .inl rfl

theorem block_eq {data : Placed} (hdata : s.data_ = some data) : s.block = some data.block := by
  rw [ManagedBuilder.block, hdata]
  rfl

/-- Replacing the bucket settles the account, when no exception is raised by the way. -/
theorem realloc_settled (h : Settled s) (harmed : Armed s) (hraises : ¬ ReallocRaises conf env cnt spread s) :
    (s.realloc conf env cnt spread).Yields Settled := by
  unfold realloc
  by_cases hzero : cnt * spread = 0
  · rw [if_pos hzero]
    exact Attempt.yields_halted
  rw [if_neg hzero]
  have hcreate := create_cases conf env cnt spread s
  cases hdata : s.data_ with
  | none =>
    rcases hcreate with heq | heq | ⟨bucket, -, -, heq⟩
    · simp only [heq, Attempt.bind_halted, Attempt.yields_halted]
    · simpa only [heq, Attempt.bind_raised, Attempt.yields_raised] using h
    · simp only [heq, Attempt.bind_ok, Attempt.yields_ok]
      exact h.obtain harmed rfl rfl (by rw [hdata]; rfl)
  | some data =>
    by_cases hexpand : s.view.canExpand env.alloc (cnt * spread) = true
    · simp only [if_pos hexpand, Attempt.yields_ok]
      exact h.same ⟨(block_eq hdata).symm, rfl, rfl⟩
    simp only [if_neg hexpand]
    unfold replaceBucket
    rcases hcreate with heq | heq | ⟨bucket, hexhausted, hbucket, heq⟩
    · simp only [heq, Attempt.bind_halted, Attempt.yields_halted]
    · simpa only [heq, Attempt.bind_raised, Attempt.yields_raised] using h
    · simp only [heq, Attempt.bind_ok]
      cases hmoved : moveElems conf env data.bucket bucket (min cnt data.bucket.cnt) with
      | halted => exact Attempt.yields_halted
      | ok _ moved => exact Attempt.yields_ok.mpr (h.obtain harmed rfl rfl (by rw [hdata]; rfl))
      | raised moved =>
        exact absurd ⟨data, bucket, moved, hdata, eq_false_of_ne_true hexpand, hexhausted, hbucket, hmoved⟩
          hraises

/-- When an exception is raised by the way, there is another bucket nonetheless. -/
theorem realloc_raises (hraises : ReallocRaises conf env cnt spread s) :
    (s.realloc conf env cnt spread).Yields fun s' => s'.block = some s.obtained := by
  obtain ⟨data, bucket, moved, hdata, hexpand, hexhausted, hbucket, hmoved⟩ := hraises
  unfold realloc
  by_cases hzero : cnt * spread = 0
  · rw [if_pos hzero]
    exact Attempt.yields_halted
  have hnew : create conf env cnt spread s = .halted ∨
      create conf env cnt spread s = .ok ⟨s.obtained, bucket, none⟩ { s with obtained := s.obtained + 1 } := by
    unfold create
    split_ifs with hnothing hraised
    · exact .inl rfl
    · rw [hexhausted] at hraised
      cases hraised
    · rw [hbucket]
      exact .inr rfl
  simp only [if_neg hzero, hdata, hexpand, Bool.false_eq_true, if_false, replaceBucket]
  rcases hnew with heq | heq
  · simp only [heq, Attempt.bind_halted, Attempt.yields_halted]
  · simp only [heq, Attempt.bind_ok, hmoved, Attempt.yields_ok]
    rfl

theorem adjustStorage_yields (hP : ∀ s s', SameAccount s s' → P s → P s')
    (hsame : ¬ s.view.storageBuffSiz < size_t (cnt * spread) → P s)
    (hgrow : s.view.storageBuffSiz < size_t (cnt * spread) → (s.growStorage conf env cnt spread).Yields P) :
    (s.adjustStorage conf env cnt spread).Yields P := by
  unfold adjustStorage
  by_cases heq : size_t (cnt * spread) = s.view.storageBuffSiz
  · simp only [if_pos heq, Attempt.yields_ok]
    exact hsame (by omega)
  have hadjusted : (if size_t (cnt * spread) > s.view.storageBuffSiz then s.growStorage conf env cnt spread
      else Attempt.ok () s).Yields P := by
    split_ifs with hlt
    · exact hgrow hlt
    · exact Attempt.yields_ok.mpr (hsame hlt)
  simp only [if_neg heq]
  refine hadjusted.bind (fun _ h => h) fun _ s h => ?_
  cases hdata : s.data_ with
  | none => exact Attempt.yields_halted
  | some data =>
    simp only
    split_ifs
    · exact Attempt.yields_halted
    · refine lift_bind_yields h fun moved _ => Attempt.yields_ok.mpr (hP s _ ⟨?_, rfl, rfl⟩ h)
      exact (block_eq hdata).symm
    · exact Attempt.yields_ok.mpr h
    · exact Attempt.yields_ok.mpr h

theorem ensureDeleter_same (type : ElmType) : (s.ensureDeleter conf type).Yields (SameAccount s) := by
  refine lift_bind_yields (.refl s) fun marked _ => ?_
  cases hdata : s.data_ with
  | none => exact Attempt.yields_halted
  | some data =>
    simp only
    split_ifs
    · exact Attempt.yields_halted
    · exact Attempt.yields_ok.mpr ⟨(block_eq hdata).symm, rfl, rfl⟩
    · exact Attempt.yields_ok.mpr ⟨(block_eq hdata).symm, rfl, rfl⟩

theorem createAt_same (newPos : Nat) (elm : Element conf) :
    (s.createAt conf env newPos elm).Yields (SameAccount s) := by
  unfold createAt
  cases hdata : s.data_ with
  | none => exact Attempt.yields_halted
  | some data =>
    simp only
    split
    · exact Attempt.yields_halted
    · split_ifs
      · exact Attempt.yields_raised.mpr (.refl s)
      · exact Attempt.yields_ok.mpr ⟨(block_eq hdata).symm, rfl, rfl⟩

theorem adjustStorage_settled (h : Settled s) (harmed : Armed s) (hraises : ¬ AdjustRaises conf env cnt spread s) :
    (s.adjustStorage conf env cnt spread).Yields Settled := by
  refine adjustStorage_yields (fun _ _ hsame hsettled => hsettled.same hsame) (fun _ => h) fun hlt => ?_
  exact lift_bind_yields h fun newCnt hcnt =>
    realloc_settled h harmed fun hrealloc => hraises ⟨hlt, newCnt, hcnt, hrealloc⟩

theorem adjustStorage_raises (hraises : AdjustRaises conf env cnt spread s) :
    (s.adjustStorage conf env cnt spread).Yields fun s' => s'.block = some s.obtained := by
  obtain ⟨hlt, newCnt, hcnt, hrealloc⟩ := hraises
  refine adjustStorage_yields (fun _ _ hsame hblock => hsame.block_eq.trans hblock) (fun hle => absurd hlt hle)
    fun _ => ?_
  rw [growStorage, lift_ok hcnt]
  exact realloc_raises hrealloc

/-- **The course of appending an element**: what concerns the account is decided by the checks, and by adjusting
the storage. -/
theorem emplaceNewElm_yields (hP : ∀ s s', SameAccount s s' → P s → P s')
    {elm : Element conf} {probed : ManagedBuilder} (hprobed : s.probe conf elm = probed)
    (hexc : ¬ (probed.view.ensureElementCapacity conf (conf.traits elm.type).reqSiz = .ok () ∧
      probed.view.ensureStorageCapacity env.alloc (conf.traits elm.type).reqSiz 1 = .ok ()) → P probed)
    (hadjust : probed.view.ensureElementCapacity conf (conf.traits elm.type).reqSiz = .ok () →
      probed.view.ensureStorageCapacity env.alloc (conf.traits elm.type).reqSiz 1 = .ok () →
      (probed.adjustStorage conf env (if probed.view.empty then INITIAL_ELM_CNT else probed.view.size + 1)
        (max (conf.traits elm.type).reqSiz (probed.view.spread conf))).Yields P) :
    (s.emplaceNewElm conf env elm).Yields P := by
  unfold emplaceNewElm
  rw [hprobed]
  by_cases hchecked : probed.view.ensureElementCapacity conf (conf.traits elm.type).reqSiz = .ok () ∧
      probed.view.ensureStorageCapacity env.alloc (conf.traits elm.type).reqSiz 1 = .ok ()
  · obtain ⟨hcapacity, hstorage⟩ := hchecked
    simp only [lift_ok hcapacity, lift_ok hstorage, Attempt.bind_ok]
    refine (hadjust hcapacity hstorage).bind (fun _ h => h) fun _ adjusted h => ?_
    refine (ensureDeleter_same elm.type).bind (fun _ hsame => hP _ _ hsame h) fun _ armed hsame => ?_
    intro final hfinal
    exact hP _ _ (hsame.trans (createAt_same _ _ final hfinal)) h
  · refine lift_bind_yields (hexc hchecked) fun _ hcapacity => ?_
    refine lift_bind_yields (hexc hchecked) fun _ hstorage => ?_
    exact absurd ⟨hcapacity, hstorage⟩ hchecked

variable {op : Operation conf}

/-- An operation settles the account, when no exception is raised while copying. -/
theorem perform_settled (h : Settled s) (harmed : Armed s) (hraises : ¬ CopyRaises conf env s op) :
    (s.perform conf env op).Yields Settled := by
  cases op with
  | emplace elm =>
    simp only [perform, h.not_dangling]
    have hsame : SameAccount s (s.probe conf elm) := ⟨rfl, rfl, rfl⟩
    have hprobed := h.same hsame
    refine emplaceNewElm_yields (fun _ _ hsame hsettled => hsettled.same hsame) rfl (fun _ => hprobed) ?_
    intro hcapacity hstorage
    exact adjustStorage_settled hprobed harmed fun hadjust => hraises ⟨hcapacity, hstorage, hadjust⟩
  | reserve cntElm elmSiz =>
    simp only [perform, h.not_dangling]
    refine lift_bind_yields h fun _ hcapacity => lift_bind_yields h fun _ hstorage => ?_
    exact adjustStorage_settled h harmed fun hadjust => hraises ⟨hcapacity, hstorage, hadjust⟩
  | shrinkFit =>
    simp only [perform, h.not_dangling]
    have hfit : (s.fitStorage conf env).Yields Settled := by
      unfold fitStorage
      cases hdata : s.data_ with
      | none => exact Attempt.yields_halted
      | some data =>
        simp only
        split_ifs with hmovable
        · exact realloc_settled h harmed fun hrealloc => hraises ⟨data, hdata, hmovable, hrealloc⟩
        · exact Attempt.yields_raised.mpr h
    rw [shrinkFit]
    by_cases hempty : s.view.empty = true
    · rw [if_neg (not_not_intro hempty)]
      refine lift_bind_yields h fun capacity _ => ?_
      split_ifs
      · exact hfit
      · exact Attempt.yields_ok.mpr h
    · rwa [if_pos hempty]

/-- When an exception is raised while copying, the builder is left with another bucket. -/
theorem perform_raises (hraises : CopyRaises conf env s op) :
    (s.perform conf env op).Yields fun s' => s'.block = some s.obtained := by
  by_cases hdangling : s.dangling = true
  · cases op <;> simp only [perform, hdangling, if_true, Attempt.yields_halted]
  cases op with
  | emplace elm =>
    obtain ⟨hcapacity, hstorage, hadjust⟩ := hraises
    rw [perform, if_neg hdangling]
    exact emplaceNewElm_yields (fun _ _ hsame hblock => hsame.block_eq.trans hblock) rfl
      (fun hexc => absurd ⟨hcapacity, hstorage⟩ hexc) fun _ _ => adjustStorage_raises hadjust
  | reserve cntElm elmSiz =>
    obtain ⟨hcapacity, hstorage, hadjust⟩ := hraises
    rw [perform, if_neg hdangling, reserve]
    simp only [lift_ok hcapacity, lift_ok hstorage, Attempt.bind_ok]
    exact adjustStorage_raises hadjust
  | shrinkFit =>
    obtain ⟨data, hdata, hmovable, hrealloc⟩ := hraises
    have hfull : ¬ s.view.empty = true := by
      simp [view, SeveralBuilder.empty, hdata]
    rw [perform, if_neg hdangling, shrinkFit, if_pos hfull, fitStorage, hdata]
    simp only [if_pos hmovable]
    exact realloc_raises hrealloc

theorem not_allOrNothing (h : Settled s) (hraises : CopyRaises conf env s op) : ¬ AllOrNothing conf env s op := by
  rintro ⟨s', hperform, hsame, -⟩
  have hblock : s'.block = some s.obtained := perform_raises hraises s' (by rw [hperform]; rfl)
  rw [ManagedBuilder.block, hsame] at hblock
  exact Nat.lt_irrefl _ (h.current_lt _ hblock)

/-! ## In the course of the operations -/

/-- Growth is safe if and only if the operations are undisturbed, from any settled state. -/
theorem Settled.growsSafely_from_iff (h : Settled s) (ops : List (Circumstances × Operation conf)) :
    GrowsSafely conf s ops ↔ Undisturbed conf s ops := by
  induction ops generalizing s with
  | nil => exact h.releasesOnce_iff
  | cons next ops ih =>
    obtain ⟨env, op⟩ := next
    rw [GrowsSafely, h.releasesOnce_iff]
    constructor
    · rintro ⟨harmed, hgrowth, hnext⟩
      have hraises : ¬ CopyRaises conf env s op := fun hraises => not_allOrNothing h hraises (hgrowth hraises)
      refine ⟨harmed, hraises, fun s' hs' => ?_⟩
      exact (ih (perform_settled h harmed hraises s' hs')).mp (hnext s' hs')
    · rintro ⟨harmed, hraises, hnext⟩
      refine ⟨harmed, fun h => absurd h hraises, fun s' hs' => ?_⟩
      exact (ih (perform_settled h harmed hraises s' hs')).mpr (hnext s' hs')

/-- **Growth is safe if and only if the operations are undisturbed**, in any use of a builder. -/
theorem growsSafely_iff (conf : Config) (ops : List (Circumstances × Operation conf)) :
    GrowsSafely conf initial ops ↔ Undisturbed conf initial ops :=
  settled_initial.growsSafely_from_iff ops

/-! ## Examples -/

/-- The operations performed one after the other, as long as the program is not halted. -/
def exec (conf : Config) (s : ManagedBuilder) (ops : List (Circumstances × Operation conf)) :
    Option ManagedBuilder :=
  Machine.exec (fun s next => (s.perform conf next.1 next.2).state) s ops

variable {ops : List (Circumstances × Operation conf)}

theorem GrowsSafely.final (h : GrowsSafely conf s ops) (hexec : exec conf s ops = some s') : ReleasesOnce s' := by
  induction ops generalizing s with
  | nil =>
    cases hexec
    exact h
  | cons next ops ih =>
    obtain ⟨t, hstep, hrest⟩ := Option.bind_eq_some_iff.mp hexec
    exact ih (h.2.2 t hstep) hrest

theorem Undisturbed.final (h : Undisturbed conf s ops) (hexec : exec conf s ops = some s') : Armed s' := by
  induction ops generalizing s with
  | nil =>
    cases hexec
    exact h
  | cons next ops ih =>
    obtain ⟨t, hstep, hrest⟩ := Option.bind_eq_some_iff.mp hexec
    exact ih (h.2.2 t hstep) hrest

/-- Elements of 8 bytes which are copied by a constructor. -/
def copiedConf : Config where
  sizeofInterface := 8
  virtualDestructor := false
  common := {
    size := 8
    alignment := 8
    triviallyCopyable := false
    triviallyDestructible := false
    subclassOfInterface := true
    size_pos := by decide
    alignment_pow := ⟨3, rfl⟩
    alignment_dvd := by decide }
  commonMovable := true
  ALLOC_LIMIT := 2 ^ 61
  sizeofInterface_pos := by decide

/-- An element of this type. -/
def copiedElm : Element copiedConf := ⟨.commonType, List.replicate 8 1, by decide⟩

/-- No constructor raises, or the first element can not be copied. -/
def withFault (copyRaises : Bool) : Circumstances :=
  ⟨heapAlloc, false, fun _ => copyRaises, false⟩

/-- An exception while copying is lost, and then the builder refers to storage which was released; storage
reserved without placing an element is never released. -/
theorem not_growsSafely_reserve :
    (exec copiedConf initial [(withFault false, .emplace copiedElm), (withFault true, .reserve 20 8)]).any
      dangling = true ∧
    ¬ GrowsSafely copiedConf initial
      [(withFault false, .emplace copiedElm), (withFault true, .reserve 20 8)] ∧
    ¬ GrowsSafely copiedConf initial [(withFault false, .reserve 5 8)] := by
  have hdangling : (exec copiedConf initial
      [(withFault false, .emplace copiedElm), (withFault true, .reserve 20 8)]).any dangling = true := by
    decide
  have hunarmed : (exec copiedConf initial [(withFault false, .reserve 5 8)]).any
      (fun s => s.data_.any (·.dtor_.isNone)) = true := by
    decide
  refine ⟨hdangling, fun h => ?_, fun h => ?_⟩
  · obtain ⟨s, hexec, hs⟩ := (Option.any_eq_true ..).mp hdangling
    obtain ⟨released, hdestroyed, -⟩ := h.final hexec
    cases hdata : s.data_ with
    | none =>
      rw [dangling, ManagedBuilder.block, hdata] at hs
      cases hs
    | some data =>
      rw [destroy, hdata] at hdestroyed
      simp only [hs, if_true, reduceCtorEq] at hdestroyed
  · obtain ⟨s, hexec, hs⟩ := (Option.any_eq_true ..).mp hunarmed
    obtain ⟨data, hdata, hnone⟩ := (Option.any_eq_true ..).mp hs
    have harmed := ((settled_initial.growsSafely_from_iff _).mp h).final hexec data hdata
    rw [Option.isNone_iff_eq_none.mp hnone] at harmed
    cases harmed

end ManagedBuilder

end Lumiera.Lib
