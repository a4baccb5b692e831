import Lumiera.Base.Machine
import Lumiera.Common.QueryKey

/-! # The registry of default objects (`common/query/defs-registry.hpp`)

The registry is a set of records, ordered by the keys of the queries, each with a weak reference to the
object registered for this query. An enumeration of the candidates keeps two positions, where the second one
is always ahead; yet it is advanced also when it has reached the end already. To look for a record goes by
the order of the keys, while `put` compares the record found with the query for equality. -/

namespace Lumiera.Common

/-- `Record` -/
structure DefsRecord (Obj : Type) where
  queryKey : QueryKey
  /-- the weak reference, which can be empty -/
  objRef : Option Obj

/-- The records for one type of objects, together with the objects which are alive. -/
structure DefsRegistry (Obj : Type) where
  registry : List (DefsRecord Obj)
  alive : Obj → Bool

namespace DefsRegistry

variable {Obj : Type} {s : DefsRegistry Obj} {obj : Option Obj} {query : QueryKey}

/-! ## The set of records -/

/-- The records in front of the `lower_bound`, and those from there on. -/
def lower_bound (query : QueryKey) (set : List (DefsRecord Obj)) : List (DefsRecord Obj) × List (DefsRecord Obj) :=
  (set.takeWhile fun r => r.queryKey.lt query, set.dropWhile fun r => r.queryKey.lt query)

/-- The records from the one with this key on, or none. -/
def find (query : QueryKey) (set : List (DefsRecord Obj)) : List (DefsRecord Obj) :=
  match (lower_bound query set).2 with
  | [] => []
  | r :: pos => if query.lt r.queryKey then [] else r :: pos

/-- A record is inserted, unless there is one with this key. -/
def insert (entry : DefsRecord Obj) (set : List (DefsRecord Obj)) : List (DefsRecord Obj) :=
  match lower_bound entry.queryKey set with
  | (front, []) => front ++ [entry]
  | (front, r :: pos) => if entry.queryKey.lt r.queryKey then front ++ entry :: r :: pos else set

/-- `util::remove_if`, with the elements which were passed so far. After the first element is erased, the
iteration starts over at the new first one; otherwise it steps back before the element is erased. -/
def remove_if {α : Type} (test : α → Bool) : List α → List α → Bool × List α
  | passed, [] => (false, passed)
  | passed, a :: pos =>
    if !test a then remove_if test (passed ++ [a]) pos
    else (true, (remove_if test passed pos).2)

/-! ## Registration -/

def lock (s : DefsRegistry Obj) (r : DefsRecord Obj) : Option Obj := r.objRef.filter s.alive

def put [BEq Obj] (obj : Option Obj) (query : QueryKey) (s : DefsRegistry Obj) : Bool × DefsRegistry Obj :=
  match lower_bound query s.registry with
  | (_, []) => (true, { s with registry := insert ⟨query, obj⟩ s.registry })
  | (front, r :: pos) =>
    if r.queryKey.eq query then
      match s.lock r with
      | some storedObj => (some storedObj == obj, s)
      | none => (true, { s with registry := insert ⟨query, obj⟩ (front ++ pos) })
    else (true, { s with registry := insert ⟨query, obj⟩ s.registry })

/-- `Record::Search` -/
def search [BEq Obj] (s : DefsRegistry Obj) (obj : Option Obj) (r : DefsRecord Obj) : Bool :=
  match s.lock r with
  | some storedObj => some storedObj == obj
  | none => false

def forget [BEq Obj] (obj : Option Obj) (s : DefsRegistry Obj) : Bool × DefsRegistry Obj :=
  match remove_if (s.search obj) [] s.registry with
  | (found, set) => (found, { s with registry := set })

/-- An operation of the clients, or the end of an object. -/
inductive Operation (Obj : Type)
  | put (obj : Option Obj) (query : QueryKey)
  | forget (obj : Option Obj)
  | expire (obj : Obj)

def perform [BEq Obj] [DecidableEq Obj] (s : DefsRegistry Obj) : Operation Obj → DefsRegistry Obj
  | .put obj query => (s.put obj query).2
  | .forget obj => (s.forget obj).2
  | .expire obj => { s with alive := Function.update s.alive obj false }

variable (Obj) in
def machine [BEq Obj] [DecidableEq Obj] : Machine (DefsRegistry Obj) (Operation Obj) where
  init s := s.registry = []
  step s op t := s.perform op = t

/-! ## Enumeration -/

/-- `Iter`, where a position is given by the records from there on. -/
structure Iter (Obj : Type) where
  p : List (DefsRecord Obj)
  i : List (DefsRecord Obj)
  next : Option Obj
  ptr : Option Obj
  /-- whether the end of the registry was advanced -/
  beyond : Bool

/-- The loop of `findNext`, with `p = i++`. -/
def scan (s : DefsRegistry Obj) (ptr : Option Obj) :
    List (DefsRecord Obj) → List (DefsRecord Obj) → Bool → Iter Obj
  | [], i, beyond => ⟨[], i, none, ptr, beyond⟩
  | r :: _, [], _ => ⟨[], [], s.lock r, ptr, true⟩
  | r :: _, r' :: i, beyond =>
    match s.lock r with
    | some obj => ⟨r' :: i, i, some obj, ptr, beyond⟩
    | none => scan s ptr (r' :: i) i beyond

def findNext (s : DefsRegistry Obj) (it : Iter Obj) : Iter Obj :=
  match it.next with
  | some _ => it
  | none => s.scan it.ptr it.p it.i it.beyond

/-- `operator++` -/
def advance (s : DefsRegistry Obj) (it : Iter Obj) : Iter Obj :=
  { s.findNext it with ptr := (s.findNext it).next, next := none }

def hasNext (s : DefsRegistry Obj) (it : Iter Obj) : Bool := (s.findNext it).next.isSome

def candidates (s : DefsRegistry Obj) (query : QueryKey) : Iter Obj :=
  match find query s.registry with
  | [] => s.advance ⟨s.registry, s.registry.tail, none, none, false⟩
  | r :: pos => s.advance ⟨r :: pos, s.registry, none, none, false⟩

/-- What a client does with the iterator. -/
inductive Call
  | hasNext
  | advance
  deriving DecidableEq

/-- The state of the iterator after these calls. -/
def enumerate (s : DefsRegistry Obj) (it : Iter Obj) : List Call → Iter Obj
  | [] => it
  | .hasNext :: calls => s.enumerate (s.findNext it) calls
  | .advance :: calls => s.enumerate (s.advance it) calls

/-! ## The order of the records -/

/-- The keys are strictly ascending. -/
def Sorted (set : List (DefsRecord Obj)) : Prop := set.Pairwise fun r r' => r.queryKey.lt r'.queryKey = true

variable {set : List (DefsRecord Obj)} {entry r : DefsRecord Obj}

theorem lt_trans {a b c : QueryKey} (hab : a.lt b = true) (hbc : b.lt c = true) : a.lt c = true :=
  QueryKey.lt_iff.mpr ((QueryKey.lt_iff.mp hab).trans (QueryKey.lt_iff.mp hbc))

theorem eq_of_not_lt {a b : QueryKey} (hab : a.lt b = false) (hba : b.lt a = false) : a = b :=
  QueryKey.rank_injective (le_antisymm (QueryKey.lt_eq_false_iff.mp hba) (QueryKey.lt_eq_false_iff.mp hab))

theorem lower_bound_append (query : QueryKey) (set : List (DefsRecord Obj)) :
    (lower_bound query set).1 ++ (lower_bound query set).2 = set :=
  List.takeWhile_append_dropWhile

theorem lt_of_mem_front (h : r ∈ (lower_bound query set).1) : r.queryKey.lt query = true :=
  List.mem_takeWhile_imp (p := fun r : DefsRecord Obj => r.queryKey.lt query) h

theorem not_lt_of_head? (h : (lower_bound query set).2.head? = some r) : r.queryKey.lt query = false := by
  have hnot := List.head?_dropWhile_not (fun r : DefsRecord Obj => r.queryKey.lt query) set
  rw [show (set.dropWhile _).head? = some r from h] at hnot
  simpa using hnot

/-- A record with this key is the first one from the lower bound on. -/
theorem head?_lower_bound (hset : Sorted set) (hr : r ∈ set) (hkey : r.queryKey = query) :
    (lower_bound query set).2.head? = some r := by
  subst hkey
  rw [← lower_bound_append r.queryKey set, Sorted, List.pairwise_append] at hset
  rw [← lower_bound_append r.queryKey set, List.mem_append] at hr
  have hirrefl : r.queryKey.lt r.queryKey = false := QueryKey.lt_eq_false_iff.mpr le_rfl
  rcases hr with hr | hr
  · rw [lt_of_mem_front hr] at hirrefl
    cases hirrefl
  · cases hpos : (lower_bound r.queryKey set).2 with
    | nil => exact absurd hr (hpos ▸ List.not_mem_nil)
    | cons r' pos =>
      rw [hpos] at hr hset
      rcases List.mem_cons.mp hr with rfl | hr
      · rfl
      · have hlt := (List.pairwise_cons.mp hset.2.1).1 r hr
        rw [not_lt_of_head? (by rw [hpos]; rfl)] at hlt
        cases hlt

theorem head?_find (query : QueryKey) (hset : Sorted set) :
    (find query set).head? = set.find? (fun r => r.queryKey = query) := by
  cases hfind : set.find? (fun r => r.queryKey = query) with
  | some r =>
    have hkey : r.queryKey = query := by simpa using List.find?_some hfind
    obtain ⟨pos, hpos⟩ := List.head?_eq_some_iff.mp (head?_lower_bound hset (List.mem_of_find?_eq_some hfind) hkey)
    simp [find, hpos, hkey, QueryKey.lt_eq_false_iff.mpr le_rfl]
  | none =>
    rw [find]
    split
    · rfl
    · next r pos hpos =>
      split
      · rfl
      · next hnot =>
        -- a record neither before nor behind the key would have been found
        have hbefore : r.queryKey.lt query = false := not_lt_of_head? (by rw [hpos]; rfl)
        have hkey := eq_of_not_lt hbefore (Bool.eq_false_iff.mpr hnot)
        have hmem : r ∈ set := by
          rw [← lower_bound_append query set, hpos]
          exact List.mem_append_right _ List.mem_cons_self
        exact absurd hkey (of_decide_eq_false (by simpa using List.find?_eq_none.mp hfind r hmem))

theorem sorted_insert (hset : Sorted set) : Sorted (insert entry set) := by
  have happ := lower_bound_append entry.queryKey set
  have hfront : ∀ r ∈ (lower_bound entry.queryKey set).1, r.queryKey.lt entry.queryKey = true :=
    fun r => lt_of_mem_front
  rw [insert]
  generalize lower_bound entry.queryKey set = bound at happ hfront
  obtain ⟨front, pos⟩ := bound
  have hsorted := happ ▸ hset
  cases pos with
  | nil =>
    refine List.pairwise_append.mpr ⟨(List.pairwise_append.mp hsorted).1, List.pairwise_singleton _ _, ?_⟩
    rintro r hr _ hentry
    exact List.mem_singleton.mp hentry ▸ hfront r hr
  | cons r pos =>
    dsimp only
    split
    · next hlt =>
      obtain ⟨h₁, h₂, h₁₂⟩ := List.pairwise_append.mp hsorted
      refine List.pairwise_append.mpr ⟨h₁, List.pairwise_cons.mpr ⟨fun r' hr' => ?_, h₂⟩, fun r' hr' r'' hr'' => ?_⟩
      · rcases List.mem_cons.mp hr' with rfl | hr'
        · exact hlt
        · exact lt_trans hlt ((List.pairwise_cons.mp h₂).1 r' hr')
      · rcases List.mem_cons.mp hr'' with rfl | hr''
        · exact hfront r' hr'
        · exact h₁₂ r' hr' r'' hr''
    · exact hset

theorem remove_if_eq {α : Type} (test : α → Bool) (passed pos : List α) :
    remove_if test passed pos = (pos.any test, passed ++ pos.filter (fun a => !test a)) := by
  induction pos generalizing passed with
  | nil => simp [remove_if]
  | cons a pos ih => cases h : test a <;> simp [remove_if, ih, h]

/-! ## What is enumerated -/

/-- The object registered for this query. -/
def registered (s : DefsRegistry Obj) (query : QueryKey) : Option Obj :=
  (s.registry.find? fun r => r.queryKey = query).bind s.lock

/-- **The candidates** for a query: the one registered for it, and then all of them in order. -/
def solutions (s : DefsRegistry Obj) (query : QueryKey) : List Obj :=
  (s.registered query).toList ++ s.registry.filterMap s.lock

/-- The objects at the position to be tested and behind the second position. -/
def remaining (s : DefsRegistry Obj) : List (DefsRecord Obj) → List (DefsRecord Obj) → List Obj
  | [], _ => []
  | r :: _, i => (s.lock r).toList ++ i.filterMap s.lock

/-- What is still to come. -/
def pending (s : DefsRegistry Obj) (it : Iter Obj) : List Obj := it.next.toList ++ s.remaining it.p it.i

/-- The end was advanced, just when all records have been tested. -/
def AtEnd (it : Iter Obj) : Prop := it.beyond = true ↔ it.p = []

/-- The search stops at the first object, with the others still to come, or at the end. -/
theorem scan_spec (s : DefsRegistry Obj) (ptr : Option Obj) (p i : List (DefsRecord Obj)) (beyond : Bool) :
    (s.scan ptr p i beyond).ptr = ptr ∧ s.pending (s.scan ptr p i beyond) = s.remaining p i ∧
      ((s.scan ptr p i beyond).next = none → (s.scan ptr p i beyond).p = []) ∧
      ((beyond = true ↔ p = []) → AtEnd (s.scan ptr p i beyond)) := by
  induction i generalizing p beyond with
  | nil =>
    cases p with
    | nil => exact ⟨rfl, rfl, fun _ => rfl, id⟩
    | cons r p => exact ⟨rfl, by simp [scan, pending, remaining], fun _ => rfl, fun _ => by simp [AtEnd, scan]⟩
  | cons r' i ih =>
    cases p with
    | nil => exact ⟨rfl, rfl, fun _ => rfl, id⟩
    | cons r p =>
      rw [scan]
      cases hr : s.lock r with
      | some obj =>
        refine ⟨rfl, ?_, nofun, fun h => ?_⟩
        · cases hr' : s.lock r' <;> simp [pending, remaining, hr, hr']
        · simpa [AtEnd] using h
      | none =>
        obtain ⟨hptr, hpending, hp, hend⟩ := ih (r' :: i) beyond
        refine ⟨hptr, hpending.trans ?_, hp, fun h => hend (by simpa using h)⟩
        cases hr' : s.lock r' <;> simp [remaining, hr, hr']

theorem findNext_spec (s : DefsRegistry Obj) (it : Iter Obj) : (s.findNext it).ptr = it.ptr ∧
    s.pending (s.findNext it) = s.pending it ∧ (s.findNext it).next = (s.pending it).head? ∧
    (AtEnd it → AtEnd (s.findNext it)) ∧ ((s.findNext it).next = none → it.next = none ∧ (s.findNext it).p = []) := by
  rw [findNext]
  cases hnext : it.next with
  | some obj =>
    refine ⟨rfl, rfl, ?_, id, fun h => ?_⟩
    · simp [pending, hnext]
    · cases hnext.symm.trans h
  | none =>
    obtain ⟨hptr, hpending, hp, hend⟩ := scan_spec s it.ptr it.p it.i it.beyond
    have hsame : s.pending it = s.remaining it.p it.i := by simp [pending, hnext]
    refine ⟨hptr, hpending.trans hsame.symm, ?_, hend, fun h => ⟨rfl, hp h⟩⟩
    rw [hsame, ← hpending, pending]
    cases hn : (s.scan it.ptr it.p it.i it.beyond).next with
    | some obj => rfl
    | none =>
      rw [hp hn]
      rfl

variable {it : Iter Obj}

theorem findNext_p (h : it.p = []) : (s.findNext it).p = [] := by
  rw [findNext]
  split
  · exact h
  · rw [h]
    cases it.i <;> rfl

/-- One object after the other is delivered. -/
theorem advance_spec (s : DefsRegistry Obj) (it : Iter Obj) :
    (s.advance it).ptr = (s.pending it).head? ∧ s.pending (s.advance it) = (s.pending it).tail ∧
      (AtEnd it → AtEnd (s.advance it)) ∧ ((s.advance it).ptr = none → (s.advance it).p = []) := by
  obtain ⟨-, hpending, hnext, hend, hp⟩ := findNext_spec s it
  refine ⟨hnext, ?_, hend, fun h => (hp h).2⟩
  rw [← hpending, pending, pending]
  cases hn : (s.findNext it).next with
  | some obj => rfl
  | none =>
    rw [show (s.advance it).p = [] from (hp hn).2, (hp hn).2]
    rfl

theorem candidates_spec (query : QueryKey) (hs : Sorted s.registry) :
    (s.candidates query).ptr = (s.solutions query).head? ∧
      s.pending (s.candidates query) = (s.solutions query).tail ∧
      (s.registry ≠ [] → AtEnd (s.candidates query)) ∧
      ((s.candidates query).ptr = none → (s.candidates query).p = []) := by
  have hfind := head?_find query hs
  rw [candidates]
  split
  · next heq =>
    have hnone : s.registered query = none := by rw [registered, ← hfind, heq]; rfl
    have hpending : s.pending ⟨s.registry, s.registry.tail, none, none, false⟩ = s.solutions query := by
      rw [solutions, hnone]
      cases hreg : s.registry with
      | nil => rfl
      | cons r set => cases hr : s.lock r <;> simp [pending, remaining, hr]
    obtain ⟨hptr, hrest, hend, hp⟩ := advance_spec s ⟨s.registry, s.registry.tail, none, none, false⟩
    rw [hpending] at hptr hrest
    exact ⟨hptr, hrest, fun hne => hend (by simpa [AtEnd] using hne), hp⟩
  · next r pos heq =>
    have hsome : s.registered query = s.lock r := by rw [registered, ← hfind, heq]; rfl
    obtain ⟨hptr, hrest, hend, hp⟩ := advance_spec s ⟨r :: pos, s.registry, none, none, false⟩
    have hpending : s.pending ⟨r :: pos, s.registry, none, none, false⟩ = s.solutions query := by
      rw [solutions, hsome]
      rfl
    rw [hpending] at hptr hrest
    exact ⟨hptr, hrest, fun _ => hend (by simp [AtEnd]), hp⟩

/-- The iterator after any calls: each advance leads to the next candidate. -/
theorem enumerate_spec {l : List Obj} {k : ℕ} (calls : List Call) (hptr : it.ptr = l[k]?)
    (hpending : s.pending it = l.drop (k + 1)) (hp : it.ptr = none → it.p = []) :
    (s.enumerate it calls).ptr = l[k + calls.count .advance]? ∧
      (s.hasNext (s.enumerate it calls) = true ↔ k + calls.count .advance + 1 < l.length) ∧
      (AtEnd it → AtEnd (s.enumerate it calls)) ∧
      ((s.enumerate it calls).ptr = none → (s.enumerate it calls).p = []) := by
  induction calls generalizing it k with
  | nil =>
    refine ⟨hptr, ?_, id, hp⟩
    obtain ⟨-, -, hnext, -⟩ := findNext_spec s it
    rw [enumerate, hasNext, hnext, hpending]
    simp
  | cons call calls ih =>
    cases call with
    | hasNext =>
      obtain ⟨hptr', hpending', -, hend, -⟩ := findNext_spec s it
      obtain ⟨h₁, h₂, h₃, h₄⟩ := ih (hptr'.trans hptr) (hpending'.trans hpending)
        fun h => findNext_p (hp (hptr'.symm.trans h))
      exact ⟨h₁, h₂, fun h => h₃ (hend h), h₄⟩
    | advance =>
      obtain ⟨hptr', hpending', hend, hp'⟩ := advance_spec s it
      rw [hpending, List.head?_drop] at hptr'
      rw [hpending, List.tail_drop] at hpending'
      obtain ⟨h₁, h₂, h₃, h₄⟩ := ih hptr' hpending' hp'
      rw [List.count_cons_self, ← Nat.add_assoc, Nat.add_right_comm]
      exact ⟨h₁, h₂, fun h => h₃ (hend h), h₄⟩

theorem findNext_beyond (hp : it.p = []) : (s.findNext it).beyond = it.beyond := by
  rw [findNext]
  split
  · rfl
  · rw [hp]
    cases it.i <;> rfl

theorem enumerate_beyond (hp : it.p = []) (calls : List Call) : (s.enumerate it calls).beyond = it.beyond := by
  induction calls generalizing it with
  | nil => rfl
  | cons call calls ih =>
    cases call with
    | hasNext => exact (ih (findNext_p hp)).trans (findNext_beyond hp)
    | advance =>
      have hp' : (s.advance it).p = [] := findNext_p hp
      exact (ih hp').trans (findNext_beyond hp)

/-- The end is advanced when all candidates are enumerated, unless there are no records. -/
theorem within_iff (hs : Sorted s.registry) :
    (∀ calls, (s.enumerate (s.candidates query) calls).beyond = false) ↔ s.registry = [] := by
  constructor
  · intro hwithin
    by_contra hne
    obtain ⟨hptr, hpending, hend, hp⟩ := candidates_spec query hs
    rw [List.head?_eq_getElem?] at hptr
    rw [← List.drop_one] at hpending
    let calls := List.replicate (s.solutions query).length Call.advance
    obtain ⟨hlast, -, hatEnd, hdone⟩ := enumerate_spec calls hptr hpending hp
    rw [Nat.zero_add, List.count_replicate_self, List.getElem?_length] at hlast
    have hbeyond := (hatEnd (hend hne)).mpr (hdone hlast)
    rw [hwithin calls] at hbeyond
    cases hbeyond
  · intro hnil calls
    have hcandidates : s.candidates query = ⟨[], [], none, none, false⟩ := by
      rw [candidates, hnil]
      rfl
    rw [hcandidates]
    exact enumerate_beyond rfl calls

/-! ## Registration and removal -/

section Registration

variable [BEq Obj]

theorem forget_eq (s : DefsRegistry Obj) (obj : Option Obj) :
    s.forget obj = (s.registry.any (s.search obj),
      { s with registry := s.registry.filter fun r => !s.search obj r }) := by
  rw [forget, remove_if_eq, List.nil_append]

theorem sorted_put (h : Sorted s.registry) : Sorted (s.put obj query).2.registry := by
  have happ := lower_bound_append query s.registry
  rw [put]
  split
  · exact sorted_insert h
  · next front r pos hbound =>
    rw [hbound] at happ
    split
    · split
      · exact h
      · refine sorted_insert (h.sublist ?_)
        rw [← happ]
        exact (List.sublist_cons_self r pos).append_left front
    · exact sorted_insert h

theorem invariant_sorted [DecidableEq Obj] : (machine Obj).Invariant fun s => Sorted s.registry where
  init s hs := by
    rw [show s.registry = [] from hs]
    exact List.Pairwise.nil
  step s op t hs := by
    rintro rfl
    cases op with
    | put obj query => exact sorted_put hs
    | forget obj =>
      rw [perform, forget_eq]
      exact hs.filter _
    | expire obj => exact hs

/-- Another object is registered with the record, and is alive. -/
def Occupied (s : DefsRegistry Obj) (obj : Option Obj) (r : DefsRecord Obj) : Prop :=
  ∃ storedObj, s.lock r = some storedObj ∧ (some storedObj == obj) = false

/-- The first record not in front of the query is one for the same text with another ID, and is occupied. -/
def Misled (s : DefsRegistry Obj) (obj : Option Obj) (query : QueryKey) : Prop :=
  ∃ r ∈ (lower_bound query s.registry).2.head?,
    r.queryKey.def_ = query.def_ ∧ r.queryKey ≠ query ∧ s.Occupied obj r

/-- A registration is refused by the record at the lower bound. -/
theorem put_eq_false_iff : s.put obj query = (false, s) ↔
    ∃ r ∈ (lower_bound query s.registry).2.head?, r.queryKey.def_ = query.def_ ∧ s.Occupied obj r := by
  rw [put]
  generalize lower_bound query s.registry = bound
  obtain ⟨front, _ | ⟨r, pos⟩⟩ := bound
  · simp
  · simp only [← QueryKey.eq_iff, Occupied]
    split
    · next heq =>
      split
      · next o ho => simp [heq, ho]
      · next ho => simp [ho]
    · next hne => simp [hne]

/-- The registration is refused just for another object with the same query. -/
def RefusesOthers (s : DefsRegistry Obj) (obj : Option Obj) (query : QueryKey) : Prop :=
  s.put obj query = (false, s) ↔ ∃ r ∈ s.registry, r.queryKey = query ∧ s.Occupied obj r

theorem refusesOthers_iff (hs : Sorted s.registry) : s.RefusesOthers obj query ↔ ¬ s.Misled obj query := by
  rw [RefusesOthers, put_eq_false_iff]
  constructor
  · rintro h ⟨r, hr, hdef, hkey, hocc⟩
    obtain ⟨r', hr', hkey', -⟩ := h.mp ⟨r, hr, hdef, hocc⟩
    have hfirst := head?_lower_bound hs hr' hkey'
    obtain rfl : r' = r := Option.some.inj (hfirst.symm.trans hr)
    exact hkey hkey'
  · intro hnot
    constructor
    · rintro ⟨r, hr, hdef, hocc⟩
      have hkey : r.queryKey = query := by
        by_contra hne
        exact hnot ⟨r, hr, hdef, hne, hocc⟩
      refine ⟨r, ?_, hkey, hocc⟩
      rw [← lower_bound_append query s.registry]
      exact List.mem_append_right _ (List.mem_of_head? hr)
    · rintro ⟨r, hr, hkey, hocc⟩
      exact ⟨r, head?_lower_bound hs hr hkey, congrArg QueryKey.def_ hkey, hocc⟩

theorem mem_forget {r : DefsRecord Obj} : r ∈ (s.forget obj).2.registry ↔
    r ∈ s.registry ∧ ¬ ∃ storedObj, s.lock r = some storedObj ∧ (some storedObj == obj) = true := by
  rw [forget_eq, List.mem_filter, search]
  cases s.lock r <;> simp

/-- **The registry is in order**, and the candidates are enumerated as they should be; but the end is advanced
unless there are no records. A registration is refused just for another object with the same query, unless it
is misled by another ID. Only the records of the object are forgotten. -/
theorem registry_right_iff [DecidableEq Obj] (hs : (machine Obj).Reachable s) :
    Sorted s.registry ∧
    (∀ query calls,
      (s.enumerate (s.candidates query) calls).ptr = (s.solutions query)[calls.count .advance]? ∧
      (s.hasNext (s.enumerate (s.candidates query) calls) = true ↔
        calls.count .advance + 1 < (s.solutions query).length)) ∧
    (∀ query, (∀ calls, (s.enumerate (s.candidates query) calls).beyond = false) ↔ s.registry = []) ∧
    (∀ obj query, s.RefusesOthers obj query ↔ ¬ s.Misled obj query) ∧
    ∀ obj r, r ∈ (s.forget obj).2.registry ↔
      r ∈ s.registry ∧ ¬ ∃ storedObj, s.lock r = some storedObj ∧ (some storedObj == obj) = true := by
  have hsorted : Sorted s.registry := invariant_sorted.reachable hs
  refine ⟨hsorted, fun query calls => ?_, fun query => within_iff hsorted,
    fun obj query => refusesOthers_iff hsorted, fun obj r => mem_forget⟩
  obtain ⟨hptr, hpending, -, hp⟩ := candidates_spec query hsorted
  rw [List.head?_eq_getElem?] at hptr
  rw [← List.drop_one] at hpending
  obtain ⟨h₁, h₂, -, -⟩ := enumerate_spec calls hptr hpending hp
  rw [Nat.zero_add] at h₁ h₂
  exact ⟨h₁, h₂⟩

end Registration

theorem neZero_single : NeZero 1 := ⟨by decide⟩

attribute [local instance] neZero_single in
/-- One record for the empty query. -/
def single : DefsRegistry (Fin 1) := ⟨[⟨⟨⟨.GENERIC, 1⟩, []⟩, some 0⟩], fun _ => true⟩

theorem single_reachable : (machine (Fin 1)).Reachable single :=
  ⟨⟨[], fun _ => true⟩, [.put (some 0) ⟨⟨.GENERIC, 1⟩, []⟩], rfl, .cons rfl (.nil _)⟩

theorem registry_right_single :
    ¬ ∀ calls, (single.enumerate (single.candidates ⟨⟨.GENERIC, 1⟩, []⟩) calls).beyond = false :=
  fun h => List.cons_ne_nil _ _ (((registry_right_iff single_reachable).2.2.1 _).mp h)

/-- The first candidate is found, and the second position has left the set. -/
theorem single_beyond : ¬ ∀ s, (machine (Fin 1)).Reachable s →
    ∀ query calls, (s.enumerate (s.candidates query) calls).beyond = false := by
  intro h
  have hbeyond := h single single_reachable ⟨⟨.GENERIC, 1⟩, []⟩ [.advance]
  exact absurd hbeyond (by decide)

end DefsRegistry

end Lumiera.Common
