import WebServer.Lib.Deadlines
import WebServer.Libco.Link

/-!
# The timeouts of libco

`stTimeout_t` of `co_routine.cpp`: a ring of `iItemSize` lists, one for each millisecond, of which
the one at `llStartIdx` stands for the time `ullStart`. `AddTimeout` puts an item into the list as
many places ahead as its `ullExpireTime` is behind `ullStart`, or refuses it; `TakeAllTimeout` joins
the lists up to the current time to another one, and starts from there.

The lists are those of `WebServer.Libco.Link`, in one heap with the two lists of the event loop,
`pstTimeoutList` and `pstActiveList`. The differences of times are taken in `unsigned long long` and
stored in an `int`, as in the source.

`Waits t q` relates a wheel to the queues it stands for: what is pending, in the order of the
deadlines, and the two lists. Each operation on the wheel is the operation on the queues.
-/

namespace WebServer.Libco

open WebServer.Lib

/-- Of `stTimeoutItem_t`, besides its links, what the wheel and the event loop use. -/
structure TimeoutItem where
  ullExpireTime : ℕ
  pArg : ℕ
  bTimeout : Bool
  deriving DecidableEq

/-- The lists an item can be in: those of the wheel, `pstTimeoutList` and `pstActiveList`. -/
inductive Place
  | slot (i : ℕ)
  | timeout
  | active
  deriving DecidableEq

/-- `stTimeout_t`, with the heap its items live in. -/
structure Timeout where
  heap : Heap Place TimeoutItem
  iItemSize : ℕ
  ullStart : ℕ
  llStartIdx : ℤ

/-- The difference of two values of type `unsigned long long`. -/
def diffULL (a b : ℕ) : ℤ := ((a : ℤ) - b) % 2 ^ 64

/-- The conversion to `int`. -/
def toInt (n : ℤ) : ℤ := n.bmod (2 ^ 32)

namespace Timeout

/-- `AllocTimeout`, at clock reading `now`. -/
def allocTimeout (iSize : ℕ) (now : ℕ) : Timeout := ⟨.empty, iSize, now, 0⟩

/-- What `AddTimeout` and `TakeAllTimeout` do first. -/
def started (t : Timeout) (allNow : ℕ) : Timeout :=
  if t.ullStart = 0 then { t with ullStart := allNow, llStartIdx := 0 } else t

/-- `( apTimeout->llStartIdx + i ) % apTimeout->iItemSize`, a place of `pItems`. -/
def slotAt (t : Timeout) (i : ℤ) : Option ℕ :=
  let idx := (t.llStartIdx + i).tmod t.iItemSize
  if 0 ≤ idx ∧ idx < t.iItemSize then some idx.toNat else none

/-- `AddTimeout`, with the line it returns where it fails. -/
def addTimeout (t : Timeout) (apItem : Ptr) (allNow : ℕ) : Option (ℤ × Timeout) := do
  let item ← t.heap.item apItem
  let t := t.started allNow
  if allNow < t.ullStart then some (459, t)
  else if item.data.ullExpireTime < allNow then some (467, t)
  else
    let diff := toInt (diffULL item.data.ullExpireTime t.ullStart)
    if diff ≥ t.iItemSize then some (478, t)
    else do
      let i ← t.slotAt diff
      let heap ← t.heap.addTail (.slot i) apItem
      some (0, { t with heap := heap })

/-- The loop of `TakeAllTimeout`, from `i` on, over `n` places. -/
def takeLoop (t : Timeout) (apResult : Place) : ℕ → ℕ → Heap Place TimeoutItem →
    Option (Heap Place TimeoutItem)
  | _, 0, heap => some heap
  | i, n + 1, heap => do
    let idx ← t.slotAt i
    let heap ← heap.join apResult (.slot idx)
    takeLoop t apResult (i + 1) n heap

/-- `TakeAllTimeout`. -/
def takeAllTimeout (t : Timeout) (allNow : ℕ) (apResult : Place) : Option Timeout :=
  let t := t.started allNow
  if allNow < t.ullStart then some t
  else
    let cnt := toInt (diffULL allNow t.ullStart + 1)
    let cnt := if cnt > t.iItemSize then (t.iItemSize : ℤ) else cnt
    if cnt < 0 then some t
    else do
      let heap ← t.takeLoop apResult 0 cnt.toNat t.heap
      some { t with heap := heap, ullStart := allNow, llStartIdx := t.llStartIdx + (cnt - 1) }

end Timeout

/-! ## Conversions -/

theorem diffULL_eq {a b : ℕ} (hle : b ≤ a) (hlt : a < b + 2 ^ 64) : diffULL a b = (a : ℤ) - b := by
  rw [diffULL, Int.emod_eq_of_lt] <;> omega

theorem toInt_eq {n : ℤ} (h0 : 0 ≤ n) (hlt : n < 2 ^ 31) : toInt n = n := by
  apply Int.bmod_eq_of_le <;> omega

/-- A difference that fits an `int`. -/
theorem toInt_diffULL {a b : ℕ} (hle : b ≤ a) (hlt : a < b + 2 ^ 31) :
    toInt (diffULL a b) = (a - b : ℕ) := by
  rw [diffULL_eq hle (by omega), toInt_eq (by omega) (by omega)]
  omega

/-- A number of milliseconds that fits an `int`. -/
theorem toInt_diffULL_succ {a b : ℕ} (hle : b ≤ a) (hlt : a + 1 < b + 2 ^ 31) :
    toInt (diffULL a b + 1) = (a - b + 1 : ℕ) := by
  rw [diffULL_eq hle (by omega), toInt_eq (by omega) (by omega)]
  omega

/-! ## The queues a wheel stands for -/

/-- What is pending, with its expire times, in the order in which it is due, the two lists of the
event loop, and the time from which the wheel starts. -/
structure Queues where
  pending : List (Ptr × ℕ)
  timeout : List Ptr
  active : List Ptr
  start : ℕ
  deriving DecidableEq

/-- The time at which a pending item is due. -/
def deadline (e : Ptr × ℕ) : ℤ := e.2

namespace Queues

/-- `AddTimeout` accepts an item whose time is between now and the end of the wheel. -/
def Accepts (q : Queues) (size expire now : ℕ) : Prop :=
  q.start ≤ now ∧ now ≤ expire ∧ expire < q.start + size

instance (q : Queues) (size expire now : ℕ) : Decidable (q.Accepts size expire now) :=
  inferInstanceAs (Decidable (_ ∧ _))

/-- Put an item into the queue. -/
def add (q : Queues) (x : Ptr) (expire : ℕ) : Queues :=
  { q with pending := enqueue deadline q.pending (x, expire) }

/-- Move what is due at `now` to the timeout list. -/
def take (q : Queues) (now : ℕ) : Queues :=
  if now < q.start then q
  else { q with
    pending := later deadline q.pending now
    timeout := q.timeout ++ (due deadline q.pending now).map Prod.fst
    start := now }

/-- Take an item out of whatever it is in. -/
def remove (q : Queues) (x : Ptr) : Queues :=
  { q with
    pending := q.pending.filter (·.1 ≠ x)
    timeout := q.timeout.erase x
    active := q.active.erase x }

/-- Put an item at the end of the active list. -/
def activate (q : Queues) (x : Ptr) : Queues := { q with active := q.active ++ [x] }

/-- Join the timeout list to the active list. -/
def joinTimeout (q : Queues) : Queues :=
  { q with active := q.active ++ q.timeout, timeout := [] }

/-- Take the first item out of the active list. -/
def popActive (q : Queues) : Queues := { q with active := q.active.tail }

/-- The item is in one of the queues. -/
def Has (q : Queues) (x : Ptr) : Prop :=
  x ∈ q.pending.map Prod.fst ∨ x ∈ q.timeout ∨ x ∈ q.active

variable {q : Queues} {x y : Ptr}

theorem has_add {expire : ℕ} : (q.add x expire).Has y ↔ y = x ∨ q.Has y := by
  have h : y ∈ (q.add x expire).pending.map Prod.fst ↔ y = x ∨ y ∈ q.pending.map Prod.fst := by
    simp only [add, List.mem_map, mem_enqueue]
    constructor
    · rintro ⟨e, rfl | he, rfl⟩
      · exact .inl rfl
      · exact .inr ⟨e, he, rfl⟩
    · rintro (rfl | ⟨e, he, rfl⟩)
      · exact ⟨(y, expire), .inl rfl, rfl⟩
      · exact ⟨e, .inr he, rfl⟩
  rw [Has, Has, h]
  exact or_assoc

theorem has_take {now : ℕ} : (q.take now).Has y ↔ q.Has y := by
  rw [take]
  split
  · rfl
  · simp only [Has, List.mem_map, List.mem_append, mem_later, mem_due]
    constructor
    · rintro (⟨e, he, rfl⟩ | (h | ⟨e, he, rfl⟩) | h)
      · exact .inl ⟨e, he.1, rfl⟩
      · exact .inr (.inl h)
      · exact .inl ⟨e, he.1, rfl⟩
      · exact .inr (.inr h)
    · rintro (⟨e, he, rfl⟩ | h | h)
      · rcases le_or_gt (deadline e) now with hle | hgt
        · exact .inr (.inl (.inr ⟨e, ⟨he, hle⟩, rfl⟩))
        · exact .inl ⟨e, ⟨he, hgt⟩, rfl⟩
      · exact .inr (.inl (.inl h))
      · exact .inr (.inr h)

theorem has_joinTimeout : q.joinTimeout.Has y ↔ q.Has y := by
  simp only [Has, joinTimeout, List.mem_append, List.not_mem_nil, false_or]
  rw [or_comm (a := y ∈ q.active)]

/-- What was due joins the active list. -/
theorem mem_taken {now : ℕ} (ht : q.timeout = []) (hy : y ∈ (q.take now).joinTimeout.active) :
    y ∈ q.active ∨ y ∈ q.pending.map Prod.fst := by
  rw [joinTimeout, take] at hy
  split at hy
  · exact .inl (by simpa [ht] using hy)
  · simp only [ht, List.nil_append, List.mem_append, List.mem_map, mem_due] at hy
    rcases hy with hy | ⟨e, he, rfl⟩
    · exact .inl hy
    · exact .inr (List.mem_map.mpr ⟨e, he.1, rfl⟩)

theorem has_activate : (q.activate x).Has y ↔ y = x ∨ q.Has y := by
  simp only [Has, activate, List.mem_append, List.mem_singleton]
  tauto

end Queues

namespace Timeout

/-- The time an item waits for. -/
def expire (h : Heap Place TimeoutItem) (x : Ptr) : ℕ :=
  ((h.item x).map fun n => n.data.ullExpireTime).getD 0

/-- The items of a list, with their times. -/
def timesOf (h : Heap Place TimeoutItem) (l : List Ptr) : List (Ptr × ℕ) :=
  l.map fun x => (x, expire h x)

/-- The lists of the wheel as a calendar, from `ullStart` on. -/
def calendar (t : Timeout) (lists : Place → List Ptr) : Calendar (Ptr × ℕ) :=
  ((List.range t.iItemSize).map fun i => timesOf t.heap (lists (.slot i))).rotate t.llStartIdx.toNat

/-- **The wheel stands for queues**: its lists, read off the pointers, are a calendar from
`ullStart` on. -/
structure Holds (t : Timeout) (lists : Place → List Ptr) : Prop where
  repr : t.heap.Represents lists
  size_pos : 0 < t.iItemSize
  size_lt : t.iItemSize < 2 ^ 31
  start_pos : 0 < t.ullStart
  idx_nonneg : 0 ≤ t.llStartIdx
  outside : ∀ i, t.iItemSize ≤ i → lists (.slot i) = []
  timed : (t.calendar lists).Timed deadline (t.ullStart - 1)

/-- The queues of a wheel whose lists are known. -/
def queues (t : Timeout) (lists : Place → List Ptr) : Queues where
  pending := (t.calendar lists).flatten
  timeout := lists .timeout
  active := lists .active
  start := t.ullStart

/-- A wheel and the queues it stands for. -/
def Waits (t : Timeout) (q : Queues) : Prop := ∃ lists, t.Holds lists ∧ t.queues lists = q

variable {t t' : Timeout} {lists lists' : Place → List Ptr} {q : Queues} {x : Ptr} {now : ℕ}
  {h h' : Heap Place TimeoutItem}

theorem expire_congr (hk : h.Keeps h') (x : Ptr) : expire h' x = expire h x := by
  have := congrArg (Option.map TimeoutItem.ullExpireTime) (hk.data x)
  rw [Option.map_map, Option.map_map] at this
  exact congrArg (Option.getD · 0) this

theorem timesOf_congr (hk : h.Keeps h') (l : List Ptr) : timesOf h' l = timesOf h l := by
  rw [timesOf, timesOf]
  exact List.map_congr_left fun x _ => by rw [expire_congr hk]

theorem length_calendar (t : Timeout) (lists : Place → List Ptr) :
    (t.calendar lists).length = t.iItemSize := by
  simp [calendar]

theorem started_eq (hs : 0 < t.ullStart) : t.started now = t := if_neg (by omega)

/-- A place ahead of the current one. -/
theorem slotAt_eq (hpos : 0 < t.iItemSize) (h0 : 0 ≤ t.llStartIdx) (k : ℕ) :
    t.slotAt k = some ((t.llStartIdx.toNat + k) % t.iItemSize) := by
  obtain ⟨i, hi⟩ := Int.eq_ofNat_of_zero_le h0
  have hlt := Nat.mod_lt (i + k) hpos
  have e : (t.llStartIdx + k).tmod t.iItemSize = ((i + k) % t.iItemSize : ℕ) := by
    rw [hi, Int.tmod_eq_emod_of_nonneg (by omega)]
    norm_cast
  rw [slotAt, e, if_pos ⟨by omega, by exact_mod_cast hlt⟩, hi, Int.toNat_natCast, Int.toNat_natCast]

/-- A place ahead of the current one was changed. -/
theorem calendar_modify {u : Timeout} {k : ℕ} {g : List (Ptr × ℕ) → List (Ptr × ℕ)}
    (hk : k < t.iItemSize)
    (hsize : u.iItemSize = t.iItemSize) (hidx : u.llStartIdx = t.llStartIdx)
    (hl : ∀ j < t.iItemSize, timesOf u.heap (lists' (.slot j)) =
      if j = (t.llStartIdx.toNat + k) % t.iItemSize then g (timesOf t.heap (lists (.slot j)))
      else timesOf t.heap (lists (.slot j))) :
    u.calendar lists' = (t.calendar lists).modify k g := by
  have hring := Calendar.map_range_modify (i := (t.llStartIdx.toNat + k) % t.iItemSize) (g := g) hl
  have hrot := Calendar.modify_rotate
    ((List.range t.iItemSize).map fun i => timesOf t.heap (lists (.slot i))) g
    (i := t.llStartIdx.toNat) (k := k) (by simpa using hk)
  rw [List.length_map, List.length_range] at hrot
  rw [calendar, calendar, hsize, hidx, ← hrot, hring]

/-- Only the lists of the wheel and the times of their items matter. -/
theorem calendar_congr (hsize : t'.iItemSize = t.iItemSize) (hidx : t'.llStartIdx = t.llStartIdx)
    (hl : ∀ j < t.iItemSize, timesOf t'.heap (lists' (.slot j)) =
      timesOf t.heap (lists (.slot j))) : t'.calendar lists' = t.calendar lists := by
  rw [calendar, calendar, hsize, hidx]
  congr 1
  exact List.map_congr_left fun j hj => hl j (List.mem_range.mp hj)

namespace Holds

theorem slot_lt (hh : t.Holds lists) {i : ℕ} (hx : x ∈ lists (.slot i)) : i < t.iItemSize := by
  by_contra hi
  rw [hh.outside i (by omega)] at hx
  cases hx

/-- What is pending is what the lists of the wheel hold. -/
theorem mem_pending (hh : t.Holds lists) {e : ℕ} :
    (x, e) ∈ (t.queues lists).pending ↔ (∃ i, x ∈ lists (.slot i)) ∧ expire t.heap x = e := by
  have hmem : (x, e) ∈ (t.calendar lists).flatten ↔
      ∃ i < t.iItemSize, (x, e) ∈ timesOf t.heap (lists (.slot i)) := by
    rw [calendar, (List.rotate_perm _ _).flatten.mem_iff, List.mem_flatten]
    simp
  rw [queues, hmem]
  simp only [timesOf, List.mem_map, Prod.mk.injEq]
  constructor
  · rintro ⟨i, -, y, hy, rfl, he⟩
    exact ⟨⟨i, hy⟩, he⟩
  · rintro ⟨⟨i, hi⟩, he⟩
    exact ⟨i, hh.slot_lt hi, x, hi, rfl, he⟩

/-- An item that is in no list is in no queue. -/
theorem not_mem_of_owner (hh : t.Holds lists) (ho : t.heap.owner x = none) :
    (∀ e, (x, e) ∉ (t.queues lists).pending) ∧ x ∉ (t.queues lists).timeout ∧
      x ∉ (t.queues lists).active := by
  have hno := hh.repr.not_mem_of_owner ho
  refine ⟨fun e he => ?_, hno _, hno _⟩
  obtain ⟨⟨i, hi⟩, -⟩ := hh.mem_pending.mp he
  exact hno _ hi

/-- The lists of the wheel hold the same items, with the same times. -/
theorem of_slots {u : Timeout} (hh : t.Holds lists) (hr : u.heap.Represents lists')
    (hsize : u.iItemSize = t.iItemSize) (hidx : u.llStartIdx = t.llStartIdx)
    (hstart : u.ullStart = t.ullStart)
    (hl : ∀ j, timesOf u.heap (lists' (.slot j)) = timesOf t.heap (lists (.slot j))) :
    u.Holds lists' ∧ u.queues lists' =
      { t.queues lists with timeout := lists' .timeout, active := lists' .active } := by
  have e : u.calendar lists' = t.calendar lists := calendar_congr hsize hidx fun j _ => hl j
  refine ⟨⟨hr, by rw [hsize]; exact hh.size_pos, by rw [hsize]; exact hh.size_lt,
    by rw [hstart]; exact hh.start_pos, by rw [hidx]; exact hh.idx_nonneg, fun i hi => ?_, ?_⟩, ?_⟩
  · have := hl i
    rw [hh.outside i (by omega)] at this
    simpa [timesOf] using this
  · rw [e, hstart]
    exact hh.timed
  · rw [queues, queues, e, hstart]

end Holds

/-- The wheel of a heap that was changed. -/
def withHeap (t : Timeout) (h : Heap Place TimeoutItem) : Timeout := { t with heap := h }

namespace Waits

/-- The start: nothing is pending. -/
theorem alloc {iSize : ℕ} (hpos : 0 < iSize) (hlt : iSize < 2 ^ 31) (hnow : 0 < now) :
    (allocTimeout iSize now).Waits ⟨[], [], [], now⟩ := by
  have hnil : ∀ b ∈ (allocTimeout iSize now).calendar fun _ => [], b = [] := by
    intro b hb
    rw [calendar, List.mem_rotate, List.mem_map] at hb
    obtain ⟨i, -, rfl⟩ := hb
    rfl
  have hflat : ((allocTimeout iSize now).calendar fun _ => []).flatten = [] :=
    List.flatten_eq_nil_iff.mpr hnil
  exact ⟨fun _ => [], ⟨.empty, hpos, hlt, hnow, le_rfl, fun _ _ => rfl,
    Calendar.timed_of_flatten_eq_nil hflat⟩, by rw [queues, hflat]; rfl⟩

/-- A new item. -/
theorem allocItem (hw : t.Waits q) (item : TimeoutItem) :
    (t.withHeap (t.heap.alloc item)).Waits q := by
  obtain ⟨lists, hh, rfl⟩ := hw
  have hl : ∀ j, timesOf (t.heap.alloc item) (lists (.slot j)) =
      timesOf t.heap (lists (.slot j)) := by
    intro j
    refine List.map_congr_left fun x hx => ?_
    have hne : x ≠ t.heap.fresh := by
      rintro rfl
      exact Nat.lt_irrefl _ (hh.repr.lt_fresh _ (hh.repr.live hx))
    rw [expire, expire, Heap.alloc_item, if_neg hne]
  obtain ⟨hh', e⟩ := hh.of_slots (u := t.withHeap (t.heap.alloc item)) (hh.repr.alloc_repr item)
    rfl rfl rfl hl
  exact ⟨lists, hh', e⟩

/-- An item in no list is freed. -/
theorem freeItem (hw : t.Waits q) (ho : t.heap.owner x = none) :
    (t.withHeap (t.heap.dealloc x)).Waits q := by
  obtain ⟨lists, hh, rfl⟩ := hw
  have hl : ∀ j, timesOf (t.heap.dealloc x) (lists (.slot j)) =
      timesOf t.heap (lists (.slot j)) := by
    intro j
    refine List.map_congr_left fun y hy => ?_
    have hne : y ≠ x := by
      rintro rfl
      exact hh.repr.not_mem_of_owner ho _ hy
    rw [expire, expire, Heap.dealloc_item, if_neg hne]
  obtain ⟨hh', e⟩ := hh.of_slots (u := t.withHeap (t.heap.dealloc x)) (hh.repr.dealloc_repr ho)
    rfl rfl rfl hl
  exact ⟨lists, hh', e⟩

/-- A field of an item was written: not the time of an item that waits. -/
theorem modifyData (hw : t.Waits q) {f : TimeoutItem → TimeoutItem}
    (hf : t.heap.owner x = none ∨ ∀ d, (f d).ullExpireTime = d.ullExpireTime) :
    (t.withHeap (t.heap.modify x fun n => { n with data := f n.data })).Waits q := by
  obtain ⟨lists, hh, rfl⟩ := hw
  have hl : ∀ j, timesOf (t.heap.modify x fun n => { n with data := f n.data }) (lists (.slot j)) =
      timesOf t.heap (lists (.slot j)) := by
    intro j
    refine List.map_congr_left fun y hy => ?_
    rw [expire, expire, Heap.modify_item]
    by_cases hyx : y = x
    · rcases hf with ho | hf
      · exact absurd (hyx ▸ hy) (hh.repr.not_mem_of_owner ho _)
      · rw [if_pos hyx, hyx, Option.map_map]
        simp [Function.comp_def, hf]
    · rw [if_neg hyx]
  obtain ⟨hh', e⟩ := hh.of_slots (u := t.withHeap (t.heap.modify x _))
    (hh.repr.modifyData_repr x f) rfl rfl rfl hl
  exact ⟨lists, hh', e⟩

/-- **`AddTail`** to the active list. -/
theorem activate (hw : t.Waits q) (hx : t.heap.Live x) (ho : t.heap.owner x = none) :
    ∃ h', t.heap.addTail .active x = some h' ∧ (t.withHeap h').Waits (q.activate x) ∧
      t.heap.Keeps h' := by
  obtain ⟨lists, hh, rfl⟩ := hw
  obtain ⟨h', e, hr, hk⟩ := hh.repr.addTail_repr hx ho .active
  obtain ⟨hh', eq⟩ := hh.of_slots (u := t.withHeap h') hr rfl rfl rfl fun j => by
    rw [Function.update_of_ne (by simp)]
    exact timesOf_congr hk _
  refine ⟨h', e, ⟨_, hh', ?_⟩, hk⟩
  rw [eq, Queues.activate]
  simp [queues]

/-- **`PopHead`** of the active list. -/
theorem popActive (hw : t.Waits q) :
    ∃ h', t.heap.popHead .active = some h' ∧ (t.withHeap h').Waits q.popActive ∧
      t.heap.Keeps h' := by
  obtain ⟨lists, hh, rfl⟩ := hw
  rcases hl : lists .active with _ | ⟨y, l⟩
  · refine ⟨t.heap, hh.repr.popHead_nil hl, ⟨lists, hh, ?_⟩, .refl _⟩
    show t.queues lists = _
    simp [queues, Queues.popActive, hl]
  · obtain ⟨h', e, hr, hk⟩ := hh.repr.popHead_repr hl
    obtain ⟨hh', eq⟩ := hh.of_slots (u := t.withHeap h') hr rfl rfl rfl fun j => by
      rw [Function.update_of_ne (by simp)]
      exact timesOf_congr hk _
    refine ⟨h', e, ⟨_, hh', ?_⟩, hk⟩
    rw [eq, Queues.popActive]
    simp [queues, hl]

/-- **`Join`** of the timeout list to the active list. -/
theorem joinTimeout (hw : t.Waits q) :
    ∃ h', t.heap.join .active .timeout = some h' ∧ (t.withHeap h').Waits q.joinTimeout ∧
      t.heap.Keeps h' := by
  obtain ⟨lists, hh, rfl⟩ := hw
  obtain ⟨h', e, hr, hk⟩ := hh.repr.join_repr (show Place.active ≠ .timeout by simp)
  obtain ⟨hh', eq⟩ := hh.of_slots (u := t.withHeap h') hr rfl rfl rfl fun j => by
    rw [Function.update_of_ne (by simp), Function.update_of_ne (by simp)]
    exact timesOf_congr hk _
  refine ⟨h', e, ⟨_, hh', ?_⟩, hk⟩
  rw [eq, Queues.joinTimeout]
  simp [queues]

/-- **`RemoveFromLink`.** -/
theorem remove (hw : t.Waits q) (hx : t.heap.Live x) :
    ∃ h', t.heap.removeFromLink x = some h' ∧ (t.withHeap h').Waits (q.remove x) ∧
      t.heap.Keeps h' := by
  obtain ⟨lists, hh, rfl⟩ := hw
  obtain ⟨h', e, hr, hk⟩ := hh.repr.removeFromLink_repr hx
  have hl : ∀ j, timesOf h' ((lists (.slot j)).erase x) =
      (timesOf t.heap (lists (.slot j))).filter (·.1 ≠ x) := by
    intro j
    rw [timesOf_congr hk, (hh.repr.nodup _).erase_eq_filter, timesOf, timesOf, List.filter_map]
    congr 1
    refine List.filter_congr fun y _ => ?_
    by_cases hyx : y = x <;> simp [hyx]
  have hcal : (t.withHeap h').calendar (fun k => (lists k).erase x) =
      (t.calendar lists).map (·.filter (·.1 ≠ x)) := by
    rw [calendar, calendar, List.map_rotate, List.map_map]
    congr 1
    exact List.map_congr_left fun j _ => hl j
  refine ⟨h', e, ⟨_, ⟨hr, hh.size_pos, hh.size_lt, hh.start_pos, hh.idx_nonneg, fun i hi => ?_, ?_⟩,
    ?_⟩, hk⟩
  · rw [hh.outside i hi]
    rfl
  · rw [hcal]
    exact hh.timed.filter
  · rw [queues, hcal, Queues.remove, queues, List.filter_flatten]
    rfl

/-! ## Adding -/

/-- **`AddTimeout`** puts the item into the queue, if its time is between now and the end of the
wheel; otherwise it returns the line of the check that failed, and changes nothing. -/
theorem addTimeout (now : ℕ) (hw : t.Waits q) {n : Item Place TimeoutItem}
    (hn : t.heap.item x = some n) (ho : n.pLink = none)
    (hgap : n.data.ullExpireTime < q.start + 2 ^ 31) :
    ∃ c t', t.addTimeout x now = some (c, t') ∧ t.heap.Keeps t'.heap ∧
      t'.iItemSize = t.iItemSize ∧ (c = 0 ↔ q.Accepts t.iItemSize n.data.ullExpireTime now) ∧
      t'.Waits (if q.Accepts t.iItemSize n.data.ullExpireTime now then
        q.add x n.data.ullExpireTime else q) := by
  obtain ⟨lists, hh, rfl⟩ := hw
  have hsize := hh.size_lt
  have hrefuse : ¬(t.queues lists).Accepts t.iItemSize n.data.ullExpireTime now →
      ∀ c, c ≠ 0 → t.addTimeout x now = some (c, t) →
        ∃ c t', t.addTimeout x now = some (c, t') ∧ t.heap.Keeps t'.heap ∧
          t'.iItemSize = t.iItemSize ∧
          (c = 0 ↔ (t.queues lists).Accepts t.iItemSize n.data.ullExpireTime now) ∧
          t'.Waits (if (t.queues lists).Accepts t.iItemSize n.data.ullExpireTime now then
            (t.queues lists).add x n.data.ullExpireTime else t.queues lists) := by
    intro hna c hc e
    exact ⟨c, t, e, .refl _, rfl, by simp [hna, hc], by rw [if_neg hna]; exact ⟨lists, hh, rfl⟩⟩
  have hstart : (t.queues lists).start = t.ullStart := rfl
  rw [hstart] at hgap
  by_cases h₁ : now < t.ullStart
  · exact hrefuse (fun ha => by have := ha.1; omega) 459 (by simp)
      (by simp [Timeout.addTimeout, hn, started_eq hh.start_pos, h₁])
  by_cases h₂ : n.data.ullExpireTime < now
  · exact hrefuse (fun ha => by have := ha.2.1; omega) 467 (by simp)
      (by simp [Timeout.addTimeout, hn, started_eq hh.start_pos, h₁, h₂])
  obtain ⟨k, hk⟩ : ∃ k, n.data.ullExpireTime = t.ullStart + k :=
    ⟨n.data.ullExpireTime - t.ullStart, by omega⟩
  have hdiff : toInt (diffULL n.data.ullExpireTime t.ullStart) = k := by
    rw [toInt_diffULL (by omega) hgap]
    omega
  by_cases h₃ : (k : ℤ) ≥ t.iItemSize
  · exact hrefuse (fun ha => by have := ha.2.2; omega) 478 (by simp)
      (by simp [Timeout.addTimeout, hn, started_eq hh.start_pos, h₁, h₂, hdiff, h₃])
  have hks : k < t.iItemSize := by omega
  have hacc : (t.queues lists).Accepts t.iItemSize n.data.ullExpireTime now :=
    ⟨by omega, by omega, by omega⟩
  have hx : t.heap.Live x := Heap.live_iff.mpr ⟨n, hn⟩
  have hnone : t.heap.owner x = none := by simp [Heap.owner, hn, ho]
  let s := (t.llStartIdx.toNat + k) % t.iItemSize
  have hs : s < t.iItemSize := Nat.mod_lt _ hh.size_pos
  obtain ⟨h', e, hr, hkeep⟩ := hh.repr.addTail_repr hx hnone (.slot s)
  have hexp : expire t.heap x = n.data.ullExpireTime := by simp [expire, hn]
  have hcal : (t.withHeap h').calendar
      (Function.update lists (.slot s) (lists (.slot s) ++ [x])) =
        (t.calendar lists).add k (x, n.data.ullExpireTime) := by
    refine calendar_modify (u := t.withHeap h') hks rfl rfl fun j _ => ?_
    show timesOf h' _ = _
    rw [timesOf_congr hkeep]
    by_cases hj : j = s
    · rw [if_pos hj, hj, Function.update_self]
      simp [timesOf, hexp]
    · rw [if_neg hj, Function.update_of_ne (by simpa using hj)]
  have hD : deadline (x, n.data.ullExpireTime) = ((t.ullStart : ℤ) - 1) + k + 1 := by
    rw [deadline, hk]
    push_cast
    omega
  refine ⟨0, t.withHeap h', ?_, hkeep, rfl, by simp [hacc], ?_⟩
  · have hslot : t.slotAt k = some s := slotAt_eq hh.size_pos hh.idx_nonneg k
    simp [Timeout.addTimeout, hn, started_eq hh.start_pos, h₁, h₂, hdiff, h₃, hslot, e, withHeap]
  · rw [if_pos hacc]
    refine ⟨_, ⟨hr, hh.size_pos, hsize, hh.start_pos, hh.idx_nonneg, fun i hi => ?_, ?_⟩, ?_⟩
    · have hne : i ≠ s := fun e => absurd hs (not_lt.mpr (e ▸ hi))
      rw [Function.update_of_ne (by simpa using hne)]
      exact hh.outside i hi
    · rw [hcal]
      exact hh.timed.add hD
    · rw [queues, hcal, Calendar.flatten_add hh.timed (by rw [length_calendar]; exact hks) hD]
      rfl

/-! ## Taking -/

end Waits

/-- **The loop of `TakeAllTimeout`** empties one place after another into the list. -/
theorem takeLoop_spec {C : Calendar (Ptr × ℕ)} {m i : ℕ} (hpos : 0 < t.iItemSize)
    (h0 : 0 ≤ t.llStartIdx) (hr : h.Represents lists) (hk : t.heap.Keeps h)
    (hC : (t.withHeap h).calendar lists = C.cleared i) (him : i + m ≤ t.iItemSize) :
    ∃ h' lists', t.takeLoop .timeout i m h = some h' ∧ h'.Represents lists' ∧ t.heap.Keeps h' ∧
      (t.withHeap h').calendar lists' = C.cleared (i + m) ∧
      lists' .timeout = lists .timeout ++ ((C.drop i).take m).flatten.map Prod.fst ∧
      lists' .active = lists .active ∧ ∀ j, lists (.slot j) = [] → lists' (.slot j) = [] := by
  induction m generalizing i h lists with
  | zero => exact ⟨h, lists, rfl, hr, hk, hC, by simp, rfl, fun _ hj => hj⟩
  | succ m ih =>
    have hlen : C.length = t.iItemSize := by
      have := congrArg List.length hC
      rw [length_calendar, Calendar.cleared, List.length_append, List.length_replicate,
        List.length_drop] at this
      have e : (t.withHeap h).iItemSize = t.iItemSize := rfl
      omega
    let s := (t.llStartIdx.toNat + i) % t.iItemSize
    have hs : s < t.iItemSize := Nat.mod_lt _ hpos
    -- what the place holds
    have hplace : timesOf h (lists (.slot s)) = C[i] := by
      have hring : ((List.range t.iItemSize).map fun i => timesOf h (lists (.slot i))).rotate
          t.llStartIdx.toNat = C.cleared i := hC
      have e := congrArg (fun b : Calendar (Ptr × ℕ) => b[i]?) hring
      rw [List.getElem?_rotate (by simp; omega), Calendar.cleared,
        List.getElem?_append_right (by simp), List.length_replicate, Nat.sub_self,
        List.getElem?_drop, List.length_map, List.length_range, Nat.add_comm i,
        List.getElem?_map, List.getElem?_range hs, List.getElem?_eq_getElem (by omega)] at e
      exact Option.some.inj e
    obtain ⟨h₁, e₁, hr₁, hk₁⟩ := hr.join_repr (show Place.timeout ≠ .slot s by simp)
    have hC₁ : (t.withHeap h₁).calendar (Function.update (Function.update lists .timeout
        (lists .timeout ++ lists (.slot s))) (.slot s) []) = C.cleared (i + 1) := by
      rw [← Calendar.cleared_succ (by omega), ← hC]
      refine calendar_modify (t := t.withHeap h) (u := t.withHeap h₁)
        (show i < t.iItemSize by omega) rfl rfl fun j _ => ?_
      show timesOf h₁ _ = if j = s then [] else timesOf h _
      rw [timesOf_congr hk₁]
      by_cases hj : j = s
      · rw [if_pos hj, hj, Function.update_self]
        rfl
      · rw [if_neg hj, Function.update_of_ne (by simpa using hj), Function.update_of_ne (by simp)]
    obtain ⟨h', lists', e', hr', hk', hC', htl, hal, hout⟩ := ih hr₁ (hk.trans hk₁) hC₁ (by omega)
    refine ⟨h', lists', ?_, hr', hk', by rw [hC']; congr 1; omega, ?_, ?_, ?_⟩
    · have hslot : t.slotAt i = some s := slotAt_eq hpos h0 i
      simp [takeLoop, hslot, e₁, e']
    · have hfst : lists (.slot s) = C[i].map Prod.fst := by
        rw [← hplace]
        simp [timesOf, Function.comp_def]
      rw [htl, Function.update_of_ne (by simp), Function.update_self, hfst,
        List.drop_eq_getElem_cons (by omega : i < C.length), List.take_succ_cons,
        List.flatten_cons, List.map_append, List.append_assoc]
    · rw [hal, Function.update_of_ne (by simp), Function.update_of_ne (by simp)]
    · intro j hj
      apply hout
      by_cases hjs : j = s
      · rw [hjs, Function.update_self]
      · rw [Function.update_of_ne (by simpa using hjs), Function.update_of_ne (by simp), hj]

namespace Waits

/-- **`TakeAllTimeout`** moves what is due to the timeout list, in the order in which it is due. -/
theorem takeAllTimeout (now : ℕ) (hw : t.Waits q) (hgap : now + 1 < q.start + 2 ^ 31) :
    ∃ t', t.takeAllTimeout now .timeout = some t' ∧ t'.Waits (q.take now) ∧
      t.heap.Keeps t'.heap ∧ t'.iItemSize = t.iItemSize := by
  obtain ⟨lists, hh, rfl⟩ := hw
  have hstart : (t.queues lists).start = t.ullStart := rfl
  rw [hstart] at hgap
  have hpos := hh.size_pos
  by_cases h₁ : now < t.ullStart
  · refine ⟨t, by simp [Timeout.takeAllTimeout, started_eq hh.start_pos, h₁], ?_, .refl _, rfl⟩
    rw [Queues.take, hstart, if_pos h₁]
    exact ⟨lists, hh, rfl⟩
  obtain ⟨d, hd⟩ : ∃ d, now = t.ullStart + d := ⟨now - t.ullStart, by omega⟩
  have hcnt : toInt (diffULL now t.ullStart + 1) = (d + 1 : ℕ) := by
    rw [toInt_diffULL_succ (by omega) hgap]
    omega
  -- the number of places to empty
  let c := min (d + 1) t.iItemSize
  have hc : (if ((d + 1 : ℕ) : ℤ) > t.iItemSize then (t.iItemSize : ℤ) else ((d + 1 : ℕ) : ℤ)) =
      c := by
    split <;> omega
  have hc1 : 1 ≤ c := by omega
  have hlen := length_calendar t lists
  obtain ⟨h', lists', e', hr', hk', hC', htl, hal, hout⟩ := takeLoop_spec (t := t) (h := t.heap)
    (i := 0) (m := c) (C := t.calendar lists) hpos hh.idx_nonneg hh.repr (.refl _)
    (by simp [Calendar.cleared, withHeap]) (by omega)
  let t' : Timeout := ⟨h', t.iItemSize, now, t.llStartIdx + (c - 1)⟩
  have hidx : t'.llStartIdx.toNat = t.llStartIdx.toNat + (c - 1) := by
    show (t.llStartIdx + ((c : ℤ) - 1)).toNat = _
    have := hh.idx_nonneg
    omega
  have hcal : t'.calendar lists' = (t.calendar lists).sweep c := by
    rw [← Calendar.rotate_cleared hc1, ← Nat.zero_add c, ← hC', calendar, hidx, calendar,
      List.rotate_rotate, Nat.zero_add]
    rfl
  -- what the first places hold is what is due
  have hdue : (t.calendar lists).due c = due deadline (t.calendar lists).flatten now ∧
      ((t.calendar lists).drop c).flatten = later deadline (t.calendar lists).flatten now := by
    have hdd : ∀ m : ℕ, ((t.ullStart : ℤ) - 1) + m = t.ullStart + m - 1 := fun m => by omega
    by_cases hfull : d + 1 ≤ t.iItemSize
    · have e : ((t.ullStart : ℤ) - 1) + c = now := by omega
      exact ⟨e ▸ Calendar.due_eq_filter hh.timed, e ▸ Calendar.flatten_drop_eq_filter hh.timed⟩
    · have hcs : c = t.iItemSize := by omega
      have hall : ∀ x ∈ (t.calendar lists).flatten, deadline x ≤ now := by
        intro x hx
        have hx' : x ∈ (t.calendar lists).due c := by
          rw [Calendar.due, List.take_of_length_le (by omega)]
          exact hx
        have := ((Calendar.mem_due_iff hh.timed).mp hx').2
        omega
      refine ⟨?_, ?_⟩
      · rw [Calendar.due, List.take_of_length_le (by omega), due, List.filter_eq_self.mpr]
        simpa using hall
      · rw [List.drop_of_length_le (by omega), List.flatten_nil, later, List.filter_eq_nil_iff.mpr]
        simpa using hall
  refine ⟨t', ?_, ⟨lists', ⟨hr', hpos, hh.size_lt, ?_, ?_,
    fun i hi => hout i (hh.outside i hi), ?_⟩, ?_⟩, hk', rfl⟩
  · have hneg : ¬((c : ℤ) < 0) := by omega
    simp only [Timeout.takeAllTimeout, started_eq hh.start_pos, h₁, if_false, hcnt, hc, hneg,
      Int.toNat_natCast, e', Option.bind_eq_bind, Option.bind_some]
    rfl
  · show 0 < now
    have := hh.start_pos
    omega
  · show 0 ≤ t.llStartIdx + ((c : ℤ) - 1)
    have := hh.idx_nonneg
    omega
  · rw [hcal]
    by_cases hfull : d + 1 ≤ t.iItemSize
    · have e : ((t'.ullStart : ℤ) - 1) = ((t.ullStart : ℤ) - 1) + c - 1 := by
        show ((now : ℤ) - 1) = _
        omega
      rw [e]
      exact hh.timed.sweep
    · apply Calendar.timed_of_flatten_eq_nil
      rw [Calendar.flatten_sweep, List.drop_of_length_le (by omega), List.flatten_nil]
  · rw [Queues.take, hstart, if_neg h₁, queues, hcal, Calendar.flatten_sweep, htl, hal, hdue.2,
      List.drop_zero]
    show (⟨_, _ ++ ((t.calendar lists).due c).map Prod.fst, _, _⟩ : Queues) = _
    rw [hdue.1]
    rfl

end Waits

/-! ## Runs -/

/-- The calls of a run. Both callers of `AddTimeout` write the time of the item first. -/
inductive Call
  | alloc (item : TimeoutItem)
  | free (x : Ptr)
  | addTimeout (x : Ptr) (ullExpireTime allNow : ℕ)
  | removeFromLink (x : Ptr)
  | addTail (x : Ptr)
  | takeAllTimeout (allNow : ℕ)
  | join
  | popHead

/-- What a call does to the wheel and the two lists. -/
def call (t : Timeout) : Call → Option Timeout
  | .alloc item => some (t.withHeap (t.heap.alloc item))
  | .free x => if t.heap.Live x then some (t.withHeap (t.heap.dealloc x)) else none
  | .addTimeout x ullExpireTime allNow => do
    let heap ← t.heap.write x fun n =>
      { n with data := { n.data with ullExpireTime := ullExpireTime } }
    let r ← (t.withHeap heap).addTimeout x allNow
    some r.2
  | .removeFromLink x => (t.heap.removeFromLink x).map t.withHeap
  | .addTail x => (t.heap.addTail .active x).map t.withHeap
  | .takeAllTimeout allNow => t.takeAllTimeout allNow .timeout
  | .join => (t.heap.join .active .timeout).map t.withHeap
  | .popHead => (t.heap.popHead .active).map t.withHeap

/-- What the callers promise: the items they name are allocated and were not freed, an item is
armed, activated or freed when it is in no list, and times are before 2^31 ms after the start of the
wheel, where the conversion of a difference to `int` loses nothing. -/
def Allowed (t : Timeout) : Call → Prop
  | .free x => t.heap.Live x ∧ t.heap.owner x = none
  | .addTimeout x ullExpireTime _ =>
    t.heap.Live x ∧ t.heap.owner x = none ∧ ullExpireTime < t.ullStart + 2 ^ 31
  | .removeFromLink x => t.heap.Live x
  | .addTail x => t.heap.Live x ∧ t.heap.owner x = none
  | .takeAllTimeout allNow => allNow + 1 < t.ullStart + 2 ^ 31
  | _ => True

instance (t : Timeout) (c : Call) : Decidable (t.Allowed c) := by
  cases c <;> unfold Allowed <;> infer_instance

/-- What a call means for the queues, with `size` places in the wheel. -/
def Call.apply (size : ℕ) (q : Queues) : Call → Queues
  | .alloc _ => q
  | .free _ => q
  | .addTimeout x ullExpireTime allNow =>
    if q.Accepts size ullExpireTime allNow then q.add x ullExpireTime else q
  | .removeFromLink x => q.remove x
  | .addTail x => q.activate x
  | .takeAllTimeout allNow => q.take allNow
  | .join => q.joinTimeout
  | .popHead => q.popActive

theorem Waits.start_eq (hw : t.Waits q) : q.start = t.ullStart := by
  obtain ⟨lists, -, rfl⟩ := hw
  rfl

namespace Waits

/-- An item is in a queue if it is in a list. -/
theorem has_iff (hw : t.Waits q) : q.Has x ↔ t.heap.owner x ≠ none := by
  obtain ⟨lists, hh, rfl⟩ := hw
  constructor
  · intro hq ho
    obtain ⟨h₁, h₂, h₃⟩ := hh.not_mem_of_owner ho
    rcases hq with hq | hq | hq
    · obtain ⟨⟨y, e⟩, he, rfl⟩ := List.mem_map.mp hq
      exact h₁ e he
    · exact h₂ hq
    · exact h₃ hq
  · intro ho
    obtain ⟨k, hk⟩ := Option.ne_none_iff_exists'.mp ho
    have hx := (hh.repr.owner k x).mpr hk
    cases k with
    | slot i => exact .inl (List.mem_map.mpr ⟨_, hh.mem_pending.mpr ⟨⟨i, hx⟩, rfl⟩, rfl⟩)
    | timeout => exact .inr (.inl hx)
    | active => exact .inr (.inr hx)

theorem mem_active (hw : t.Waits q) : x ∈ q.active ↔ t.heap.owner x = some .active := by
  obtain ⟨lists, hh, rfl⟩ := hw
  exact hh.repr.owner .active x

theorem mem_pending (hw : t.Waits q) {e : ℕ} :
    (x, e) ∈ q.pending ↔ (∃ i, t.heap.owner x = some (.slot i)) ∧ expire t.heap x = e := by
  obtain ⟨lists, hh, rfl⟩ := hw
  rw [hh.mem_pending]
  simp only [hh.repr.owner]

theorem live (hw : t.Waits q) (hx : q.Has x) : t.heap.Live x := by
  have ho := hw.has_iff.mp hx
  cases hi : t.heap.item x with
  | none => simp [Heap.owner, hi] at ho
  | some n => simp [Heap.Live, hi]

theorem lt_fresh (hw : t.Waits q) (hx : t.heap.Live x) : x < t.heap.fresh := by
  obtain ⟨lists, hh, -⟩ := hw
  exact hh.repr.lt_fresh x hx

theorem active_nodup (hw : t.Waits q) : q.active.Nodup := by
  obtain ⟨lists, hh, rfl⟩ := hw
  exact hh.repr.nodup .active

theorem timeout_nodup (hw : t.Waits q) : q.timeout.Nodup := by
  obtain ⟨lists, hh, rfl⟩ := hw
  exact hh.repr.nodup .timeout

/-- What is active is in no other queue. -/
theorem not_mem_of_active (hw : t.Waits q) (hx : x ∈ q.active) :
    x ∉ q.pending.map Prod.fst ∧ x ∉ q.timeout := by
  obtain ⟨lists, hh, rfl⟩ := hw
  refine ⟨fun hp => ?_, hh.repr.not_mem hx (by simp)⟩
  obtain ⟨⟨y, e⟩, he, rfl⟩ := List.mem_map.mp hp
  obtain ⟨⟨i, hi⟩, -⟩ := hh.mem_pending.mp he
  exact hh.repr.not_mem hx (by simp) hi

theorem mem_remove_active (hw : t.Waits q) {y : Ptr} :
    y ∈ (q.remove x).active ↔ y ≠ x ∧ y ∈ q.active :=
  hw.active_nodup.mem_erase_iff

theorem has_remove (hw : t.Waits q) {y : Ptr} : (q.remove x).Has y ↔ y ≠ x ∧ q.Has y := by
  have hp : y ∈ (q.remove x).pending.map Prod.fst ↔ y ≠ x ∧ y ∈ q.pending.map Prod.fst := by
    simp only [Queues.remove, List.mem_map, List.mem_filter, decide_eq_true_eq]
    constructor
    · rintro ⟨e, ⟨he, hne⟩, rfl⟩
      exact ⟨hne, e, he, rfl⟩
    · rintro ⟨hne, e, he, rfl⟩
      exact ⟨e, ⟨he, hne⟩, rfl⟩
  have ht : y ∈ (q.remove x).timeout ↔ y ≠ x ∧ y ∈ q.timeout := hw.timeout_nodup.mem_erase_iff
  rw [Queues.Has, Queues.Has, hp, ht, hw.mem_remove_active, ← and_or_left, ← and_or_left]

/-- The first item of the active list leaves the queues. -/
theorem has_popActive (hw : t.Waits q) {l : List Ptr} (hq : q.active = x :: l) {y : Ptr} :
    q.popActive.Has y ↔ y ≠ x ∧ q.Has y := by
  obtain ⟨hp, ht⟩ := hw.not_mem_of_active (x := x) (by rw [hq]; simp)
  have hl : x ∉ l := by
    have := hw.active_nodup
    rw [hq] at this
    exact (List.nodup_cons.mp this).1
  simp only [Queues.Has, Queues.popActive, hq, List.tail_cons, List.mem_cons]
  by_cases hy : y = x
  · simp only [hy, hp, ht, hl, ne_eq, not_true_eq_false, false_and, or_self]
  · simp [hy]

end Waits

/-- **One call** on a wheel that stands for queues is defined, and does to them what it means. -/
theorem Waits.call (hw : t.Waits q) {c : Call} (hc : t.Allowed c) :
    ∃ t', t.call c = some t' ∧ t'.Waits (c.apply t.iItemSize q) ∧ t'.iItemSize = t.iItemSize := by
  cases c with
  | alloc item => exact ⟨_, rfl, hw.allocItem item, rfl⟩
  | free x => exact ⟨_, if_pos hc.1, hw.freeItem hc.2, rfl⟩
  | addTimeout x ullExpireTime allNow =>
    obtain ⟨hx, ho, hgap⟩ := hc
    obtain ⟨n, hn⟩ := Heap.live_iff.mp hx
    let h' := t.heap.modify x fun n =>
      { n with data := { n.data with ullExpireTime := ullExpireTime } }
    have hw' : (t.withHeap h').Waits q :=
      hw.modifyData (f := fun d => { d with ullExpireTime := ullExpireTime }) (.inl ho)
    have hn' : h'.item x =
        some { n with data := { n.data with ullExpireTime := ullExpireTime } } := by
      rw [Heap.modify_item, if_pos rfl, hn]
      rfl
    have hp : n.pLink = none := by simpa [Heap.owner, hn] using ho
    rw [← hw.start_eq] at hgap
    obtain ⟨r, t', e, -, hsize, -, hw''⟩ := hw'.addTimeout allNow hn' hp hgap
    refine ⟨t', ?_, hw'', hsize⟩
    have e' : (t.withHeap h').addTimeout x allNow = some (r, t') := e
    simp only [Timeout.call, Heap.write_eq hx, Option.bind_eq_bind, Option.bind_some]
    rw [show t.heap.modify x _ = h' from rfl, e', Option.bind_some]
  | removeFromLink x =>
    obtain ⟨h', e, hw', -⟩ := hw.remove hc
    exact ⟨_, by simp [Timeout.call, e], hw', rfl⟩
  | addTail x =>
    obtain ⟨h', e, hw', -⟩ := hw.activate hc.1 hc.2
    exact ⟨_, by simp [Timeout.call, e], hw', rfl⟩
  | takeAllTimeout allNow =>
    obtain ⟨t', e, hw', -, hsize⟩ := hw.takeAllTimeout allNow (by
      rw [hw.start_eq]
      exact hc)
    exact ⟨t', e, hw', hsize⟩
  | join =>
    obtain ⟨h', e, hw', -⟩ := hw.joinTimeout
    exact ⟨_, by simp [Timeout.call, e], hw', rfl⟩
  | popHead =>
    obtain ⟨h', e, hw', -⟩ := hw.popActive
    exact ⟨_, by simp [Timeout.call, e], hw', rfl⟩

/-- **The wheel refines a queue by deadline.** After any run of calls that keep what callers
promise, among it that every time is before 2^31 ms after the start of the wheel, the wheel and the
two lists stand for the queues that the calls mean, one after another, and the next such call is
defined again. What is pending is in the order of the expire times. -/
theorem timeouts_refine_queues {iSize start : ℕ} (hpos : 0 < iSize) (hlt : iSize < 2 ^ 31)
    (hstart : 0 < start) {calls : List Call} {t : Timeout}
    (hrun : Exec call Allowed (allocTimeout iSize start) calls t) :
    t.Waits (calls.foldl (Call.apply iSize) ⟨[], [], [], start⟩) ∧
      (calls.foldl (Call.apply iSize) ⟨[], [], [], start⟩).pending.Pairwise (·.2 ≤ ·.2) ∧
      ∀ c, t.Allowed c → ∃ t', t.call c = some t' := by
  have key : t.Waits (calls.foldl (Call.apply iSize) ⟨[], [], [], start⟩) ∧
      t.iItemSize = iSize := by
    induction hrun with
    | nil => exact ⟨.alloc hpos hlt hstart, rfl⟩
    | snoc _ hc hs ih =>
      obtain ⟨t', e, hw, hsize⟩ := ih.1.call hc
      rw [hs] at e
      obtain rfl := Option.some.inj e
      rw [ih.2] at hw hsize
      rw [List.foldl_concat]
      exact ⟨hw, hsize⟩
  refine ⟨key.1, ?_, fun c hc => (key.1.call hc).imp fun t' h => h.1⟩
  obtain ⟨lists, hh, e⟩ := key.1
  rw [← e]
  refine (Calendar.flatten_pairwise hh.timed).imp fun {a b} hab => ?_
  simp only [deadline] at hab
  omega

/-- Two items with one time and one that is due before them, on a wheel of eight places that starts
at 100; a fourth one, beyond the end of the wheel, is refused. -/
def fourItems : List Call :=
  [.alloc ⟨0, 0, false⟩, .alloc ⟨0, 1, false⟩, .alloc ⟨0, 2, false⟩, .alloc ⟨0, 3, false⟩,
    .addTimeout 0 105 101, .addTimeout 1 105 102, .addTimeout 2 103 102, .addTimeout 3 108 102,
    .takeAllTimeout 104, .join, .popHead, .takeAllTimeout 105]

/-- `timeouts_refine_queues` on it: the item due first is taken first, the others in the order of
their arrival. -/
theorem timeouts_refine_queues_four :
    ∃ t, runIf call Allowed (allocTimeout 8 100) fourItems = some t ∧
      t.Waits ⟨[], [0, 1], [], 105⟩ := by
  obtain ⟨t, ht⟩ := Option.isSome_iff_exists.mp
    (show (runIf call Allowed (allocTimeout 8 100) fourItems).isSome by decide)
  refine ⟨t, ht, ?_⟩
  have h := (timeouts_refine_queues (by decide) (by decide) (by decide) (exec_of_runIf ht)).1
  rwa [show fourItems.foldl (Call.apply 8) ⟨[], [], [], 100⟩ = ⟨[], [0, 1], [], 105⟩ by decide] at h

end Timeout

end WebServer.Libco
