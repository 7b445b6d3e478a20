import WebServer.Connection.Timer
import WebServer.TimeRound.Expiry

/-!
# Idle connections

The connections together with the wheel their timers are on. `handle_event` arms an item for five
seconds and puts a node with it on the wheel. The timer thread reads the clock and writes
`cur_time`, takes `Mutex` and makes up for the seconds since then, and `HandleTimeOutList` deletes
the nodes that this took off the wheel one after another. The handlers run on meanwhile, but for the
part under `Mutex`; in particular a node may be added after `cur_time` is written and before `Mutex`
is taken. Such a node is still counted down by that pass, so what a node is measured from is the
time the wheel has been advanced to, `settledTime`. A node and its item are tied by the number of
the node (`nodes`).

What is under `Mutex` is one step: of runs in which the second unlock of `~Lock_Guard` falls into an
addition nothing is said here (`TimeRound.Lock.exclusive_of_free_dtor`).

* `step_tied`: what is on the wheel, or taken off it and not deleted yet, are the items whose node
  is there; every other item is held by its handler, is dead, or was reset.
* `closed_iff_idle`: in every run, `~TimeRoundItem` has called `Close` for an item if and only if a
  pass that took `Mutex` since it was put on the wheel had a clock reading at least six seconds
  after `settledTime` at that moment, its node has been deleted, its handler does not hold it any
  more, and neither a later request nor `handle_close` has reset it.
-/

namespace WebServer.Connection

open WebServer.Lib TimeRound

variable {ε : Type*}

/-- The connections, the wheel of their timers and what ties them. `births`, `passes` and `resets`
are records. -/
structure TimedSt (ε : Type*) where
  conn : St ε
  wheel : Wheel
  /-- `diff_time` of the timer thread, after it has written `cur_time` and until it takes `Mutex`.
  -/
  diffTime : Option ℕ
  births : List Birth
  passes : List PassRecord
  /-- The item of each node, by the number of the node. -/
  nodes : List ℕ
  /-- The items of the nodes that `HandleTimeOutList` has not deleted yet. -/
  timeOut : List ℕ
  resets : List ℕ

/-- The steps: those of the connections; the timer thread reads the clock; it makes a pass, from the
taking of `Mutex` to its unlocking; and `HandleTimeOutList` deletes the next node. -/
inductive TimedAct (ε : Type*)
  | conn (a : Act ε)
  | clock (now : ℤ)
  | pass
  | delete
  deriving DecidableEq

namespace TimedSt

/-- No connection yet, and a wheel of `max_time` places started at `now`. -/
def init (S : Setup ε) (maxTime : ℕ) (now : ℤ) : TimedSt ε :=
  ⟨Connection.init S, .start maxTime now, none, [], [], [], [], []⟩

/-- The time the wheel has been advanced to: `cur_time`, less what a pass that has written it and
has not taken `Mutex` yet is going to make up for. -/
def settledTime (s : TimedSt ε) : ℤ := s.wheel.curTime - (s.diffTime.getD 0 : ℕ)

variable [DecidableEq ε]

/-- One step. -/
def step (S : Setup ε) (s : TimedSt ε) : TimedAct ε → Option (TimedSt ε)
  | .conn (.expire _) => none
  | .conn (.handler c .addNode) =>
    match s.conn.frame c with
    | some (.armed i) =>
      (Connection.step S s.conn (.handler c .addNode)).bind fun u =>
        ((s.wheel.newNode 5).addTimeRoundItemNode (some s.wheel.fresh)).map fun w =>
          { s with
            conn := u
            wheel := w
            births := s.births ++ [⟨5, s.settledTime, s.passes.length⟩]
            nodes := s.nodes ++ [i] }
    | _ => none
  | .conn (.handler c .reset) =>
    match s.conn.frame c with
    | some (.reset i _) =>
      (Connection.step S s.conn (.handler c .reset)).map fun u =>
        { s with conn := u, resets := s.resets ++ [i] }
    | _ => none
  | .conn a => (Connection.step S s.conn a).map fun u => { s with conn := u }
  | .clock now =>
    if s.timeOut = [] ∧ s.diffTime = none then
      let diffTime := now - s.wheel.curTime
      if diffTime ≥ 1 then
        let diffTime := if diffTime ≥ s.wheel.maxTime then (s.wheel.maxTime : ℤ) - 1 else diffTime
        some { s with wheel := { s.wheel with curTime := now }, diffTime := some diffTime.toNat }
      else some s
    else none
  | .pass =>
    match s.diffTime with
    | none => none
    | some d =>
      ((s.wheel.tickLoop d).bind Wheel.handleTimeOutList).map fun w =>
        let deleted := w.deleted.drop s.wheel.deleted.length
        { s with
          wheel := w
          diffTime := none
          passes := s.passes ++ [⟨s.wheel.curTime, deleted⟩]
          timeOut := deleted.filterMap fun p => s.nodes[p]? }
  | .delete =>
    match s.timeOut with
    | [] => none
    | i :: rest =>
      (Connection.step S s.conn (.expire i)).map fun u => { s with conn := u, timeOut := rest }

/-- No reading is `max_time` or more ahead of `cur_time`. -/
def Near (s : TimedSt ε) : TimedAct ε → Prop
  | .clock now => now - s.wheel.curTime < s.wheel.maxTime
  | _ => True

instance (s : TimedSt ε) : ∀ a, Decidable (s.Near a)
  | .clock now => inferInstanceAs (Decidable (now - s.wheel.curTime < s.wheel.maxTime))
  | .conn _ | .pass | .delete => inferInstanceAs (Decidable True)

end TimedSt

/-! ## Items, handlers and nodes -/

/-- Where an item is in its life: it holds its channel, it was reset, or it called `Close`. -/
def Status (s : St ε) (resets : List ℕ) (i : ℕ) (it : Item) : Prop :=
  it.live = true ∧ it.ptr = true ∧ i ∉ s.fired ∧ i ∉ resets ∨
    it.ptr = false ∧ i ∉ s.fired ∧ i ∈ resets ∨
    it.live = false ∧ it.ptr = false ∧ i ∈ s.fired ∧ i ∉ resets

/-- How the items, the handlers and the nodes are tied, where the nodes `on` the wheel, or taken off
it and not deleted, are given by their items. Whether item `x` lives is left open. -/
structure Ties (s : St ε) (nodes resets : List ℕ) (on : ℕ → Prop) (x : Option ℕ) : Prop where
  node_iff : ∀ i it, s.items i = some it → (it.node = true ↔ on i)
  node_live : ∀ i it, s.items i = some it → it.node = true → it.live = true
  live : ∀ i it, s.items i = some it → some i ≠ x → it.live = true →
    it.node = true ∨ (s.frame it.chan).bind Pc.held = some i
  made : ∀ i it, s.items i = some it → i ∈ nodes ∨ s.frame it.chan = some (.armed i)
  armed : ∀ c i, s.frame c = some (.armed i) → i ∉ nodes
  known : ∀ i, i ∈ nodes ∨ i ∈ resets → ∃ it, s.items i = some it
  status : ∀ i it, s.items i = some it → Status s resets i it

namespace Ties

variable {s t : St ε} {nodes resets : List ℕ} {on : ℕ → Prop} {x : Option ℕ} {c i : ℕ} {it : Item}
  {pc pc' : Pc}

theorem congr (h : Ties s nodes resets on x) (hi : t.items = s.items) (hf : t.fired = s.fired)
    (hr : t.frame = s.frame) : Ties t nodes resets on x := by
  constructor
  case node_iff => rw [hi]; exact h.node_iff
  case node_live => rw [hi]; exact h.node_live
  case live => rw [hi, hr]; exact h.live
  case made => rw [hi, hr]; exact h.made
  case armed => rw [hr]; exact h.armed
  case known => rw [hi]; exact h.known
  case status =>
    rw [hi]
    intro i it hit
    rw [Status, hf]
    exact h.status i it hit

/-- A handler starts, goes on or ends, and holds what it held, but for `x`. -/
theorem moveFrame {pc' : Option Pc} (h : Ties s nodes resets on x)
    (hheld : ∀ i, some i ≠ x → (s.frame c).bind Pc.held = some i → pc'.bind Pc.held = some i)
    (hpc : ∀ i, s.frame c ≠ some (.armed i)) (hpc' : ∀ i, pc' ≠ some (.armed i)) :
    Ties { s with frame := Function.update s.frame c pc' } nodes resets on x := by
  constructor
  case node_iff => exact h.node_iff
  case node_live => exact h.node_live
  case live =>
    intro i it hi hx hl
    refine (h.live i it hi hx hl).imp_right fun hh => ?_
    by_cases hc : it.chan = c
    · rw [hc] at hh ⊢
      simp [hheld i hx hh]
    · simpa [hc] using hh
  case made =>
    intro i it hi
    refine (h.made i it hi).imp_right fun hh => ?_
    have hc : it.chan ≠ c := by
      rintro rfl
      exact hpc i hh
    simpa [hc] using hh
  case armed =>
    intro d i hd
    dsimp only at hd
    by_cases hdc : d = c
    · subst hdc
      rw [Function.update_self] at hd
      exact absurd hd (hpc' i)
    · rw [Function.update_of_ne hdc] at hd
      exact h.armed d i hd
  case known => exact h.known
  case status => exact h.status

/-- A handler goes on, and holds what it held, but for `x`. -/
theorem setFrame (h : Ties s nodes resets on x) (hf : s.frame c = some pc)
    (hheld : ∀ i, some i ≠ x → pc.held = some i → pc'.held = some i) (hpc : ∀ i, pc ≠ .armed i)
    (hpc' : ∀ i, pc' ≠ .armed i) : Ties (s.setFrame c pc') nodes resets on x := by
  apply h.moveFrame
  case hheld =>
    intro j hj hh
    rw [hf, Option.bind_some] at hh
    exact hheld j hj hh
  case hpc =>
    intro j e
    exact hpc j (Option.some.inj (hf.symm.trans e))
  case hpc' =>
    intro j e
    exact hpc' j (Option.some.inj e)

/-- The node of an item that lives is put on the wheel, or deleted. -/
theorem setNode {on' : ℕ → Prop} {b : Bool} (h : Ties s nodes resets on none)
    (hi : s.items i = some it) (hl : it.live = true) (hon : on' i ↔ b = true)
    (hon' : ∀ j ≠ i, on' j ↔ on j) :
    Ties (s.setItem i { it with node := b }) nodes resets on' (some i) := by
  have key : ∀ j jt, (s.setItem i { it with node := b }).items j = some jt →
      j = i ∧ jt = { it with node := b } ∨ j ≠ i ∧ s.items j = some jt := fun j jt hj =>
    update_some_cases hj
  constructor
  case node_iff =>
    intro j jt hj
    rcases key j jt hj with ⟨rfl, rfl⟩ | ⟨hji, hj⟩
    · exact hon.symm
    · exact (h.node_iff j jt hj).trans (hon' j hji).symm
  case node_live =>
    intro j jt hj
    rcases key j jt hj with ⟨rfl, rfl⟩ | ⟨-, hj⟩
    · exact fun _ => hl
    · exact h.node_live j jt hj
  case live =>
    intro j jt hj hx
    rcases key j jt hj with ⟨rfl, -⟩ | ⟨-, hj⟩
    · exact absurd rfl hx
    · exact h.live j jt hj nofun
  case made =>
    intro j jt hj
    rcases key j jt hj with ⟨rfl, rfl⟩ | ⟨-, hj⟩
    · exact h.made j it hi
    · exact h.made j jt hj
  case armed => exact h.armed
  case known =>
    intro j hj
    by_cases hji : j = i
    · exact ⟨_, by rw [hji]; exact Function.update_self ..⟩
    · obtain ⟨jt, hjt⟩ := h.known j hj
      exact ⟨jt, (Function.update_of_ne hji ..).trans hjt⟩
  case status =>
    intro j jt hj
    rcases key j jt hj with ⟨rfl, rfl⟩ | ⟨-, hj⟩
    · exact h.status j it hi
    · exact h.status j jt hj

/-- An item that has a node lives. -/
theorem of_node (h : Ties s nodes resets on (some i)) (hi : s.items i = some it)
    (hn : it.node = true) : Ties s nodes resets on none := by
  refine { h with live := fun j jt hj _ hl => ?_ }
  by_cases hji : j = i
  · subst hji
    obtain rfl := Option.some.inj (hi.symm.trans hj)
    exact .inl hn
  · exact h.live j jt hj (by simpa using hji) hl

theorem of_iff {on' : ℕ → Prop} (h : Ties s nodes resets on x) (hon : ∀ i, on' i ↔ on i) :
    Ties s nodes resets on' x :=
  { h with node_iff := fun i it hi => (h.node_iff i it hi).trans (hon i).symm }

/-- The node of the item a handler has made is put on the wheel. -/
theorem added (h : Ties s nodes resets on none) (hT : Timers s) (hf : s.frame c = some (.armed i)) :
    Ties (s.setFrame c (.added i)) (nodes ++ [i]) resets on none := by
  obtain ⟨it, hi, -, rfl⟩ := hT.frame_item hf rfl
  have hframe : ∀ d, d ≠ it.chan → (s.setFrame it.chan (.added i)).frame d = s.frame d :=
    fun d hd => Function.update_of_ne hd ..
  have hself : (s.setFrame it.chan (.added i)).frame it.chan = some (.added i) :=
    Function.update_self ..
  constructor
  case node_iff => exact h.node_iff
  case node_live => exact h.node_live
  case live =>
    intro j jt hj hx hl
    refine (h.live j jt hj hx hl).imp_right fun hh => ?_
    by_cases hc : jt.chan = it.chan
    · rw [hc, hf] at hh
      rw [hc, hself]
      exact hh
    · rwa [hframe _ hc]
  case made =>
    intro j jt hj
    rcases h.made j jt hj with hm | hm
    · exact .inl (List.mem_append_left _ hm)
    · by_cases hc : jt.chan = it.chan
      · rw [hc, hf] at hm
        cases hm
        exact .inl (by simp)
      · exact .inr (by rwa [hframe _ hc])
  case armed =>
    intro d j hd
    by_cases hdc : d = it.chan
    · rw [hdc, hself] at hd
      cases hd
    · rw [hframe d hdc] at hd
      have hji : j ≠ i := by
        rintro rfl
        obtain ⟨jt, hj, -, rfl⟩ := hT.frame_item hd rfl
        obtain rfl := Option.some.inj (hi.symm.trans hj)
        exact hdc rfl
      simpa [hji] using h.armed d j hd
  case known =>
    intro j hj
    by_cases hji : j = i
    · exact ⟨it, hji ▸ hi⟩
    · exact h.known j (hj.imp_left fun hj => by simpa [hji] using hj)
  case status => exact h.status

theorem exempt (h : Ties s nodes resets on none) : Ties s nodes resets on x :=
  { h with live := fun j jt hj _ => h.live j jt hj nofun }

/-- `TimeRoundItem::reset`. -/
theorem resetItem (h : Ties s nodes resets on x) (hi : s.items i = some it) (hl : it.live = true) :
    Ties (s.resetItem i) nodes (resets ++ [i]) on x := by
  have e : (s.resetItem i).items = Function.update s.items i (some { it with ptr := false }) := by
    simp [St.resetItem, hi, St.setItem]
  have ef : (s.resetItem i).frame = s.frame := by simp [St.resetItem, hi, St.setItem]
  have efired : (s.resetItem i).fired = s.fired := by simp [St.resetItem, hi, St.setItem]
  constructor
  case node_iff =>
    intro j jt hj
    rw [e] at hj
    rcases update_some_cases hj with ⟨rfl, rfl⟩ | ⟨-, hj⟩
    · exact h.node_iff j it hi
    · exact h.node_iff j jt hj
  case node_live =>
    intro j jt hj
    rw [e] at hj
    rcases update_some_cases hj with ⟨rfl, rfl⟩ | ⟨-, hj⟩
    · exact h.node_live j it hi
    · exact h.node_live j jt hj
  case live =>
    intro j jt hj
    rw [e] at hj
    rw [ef]
    rcases update_some_cases hj with ⟨rfl, rfl⟩ | ⟨-, hj⟩
    · exact h.live j it hi
    · exact h.live j jt hj
  case made =>
    intro j jt hj
    rw [e] at hj
    rw [ef]
    rcases update_some_cases hj with ⟨rfl, rfl⟩ | ⟨-, hj⟩
    · exact h.made j it hi
    · exact h.made j jt hj
  case armed =>
    rw [ef]
    exact h.armed
  case known =>
    intro j hj
    rw [e]
    by_cases hji : j = i
    · exact ⟨_, by rw [hji]; exact Function.update_self ..⟩
    · obtain ⟨jt, hjt⟩ := h.known j (hj.imp_right fun hj => by simpa [hji] using hj)
      exact ⟨jt, (Function.update_of_ne hji ..).trans hjt⟩
  case status =>
    intro j jt hj
    rw [e] at hj
    rw [Status, efired]
    rcases update_some_cases hj with ⟨rfl, rfl⟩ | ⟨hji, hj⟩
    · rcases h.status j it hi with ⟨-, -, hf, -⟩ | ⟨-, hf, -⟩ | ⟨hdead, -⟩
      · exact .inr (.inl ⟨rfl, hf, by simp⟩)
      · exact .inr (.inl ⟨rfl, hf, by simp⟩)
      · rw [hl] at hdead
        cases hdead
    · simpa [Status, hji] using h.status j jt hj

/-- A new item. -/
theorem arm {ch : Chan ε} (h : Ties s nodes resets on none) (hT : Timers s)
    (hpc : s.frame c = some .decide) (hon : ¬on s.nextItem) :
    Ties ((s.arm c ch).setFrame c (.armed s.nextItem)) nodes resets on none := by
  have hnew : ∀ it, s.items s.nextItem ≠ some it := fun it e => lt_irrefl _ (hT.item_lt e)
  have hfired : s.nextItem ∉ s.fired := by
    intro hm
    obtain ⟨it, hit, -⟩ := hT.fired_dead hm
    exact hnew it hit
  have hknown : s.nextItem ∉ nodes ∧ s.nextItem ∉ resets := by
    rw [← not_or]
    intro hm
    obtain ⟨it, hit⟩ := h.known _ hm
    exact hnew it hit
  have key : ∀ j jt, ((s.arm c ch).setFrame c (.armed s.nextItem)).items j = some jt →
      j = s.nextItem ∧ jt = ⟨c, true, false, true⟩ ∨ j ≠ s.nextItem ∧ s.items j = some jt :=
    fun j jt hj => update_some_cases (f := s.items) hj
  have hframe : ∀ d, d ≠ c →
      ((s.arm c ch).setFrame c (.armed s.nextItem)).frame d = s.frame d := fun d hd =>
    Function.update_of_ne hd ..
  have hself : ((s.arm c ch).setFrame c (.armed s.nextItem)).frame c =
      some (.armed s.nextItem) := Function.update_self ..
  constructor
  case node_iff =>
    intro j jt hj
    rcases key j jt hj with ⟨rfl, rfl⟩ | ⟨-, hj⟩
    · exact iff_of_false (by simp) hon
    · exact h.node_iff j jt hj
  case node_live =>
    intro j jt hj
    rcases key j jt hj with ⟨rfl, rfl⟩ | ⟨-, hj⟩
    · exact fun _ => rfl
    · exact h.node_live j jt hj
  case live =>
    intro j jt hj hx hl
    rcases key j jt hj with ⟨rfl, rfl⟩ | ⟨-, hj⟩
    · exact .inr (by rw [hself]; rfl)
    · refine (h.live j jt hj hx hl).imp_right fun hh => ?_
      have hjc : jt.chan ≠ c := by
        intro e
        rw [e, hpc] at hh
        cases hh
      rwa [hframe _ hjc]
  case made =>
    intro j jt hj
    rcases key j jt hj with ⟨rfl, rfl⟩ | ⟨-, hj⟩
    · exact .inr hself
    · refine (h.made j jt hj).imp_right fun hh => ?_
      have hjc : jt.chan ≠ c := by
        intro e
        rw [e, hpc] at hh
        cases hh
      rwa [hframe _ hjc]
  case armed =>
    intro d j hd
    by_cases hdc : d = c
    · rw [hdc, hself] at hd
      cases hd
      exact hknown.1
    · rw [hframe d hdc] at hd
      exact h.armed d j hd
  case known =>
    intro j hj
    obtain ⟨jt, hjt⟩ := h.known j hj
    have hne : j ≠ s.nextItem := by
      rintro rfl
      exact hnew jt hjt
    exact ⟨jt, (Function.update_of_ne hne ..).trans hjt⟩
  case status =>
    intro j jt hj
    rcases key j jt hj with ⟨rfl, rfl⟩ | ⟨-, hj⟩
    · exact .inl ⟨rfl, rfl, hfired, hknown.2⟩
    · exact h.status j jt hj

variable [DecidableEq ε]

theorem destroyItem_fired (hc : it.ptr = true → ∃ ch, s.chans it.chan = some ch) :
    (s.destroyItem i it).fired = if it.ptr then s.fired ++ [i] else s.fired := by
  cases hp : it.ptr with
  | false => simp [St.destroyItem, hp, St.setItem]
  | true =>
    obtain ⟨ch, hch⟩ := hc hp
    simp [St.destroyItem, hp, hch, St.setItem]

/-- A reference to an item that lives goes. -/
theorem dropItem (h : Ties s nodes resets on (some i)) (hi : s.items i = some it)
    (hl : it.live = true) (hc : it.ptr = true → ∃ ch, s.chans it.chan = some ch) :
    Ties (s.dropItem i) nodes resets on none := by
  simp only [St.dropItem, hi]
  split
  · rename_i href
    refine { h with live := fun j jt hj _ hjl => ?_ }
    by_cases hji : j = i
    · subst hji
      obtain rfl := Option.some.inj (hi.symm.trans hj)
      exact href
    · exact h.live j jt hj (by simpa using hji) hjl
  · rename_i href
    obtain ⟨hn, -⟩ := not_or.mp href
    have hmem : ∀ j, j ≠ i → (j ∈ (s.destroyItem i it).fired ↔ j ∈ s.fired) := by
      intro j hji
      rw [destroyItem_fired hc]
      split <;> simp [hji]
    constructor
    case node_iff =>
      intro j jt hj
      rw [destroyItem_items] at hj
      rcases update_some_cases hj with ⟨rfl, rfl⟩ | ⟨-, hj⟩
      · exact h.node_iff j it hi
      · exact h.node_iff j jt hj
    case node_live =>
      intro j jt hj
      rw [destroyItem_items] at hj
      rcases update_some_cases hj with ⟨rfl, rfl⟩ | ⟨-, hj⟩
      · exact fun hjn => absurd hjn hn
      · exact h.node_live j jt hj
    case live =>
      intro j jt hj _ hjl
      rw [destroyItem_items] at hj
      rw [destroyItem_frame]
      rcases update_some_cases hj with ⟨rfl, rfl⟩ | ⟨hji, hj⟩
      · cases hjl
      · exact h.live j jt hj (by simpa using hji) hjl
    case made =>
      intro j jt hj
      rw [destroyItem_items] at hj
      rw [destroyItem_frame]
      rcases update_some_cases hj with ⟨rfl, rfl⟩ | ⟨-, hj⟩
      · exact h.made j it hi
      · exact h.made j jt hj
    case armed =>
      rw [destroyItem_frame]
      exact h.armed
    case known =>
      intro j hj
      rw [destroyItem_items]
      by_cases hji : j = i
      · exact ⟨_, by rw [hji]; exact Function.update_self ..⟩
      · obtain ⟨jt, hjt⟩ := h.known j hj
        exact ⟨jt, (Function.update_of_ne hji ..).trans hjt⟩
    case status =>
      intro j jt hj
      rw [destroyItem_items] at hj
      rcases update_some_cases hj with ⟨rfl, rfl⟩ | ⟨hji, hj⟩
      · rcases h.status j it hi with ⟨-, hp, -, hr⟩ | ⟨hp, hf, hr⟩ | ⟨hdead, -⟩
        · refine .inr (.inr ⟨rfl, rfl, ?_, hr⟩)
          rw [destroyItem_fired hc, if_pos hp]
          simp
        · refine .inr (.inl ⟨rfl, ?_, hr⟩)
          rw [destroyItem_fired hc, hp]
          exact hf
        · rw [hl] at hdead
          cases hdead
      · rw [Status, hmem j hji]
        exact h.status j jt hj

/-- A handler leaves the scope of its `shared_ptr`. -/
theorem leave (h : Ties s nodes resets on none) (hI : Inv S s) (hf : s.frame c = some pc)
    (hheld : pc.held = some i) (hpc : ∀ j, pc ≠ .armed j)
    (hpc' : ∀ j, pc' ≠ .armed j) : Ties ((s.setFrame c pc').dropItem i) nodes resets on none := by
  obtain ⟨it, hi, hl, rfl⟩ := hI.frame_item hf hheld
  obtain ⟨ch, hc⟩ := hI.frame_chan hf
  have hset : Ties (s.setFrame it.chan pc') nodes resets on (some i) := by
    refine h.exempt.setFrame hf (fun j hj hh => ?_) hpc hpc'
    exact absurd (hh.symm.trans hheld) hj
  exact hset.dropItem hi hl fun _ => ⟨ch, hc⟩

end Ties

section

variable [DecidableEq ε] {S : Setup ε} {s t : St ε} {nodes resets : List ℕ} {on : ℕ → Prop}
  {c i : ℕ} {pc : Pc} {ch : Chan ε} {a : HAct}

/-- **A step of a handler** that neither resets an item nor adds a node. -/
theorem handlerStep_ties (hI : Inv S s) (h : Ties s nodes resets on none)
    (hnew : ¬on s.nextItem) (hf : s.frame c = some pc) (hs : HandlerStep S s c ch pc a t)
    (hreset : a ≠ .reset) (hadd : a ≠ .addNode) : Ties t nodes resets on none := by
  have move : ∀ pc' : Pc, (∀ j, pc.held = some j → pc'.held = some j) →
      (∀ j, pc ≠ .armed j) → (∀ j, pc' ≠ .armed j) →
      Ties (s.setFrame c pc') nodes resets on none := by
    exact fun _ hheld => h.setFrame hf fun j _ => hheld j
  have hafter : ∀ (f : Call) (temp : Option ℕ) (j : ℕ), f.afterReset temp ≠ .armed j := by
    intro f temp j
    cases f <;> simp [Call.afterReset]
  have hnext : ∀ (f : Call) (j : ℕ), f.next ≠ .armed j := by
    intro f j
    rcases f with _ | _ | _ <;> simp [Call.next]
  cases hs with
  | data | nothing | eof | sendClosed | send | closeNow | untimed =>
    exact move _ (by simp [Pc.held]) (by simp) (by simp)
  | parse ka =>
    have hmove := move .sending (by simp [Pc.held]) (by simp) (by simp)
    exact hmove.congr rfl rfl rfl
  | lock _ => exact move _ (by simp [Pc.held]) (by simp) (by simp)
  | lockNone _ => exact move _ (by simp [Pc.held]) (by simp) (hafter _ _)
  | reset => exact absurd rfl hreset
  | @close temp k =>
    have hmove := move (.ret temp (.handleClose k)) (by simp [Pc.held]) (by simp) (by simp)
    refine hmove.congr (close_items s c ch) (close_fired s c ch) ?_
    show Function.update (s.close c ch).frame c _ = _
    rw [close_frame]
    rfl
  | retNone => exact move _ (by simp [Pc.held]) (by simp) (hnext _)
  | ret => exact h.leave hI hf rfl (by simp) (hnext _)
  | arm => exact h.arm hI.toTimers hf hnew
  | addNode => exact absurd rfl hadd
  | dropSp => exact h.leave hI hf rfl (by simp) (by simp)

/-- **A step of the connections** that neither resets an item nor adds or deletes a node. -/
theorem step_ties {b : Act ε} (hI : Inv S s) (h : Ties s nodes resets on none)
    (hnew : ¬on s.nextItem) (hs : step S s b = some t) (hreset : ∀ c, b ≠ .handler c .reset)
    (hadd : ∀ c, b ≠ .handler c .addNode) (hexp : ∀ i, b ≠ .expire i) :
    Ties t nodes resets on none := by
  cases step_cases hs with
  | accept | pollEnd | roundEnd | dropEnd => exact h.congr rfl rfl rfl
  | @addNewConnect n fd e hfd hn =>
    simp only [St.addNewConnect, hI.entry_pending hn hfd e]
    exact h.congr rfl rfl rfl
  | @poll e fd _ =>
    unfold St.pollOne
    split <;> exact h.congr rfl rfl rfl
  | @start e c todo _ hf =>
    have hmove : Ties (s.setFrame c .reading) nodes resets on none :=
      h.moveFrame (by simp [hf]) (by simp [hf]) (by simp)
    exact hmove.congr rfl rfl rfl
  | handler hf hc hs =>
    refine handlerStep_ties hI h hnew hf hs ?_ ?_
    · rintro rfl
      exact hreset _ rfl
    · rintro rfl
      exact hadd _ rfl
  | @finish c hf =>
    have hmove : Ties { s with frame := Function.update s.frame c none } nodes resets on none :=
      h.moveFrame (by simp [hf, Pc.held]) (by simp [hf]) (by simp)
    exact hmove.congr (release_items _ c) (release_fired _ c) (release_frame _ c)
  | @drop e c cs _ _ =>
    have hset : Ties (s.setResults e cs) nodes resets on none := h.congr rfl rfl rfl
    exact hset.congr (release_items _ c) (release_fired _ c) (release_frame _ c)
  | expire => exact absurd rfl (hexp _)

end

/-! ## Nodes of the wheel -/

/-- The wheel with another `cur_time`. -/
def withTime (w : Wheel) (curTime : ℤ) : Wheel := { w with curTime := curTime }

/-- Linking a node does not look at `cur_time`. -/
theorem linkNode_withTime (w : Wheel) (time : ℤ) (p : Ptr) (i : ℤ) :
    (withTime w time).linkNode p i = (w.linkNode p i).map (withTime · time) := by
  have hb : (withTime w time).bucket i = w.bucket i := rfl
  unfold Wheel.linkNode
  rw [hb]
  rcases w.bucket i with _ | _ | ⟨_ | head, _ | last⟩
  · rfl
  · rfl
  · rfl
  · rfl
  · rfl
  · change (w.heap last).bind _ = ((w.heap last).bind _).map _
    cases w.heap last with
    | none => rfl
    | some lastNode =>
      change ((w.setNode last { lastNode with next := some p }).heap p).bind _ =
        (((w.setNode last { lastNode with next := some p }).heap p).bind _).map _
      cases (w.setNode last { lastNode with next := some p }).heap p <;> rfl

/-- Adding a node does not look at `cur_time`. -/
theorem addTimeRoundItemNode_withTime (w : Wheel) (time : ℤ) (p : Ptr) :
    (withTime w time).addTimeRoundItemNode (some p) =
      (w.addTimeRoundItemNode (some p)).map (withTime · time) := by
  change (w.heap p).bind _ = ((w.heap p).bind _).map _
  cases w.heap p with
  | none => rfl
  | some node =>
    by_cases ht : node.timeThreod ≤ 0
    · simp only [Option.bind_some, if_pos ht]
      rfl
    · simp only [Option.bind_some, if_neg ht]
      exact linkNode_withTime (w.setNode p { node with index := _ }) time p _

section

variable {h h' : Hist} {slots slots' : Calendar Ptr}

/-- An addition puts the new node on the wheel. -/
theorem mem_add (hi : RunInv h slots) {time : ℤ} (ht : 1 ≤ time)
    (hs : h.step (.add time) = some h') (hi' : RunInv h' slots') :
    h'.births = h.births ++ [⟨time, h.wheel.curTime, h.passes.length⟩] ∧ h'.passes = h.passes ∧
      ∀ p, p ∈ slots'.flatten ↔ p ∈ slots.flatten ∨ p = h.births.length := by
  obtain ⟨v, -, hv, -, hmax⟩ := add_runInv hi time
  obtain rfl := Option.some.inj (hs.symm.trans hv)
  obtain ⟨w, -, e⟩ := Option.bind_eq_some_iff.mp hs
  obtain rfl := Option.some.inj e
  refine ⟨rfl, rfl, fun p => ?_⟩
  rw [hi'.mem_iff p, hi.mem_iff p, hmax]
  dsimp only
  by_cases hp : p < h.births.length
  · rw [List.getElem?_append_left hp, or_iff_left hp.ne]
  · have hnone : h.births[p]? = none := List.getElem?_eq_none (not_lt.mp hp)
    rw [List.getElem?_append_right (not_lt.mp hp), hnone]
    simp only [reduceCtorEq, false_and, exists_false, false_or]
    constructor
    · rintro ⟨b, hb, -⟩
      have := (List.getElem?_eq_some_iff.mp hb).1
      rw [List.length_singleton, Nat.lt_one_iff, Nat.sub_eq_zero_iff_le] at this
      exact this.antisymm (not_lt.mp hp)
    · rintro rfl
      refine ⟨⟨time, h.wheel.curTime, h.passes.length⟩, by simp, ht, fun i r hge hlt => ?_⟩
      exact absurd hlt (not_lt.mpr hge)

/-- A pass takes nodes off the wheel, each of them once. -/
theorem mem_pass (hi : RunInv h slots) {now : ℤ} (hn : Hist.Near h (.pass now))
    (hs : h.step (.pass now) = some h') (hi' : RunInv h' slots') :
    h'.births = h.births ∧ ∃ deleted : List Ptr,
      deleted = h'.wheel.deleted.drop h.wheel.deleted.length ∧
      h'.passes = h.passes ++ [⟨now, deleted⟩] ∧ deleted.Nodup ∧
      (∀ p, p ∈ slots'.flatten ↔ p ∈ slots.flatten ∧ p ∉ deleted) ∧
      ∀ p ∈ deleted, p ∈ slots.flatten := by
  obtain ⟨v, -, hv, -, hmax⟩ := pass_runInv hi hn
  obtain rfl := Option.some.inj (hs.symm.trans hv)
  obtain ⟨w, -, e⟩ := Option.bind_eq_some_iff.mp hs
  obtain rfl := Option.some.inj e
  refine ⟨rfl, _, rfl, rfl, ?_⟩
  dsimp only at hi' hmax ⊢
  generalize w.deleted.drop h.wheel.deleted.length = deleted at hi' hmax ⊢
  obtain ⟨hiff, hpair⟩ := hi'.correct h.passes.length ⟨now, deleted⟩ (by simp)
  have hmem := hi'.mem_iff
  dsimp only at hiff hpair hmem
  rw [hmax] at hiff hmem
  have hnd : ∀ b : Birth, NotDueBefore h.wheel.maxTime (h.passes ++ [⟨now, deleted⟩]) b
      h.passes.length ↔ NotDueBefore h.wheel.maxTime h.passes b h.passes.length := by
    intro b
    refine forall_congr' fun i => forall_congr' fun r => forall_congr' fun _ =>
      forall_congr' fun hlt => ?_
    rw [List.getElem?_append_left hlt]
  have hdel : ∀ p,
      p ∈ deleted ↔ p ∈ slots.flatten ∧ deadlines h.wheel.maxTime h.births p ≤ now := by
    intro p
    rw [hiff p, hi.mem_iff p]
    constructor
    · rintro ⟨b, hb, ht, -, hle, hno⟩
      exact ⟨⟨b, hb, ht, (hnd b).mp hno⟩, by rwa [deadlines_of_getElem? hb]⟩
    · rintro ⟨⟨b, hb, ht, hno⟩, hle⟩
      rw [deadlines_of_getElem? hb] at hle
      exact ⟨b, hb, ht, hi.births_le b (List.mem_of_getElem? hb), hle, (hnd b).mpr hno⟩
  refine ⟨?_, fun p => ?_, fun p hp => ((hdel p).mp hp).1⟩
  · refine hpair.imp fun {p q} hpq e => ?_
    subst e
    rcases hpq with hlt | ⟨-, hlt⟩ <;> exact lt_irrefl _ hlt
  · rw [hmem p, hdel p, hi.mem_iff p]
    constructor
    · rintro ⟨b, hb, ht, hno⟩
      have hbp := hi.births_le b (List.mem_of_getElem? hb)
      obtain ⟨hno, hlt⟩ := (notDueBefore_append hbp).mp hno
      refine ⟨⟨b, hb, ht, hno⟩, fun hle => ?_⟩
      rw [deadlines_of_getElem? hb] at hle
      exact absurd hle.2 (not_le.mpr hlt)
    · rintro ⟨⟨b, hb, ht, hno⟩, hle⟩
      have hbp := hi.births_le b (List.mem_of_getElem? hb)
      refine ⟨b, hb, ht, (notDueBefore_append hbp).mpr ⟨hno, ?_⟩⟩
      rw [deadlines_of_getElem? hb] at hle
      exact not_le.mp fun h => hle ⟨⟨b, hb, ht, hno⟩, h⟩

end

/-! ## Runs -/

/-- The node of item `i` is on the wheel, or taken off it and not deleted. -/
def OnWheel (s : TimedSt ε) (slots : Calendar Ptr) (i : ℕ) : Prop :=
  i ∈ s.timeOut ∨ ∃ p ∈ slots.flatten, s.nodes[p]? = some i

/-- The wheel at the time it has been advanced to, with its records: as if `cur_time` were written
under `Mutex`. -/
def settled (s : TimedSt ε) : Hist := ⟨withTime s.wheel s.settledTime, s.births, s.passes⟩

/-- The invariant of a run. -/
structure Tied (S : Setup ε) (maxTime : ℕ) (s : TimedSt ε) (slots : Calendar Ptr) : Prop where
  conn : Inv S s.conn
  wheel : RunInv (settled s) slots
  maxTime : s.wheel.maxTime = maxTime
  diffTime : ∀ d, s.diffTime = some d → 1 ≤ d ∧ d < s.wheel.maxTime ∧ s.timeOut = []
  five : ∀ b ∈ s.births, b.timeThreod = 5
  length : s.nodes.length = s.births.length
  nodup : s.nodes.Nodup
  timeOut_nodup : s.timeOut.Nodup
  timeOut_off : ∀ i ∈ s.timeOut, ∃ p, s.nodes[p]? = some i ∧ p ∉ slots.flatten
  ties : Ties s.conn s.nodes s.resets (OnWheel s slots) none

namespace Tied

variable {S : Setup ε} {maxTime : ℕ} {s t : TimedSt ε} {slots : Calendar Ptr} {i : ℕ}

theorem init (S : Setup ε) (hmax : 1 ≤ maxTime) (now : ℤ) :
    Tied S maxTime (TimedSt.init S maxTime now) (List.replicate maxTime []) where
  conn := init_inv S
  wheel := by
    have h : settled (TimedSt.init S maxTime now) = Hist.init maxTime now := by
      simp [settled, withTime, TimedSt.settledTime, TimedSt.init, Hist.init]
    rw [h]
    exact init_runInv now hmax
  maxTime := rfl
  diffTime := by simp [TimedSt.init]
  five := by simp [TimedSt.init]
  length := rfl
  nodup := List.nodup_nil
  timeOut_nodup := List.nodup_nil
  timeOut_off := by simp [TimedSt.init]
  ties := by
    constructor <;> simp [TimedSt.init, Connection.init]

theorem mem_nodes (h : Tied S maxTime s slots) (hi : OnWheel s slots i) : i ∈ s.nodes := by
  rcases hi with hi | ⟨p, -, hp⟩
  · obtain ⟨p, hp, -⟩ := h.timeOut_off i hi
    exact List.mem_of_getElem? hp
  · exact List.mem_of_getElem? hp

theorem not_onWheel_nextItem (h : Tied S maxTime s slots) : ¬OnWheel s slots s.conn.nextItem := by
  intro hi
  obtain ⟨it, hit⟩ := h.ties.known _ (.inl (h.mem_nodes hi))
  exact lt_irrefl _ (h.conn.item_lt hit)

/-- The item of a node that is there lives. -/
theorem item_of_onWheel (h : Tied S maxTime s slots) (hi : OnWheel s slots i) :
    ∃ it, s.conn.items i = some it ∧ it.live = true ∧ it.node = true := by
  obtain ⟨it, hit⟩ := h.ties.known i (.inl (h.mem_nodes hi))
  have hn := (h.ties.node_iff i it hit).mpr hi
  exact ⟨it, hit, h.ties.node_live i it hit hn, hn⟩

/-- The timer thread reads the clock. What it writes to `cur_time` it is going to make up for. -/
theorem clock (h : Tied S maxTime s slots) {now : ℤ} {w : Wheel} {d : ℕ}
    (hd : s.diffTime = none) (hend : s.timeOut = []) (hnow : s.wheel.curTime + d = now)
    (hpos : 1 ≤ d) (hlt : d < s.wheel.maxTime) (hw : w = withTime s.wheel now) :
    Tied S maxTime { s with wheel := w, diffTime := some d } slots := by
  have hsettled : settled { s with wheel := w, diffTime := some d } = settled s := by
    have htime : now - (d : ℤ) = s.wheel.curTime := by omega
    simp [settled, TimedSt.settledTime, hd, hw, withTime, htime]
  refine { h with wheel := ?_, maxTime := ?_, diffTime := ?_ }
  · rw [hsettled]
    exact h.wheel
  · rw [hw]
    exact h.maxTime
  · intro d' hd'
    obtain rfl := Option.some.inj hd'
    rw [hw]
    exact ⟨hpos, hlt, hend⟩

/-- What a pass does under `Mutex` is one at the time the wheel has been advanced to. -/
theorem settled_pass (h : Tied S maxTime s slots) {d : ℕ} (hd : s.diffTime = some d) :
    Hist.Near (settled s) (.pass s.wheel.curTime) ∧
      (settled s).wheel.pass s.wheel.curTime =
        (s.wheel.tickLoop d).bind Wheel.handleTimeOutList := by
  obtain ⟨hpos, hlt, -⟩ := h.diffTime d hd
  have hlt : d < (settled s).wheel.maxTime := hlt
  have hdiff : s.wheel.curTime - (settled s).wheel.curTime = d := by
    simp [settled, withTime, TimedSt.settledTime, hd]
  refine ⟨?_, ?_⟩
  · rw [Hist.Near, hdiff]
    exact_mod_cast hlt
  · rw [Wheel.pass]
    simp only [hdiff]
    rw [if_pos (by omega), if_neg (by omega), Int.toNat_natCast]
    rfl

/-- A pass, from the taking of `Mutex` on. -/
theorem pass (h : Tied S maxTime s slots) {d : ℕ} {w : Wheel} (hd : s.diffTime = some d)
    (hw : (s.wheel.tickLoop d).bind Wheel.handleTimeOutList = some w) :
    ∃ slots', Tied S maxTime { s with
      wheel := w
      diffTime := none
      passes := s.passes ++ [⟨s.wheel.curTime, w.deleted.drop s.wheel.deleted.length⟩]
      timeOut := (w.deleted.drop s.wheel.deleted.length).filterMap fun p => s.nodes[p]? }
        slots' := by
  obtain ⟨hn, hpass⟩ := h.settled_pass hd
  have hend : s.timeOut = [] := (h.diffTime d hd).2.2
  let t : TimedSt ε := { s with
    wheel := w
    diffTime := none
    passes := s.passes ++ [⟨s.wheel.curTime, w.deleted.drop s.wheel.deleted.length⟩]
    timeOut := (w.deleted.drop s.wheel.deleted.length).filterMap fun p => s.nodes[p]? }
  have hstep : (settled s).step (.pass s.wheel.curTime) = some (settled t) := by
    have ht : withTime w (w.curTime - (0 : ℕ)) = w := by simp [withTime]
    simp only [Hist.step, hpass, hw]
    simp only [settled, TimedSt.settledTime, Option.getD_none, ht, t]
    rfl
  obtain ⟨v, slots', hv, hinv, hmax⟩ := pass_runInv h.wheel hn
  obtain rfl := Option.some.inj (hstep.symm.trans hv)
  obtain ⟨-, deleted, hdeleted, -, hnodup, hmem, hsub⟩ := mem_pass h.wheel hn hstep hinv
  have hdeleted : w.deleted.drop s.wheel.deleted.length = deleted := hdeleted.symm
  refine ⟨slots', {
    conn := h.conn
    wheel := hinv
    maxTime := hmax.trans h.maxTime
    diffTime := fun e he => by cases he
    five := h.five
    length := h.length
    nodup := h.nodup
    timeOut_nodup := ?nodup
    timeOut_off := ?off
    ties := h.ties.of_iff ?on }⟩
  all_goals simp only [hdeleted]
  case nodup =>
    refine hnodup.filterMap fun p q i hp hq => ?_
    exact (List.getElem?_inj (List.getElem?_eq_some_iff.mp hp).1 h.nodup).mp
      (Option.mem_def.mp hp |>.trans (Option.mem_def.mp hq).symm)
  case off =>
    intro i hi
    obtain ⟨p, hp, hpi⟩ := List.mem_filterMap.mp hi
    exact ⟨p, hpi, fun hm => ((hmem p).mp hm).2 hp⟩
  case on =>
    intro i
    simp only [OnWheel, hend, List.not_mem_nil, false_or, List.mem_filterMap]
    constructor
    · rintro (⟨p, hp, hi⟩ | ⟨p, hp, hi⟩)
      · exact ⟨p, hsub p hp, hi⟩
      · exact ⟨p, ((hmem p).mp hp).1, hi⟩
    · rintro ⟨p, hp, hi⟩
      by_cases hd : p ∈ deleted
      · exact .inl ⟨p, hd, hi⟩
      · exact .inr ⟨p, (hmem p).mpr ⟨hp, hd⟩, hi⟩

variable [DecidableEq ε]

/-- A step of the connections alone. -/
theorem connStep (h : Tied S maxTime s slots) {a : Act ε} {u : St ε}
    (hs : Connection.step S s.conn a = some u) (hreset : ∀ c, a ≠ .handler c .reset)
    (hadd : ∀ c, a ≠ .handler c .addNode) (hexp : ∀ i, a ≠ .expire i) :
    Tied S maxTime { s with conn := u } slots :=
  { h with
    conn := step_inv h.conn hs
    ties := step_ties h.conn h.ties h.not_onWheel_nextItem hs hreset hadd hexp }

/-- A handler puts a node on the wheel. -/
theorem addNode (h : Tied S maxTime s slots) {c : ℕ} {u : St ε} {w : Wheel}
    (hf : s.conn.frame c = some (.armed i))
    (hu : Connection.step S s.conn (.handler c .addNode) = some u)
    (hw : (s.wheel.newNode 5).addTimeRoundItemNode (some s.wheel.fresh) = some w) :
    ∃ slots', Tied S maxTime { s with
      conn := u
      wheel := w
      births := s.births ++ [⟨5, s.settledTime, s.passes.length⟩]
      nodes := s.nodes ++ [i] } slots' := by
  let t : TimedSt ε := { s with
    conn := u
    wheel := w
    births := s.births ++ [⟨5, s.settledTime, s.passes.length⟩]
    nodes := s.nodes ++ [i] }
  -- the addition does not look at `cur_time`, and leaves it as it is
  have htime : w.curTime = s.wheel.curTime := by
    have e := addTimeRoundItemNode_withTime (s.wheel.newNode 5) s.wheel.curTime s.wheel.fresh
    rw [show withTime (s.wheel.newNode 5) s.wheel.curTime = s.wheel.newNode 5 from rfl, hw,
      Option.map_some] at e
    have e : w = withTime w s.wheel.curTime := Option.some.inj e
    exact (congrArg Wheel.curTime e :)
  have hstep : (settled s).step (.add 5) = some (settled t) := by
    have e := addTimeRoundItemNode_withTime (s.wheel.newNode 5) s.settledTime s.wheel.fresh
    rw [hw, Option.map_some] at e
    have ht : settled t = ⟨withTime w s.settledTime, t.births, t.passes⟩ := by
      simp only [settled, TimedSt.settledTime, t, htime]
    have e' : ((settled s).wheel.newNode 5).addTimeRoundItemNode (some (settled s).wheel.fresh) =
      some (withTime w s.settledTime) := e
    simp only [Hist.step, e', Option.bind_eq_bind, Option.bind_some]
    rw [ht]
    rfl
  obtain ⟨v, slots', hv, hinv, hmax⟩ := add_runInv h.wheel 5
  obtain rfl := Option.some.inj (hstep.symm.trans hv)
  have hmem : ∀ p, p ∈ slots'.flatten ↔ p ∈ slots.flatten ∨ p = s.births.length :=
    (mem_add h.wheel (by decide) hstep hinv).2.2
  have hi : i ∉ s.nodes := h.ties.armed c i hf
  have hlt : ∀ p ∈ slots.flatten, p < s.nodes.length := fun p hp => by
    rw [h.length]
    exact h.wheel.lt_births hp
  have hon : ∀ j, OnWheel { s with wheel := w, nodes := s.nodes ++ [i] } slots' j ↔
      OnWheel s slots j ∨ j = i := by
    intro j
    rw [OnWheel, OnWheel, or_assoc]
    refine or_congr_right ⟨?_, ?_⟩
    · rintro ⟨p, hp, hj⟩
      rcases (hmem p).mp hp with hp | rfl
      · rw [List.getElem?_append_left (hlt p hp)] at hj
        exact .inl ⟨p, hp, hj⟩
      · rw [← h.length] at hj
        exact .inr (by simpa using hj.symm)
    · rintro (⟨p, hp, hj⟩ | rfl)
      · exact ⟨p, (hmem p).mpr (.inl hp), by rwa [List.getElem?_append_left (hlt p hp)]⟩
      · exact ⟨s.nodes.length, (hmem _).mpr (.inr h.length), by simp⟩
  have hties : Ties u (s.nodes ++ [i]) s.resets
      (OnWheel { s with wheel := w, nodes := s.nodes ++ [i] } slots') none := by
    cases step_cases hu with
    | handler hf' hc hs =>
      obtain rfl := Option.some.inj (hf.symm.trans hf')
      cases hs with
      | @addNode _ it hit =>
        obtain ⟨it', hit', hl, -⟩ := h.conn.frame_item hf rfl
        obtain rfl := Option.some.inj (hit.symm.trans hit')
        have hset : Ties (s.conn.setItem i { it with node := true }) s.nodes s.resets
            (OnWheel { s with wheel := w, nodes := s.nodes ++ [i] } slots') (some i) := by
          apply h.ties.setNode hit hl
          case hon => simp [hon]
          case hon' =>
            intro j hj
            rw [hon, or_iff_left hj]
        have hinv' : Inv S (s.conn.setItem i { it with node := true }) :=
          h.conn.setItem hit rfl id (fun hh => hh) fun hdead => by
            rw [show it.live = false from hdead] at hl
            cases hl
        exact (hset.of_node (Function.update_self ..) rfl).added hinv'.toTimers hf
  refine ⟨slots', {
    conn := step_inv h.conn hu
    wheel := hinv
    maxTime := hmax.trans h.maxTime
    diffTime := ?diff
    five := ?five
    length := by simp [h.length]
    nodup := List.nodup_append.mpr ⟨h.nodup, by simp, ?nodup⟩
    timeOut_nodup := h.timeOut_nodup
    timeOut_off := ?off
    ties := hties }⟩
  case diff =>
    intro d hd
    obtain ⟨hpos, hlt, hend⟩ := h.diffTime d hd
    have hmaxTime : w.maxTime = s.wheel.maxTime := hmax
    exact ⟨hpos, by rw [hmaxTime]; exact hlt, hend⟩
  case five =>
    intro b hb
    rcases List.mem_append.mp hb with hb | hb
    · exact h.five b hb
    · rw [List.mem_singleton.mp hb]
  case nodup =>
    intro j hj k hk e
    rw [List.mem_singleton.mp hk] at e
    exact hi (e ▸ hj)
  case off =>
    intro j hj
    obtain ⟨p, hp, hoff⟩ := h.timeOut_off j hj
    have hplt := (List.getElem?_eq_some_iff.mp hp).1
    refine ⟨p, by dsimp only; rwa [List.getElem?_append_left hplt], fun hm => ?_⟩
    rcases (hmem p).mp hm with hm | hm
    · exact hoff hm
    · rw [hm, h.length] at hplt
      exact lt_irrefl _ hplt

/-- A handler resets an item. -/
theorem reset (h : Tied S maxTime s slots) {c : ℕ} {u : St ε} {f : Call}
    (hf : s.conn.frame c = some (.reset i f))
    (hu : Connection.step S s.conn (.handler c .reset) = some u) :
    Tied S maxTime { s with conn := u, resets := s.resets ++ [i] } slots := by
  refine { h with conn := step_inv h.conn hu, ties := ?_ }
  cases step_cases hu with
  | handler hf' hc hs =>
    obtain rfl := Option.some.inj (hf.symm.trans hf')
    cases hs with
    | reset =>
      obtain ⟨it, hi, hl, -⟩ := h.conn.frame_item hf rfl
      have hframe : (s.conn.resetItem i).frame c = some (.reset i f) := by
        simpa [St.resetItem, hi, St.setItem] using hf
      apply (h.ties.resetItem hi hl).setFrame hframe
      case hheld =>
        intro j _ hj
        rw [afterReset_held]
        exact hj
      case hpc => simp
      case hpc' =>
        intro j
        cases f <;> simp [Call.afterReset]

/-- `HandleTimeOutList` deletes a node. -/
theorem delete (h : Tied S maxTime s slots) {rest : List ℕ} (hcons : s.timeOut = i :: rest) :
    ∃ u, Connection.step S s.conn (.expire i) = some u ∧
      Tied S maxTime { s with conn := u, timeOut := rest } slots := by
  have hmem : i ∈ s.timeOut := by rw [hcons]; simp
  obtain ⟨it, hi, hl, hn⟩ := h.item_of_onWheel (.inl hmem)
  have hu : Connection.step S s.conn (.expire i) =
      some ((s.conn.setItem i { it with node := false }).dropItem i) := by
    simp [Connection.step, hi, hl, hn]
  refine ⟨_, hu, ?_⟩
  have hnodup := h.timeOut_nodup
  rw [hcons, List.nodup_cons] at hnodup
  have hoff : ∀ p ∈ slots.flatten, s.nodes[p]? ≠ some i := by
    intro p hp e
    obtain ⟨q, hq, hqoff⟩ := h.timeOut_off i hmem
    have hlt := (List.getElem?_eq_some_iff.mp hq).1
    obtain rfl := (List.getElem?_inj hlt h.nodup).mp (hq.trans e.symm)
    exact hqoff hp
  refine { h with
    conn := step_inv h.conn hu
    diffTime := fun d hd => by
      rw [(h.diffTime d hd).2.2] at hcons
      cases hcons
    timeOut_nodup := hnodup.2
    timeOut_off := fun j hj => h.timeOut_off j (by rw [hcons]; exact List.mem_cons_of_mem _ hj)
    ties := ?_ }
  have hset : Ties (s.conn.setItem i { it with node := false }) s.nodes s.resets
      (OnWheel { s with timeOut := rest } slots) (some i) := by
    apply h.ties.setNode hi hl
    case hon =>
      refine iff_of_false (fun hon => ?_) (by simp)
      rcases hon with hm | ⟨p, hp, e⟩
      · exact hnodup.1 hm
      · exact hoff p hp e
    case hon' =>
      intro j hj
      simp only [OnWheel, hcons, List.mem_cons, or_iff_right hj]
  refine hset.dropItem (Function.update_self ..) hl fun hp => ?_
  obtain ⟨ch, hch, -⟩ := h.conn.holding_chan ⟨hi, hl, hp⟩
  exact ⟨ch, hch⟩

end Tied

section

variable {S : Setup ε} {maxTime : ℕ} {s t : TimedSt ε} {slots : Calendar Ptr}
  {a : TimedAct ε} {acts : List (TimedAct ε)} {now : ℤ} {i : ℕ}

/-- A pass that took `Mutex` since the node of item `i` was put on the wheel had a clock reading at
least six seconds after the time the wheel had been advanced to at that moment. -/
def Due (s : TimedSt ε) (i : ℕ) : Prop :=
  ∃ (p : Ptr) (b : Birth) (j : ℕ) (r : PassRecord), s.nodes[p]? = some i ∧
    s.births[p]? = some b ∧ b.passes ≤ j ∧ s.passes[j]? = some r ∧
    b.curTime + 6 ≤ r.now

/-- An item is due once its node has been taken off the wheel. -/
theorem Tied.due_iff (h : Tied S maxTime s slots) (hmax : 6 ≤ maxTime) :
    Due s i ↔ i ∈ s.nodes ∧ ∀ p ∈ slots.flatten, s.nodes[p]? ≠ some i := by
  have hdeadline : ∀ b ∈ s.births, deadline (settled s).wheel.maxTime b = b.curTime + 6 := by
    intro b hb
    have hmaxTime : (settled s).wheel.maxTime = maxTime := h.maxTime
    rw [deadline, h.five b hb, hmaxTime]
    omega
  constructor
  · rintro ⟨p, b, j, r, hp, hb, hbj, hr, hle⟩
    refine ⟨List.mem_of_getElem? hp, fun q hq e => ?_⟩
    have hlt := (List.getElem?_eq_some_iff.mp hp).1
    obtain rfl := (List.getElem?_inj hlt h.nodup).mp (hp.trans e.symm)
    obtain ⟨b', hb', -, hno⟩ := (h.wheel.mem_iff p).mp hq
    obtain rfl := Option.some.inj (hb.symm.trans hb')
    have hj := (List.getElem?_eq_some_iff.mp hr).1
    have hno := hno j r hbj hj hr
    rw [hdeadline b (List.mem_of_getElem? hb)] at hno
    exact absurd hle (not_le.mpr hno)
  · rintro ⟨hi, hoff⟩
    obtain ⟨p, hp⟩ := List.mem_iff_getElem?.mp hi
    have hlt := (List.getElem?_eq_some_iff.mp hp).1
    rw [h.length] at hlt
    obtain ⟨b, hb⟩ : ∃ b, s.births[p]? = some b := ⟨_, List.getElem?_eq_getElem hlt⟩
    have hno : ¬NotDueBefore (settled s).wheel.maxTime s.passes b s.passes.length := by
      intro hno
      refine hoff p ((h.wheel.mem_iff p).mpr ⟨b, hb, ?_, hno⟩) hp
      rw [h.five b (List.mem_of_getElem? hb)]
      decide
    simp only [NotDueBefore, not_forall, not_lt] at hno
    obtain ⟨j, r, hbj, -, hr, hle⟩ := hno
    rw [hdeadline b (List.mem_of_getElem? hb)] at hle
    exact ⟨p, b, j, r, hp, hb, hbj, hr, hle⟩

variable [DecidableEq ε]

/-- **One step** keeps the invariant. -/
theorem step_tied (h : Tied S maxTime s slots) (hn : s.Near a) (hs : s.step S a = some t) :
    ∃ slots', Tied S maxTime t slots' := by
  unfold TimedSt.step at hs
  split at hs
  case h_1 => cases hs
  case h_2 c =>
    split at hs
    · rename_i i hf
      obtain ⟨u, hu, hs⟩ := Option.bind_eq_some_iff.mp hs
      obtain ⟨w, hw, rfl⟩ := Option.map_eq_some_iff.mp hs
      exact h.addNode hf hu hw
    · cases hs
  case h_3 c =>
    split at hs
    · rename_i i f hf
      obtain ⟨u, hu, rfl⟩ := Option.map_eq_some_iff.mp hs
      exact ⟨slots, h.reset hf hu⟩
    · cases hs
  case h_4 b hexp hadd hreset =>
    obtain ⟨u, hu, rfl⟩ := Option.map_eq_some_iff.mp hs
    exact ⟨slots, h.connStep hu hreset hadd hexp⟩
  case h_5 now =>
    have hlt : now - s.wheel.curTime < s.wheel.maxTime := hn
    split at hs
    · rename_i hend
      dsimp only at hs
      split at hs
      · rw [if_neg (by omega)] at hs
        obtain rfl := Option.some.inj hs
        exact ⟨slots, h.clock hend.2 hend.1 (by omega) (by omega) (by omega) rfl⟩
      · obtain rfl := Option.some.inj hs
        exact ⟨slots, h⟩
    · cases hs
  case h_6 =>
    split at hs
    · cases hs
    · rename_i d hd
      obtain ⟨w, hw, rfl⟩ := Option.map_eq_some_iff.mp hs
      exact h.pass hd hw
  case h_7 =>
    split at hs
    · cases hs
    · rename_i i rest hcons
      obtain ⟨u, hu, rfl⟩ := Option.map_eq_some_iff.mp hs
      obtain ⟨v, hv, h'⟩ := h.delete hcons
      obtain rfl := Option.some.inj (hu.symm.trans hv)
      exact ⟨slots, h'⟩

theorem exec_tied (hmax : 1 ≤ maxTime)
    (hrun : Exec (TimedSt.step S) TimedSt.Near (TimedSt.init S maxTime now) acts s) :
    ∃ slots, Tied S maxTime s slots := by
  refine hrun.invariant (I := fun s => ∃ slots, Tied S maxTime s slots) ⟨_, Tied.init S hmax now⟩ ?_
  rintro u b v ⟨slots, hu⟩ hn hv
  exact step_tied hu hn hv

/-- **Idle connections are closed, and no others.** In every run in which no clock reading is
`max_time` or more ahead of `cur_time`, `~TimeRoundItem` has called `Close` for an item if and only
if a pass that took `Mutex` since the item was put on the wheel had a reading at least six seconds
after the time the wheel had been advanced to then, `HandleTimeOutList` has deleted its node,
neither a later request nor `handle_close` has reset it, and no handler still holds it. The timer
thread never accesses a node that is not there. -/
theorem closed_iff_idle (hmax : 6 ≤ maxTime)
    (hrun : Exec (TimedSt.step S) TimedSt.Near (TimedSt.init S maxTime now) acts s) :
    (∀ i, i ∈ s.conn.fired ↔ Due s i ∧ i ∉ s.timeOut ∧ i ∉ s.resets ∧
      ∀ c, (s.conn.frame c).bind Pc.held ≠ some i) ∧
    (s.diffTime ≠ none → (s.step S .pass).isSome) ∧
    (s.timeOut ≠ [] → (s.step S .delete).isSome) := by
  obtain ⟨slots, h⟩ := exec_tied (by omega) hrun
  refine ⟨fun i => ⟨fun hi => ?_, ?_⟩, fun hne => ?_, fun hne => ?_⟩
  · obtain ⟨it, hit, hl⟩ := h.conn.fired_dead hi
    have hheld : ∀ c, (s.conn.frame c).bind Pc.held ≠ some i := by
      intro c hc
      obtain ⟨pc, hpc, hc⟩ := Option.bind_eq_some_iff.mp hc
      obtain ⟨it', hit', hl', -⟩ := h.conn.frame_item hpc hc
      obtain rfl := Option.some.inj (hit.symm.trans hit')
      rw [hl] at hl'
      cases hl'
    have hoff : ¬OnWheel s slots i := by
      intro hon
      have hn := (h.ties.node_iff i it hit).mpr hon
      rw [h.ties.node_live i it hit hn] at hl
      cases hl
    have hnode : i ∈ s.nodes := by
      refine (h.ties.made i it hit).resolve_right fun harm => hheld it.chan ?_
      rw [harm]
      rfl
    rw [OnWheel, not_or, not_exists] at hoff
    refine ⟨(h.due_iff hmax).mpr ⟨hnode, fun p hp e => hoff.2 p ⟨hp, e⟩⟩, hoff.1, ?_, hheld⟩
    rcases h.ties.status i it hit with ⟨-, -, hf, -⟩ | ⟨-, hf, -⟩ | ⟨-, -, -, hr⟩
    · exact absurd hi hf
    · exact absurd hi hf
    · exact hr
  · rintro ⟨hdue, hout, hreset, hheld⟩
    obtain ⟨hnode, hoff⟩ := (h.due_iff hmax).mp hdue
    obtain ⟨it, hit⟩ := h.ties.known i (.inl hnode)
    have hon : ¬OnWheel s slots i := by
      rintro (hm | ⟨p, hp, e⟩)
      · exact hout hm
      · exact hoff p hp e
    have hdead : it.live = false := by
      by_contra hl
      rw [Bool.not_eq_false] at hl
      rcases h.ties.live i it hit nofun hl with hn | hh
      · exact hon ((h.ties.node_iff i it hit).mp hn)
      · exact hheld it.chan hh
    rcases h.ties.status i it hit with ⟨hl, -⟩ | ⟨-, -, hr⟩ | ⟨-, -, hf, -⟩
    · rw [hdead] at hl
      cases hl
    · exact absurd hr hreset
    · exact hf
  · obtain ⟨d, hd⟩ := Option.ne_none_iff_exists'.mp hne
    obtain ⟨hn, hpass⟩ := h.settled_pass hd
    obtain ⟨v, -, hv, -⟩ := pass_runInv h.wheel hn
    obtain ⟨w, hw, -⟩ := Option.bind_eq_some_iff.mp hv
    rw [hpass] at hw
    simp [TimedSt.step, hd, hw]
  · obtain ⟨i, rest, hcons⟩ := List.exists_cons_of_ne_nil hne
    obtain ⟨u, hu, -⟩ := h.delete hcons
    simp [TimedSt.step, hcons, hu]

end

/-- Two requests on one connection, three seconds apart; the node of the second one is put on the
wheel after the timer thread has read the clock and before it takes `Mutex`, so that three seconds
later both nodes are due. -/
def twoRequests : List (TimedAct Unit) :=
  firstRequest.map .conn ++ [.clock 103] ++
    ([.poll () 5, .pollEnd (), .start (), .handler 0 (.read .data), .handler 0 (.parse true),
      .handler 0 (.send false), .handler 0 .lock, .handler 0 .reset, .handler 0 .ret,
      .handler 0 .decide, .handler 0 .addNode, .handler 0 .dropSp, .finish 0, .roundEnd (),
      .drop (), .drop ()] : List (Act Unit)).map .conn ++
    [.pass, .clock 106, .pass, .delete, .delete]

theorem closed_iff_idle_two_requests :
    ∃ s, Exec (TimedSt.step oneEpoll) TimedSt.Near (TimedSt.init oneEpoll 16 100) twoRequests s ∧
      (∀ i, i ∈ s.conn.fired ↔ Due s i ∧ i ∉ s.timeOut ∧ i ∉ s.resets ∧
        ∀ c, (s.conn.frame c).bind Pc.held ≠ some i) ∧
      s.conn.fired = [1] ∧ s.resets = [0] ∧ s.conn.closes = [0] := by
  have hrun : ∃ s, runIf (TimedSt.step oneEpoll) TimedSt.Near (TimedSt.init oneEpoll 16 100)
      twoRequests = some s ∧ s.conn.fired = [1] ∧ s.resets = [0] ∧ s.conn.closes = [0] :=
    ⟨_, rfl, by decide, by decide, by decide⟩
  obtain ⟨s, hs, hrest⟩ := hrun
  exact ⟨s, exec_of_runIf hs, (closed_iff_idle (by decide) (exec_of_runIf hs)).1, hrest⟩

end WebServer.Connection
