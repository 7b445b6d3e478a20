import WebServer.Libco.ShareStack

/-!
# What a coroutine finds on its stack

A run is one in which the callers of libco keep `Allowed`: what they resume or release is not on
the call stack and has not been released, what they resume has not ended, only a coroutine that was
resumed yields, an array of shared stacks is not empty, and the local variable of `co_swap` lies in
the stack of the coroutine that runs.

* `step_quiet`, `step_switch`: such a step is defined and keeps the invariant, but for a switch to a
  coroutine whose stack is occupied by one that was released, and for `co_resume` on a full
  `pCallStack`.
* `switch_iff`: in every run, a switch is defined if and only if `pCallStack` has an entry for what
  it resumes, and the occupant of the stack it goes to, if another one, has not been released.
* `stack_restored`: in every run, a coroutine that gets control back finds on its stack what was
  there when it gave control away, whatever the others did on the same stack meanwhile.
-/

namespace WebServer.Libco

open WebServer.Lib

namespace Stacks

variable {s s' : Stacks} {c p sp : ℕ} {r u : Routine}

/-- The coroutines and stacks there are: an array of shared stacks is nobody's own stack. -/
structure Bounds (s : Stacks) : Prop where
  lt : ∀ c r, s.routine c = some r → c < s.numCo ∧ r.stackMem < s.numStack
  left_lt : ∀ c, s.left c ≠ none → c < s.numCo
  occ_lt : ∀ k o, (s.stack k).occupyCo = some o → o < s.numCo
  share_lt : ∀ i sh, s.share i = some sh → 0 < sh.count ∧ sh.stackArray + sh.count ≤ s.numStack
  share_own : ∀ c r i sh, s.routine c = some r → r.cIsShareStack = false → s.share i = some sh →
    ¬(sh.stackArray ≤ r.stackMem ∧ r.stackMem < sh.stackArray + sh.count)

/-- The invariant of a run. The first coroutine of the thread is the last of the call stack. -/
structure Inv (s : Stacks) : Prop extends Bounds s where
  nodup : s.pCallStack.Nodup
  bottom : s.pCallStack.getLast? = some 0
  live : ∀ c ∈ s.pCallStack, s.routine c ≠ none
  kept : Kept s.routine s.stack s.left s.pCallStack.head?
  running : ∀ c, s.pCallStack.head? = some c → s.left c = none
  waiting : ∀ c ∈ s.pCallStack.tail, s.left c ≠ none
  started : ∀ c r, c ≠ 0 → s.routine c = some r → c ∈ s.pCallStack ∨ s.left c ≠ none →
    r.cStart = true

theorem init_routine {size : ℕ} (h : (init size).routine c = some r) :
    c = 0 ∧ r = ⟨0, false, false, false, 0, []⟩ := by
  rcases update_some_cases (f := fun _ => none) h with h | ⟨-, h⟩
  · exact h
  · cases h

theorem init_inv (size : ℕ) : Inv (init size) where
  lt := by
    intro c r hr
    obtain ⟨rfl, rfl⟩ := init_routine hr
    exact ⟨Nat.one_pos, Nat.one_pos⟩
  left_lt := by simp [init]
  occ_lt := by simp [init]
  share_lt := by simp [init]
  share_own := by simp [init]
  nodup := List.nodup_singleton 0
  bottom := rfl
  live := by simp [init]
  kept := by
    constructor
    case own =>
      intro c d r u hc hd hne
      exact absurd ((init_routine hc).1.trans (init_routine hd).1.symm) hne
    case occ_mem => simp [init]
    case occ_run =>
      intro c r _ hc hs
      rw [(init_routine hc).2] at hs
      cases hs
    all_goals simp [init]
  running := by simp [init]
  waiting := by simp [init]
  started := fun c r hc hr => absurd (init_routine hr).1 hc

namespace Switched

theorem exists_routine (h : Switched s s' c r p sp) (hc : s.routine c = some r) {d : ℕ}
    {u' : Routine} (hd : s'.routine d = some u') :
    ∃ u, s.routine d = some u ∧ u'.stackMem = u.stackMem ∧ u'.cStart = u.cStart ∧
      u'.cIsShareStack = u.cIsShareStack ∧ u'.stackSp = if d = c then sp else u.stackSp := by
  have e := h.routine d
  rw [hd, Option.map_some, eq_comm, Option.map_eq_some_iff] at e
  obtain ⟨u, hu, e⟩ := e
  simp only [fixed, Routine.mk.injEq] at e
  obtain ⟨h₁, h₂, -, h₄, h₅, -⟩ := e
  rcases update_some_cases hu with ⟨rfl, rfl⟩ | ⟨hdc, hu⟩
  · exact ⟨r, hc, h₁.symm, h₂.symm, h₄.symm, by rw [if_pos rfl, ← h₅]⟩
  · exact ⟨u, hu, h₁.symm, h₂.symm, h₄.symm, by rw [if_neg hdc, ← h₅]⟩

theorem left_eq_none (h : Switched s s' c r p sp) {d : ℕ} :
    s'.left d = none ↔ d = p ∨ d ≠ c ∧ s.left d = none := by
  rw [h.left]
  by_cases hdp : d = p
  · simp [hdp]
  · rw [Function.update_of_ne hdp, or_iff_right hdp]
    by_cases hdc : d = c
    · simp [hdc]
    · rw [Function.update_of_ne hdc, and_iff_right hdc]

theorem left_cases (h : Switched s s' c r p sp) {d : ℕ} (hd : s'.left d ≠ none) :
    d = c ∨ s.left d ≠ none := by
  by_contra hno
  rw [not_or, not_not] at hno
  exact hd (h.left_eq_none.mpr (.inr hno))

theorem bounds (h : Switched s s' c r p sp) (hb : Bounds s) (hc : s.routine c = some r)
    (hp : p < s.numCo) : Bounds s' where
  lt := by
    intro d u' hu'
    obtain ⟨u, hu, hk, -⟩ := h.exists_routine hc hu'
    rw [h.numCo, h.numStack, hk]
    exact hb.lt d u hu
  left_lt := by
    intro d hd
    rw [h.numCo]
    rcases h.left_cases hd with rfl | hd
    · exact (hb.lt d r hc).1
    · exact hb.left_lt d hd
  occ_lt := by
    intro k o ho
    rw [h.numCo]
    rcases h.occupy k o ho with rfl | ho
    · exact hp
    · exact hb.occ_lt k o ho
  share_lt := by
    rw [h.share, h.numStack]
    exact hb.share_lt
  share_own := by
    intro d u' i sh hu' hs hi
    obtain ⟨u, hu, hk, -, hsu, -⟩ := h.exists_routine hc hu'
    rw [h.share] at hi
    rw [hk]
    exact hb.share_own d u i sh hu (by rw [← hsu, hs]) hi

/-- What is left to check after a switch from `c` to `p`, where `s` has the new call stack. -/
theorem inv (h : Switched s s' c r p sp) (hb : Bounds s) (hc : s.routine c = some r)
    {rest : List ℕ} (hs : s.pCallStack = p :: rest) (hnodup : s.pCallStack.Nodup)
    (hbottom : s.pCallStack.getLast? = some 0) (hlive : ∀ d ∈ s.pCallStack, s.routine d ≠ none)
    (hwait : ∀ d ∈ rest, d = c ∨ s.left d ≠ none)
    (hstart : ∀ d u, d ≠ 0 → s.routine d = some u →
      d ∈ s.pCallStack ∨ d = c ∨ s.left d ≠ none → u.cStart = true) : Inv s' := by
  obtain ⟨u, hu⟩ := Option.ne_none_iff_exists'.mp (hlive p (by rw [hs]; simp))
  refine {
    toBounds := h.bounds hb hc (hb.lt p u hu).1
    nodup := ?nodup
    bottom := ?bottom
    live := ?live
    kept := ?kept
    running := ?running
    waiting := ?waiting
    started := ?started }
  case nodup => rwa [h.pCallStack]
  case bottom => rwa [h.pCallStack]
  case live =>
    intro d hd e
    rw [h.pCallStack] at hd
    have := h.routine d
    rw [e, Option.map_none, eq_comm, Option.map_eq_none_iff] at this
    exact hlive d hd (eq_of_update_eq this (by simp))
  case kept =>
    rw [h.pCallStack, hs]
    exact h.kept
  case running =>
    intro d hd
    rw [h.pCallStack, hs] at hd
    obtain rfl := Option.some.inj hd
    exact h.left_eq_none.mpr (.inl rfl)
  case waiting =>
    intro d hd e
    rw [h.pCallStack, hs, List.tail_cons] at hd
    rw [hs] at hnodup
    rcases h.left_eq_none.mp e with rfl | ⟨hdc, e⟩
    · exact (List.nodup_cons.mp hnodup).1 hd
    · exact (hwait d hd).elim hdc fun hne => hne e
  case started =>
    intro d u' hd hu' hor
    obtain ⟨u, hu, -, hst, -⟩ := h.exists_routine hc hu'
    rw [hst]
    refine hstart d u hd hu ?_
    rw [h.pCallStack] at hor
    exact hor.imp_right h.left_cases

end Switched

/-! ## The steps -/

namespace Inv

theorem allocSharestack (hi : Inv s) {count size : ℕ} (hpos : 0 < count) :
    Inv (s.allocSharestack count size) where
  lt := fun c r hr => (hi.lt c r hr).imp_right fun h => h.trans_le (Nat.le_add_right ..)
  left_lt := hi.left_lt
  occ_lt := by
    intro k o ho
    dsimp only [Stacks.allocSharestack] at ho
    split at ho
    · cases ho
    · exact hi.occ_lt k o ho
  share_lt := by
    intro i sh h
    rcases update_some_cases (f := s.share) h with ⟨-, rfl⟩ | ⟨-, h⟩
    · exact ⟨hpos, le_rfl⟩
    · exact (hi.share_lt i sh h).imp_right fun h => h.trans (Nat.le_add_right ..)
  share_own := by
    intro c r i sh hr hs h
    rcases update_some_cases (f := s.share) h with ⟨-, rfl⟩ | ⟨-, h⟩
    · have := (hi.lt c r hr).2
      dsimp only
      omega
    · exact hi.share_own c r i sh hr hs h
  nodup := hi.nodup
  bottom := hi.bottom
  live := hi.live
  kept := by
    refine hi.kept.congr_stack (fun c r hr => if_neg fun h => ?_) fun k o ho => ?_
    · have := (hi.lt c r hr).2
      omega
    · dsimp only [Stacks.allocSharestack] at ho
      split at ho
      · cases ho
      · exact ho
  running := hi.running
  waiting := hi.waiting
  started := hi.started

theorem release (hi : Inv s) (hc : c ∉ s.pCallStack) : Inv (s.release c) where
  lt := fun d r hr => hi.lt d r (eq_of_update_eq hr (by simp))
  left_lt := hi.left_lt
  occ_lt := hi.occ_lt
  share_lt := hi.share_lt
  share_own := fun d r i sh hr => hi.share_own d r i sh (eq_of_update_eq hr (by simp))
  nodup := hi.nodup
  bottom := hi.bottom
  live := by
    intro d hd
    have hdc : d ≠ c := fun e => hc (e ▸ hd)
    dsimp only [Stacks.release]
    rw [Function.update_of_ne hdc]
    exact hi.live d hd
  kept := hi.kept.release c
  running := hi.running
  waiting := hi.waiting
  started := fun d r hd hr => hi.started d r hd (eq_of_update_eq hr (by simp))

theorem head_of (hi : Inv s) : ∃ c rest, s.pCallStack = c :: rest := by
  refine List.exists_cons_of_ne_nil fun h => ?_
  have := hi.bottom
  rw [h] at this
  cases this

theorem zero_mem (hi : Inv s) : 0 ∈ s.pCallStack := List.mem_of_getLast? hi.bottom

/-- A new coroutine on stack `k`. -/
theorem createOn (hi : Inv s) {k : ℕ} {b : Bool} (hk : k < s.numStack)
    (ho : ∀ d u, s.routine d = some u → u.stackMem = k → b = true ∧ u.cIsShareStack = true)
    (hb : b = false → ∀ i sh, s.share i = some sh →
      ¬(sh.stackArray ≤ k ∧ k < sh.stackArray + sh.count)) : Inv (s.createOn k b) := by
  have hnew : ∀ d, d ∈ s.pCallStack ∨ s.left d ≠ none → d ≠ s.numCo := by
    rintro d (hd | hd) rfl
    · obtain ⟨r, hr⟩ := Option.ne_none_iff_exists'.mp (hi.live _ hd)
      exact lt_irrefl _ (hi.lt _ r hr).1
    · exact lt_irrefl _ (hi.left_lt _ hd)
  constructor
  case toBounds =>
    constructor
    case lt =>
      intro d r hr
      rcases update_some_cases (f := s.routine) hr with ⟨rfl, rfl⟩ | ⟨-, hr⟩
      · exact ⟨Nat.lt_succ_self _, hk⟩
      · exact ⟨Nat.lt_succ_of_lt (hi.lt d r hr).1, (hi.lt d r hr).2⟩
    case left_lt => exact fun d hd => Nat.lt_succ_of_lt (hi.left_lt d hd)
    case occ_lt => exact fun l o h => Nat.lt_succ_of_lt (hi.occ_lt l o h)
    case share_lt => exact hi.share_lt
    case share_own =>
      intro d r i sh hr hs h
      rcases update_some_cases (f := s.routine) hr with ⟨rfl, rfl⟩ | ⟨-, hr⟩
      · exact hb hs i sh h
      · exact hi.share_own d r i sh hr hs h
  case nodup => exact hi.nodup
  case bottom => exact hi.bottom
  case live =>
    intro d hd
    dsimp only [Stacks.createOn, setRoutine]
    rw [Function.update_of_ne (hnew d (.inl hd))]
    exact hi.live d hd
  case kept =>
    refine hi.kept.create (by_contra fun h => hnew _ (.inr h) rfl) (fun e => ?_) (fun l e => ?_) ho
    · exact hnew _ (.inl (List.mem_of_mem_head? e)) rfl
    · exact lt_irrefl _ (hi.occ_lt l _ e)
  case running => exact hi.running
  case waiting => exact hi.waiting
  case started =>
    intro d r hd hr hor
    rcases update_some_cases (f := s.routine) hr with ⟨rfl, -⟩ | ⟨-, hr⟩
    · exact absurd rfl (hnew _ hor)
    · exact hi.started d r hd hr hor

/-- A new stack. -/
theorem newStack (hi : Inv s) (size : ℕ) :
    Inv { s.setStack s.numStack ⟨none, size, fun _ => 0⟩ with numStack := s.numStack + 1 } where
  lt := fun c r hr => (hi.lt c r hr).imp_right Nat.lt_succ_of_lt
  left_lt := hi.left_lt
  occ_lt := by
    intro k o ho
    refine hi.occ_lt k o ?_
    by_cases hk : k = s.numStack
    · rw [hk] at ho
      simp [setStack] at ho
    · dsimp only [setStack] at ho
      rwa [Function.update_of_ne hk] at ho
  share_lt := fun i sh h => (hi.share_lt i sh h).imp_right fun h => h.trans (Nat.le_succ _)
  share_own := hi.share_own
  nodup := hi.nodup
  bottom := hi.bottom
  live := hi.live
  kept := by
    refine hi.kept.congr_stack (fun c r hr => ?_) fun k o ho => ?_
    · exact Function.update_of_ne (hi.lt c r hr).2.ne _ _
    · by_cases hk : k = s.numStack
      · rw [hk] at ho
        simp [setStack] at ho
      · dsimp only [setStack] at ho
        rwa [Function.update_of_ne hk] at ho
  running := hi.running
  waiting := hi.waiting
  started := hi.started

/-- The next stack of an array is taken. -/
theorem takeStack (hi : Inv s) {i n : ℕ} {sh : ShareStack} (h : s.share i = some sh) :
    Inv { s with share := Function.update s.share i (some { sh with allocIdx := n }) } where
  lt := hi.lt
  left_lt := hi.left_lt
  occ_lt := hi.occ_lt
  share_lt := by
    intro j sh' h'
    rcases update_some_cases (f := s.share) h' with ⟨rfl, rfl⟩ | ⟨-, h'⟩
    · exact hi.share_lt j sh h
    · exact hi.share_lt j sh' h'
  share_own := by
    intro c r j sh' hr hs h'
    rcases update_some_cases (f := s.share) h' with ⟨rfl, rfl⟩ | ⟨-, h'⟩
    · exact hi.share_own c r j sh hr hs h
    · exact hi.share_own c r j sh' hr hs h'
  nodup := hi.nodup
  bottom := hi.bottom
  live := hi.live
  kept := hi.kept
  running := hi.running
  waiting := hi.waiting
  started := hi.started

/-- **`co_create`.** -/
theorem create (hi : Inv s) {size : ℤ} {share : Option ℕ} (h : ∀ i ∈ share, s.share i ≠ none) :
    ∃ s', s.create size share = some s' ∧ Inv s' := by
  cases share with
  | none =>
    refine ⟨_, rfl, (hi.newStack (stackSize size)).createOn (Nat.lt_succ_self _) ?_ ?_⟩
    · intro d u hu hk
      exact absurd hk (hi.lt d u hu).2.ne
    · intro _ i sh hsh
      have := (hi.share_lt i sh hsh).2
      omega
  | some i =>
    obtain ⟨sh, hsh⟩ := Option.ne_none_iff_exists'.mp (h i rfl)
    obtain ⟨hpos, hle⟩ := hi.share_lt i sh hsh
    have hmod := Nat.mod_lt sh.allocIdx hpos
    have hnew : Inv ({ s with
        share := Function.update s.share i (some { sh with allocIdx := sh.allocIdx + 1 })
      }.createOn (sh.stackArray + sh.allocIdx % sh.count) true) := by
      apply (hi.takeStack hsh).createOn
      case hk => exact (Nat.add_lt_add_left hmod _).trans_le hle
      case ho =>
        intro d u hu hk
        refine ⟨rfl, by_contra fun hs => ?_⟩
        exact hi.share_own d u i sh hu (by simpa using hs) hsh (by omega)
      case hb => simp
    exact ⟨_, by rw [Stacks.create, hsh]; rfl, hnew⟩

/-- The running coroutine writes. -/
theorem write (hi : Inv s) (a : ℕ) (b : UInt8) : ∃ s', s.write a b = some s' ∧ Inv s' := by
  obtain ⟨c, rest, hs⟩ := hi.head_of
  obtain ⟨r, hr⟩ := Option.ne_none_iff_exists'.mp (hi.live c (by rw [hs]; simp))
  have hrun := hi.running c (by rw [hs, List.head?_cons])
  let m := s.stack r.stackMem
  have hocc : ∀ k, ((s.setStack r.stackMem { m with bytes := Function.update m.bytes a b }).stack
      k).occupyCo = (s.stack k).occupyCo :=
    fun k => apply_update_eq (g := StackMem.occupyCo) (by rfl) k
  refine ⟨s.setStack r.stackMem { m with bytes := Function.update m.bytes a b },
    by simp [Stacks.write, hs, hr, m], ?_⟩
  refine { hi with occ_lt := fun k o ho => hi.occ_lt k o (by rw [← hocc]; exact ho), kept := ?_ }
  have hk := hi.kept
  rw [hs, List.head?_cons] at hk
  show Kept s.routine _ s.left s.pCallStack.head?
  rw [hs, List.head?_cons]
  exact hk.write hr hrun _

/-- A coroutine changed that keeps its stack. -/
theorem setRoutine (hi : Inv s) (hr : s.routine c = some r) (hk : u.stackMem = r.stackMem)
    (hs : u.cIsShareStack = r.cIsShareStack) (hsp : u.stackSp = r.stackSp)
    (hb : u.saveBuffer = r.saveBuffer) (hst : r.cStart = true → u.cStart = true) :
    Inv (s.setRoutine c u) where
  lt := by
    intro d x hx
    rcases update_some_cases (f := s.routine) hx with ⟨rfl, rfl⟩ | ⟨-, hx⟩
    · rw [hk]
      exact hi.lt d r hr
    · exact hi.lt d x hx
  left_lt := hi.left_lt
  occ_lt := hi.occ_lt
  share_lt := hi.share_lt
  share_own := by
    intro d x i sh hx hsx hi'
    rcases update_some_cases (f := s.routine) hx with ⟨rfl, rfl⟩ | ⟨-, hx⟩
    · rw [hk]
      exact hi.share_own d r i sh hr (hs.symm.trans hsx) hi'
    · exact hi.share_own d x i sh hx hsx hi'
  nodup := hi.nodup
  bottom := hi.bottom
  live := by
    intro d hd e
    exact hi.live d hd (eq_of_update_eq e (by simp))
  kept := hi.kept.setFlags hr hk hs hsp hb
  running := hi.running
  waiting := hi.waiting
  started := by
    intro d x hd hx hor
    rcases update_some_cases (f := s.routine) hx with ⟨rfl, rfl⟩ | ⟨-, hx⟩
    · exact hst (hi.started d r hd hr hor)
    · exact hi.started d x hd hx hor

end Inv

theorem dangling_setRoutine (hr : s.routine c = some r) (hk : u.stackMem = r.stackMem)
    (hs : u.cIsShareStack = r.cIsShareStack) :
    (s.setRoutine c u).Dangling p ↔ s.Dangling p := by
  constructor
  · rintro ⟨x, o, hx, hsx, ho, hop, hfree⟩
    have hfree' : s.routine o = none := eq_of_update_eq hfree (by simp)
    rcases update_some_cases (f := s.routine) hx with ⟨rfl, rfl⟩ | ⟨-, hx⟩
    · exact ⟨r, o, hr, hs ▸ hsx, hk ▸ ho, hop, hfree'⟩
    · exact ⟨x, o, hx, hsx, ho, hop, hfree'⟩
  · rintro ⟨x, o, hx, hsx, ho, hop, hfree⟩
    have hoc : o ≠ c := by
      rintro rfl
      rw [hr] at hfree
      cases hfree
    have hfree' : (s.setRoutine c u).routine o = none := by
      dsimp only [Stacks.setRoutine]
      rwa [Function.update_of_ne hoc]
    by_cases hpc : p = c
    · subst hpc
      obtain rfl := Option.some.inj (hr.symm.trans hx)
      exact ⟨u, o, Function.update_self .., hs.trans hsx, by rw [hk]; exact ho, hop, hfree'⟩
    · exact ⟨x, o, (Function.update_of_ne hpc ..).trans hx, hsx, ho, hop, hfree'⟩

/-! ## A switch -/

/-- What a switch from `c` to `p` does to the coroutines that are suspended. -/
structure Switch (s s' : Stacks) (c p sp : ℕ) : Prop where
  head : s.pCallStack.head? = some c
  head' : s'.pCallStack.head? = some p
  left_curr : c ≠ p → ∀ r, s.routine c = some r → s'.left c = some (s.stack r.stackMem).bytes
  left : ∀ d, d ≠ c → d ≠ p → s'.left d = s.left d
  stackBp : ∀ k, (s'.stack k).stackBp = (s.stack k).stackBp
  routine : ∀ d u', s'.routine d = some u' → ∃ u, s.routine d = some u ∧
    u'.stackMem = u.stackMem ∧ u'.stackSp = if d = c then sp else u.stackSp
  restored : ∀ u f, s.routine p = some u → s.left p = some f → ∀ x, u.stackSp ≤ x →
    x < (s.stack u.stackMem).stackBp → (s'.stack u.stackMem).bytes x = f x

theorem Switched.switch {cs : List ℕ} (h : Switched { s with pCallStack := p :: cs } s' c r p sp)
    (hc : s.routine c = some r) (hhead : s.pCallStack.head? = some c) : Switch s s' c p sp where
  head := hhead
  head' := by rw [h.pCallStack, List.head?_cons]
  left_curr := by
    intro hne r' hr'
    obtain rfl := Option.some.inj (hc.symm.trans hr')
    rw [h.left, Function.update_of_ne hne, Function.update_self]
  left := by
    intro d hdc hdp
    rw [h.left, Function.update_of_ne hdp, Function.update_of_ne hdc]
  stackBp := h.stackBp
  routine := by
    intro d u' hu'
    obtain ⟨u, hu, hk, -, -, hsp⟩ := h.exists_routine hc hu'
    exact ⟨u, hu, hk, hsp⟩
  restored := h.restored

theorem setRoutine_routine {d : ℕ} (hr : s.routine d = some r) (hk : u.stackMem = r.stackMem)
    (hsp : u.stackSp = r.stackSp) {e : ℕ} {x : Routine} (hx : s.routine e = some x) :
    ∃ y, (s.setRoutine d u).routine e = some y ∧ y.stackMem = x.stackMem ∧
      y.stackSp = x.stackSp := by
  by_cases hed : e = d
  · subst hed
    obtain rfl := Option.some.inj (hr.symm.trans hx)
    exact ⟨u, Function.update_self .., hk, hsp⟩
  · exact ⟨x, (Function.update_of_ne hed ..).trans hx, rfl, rfl⟩

/-- The same switch before the flags of a coroutine were set. -/
theorem Switch.of_setRoutine {d : ℕ} (h : Switch (s.setRoutine d u) s' c p sp)
    (hr : s.routine d = some r) (hk : u.stackMem = r.stackMem) (hsp : u.stackSp = r.stackSp) :
    Switch s s' c p sp where
  head := h.head
  head' := h.head'
  left_curr := by
    intro hne x hx
    obtain ⟨y, hy, hyk, -⟩ := setRoutine_routine hr hk hsp hx
    rw [← hyk]
    exact h.left_curr hne y hy
  left := h.left
  stackBp := h.stackBp
  routine := by
    intro e x hx
    obtain ⟨y, hy, hyk, hysp⟩ := h.routine e x hx
    rcases update_some_cases (f := s.routine) hy with ⟨rfl, rfl⟩ | ⟨-, hy⟩
    · exact ⟨r, hr, hyk.trans hk, by rw [hysp, hsp]⟩
    · exact ⟨y, hy, hyk, hysp⟩
  restored := by
    intro x f hx hf
    obtain ⟨y, hy, hyk, hysp⟩ := setRoutine_routine hr hk hsp hx
    rw [← hyk, ← hysp]
    exact h.restored y f hy hf

namespace Inv

/-- **`co_resume`.** -/
theorem resume (hi : Inv s) (hp : s.routine p = some u) (hmem : p ∉ s.pCallStack)
    (hfit : s.Fits sp) (hlen : s.pCallStack.length < 128) :
    (s.Dangling p → s.coResume p sp = none) ∧ (¬s.Dangling p →
      ∃ s' c, s.coResume p sp = some s' ∧ Inv s' ∧ Switch s s' c p sp) := by
  obtain ⟨c, rest, hs⟩ := hi.head_of
  have hhead : s.pCallStack.head? = some c := by rw [hs, List.head?_cons]
  have hcp : c ≠ p := by
    rintro rfl
    exact hmem (by rw [hs]; simp)
  obtain ⟨r, hr⟩ := Option.ne_none_iff_exists'.mp (hi.live c (by rw [hs]; simp))
  let s₀ := s.setRoutine p { u with cStart := true }
  have hi₀ : Inv s₀ := hi.setRoutine hp rfl rfl rfl rfl fun _ => rfl
  have hp₀ : s₀.routine p = some { u with cStart := true } := Function.update_self ..
  have hr₀ : s₀.routine c = some r := (Function.update_of_ne hcp ..).trans hr
  let s₁ : Stacks := { s₀ with pCallStack := p :: s.pCallStack }
  have e : s.coResume p sp = s₁.coSwap c p sp u.cStart := by
    simp [coResume, hp, hhead, hlen, s₁, s₀]
  have hd : s₁.Dangling p ↔ s.Dangling p := dangling_setRoutine hp rfl rfl
  rw [e, ← hd]
  refine ⟨fun h => coSwap_dangling hr₀ h, fun h => ?_⟩
  have hk := hi₀.kept
  rw [show s₀.pCallStack.head? = some c from hhead] at hk
  have hst : s₁.left p ≠ none → u.cStart = true := by
    intro hl
    refine hi.started p u ?_ hp (.inr hl)
    rintro rfl
    exact hmem hi.zero_mem
  obtain ⟨s', e', h'⟩ := coSwap_spec (s := s₁) hk hr₀ hp₀ hcp (hfit c hhead r hr) hst h
  refine ⟨s', c, e', ?_, (h'.switch hr₀ hhead).of_setRoutine hp rfl rfl⟩
  have hb : Bounds s₁ := { hi₀.toBounds with }
  apply h'.inv hb hr₀ rfl
  case hnodup => exact List.nodup_cons.mpr ⟨hmem, hi.nodup⟩
  case hbottom =>
    show (p :: s.pCallStack).getLast? = some 0
    rw [hs, List.getLast?_cons_cons, ← hs]
    exact hi.bottom
  case hlive =>
    intro d hd
    rcases List.mem_cons.mp hd with rfl | hd
    · exact Option.ne_none_iff_exists'.mpr ⟨_, hp₀⟩
    · exact hi₀.live d hd
  case hwait =>
    intro d hd
    rw [hs] at hd
    refine (List.mem_cons.mp hd).imp_right fun hd => hi.waiting d ?_
    rwa [hs]
  case hstart =>
    intro d x hd hx hor
    rcases update_some_cases (f := s.routine) hx with ⟨rfl, rfl⟩ | ⟨hdp, hx⟩
    · rfl
    · refine hi.started d x hd hx ?_
      rcases hor with hm | rfl | hl
      · exact .inl ((List.mem_cons.mp hm).resolve_left hdp)
      · exact .inl (by rw [hs]; simp)
      · exact .inr hl

/-- **`co_yield_env`.** -/
theorem yield (hi : Inv s) {rest : List ℕ} (hs : s.pCallStack = c :: p :: rest)
    (hfit : s.Fits sp) :
    (s.Dangling p → s.coYield sp = none) ∧ (¬s.Dangling p →
      ∃ s', s.coYield sp = some s' ∧ Inv s' ∧ Switch s s' c p sp) := by
  have hhead : s.pCallStack.head? = some c := by rw [hs, List.head?_cons]
  have hnd := hi.nodup
  rw [hs, List.nodup_cons, List.mem_cons, not_or] at hnd
  obtain ⟨⟨hcp, -⟩, hnd⟩ := hnd
  obtain ⟨r, hr⟩ := Option.ne_none_iff_exists'.mp (hi.live c (by rw [hs]; simp))
  obtain ⟨u, hp⟩ := Option.ne_none_iff_exists'.mp (hi.live p (by rw [hs]; simp))
  let s₁ : Stacks := { s with pCallStack := p :: rest }
  have e : s.coYield sp = s₁.coSwap c p sp true := by
    rw [coYield, hs]
  rw [e]
  refine ⟨fun h => coSwap_dangling (s := s₁) hr h, fun h => ?_⟩
  have hk := hi.kept
  rw [hhead] at hk
  obtain ⟨s', e', h'⟩ :=
    coSwap_spec (s := s₁) hk hr hp hcp (hfit c hhead r hr) (fun _ => rfl) h
  refine ⟨s', e', ?_, h'.switch hr hhead⟩
  have hb : Bounds s₁ := { hi.toBounds with }
  have hmem : ∀ d ∈ p :: rest, d ∈ s.pCallStack := by
    intro d hd
    rw [hs]
    exact List.mem_cons_of_mem _ hd
  apply h'.inv hb hr rfl
  case hnodup => exact hnd
  case hbottom =>
    have := hi.bottom
    rwa [hs, List.getLast?_cons_cons] at this
  case hlive => exact fun d hd => hi.live d (hmem d hd)
  case hwait =>
    intro d hd
    refine .inr (hi.waiting d ?_)
    rw [hs]
    exact List.mem_cons_of_mem _ hd
  case hstart =>
    intro d x hd hx hor
    refine hi.started d x hd hx ?_
    rcases hor with hm | rfl | hl
    · exact .inl (hmem d hm)
    · exact .inl (by rw [hs]; simp)
    · exact .inr hl

/-- The end of `CoRoutineFunc`. -/
theorem finish (hi : Inv s) {rest : List ℕ} (hs : s.pCallStack = c :: p :: rest)
    (hfit : s.Fits sp) :
    (s.Dangling p → s.finish sp = none) ∧ (¬s.Dangling p →
      ∃ s', s.finish sp = some s' ∧ Inv s' ∧ Switch s s' c p sp) := by
  obtain ⟨r, hr⟩ := Option.ne_none_iff_exists'.mp (hi.live c (by rw [hs]; simp))
  have hi₀ : Inv (s.setRoutine c { r with cEnd := true }) :=
    hi.setRoutine hr rfl rfl rfl rfl id
  have e : s.finish sp = (s.setRoutine c { r with cEnd := true }).coYield sp := by
    simp [Stacks.finish, hs, hr]
  have hfit₀ : (s.setRoutine c { r with cEnd := true }).Fits sp := by
    intro d hd x hx
    rcases update_some_cases (f := s.routine) hx with ⟨rfl, rfl⟩ | ⟨-, hx⟩
    · exact hfit d hd r hr
    · exact hfit d hd x hx
  have hd : (s.setRoutine c { r with cEnd := true }).Dangling p ↔ s.Dangling p :=
    dangling_setRoutine hr rfl rfl
  obtain ⟨h₁, h₂⟩ := hi₀.yield hs hfit₀
  rw [e, ← hd]
  refine ⟨h₁, fun h => ?_⟩
  obtain ⟨s', e', hi', h'⟩ := h₂ h
  exact ⟨s', e', hi', h'.of_setRoutine hr rfl rfl⟩

end Inv

/-! ## One step -/

/-- What a step that is no switch leaves as it was. -/
structure Quiet (s s' : Stacks) : Prop where
  pCallStack : s'.pCallStack = s.pCallStack
  left : s'.left = s.left
  stackBp : ∀ k < s.numStack, (s'.stack k).stackBp = (s.stack k).stackBp
  routine : ∀ d u, d < s.numCo → s'.routine d = some u → s.routine d = some u

theorem create_quiet {size : ℤ} {share : Option ℕ} (h : s.create size share = some s') :
    Quiet s s' := by
  cases share with
  | none =>
    obtain rfl := Option.some.inj h
    refine ⟨rfl, rfl, fun k hk => ?_, fun d u hd hu => ?_⟩
    · exact congrArg StackMem.stackBp (Function.update_of_ne hk.ne ..)
    · exact (Function.update_of_ne hd.ne ..).symm.trans hu
  | some i =>
    obtain ⟨sh, -, h⟩ := Option.bind_eq_some_iff.mp h
    obtain rfl := Option.some.inj h
    exact ⟨rfl, rfl, fun _ _ => rfl, fun d u hd hu =>
      (Function.update_of_ne hd.ne ..).symm.trans hu⟩

theorem write_quiet {a : ℕ} {b : UInt8} (h : s.write a b = some s') : Quiet s s' := by
  obtain ⟨c, -, h⟩ := Option.bind_eq_some_iff.mp h
  obtain ⟨r, -, h⟩ := Option.bind_eq_some_iff.mp h
  obtain rfl := Option.some.inj h
  exact ⟨rfl, rfl, fun k _ => stackBp_update (by rfl) k, fun d u _ hu => hu⟩

variable {a : Act}

/-- **A step that is no switch** is defined. -/
theorem step_quiet (hi : Inv s) (ha : s.Allowed a) (ht : s.target a = none) :
    ∃ s', s.step a = some s' ∧ Inv s' ∧ Quiet s s' := by
  have hlen : 2 ≤ s.pCallStack.length → s.pCallStack[1]? ≠ none := by
    intro h e
    rw [List.getElem?_eq_none_iff] at e
    omega
  cases a with
  | allocShare count size =>
    refine ⟨_, rfl, hi.allocSharestack ha, rfl, rfl, fun k hk => ?_, fun _ _ _ hu => hu⟩
    exact congrArg StackMem.stackBp (if_neg fun h => absurd hk (Nat.not_lt.mpr h.1))
  | create size share =>
    obtain ⟨s', e, hi'⟩ : ∃ s', s.create size share = some s' ∧ Inv s' := hi.create ha
    exact ⟨s', e, hi', create_quiet e⟩
  | release c =>
    refine ⟨_, rfl, hi.release ha.2, rfl, rfl, fun _ _ => rfl, fun d u _ hu => ?_⟩
    exact eq_of_update_eq hu (by simp)
  | write a b =>
    obtain ⟨s', e, hi'⟩ := hi.write a b
    exact ⟨s', e, hi', write_quiet e⟩
  | resume c sp => cases ht
  | yield sp => exact absurd ht (hlen ha.1)
  | finish sp => exact absurd ht (hlen ha.1)

/-- **A switch** is defined if and only if there is room for it on the call stack and the occupant
of the stack is still there. -/
theorem step_switch (hi : Inv s) (ha : s.Allowed a) (ht : s.target a = some p) :
    (¬(s.Room a ∧ ¬s.Dangling p) → s.step a = none) ∧ (s.Room a → ¬s.Dangling p →
      ∃ s' c, s.step a = some s' ∧ Inv s' ∧ Switch s s' c p a.sp) := by
  have hcons : s.pCallStack[1]? = some p → ∃ c rest, s.pCallStack = c :: p :: rest := by
    intro h
    obtain ⟨c, rest, hs⟩ := hi.head_of
    rw [hs, List.getElem?_cons_succ, ← List.head?_eq_getElem?, List.head?_eq_some_iff] at h
    obtain ⟨rest', rfl⟩ := h
    exact ⟨c, rest', hs⟩
  cases a with
  | allocShare | create | release | write => cases ht
  | resume c sp =>
    obtain rfl := Option.some.inj ht
    obtain ⟨⟨u, hu, -⟩, hmem, hfit⟩ := ha
    by_cases hlen : s.pCallStack.length < 128
    · obtain ⟨h₁, h₂⟩ := hi.resume hu hmem hfit hlen
      exact ⟨fun h => h₁ (by_contra fun hd => h ⟨hlen, hd⟩), fun _ => h₂⟩
    · exact ⟨fun _ => coResume_full hlen, fun h => absurd h hlen⟩
  | yield sp =>
    obtain ⟨c, rest, hs⟩ := hcons ht
    obtain ⟨h₁, h₂⟩ := hi.yield hs ha.2
    exact ⟨fun h => h₁ (by_contra fun hd => h ⟨trivial, hd⟩),
      fun _ hd => (h₂ hd).imp fun s' h' => ⟨c, h'⟩⟩
  | finish sp =>
    obtain ⟨c, rest, hs⟩ := hcons ht
    obtain ⟨h₁, h₂⟩ := hi.finish hs ha.2
    exact ⟨fun h => h₁ (by_contra fun hd => h ⟨trivial, hd⟩),
      fun _ hd => (h₂ hd).imp fun s' h' => ⟨c, h'⟩⟩

theorem step_cases (hi : Inv s) (ha : s.Allowed a) (h : s.step a = some s') :
    Inv s' ∧ (Quiet s s' ∨ ∃ c p, Switch s s' c p a.sp) := by
  cases ht : s.target a with
  | none =>
    obtain ⟨t, e, hi', hq⟩ := step_quiet hi ha ht
    obtain rfl := Option.some.inj (e.symm.trans h)
    exact ⟨hi', .inl hq⟩
  | some p =>
    obtain ⟨h₁, h₂⟩ := step_switch hi ha ht
    by_cases hd : s.Room a ∧ ¬s.Dangling p
    · obtain ⟨t, c, e, hi', hsw⟩ := h₂ hd.1 hd.2
      obtain rfl := Option.some.inj (e.symm.trans h)
      exact ⟨hi', .inr ⟨c, p, hsw⟩⟩
    · rw [h₁ hd] at h
      cases h

/-! ## Runs -/

variable {size : ℕ} {acts acts' : List Act} {s₁ s₂ : Stacks}

theorem run_inv (hrun : Exec step Allowed (init size) acts s) : Inv s :=
  hrun.invariant (init_inv size) fun _ _ _ hi ha h => (step_cases hi ha h).1

/-- **What a switch needs.** In every run whose steps are allowed, an allowed switch is defined if
and only if fewer than 128 coroutines are on the call stack where it resumes one, and the coroutine
that occupies the stack it goes to, if another one, has not been released. -/
theorem switch_iff (hrun : Exec step Allowed (init size) acts s) (ha : s.Allowed a)
    (ht : s.target a = some p) : (s.step a).isSome ↔ s.Room a ∧ ¬s.Dangling p := by
  obtain ⟨h₁, h₂⟩ := step_switch (run_inv hrun) ha ht
  constructor
  · intro h
    by_contra hd
    rw [h₁ hd] at h
    cases h
  · rintro ⟨hroom, hd⟩
    obtain ⟨s', -, e, -⟩ := h₂ hroom hd
    rw [e]
    rfl

/-- Coroutine `p` is suspended, and left `f` on stack `k` between `sp` and `bp`. -/
structure Suspended (s : Stacks) (p : ℕ) (f : ℕ → UInt8) (k sp bp : ℕ) : Prop where
  head : s.pCallStack.head? ≠ some p
  left : s.left p = some f
  routine : ∀ u, s.routine p = some u →
    u.stackMem = k ∧ u.stackSp = sp ∧ (s.stack k).stackBp = bp

/-- A coroutine is suspended until a switch puts its stack back. -/
theorem Suspended.step {f : ℕ → UInt8} {k sp bp : ℕ} (h : Suspended s p f k sp bp) (hi : Inv s)
    (ha : s.Allowed a) (hs : s.step a = some s') :
    Inv s' ∧ (Suspended s' p f k sp bp ∨ s'.pCallStack.head? = some p ∧
      ∀ x, sp ≤ x → x < bp → (s'.stack k).bytes x = f x) := by
  obtain ⟨hi', hq | ⟨c, q, hsw⟩⟩ := step_cases hi ha hs
  · refine ⟨hi', .inl ⟨by rw [hq.pCallStack]; exact h.head, by rw [hq.left]; exact h.left, ?_⟩⟩
    intro u hu
    have hp : p < s.numCo := hi.left_lt p (by rw [h.left]; simp)
    have hu' := hq.routine p u hp hu
    obtain ⟨hk, hsp, hbp⟩ := h.routine u hu'
    refine ⟨hk, hsp, (hq.stackBp k ?_).trans hbp⟩
    rw [← hk]
    exact (hi.lt p u hu').2
  · refine ⟨hi', ?_⟩
    have hpc : p ≠ c := by
      rintro rfl
      exact h.head hsw.head
    by_cases hpq : p = q
    · subst hpq
      refine .inr ⟨hsw.head', ?_⟩
      have hmem := List.mem_of_mem_head? (Option.mem_def.mpr hsw.head')
      obtain ⟨u', hu'⟩ := Option.ne_none_iff_exists'.mp (hi'.live p hmem)
      obtain ⟨u, hu, -⟩ := hsw.routine p u' hu'
      obtain ⟨rfl, rfl, rfl⟩ := h.routine u hu
      exact hsw.restored u f hu h.left
    · refine .inl ⟨?_, by rw [hsw.left p hpc hpq]; exact h.left, fun u' hu' => ?_⟩
      · rw [hsw.head']
        exact fun e => hpq (Option.some.inj e).symm
      · obtain ⟨u, hu, hk, hsp⟩ := hsw.routine p u' hu'
        rw [hk, hsp, if_neg hpc, hsw.stackBp]
        exact h.routine u hu

/-- A coroutine is suspended up to the state in which it gets control back. -/
theorem Suspended.run {f : ℕ → UInt8} {k sp bp : ℕ} (h : Suspended s p f k sp bp) (hi : Inv s)
    (hrun : Exec Stacks.step (fun u a => u.Allowed a ∧ u.pCallStack.head? ≠ some p) s acts s') :
    Inv s' ∧ (Suspended s' p f k sp bp ∨ s'.pCallStack.head? = some p ∧
      ∀ x, sp ≤ x → x < bp → (s'.stack k).bytes x = f x) := by
  induction hrun with
  | nil => exact ⟨hi, .inl h⟩
  | snoc _ hC hs ih =>
    obtain ⟨hi', h' | ⟨h', -⟩⟩ := ih
    · exact h'.step hi' hC.1 hs
    · exact absurd h' hC.2

/-- **A stack is put back.** In every run whose steps are allowed, when a coroutine that gave
control away gets it back, its stack holds what it held then, from the address of the local variable
in `co_swap` on. -/
theorem stack_restored (hrun : Exec step Allowed (init size) acts s)
    (hp : s.pCallStack.head? = some p) (hr : s.routine p = some r)
    (ha : s.Allowed a) (hs : s.step a = some s₁) (hne : s₁.pCallStack.head? ≠ some p)
    (hrun' : Exec step (fun u a => u.Allowed a ∧ u.pCallStack.head? ≠ some p) s₁ acts' s₂)
    (hback : s₂.pCallStack.head? = some p) :
    ∀ x, a.sp ≤ x → x < (s.stack r.stackMem).stackBp →
      (s₂.stack r.stackMem).bytes x = (s.stack r.stackMem).bytes x := by
  obtain ⟨hi', hq | ⟨c, q, hsw⟩⟩ := step_cases (run_inv hrun) ha hs
  · exact absurd ((congrArg List.head? hq.pCallStack).trans hp) hne
  · obtain rfl : p = c := Option.some.inj (hp.symm.trans hsw.head)
    have hpq : p ≠ q := by
      rintro rfl
      exact hne hsw.head'
    have h : Suspended s₁ p (s.stack r.stackMem).bytes r.stackMem a.sp
        (s.stack r.stackMem).stackBp := by
      refine ⟨hne, hsw.left_curr hpq r hr, fun u' hu' => ?_⟩
      obtain ⟨u, hu, hk, hsp⟩ := hsw.routine p u' hu'
      obtain rfl := Option.some.inj (hr.symm.trans hu)
      exact ⟨hk, by rw [hsp, if_pos rfl], hsw.stackBp _⟩
    exact ((h.run hi' hrun').2.resolve_left fun h => h.head hback).2

/-! ### An example -/

/-- Two coroutines share a stack; the first one, which is running, has written to it. -/
def twoShare : Stacks :=
  (runIf step Allowed (init 65536) [.allocShare 1 4096, .create 0 (some 0), .create 0 (some 0),
    .resume 1 65000, .write 4090 7]).get (by decide)

theorem exec_twoShare : Exec step Allowed (init 65536) [.allocShare 1 4096, .create 0 (some 0),
    .create 0 (some 0), .resume 1 65000, .write 4090 7] twoShare :=
  exec_of_runIf (Option.some_get _).symm

/-- `stack_restored` where the second one runs on the stack and writes to the same place. -/
theorem stack_restored_two :
    ∃ s₁ s₂ l, twoShare.step (.yield 4000) = some s₁ ∧
      Exec step (fun u a => u.Allowed a ∧ u.pCallStack.head? ≠ some 1) s₁ l s₂ ∧
      (s₁.stack 1).bytes 4090 = 7 ∧ (s₂.stack 1).bytes 4090 = 7 ∧ (.write 4090 9) ∈ l := by
  let s₁ := (twoShare.step (.yield 4000)).get (by decide)
  let l : List Act := [.resume 2 65000, .write 4090 9, .yield 4010, .resume 1 65000]
  let s₂ := (runIf step (fun u a => u.Allowed a ∧ u.pCallStack.head? ≠ some 1) s₁ l).get (by decide)
  have hs : twoShare.step (.yield 4000) = some s₁ := (Option.some_get _).symm
  have hl : Exec step (fun u a => u.Allowed a ∧ u.pCallStack.head? ≠ some 1) s₁ l s₂ :=
    exec_of_runIf (Option.some_get _).symm
  have h := stack_restored exec_twoShare (p := 1) rfl (by rfl) (by decide) hs (by decide) hl
    (by decide) 4090 (by decide) (by decide)
  exact ⟨s₁, s₂, l, hs, hl, by decide, h, by simp [l]⟩

/-- `switch_iff` before and after the first one is released: then the second one cannot run. -/
theorem switch_iff_released :
    ∃ s t, Exec step Allowed (init 65536) [.allocShare 1 4096, .create 0 (some 0),
        .create 0 (some 0), .resume 1 65000, .write 4090 7, .yield 4000] s ∧
      s.step (.release 1) = some t ∧ t.Allowed (.resume 2 65000) ∧ t.Dangling 2 ∧
      (s.step (.resume 2 65000)).isSome ∧ ¬(t.step (.resume 2 65000)).isSome := by
  let s := (runIf step Allowed twoShare [.yield 4000]).get (by decide)
  have hs : Exec step Allowed twoShare [.yield 4000] s := exec_of_runIf (Option.some_get _).symm
  let t := (s.step (.release 1)).get rfl
  have ht : s.step (.release 1) = some t := (Option.some_get _).symm
  have hrun := exec_twoShare.trans hs
  have hrun' := hrun.snoc (show s.Allowed (.release 1) by decide) ht
  have hoccupy : (s.stack 1).occupyCo = some 1 := by decide
  have hnot : ¬s.Dangling 2 := by
    rintro ⟨r, o, hr, -, ho, -, hfree⟩
    obtain rfl : ⟨1, false, false, true, 0, []⟩ = r := Option.some.inj hr
    obtain rfl := Option.some.inj (hoccupy.symm.trans ho)
    exact absurd hfree (by decide)
  have hd : t.Dangling 2 := ⟨⟨1, false, false, true, 0, []⟩, 1, rfl, rfl, by decide, by decide, rfl⟩
  have ha : s.Allowed (.resume 2 65000) := by decide
  have ha' : t.Allowed (.resume 2 65000) := by decide
  exact ⟨s, t, hrun, ht, ha', hd, (switch_iff hrun ha rfl).mpr ⟨by decide, hnot⟩,
    fun e => ((switch_iff hrun' ha' rfl).mp e).2 hd⟩

end Stacks

end WebServer.Libco
