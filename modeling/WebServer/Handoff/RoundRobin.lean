import Mathlib.Data.Int.CardIntervalMod
import WebServer.Handoff.ExactlyOnce

/-!
# How connections are spread over the workers

`GetNextEventEpollFd` goes round the workers: the k-th descriptor that is dispatched, counted from
0, goes to worker `(k + 1) % thread_num` (`Robin`), whatever the workers do meanwhile. So no worker
is ever ahead of another by more than one descriptor (`dispatched_evenly`).
-/

namespace WebServer.Handoff

open WebServer.Lib

variable {n : ℕ} {s t : St} {a : Act}

/-! ## Going round -/

/-- Where the k-th step of a round-robin over `n` places goes, from place 0 on. -/
def turnOf (n k : ℕ) : ℕ := (k + 1) % n

/-- The turns that go to place `w` are a residue class. -/
theorem turnOf_eq_iff {w k : ℕ} (hw : w < n) : turnOf n k = w ↔ k ≡ w + n - 1 [MOD n] := by
  have hsum : w + n - 1 + 1 = w + n := by omega
  have hmod : (w + n) % n = w := by rw [Nat.add_mod_right, Nat.mod_eq_of_lt hw]
  constructor
  · intro h
    apply Nat.ModEq.add_right_cancel' 1
    rw [hsum]
    exact h.trans hmod.symm
  · intro h
    have h' := h.add_right 1
    rw [hsum] at h'
    exact Eq.trans h' hmod

/-- In `k` turns each place is met `k / n` times, or once more. -/
theorem count_turns {w : ℕ} (hw : w < n) (k : ℕ) :
    ((List.range k).map (turnOf n)).count w = k / n ∨
      ((List.range k).map (turnOf n)).count w = k / n + 1 := by
  have hcount : ((List.range k).map (turnOf n)).count w = Nat.count (· ≡ w + n - 1 [MOD n]) k := by
    rw [List.count, List.countP_map, Nat.count]
    refine List.countP_congr fun j _ => ?_
    simp [turnOf_eq_iff hw]
  rw [hcount, Nat.count_modEq_card _ (by omega)]
  split
  · exact .inr rfl
  · exact .inl (Nat.add_zero _)

/-- The descriptors sent to a worker, counted by the workers. -/
theorem length_sentTo {β : Type*} (w : ℕ) (l : List (ℕ × β)) :
    (sentTo w l).length = (l.map Prod.fst).count w := by
  induction l with
  | nil => rfl
  | cons x l ih =>
    obtain ⟨v, y⟩ := x
    rw [← List.singleton_append, sentTo_append, List.length_append, ih, List.map_append,
      List.count_append]
    by_cases hv : v = w
    · subst hv
      simp [sentTo_self]
    · simp [sentTo_ne hv, hv]

/-! ## Runs -/

/-- What has been dispatched so far. -/
structure Robin (n : ℕ) (s : St) : Prop where
  cur : s.curEventEpoll = s.dispatched.length % n
  workers : s.dispatched.map Prod.fst = (List.range s.dispatched.length).map (turnOf n)
  descriptors : s.dispatched.map Prod.snd ++ s.main.accepted = s.accepted.filter (0 < ·)

theorem init_robin : Robin n init where
  cur := (Nat.zero_mod n).symm
  workers := rfl
  descriptors := rfl

/-- A step that dispatches nothing. -/
theorem Robin.congr (h : Robin n s) (hc : t.curEventEpoll = s.curEventEpoll)
    (hd : t.dispatched = s.dispatched)
    (ha : t.dispatched.map Prod.snd ++ t.main.accepted = t.accepted.filter (0 < ·)) :
    Robin n t where
  cur := by rw [hc, hd]; exact h.cur
  workers := by rw [hd]; exact h.workers
  descriptors := ha

theorem step_robin (h : Robin n s) (hs : step n s a = some t) : Robin n t := by
  have hfds := h.descriptors
  cases step_cases hs with
  | enter hm =>
    rw [hm] at hfds
    exact h.congr rfl rfl hfds
  | @accept connfd hm hpos _ =>
    rw [hm] at hfds
    refine h.congr rfl rfl ?_
    rw [List.filter_append, ← hfds]
    simp [MainPc.accepted, hpos]
  | acceptZero hm =>
    rw [hm] at hfds
    refine h.congr rfl rfl ?_
    rw [List.filter_append, ← hfds, afterAccept_accepted]
    simp [MainPc.accepted]
  | acceptFail hm =>
    rw [hm] at hfds
    refine h.congr rfl rfl ?_
    rw [← hfds, afterAccept_accepted]
    rfl
  | @pick connfd hm =>
    rw [hm] at hfds
    have hturn : (s.curEventEpoll + 1) % n = turnOf n s.dispatched.length := by
      rw [h.cur, turnOf, Nat.mod_add_mod]
    constructor
    case cur =>
      rw [List.length_append, List.length_singleton]
      exact hturn
    case workers =>
      rw [List.map_append, List.length_append, List.length_singleton, List.range_succ,
        List.map_append, ← h.workers, List.map_singleton, List.map_singleton, hturn]
    case descriptors =>
      rw [← hfds]
      simp [MainPc.accepted]
  | write hm _ =>
    rw [hm] at hfds
    exact h.congr rfl rfl hfds
  | writeFail hm _ =>
    rw [hm] at hfds
    exact h.congr rfl rfl hfds
  | wake | readEnd | read | addEnd | add => exact h.congr rfl rfl hfds

theorem exec_robin {acts : List Act} (hrun : Exec (step n) Always init acts s) : Robin n s :=
  hrun.invariant init_robin fun _ _ _ h _ hs => step_robin h hs

/-- **Connections are spread evenly.** In every run, however the main thread and the workers take
turns: the positive descriptors that `accept` returned are dispatched one after another, but for one
that the main thread still holds; the k-th of them goes to worker `(k + 1) % thread_num`; and so
every worker is sent the same number of them, or one more. -/
theorem dispatched_evenly {acts : List Act} (hrun : Exec (step n) Always init acts s) :
    s.dispatched.map Prod.snd ++ s.main.accepted = s.accepted.filter (0 < ·) ∧
      s.dispatched.map Prod.fst = (List.range s.dispatched.length).map (fun k => (k + 1) % n) ∧
      ∀ w < n, (sentTo w s.dispatched).length = s.dispatched.length / n ∨
        (sentTo w s.dispatched).length = s.dispatched.length / n + 1 := by
  have h := exec_robin hrun
  refine ⟨h.descriptors, h.workers, fun w hw => ?_⟩
  rw [length_sentTo, h.workers]
  exact count_turns hw _

/-- Three connections for two workers, and one with descriptor 0. -/
def threeConnections : List Act :=
  [.enter, .accept 5, .pick, .write, .wake 1, .accept 6, .pick, .write, .acceptFail .eintr,
    .accept 0, .accept 7, .pick, .read 1]

theorem dispatched_evenly_three :
    ∃ s, Exec (step 2) Always init threeConnections s ∧ s.dispatched = [(1, 5), (0, 6), (1, 7)] ∧
      s.accepted = [5, 6, 0, 7] ∧
      s.dispatched.map Prod.fst = (List.range s.dispatched.length).map (fun k => (k + 1) % 2) := by
  have hrun : ∃ s, runIf (step 2) Always init threeConnections = some s ∧
      s.dispatched = [(1, 5), (0, 6), (1, 7)] ∧ s.accepted = [5, 6, 0, 7] :=
    ⟨_, rfl, rfl, rfl⟩
  obtain ⟨s, hs, hd, ha⟩ := hrun
  have hexec : Exec (step 2) Always init threeConnections s := exec_of_runIf hs
  exact ⟨s, hexec, hd, ha, (dispatched_evenly hexec).2.1⟩

end WebServer.Handoff
