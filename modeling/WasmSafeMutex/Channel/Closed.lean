import WasmSafeMutex.Channel.Linear

/-!
# A closed channel stays closed
-/

namespace WasmSafeMutex

open Interleaving

variable {V : Type} [DecidableEq V]

namespace State

variable {s u v w : State V} {bs cs ds : List (Event V)} {cfg : Config} {i : CallId}

/-- Some event of the run has begun the call. -/
theorem exists_begin (h : exec State.step cfg.init bs = some u) (hi : u.call i ≠ .idle) :
    ∃ as t r as' a, bs = as ++ .begin t r :: as' ∧ exec State.step cfg.init as = some a ∧ a.used = i := by
  have hall : Along State.step (fun _ _ => True) cfg.init bs := .of_forall fun _ _ _ => trivial
  obtain ⟨as, e, as', a, b, rfl, ha, -, hstep, -, hidle, hnot⟩ :=
    hall.exists_loss (P := fun s => s.call i = .idle) h rfl hi
  have hr : a.Reachable := reachable_of_exec ha
  rcases call_cases hr.sane.numbered hstep i with hcall | ⟨_, t, k, pc, n, -, hact⟩ | ⟨c, ht⟩
  · exact absurd (hcall.trans hidle) hnot
  · cases hidle.symm.trans hact.running
  · have hturn := ht.turn
    have hself := ht.call_self
    rw [hidle] at hturn
    cases hturn with
    | begin t r =>
      refine ⟨as, t, r, as', a, rfl, ha, ?_⟩
      rcases hr.caller_step hstep (i := i) (k := r.caller) (by rw [hself]; rfl) with hold | ⟨_, _, -, hused, -⟩
      · rw [hidle] at hold; cases hold
      · exact hused.symm

/-- A run whose users have been told that the channel is closed, by a send that failed or by
the drop of the receiver. -/
def Told (cfg : Config) (bs : List (Event V)) (u : State V) : Prop :=
  (∃ i v, u.call i = .done (.sendError v)) ∨
    ∃ as t as' a, bs = as ++ .begin t .dropReceiver :: as' ∧ exec State.step cfg.init as = some a ∧
      u.call a.used = .done .dropped

theorem Told.closes (hu : exec State.step cfg.init bs = some u) (ht : Told cfg bs u) :
    ∃ op ∈ (effects State.step effect cfg.init bs).map Prod.snd, AtomicChannel.closes op = true := by
  have hmem : ∀ {i : CallId} {op : ChannelOp V}, doneBy (some i) (effects State.step effect cfg.init bs) = [op] →
      op ∈ (effects State.step effect cfg.init bs).map Prod.snd := by
    intro i op hop
    have hin : op ∈ doneBy (some i) (effects State.step effect cfg.init bs) := by
      rw [hop]; exact List.mem_singleton_self op
    obtain ⟨x, hx, rfl⟩ := List.mem_map.mp hin
    exact List.mem_map_of_mem (List.mem_of_mem_filter hx)
  rcases ht with ⟨i, v, hi⟩ | ⟨as, t, as', a, rfl, ha, hi⟩
  · obtain ⟨as, t, r, as', a, rfl, ha, rfl⟩ := exists_begin (i := i) hu (by simp [hi])
    rcases (effects_answered ha hu).answered hi with ⟨ho, -⟩ | ⟨op, hop, hans⟩
    · cases r <;> simp [Request.caller, Caller.bystander] at ho
    · generalize r.caller = k at hans
      cases hans
      exact ⟨_, hmem hop, rfl⟩
  · rcases (effects_answered ha hu).answered hi with ⟨ho, -⟩ | ⟨op, hop, hans⟩
    · simp [Request.caller, Caller.bystander] at ho
    · cases hans
      exact ⟨_, hmem hop, rfl⟩

/-- Once a send has failed or the drop of the receiver has returned, no send that begins after
that succeeds: each one hands its value back, if it is not cancelled. -/
theorem failures_final {σ : SenderId} {st : Strategy} {v : V} {t : ThreadId}
    (hu : exec State.step cfg.init bs = some u) (ht : Told cfg bs u) (hw : exec State.step u cs = some w)
    (hs : exec State.step w (.begin t (.send σ st v) :: ds) = some s) {o : Outcome V}
    (ho : s.call w.used = .done o) : o = .sendError v ∨ o = .cancelled := by
  have hbc : exec State.step cfg.init (bs ++ cs) = some w := by rw [exec_append hu, hw]
  have hr : w.Reachable := reachable_of_exec hbc
  -- The channel of the users is closed by then.
  obtain ⟨op, hop, hcloses⟩ := ht.closes hu
  obtain ⟨x, hx, hshows⟩ := shows_simulates.run (shows_new cfg) hbc
  have hclosed : x.receiver = false := by
    refine AtomicChannel.closed_of_mem hx ?_ hcloses
    rw [effects_append hu, List.map_append]
    exact List.mem_append_left _ hop
  obtain ⟨w', hw', hrest⟩ := Option.bind_eq_some_iff.mp hs
  obtain ⟨x', hx', hshows'⟩ := shows_simulates w x _ w' hshows hw'
  cases hx'
  obtain ⟨y, hy, -⟩ := shows_simulates.run hshows' hrest
  have hnone := (AtomicChannel.closed_run hy hclosed).2
  rcases (did_of_exec hr hw' hrest).answered ho with ⟨rfl | ho, -⟩ | ⟨op', hop', hans⟩
  · exact .inr rfl
  · simp [Request.caller, Caller.bystander] at ho
  · cases hans with
    | sent σ st v =>
      have hin : (.send v : ChannelOp V) ∈ doneBy (some w.used) (effects State.step effect w' ds) := by
        rw [hop']; exact List.mem_singleton_self _
      obtain ⟨z, hz, hzv⟩ := List.mem_map.mp hin
      exact absurd (hzv ▸ List.mem_map_of_mem (List.mem_of_mem_filter hz)) (hnone v)
    | sendError => exact .inl rfl

/-- The drop of the receiver. -/
def closedEvents : List (Event Nat) :=
  [.begin 0 .dropReceiver, .act 0 (.chan .clearActive), .act 0 (.condvar .channel (.take .spin [])),
    .act 0 (.condvar .channel (.take .sync [])), .act 0 (.condvar .channel (.take .async []))]

theorem failures_final_dropped : ∃ u s : State Nat, ∃ o,
    exec State.step (⟨fun _ => true, 0, 0⟩ : Config).init closedEvents = some u ∧
      exec State.step u [.begin 1 (.send 0 .spin 7), .act 1 (.chan (.loadActive false))] = some s ∧
      s.call u.used = .done o ∧ (o = .sendError 7 ∨ o = .cancelled) := by
  have hclosed : ∃ u : State Nat, exec State.step (⟨fun _ => true, 0, 0⟩ : Config).init closedEvents = some u ∧
      u.call 0 = .done .dropped ∧ ∃ s o,
        exec State.step u [.begin 1 (.send 0 .spin 7), .act 1 (.chan (.loadActive false))] = some s ∧
        s.call u.used = .done o := ⟨_, rfl, rfl, _, _, rfl, rfl⟩
  obtain ⟨u, hu, hdrop, s, o, hs, ho⟩ := hclosed
  have htold : Told ⟨fun _ => true, 0, 0⟩ closedEvents u := .inr ⟨[], 0, _, _, rfl, rfl, hdrop⟩
  have hnow : exec State.step u [] = some u := rfl
  exact ⟨u, s, o, hu, hs, ho, failures_final hu htold hnow hs ho⟩

end State

end WasmSafeMutex
