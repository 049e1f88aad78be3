import LogPipeline.Pipeline.Schedule
import Mathlib.Data.List.Induction

/-!
# Runs of a system

A run is any list of moves: callers begin calls, actors take steps in any
order, and between two steps the world may become any other one, so that files
come and go, the clock is set and operations fail as they like. Every invariant
of the theory is shown for the state after a run, by induction on the run from
its end.

`next_cases` says once what a move can do to a system, and `Task.pipeline_cases`
what a step of a task can do to the pipeline. The lemmas after them say which cells
a step of a consumer leaves alone.
-/

namespace LogPipeline

open Sync

/-- What may happen next. -/
inductive Move where
  /-- A caller with nothing to do begins a call. -/
  | begin (i : Nat) (call : Call)
  | act (a : Actor)
  /-- The files, the clock or the outcomes to come change from outside. -/
  | outside (w : World)

namespace System

/-- The system after a move. -/
def next (s : System) : Move → System
  | .begin i call => s.begin i call
  | .act a => s.step a
  | .outside w => { s with pipeline := { s.pipeline with world := w } }

/-- The system after some moves. -/
def runFrom (s : System) (ms : List Move) : System := ms.foldl next s

/-- A new pipeline and its callers after some moves. -/
def run (world : World) (ms : List Move) : System := (new world).runFrom ms

theorem run_nil (world : World) : run world [] = new world := rfl

theorem run_append (world : World) (ms ms' : List Move) :
    run world (ms ++ ms') = (run world ms).runFrom ms' := List.foldl_append

theorem run_concat (world : World) (ms : List Move) (m : Move) :
    run world (ms ++ [m]) = (run world ms).next m := by
  simp [run_append, runFrom]

theorem run_append_concat (world : World) (front part : List Move) (m : Move) :
    run world (front ++ (part ++ [m])) = (run world (front ++ part)).next m := by
  rw [← List.append_assoc, run_concat]

/-- An element of a list in which one element has been replaced. -/
theorem getElem?_set_cases {α : Type} {l : List α} {j k : Nat} {a a' b : α} (ha : l[j]? = some a)
    (hb : (l.set j a')[k]? = some b) : k = j ∧ b = a' ∨ k ≠ j ∧ l[k]? = some b := by
  obtain ⟨hlt, -⟩ := List.getElem?_eq_some_iff.1 ha
  by_cases hkj : k = j
  · subst hkj
    rw [List.getElem?_set_self hlt, Option.some.injEq] at hb
    exact .inl ⟨rfl, hb.symm⟩
  · rw [List.getElem?_set_ne (Ne.symm hkj)] at hb
    exact .inr ⟨hkj, hb⟩

theorem getElem?_concat_cases {α : Type} {l : List α} {k : Nat} {a b : α}
    (h : (l ++ [a])[k]? = some b) : l[k]? = some b ∨ b = a := by
  rw [List.getElem?_append] at h
  split at h
  · exact .inl h
  · exact .inr (List.mem_singleton.1 (List.mem_of_getElem? h))

/-! ## Callers -/

@[simp] theorem setCaller_pipeline (s : System) (i : Nat) (c : Caller) :
    (s.setCaller i c).pipeline = s.pipeline := rfl

@[simp] theorem setCaller_caller_self (s : System) (i : Nat) (c : Caller) :
    (s.setCaller i c).caller i = c := by simp [setCaller]

theorem setCaller_caller_of_ne (s : System) {i j : Nat} (c : Caller) (h : j ≠ i) :
    (s.setCaller i c).caller j = s.caller j := by simp [setCaller, h]

/-- What holds of every caller holds after one of them has come to another
point, if it holds there. -/
theorem forall_setCaller {P : Nat → Caller → Prop} {s : System} {i : Nat} {c : Caller}
    (hc : P i c) (h : ∀ j, j ≠ i → P j (s.caller j)) (j : Nat) :
    P j ((s.setCaller i c).caller j) := by
  by_cases hj : j = i
  · subst j
    simpa using hc
  · rw [setCaller_caller_of_ne s c hj]
    exact h j hj

/-- The system after a caller has taken a step of its first task. -/
def afterTask (s : System) (i : Nat) (t : Task) (rest : List Task) : System :=
  { s with pipeline := (t.step i s.pipeline).pipeline }.setCaller i
    ⟨(t.step i s.pipeline).next ++ rest, (t.step i s.pipeline).reply <|> (s.caller i).reply⟩

/-- The system after a consumer has taken a step. -/
def afterConsumer (s : System) (j : Nat) (c : Consumer) : System :=
  { s with pipeline := { (c.step s.pipeline).1 with
      consumers := (c.step s.pipeline).1.consumers.set j (c.step s.pipeline).2 } }

/-- The system after the time of a consumer's wait is over. -/
def afterTimer (s : System) (j : Nat) (c : Consumer) : System :=
  { s with pipeline := { s.pipeline with
      consumers := s.pipeline.consumers.set j (c.expire s.pipeline) } }

theorem step_caller_of_nil {s : System} {i : Nat} (h : (s.caller i).tasks = []) :
    s.step (.caller i) = s := by
  have hs : (s.setCaller i (s.caller i)) = s := by
    have : (fun j => if j = i then s.caller i else s.caller j) = s.caller := by
      funext j
      split
      · next hj => rw [hj]
      · rfl
    simp only [setCaller, this]
  simpa [step, Caller.step, h] using hs

theorem step_caller_of_cons {s : System} {i : Nat} {t : Task} {rest : List Task}
    (h : (s.caller i).tasks = t :: rest) : s.step (.caller i) = s.afterTask i t rest := by
  simp [step, Caller.step, h, afterTask]

theorem step_consumer_of_some {s : System} {j : Nat} {c : Consumer}
    (h : s.pipeline.consumers[j]? = some c) : s.step (.consumer j) = s.afterConsumer j c := by
  simp [step, Pipeline.stepConsumer, h, afterConsumer]

theorem step_timer_of_some {s : System} {j : Nat} {c : Consumer}
    (h : s.pipeline.consumers[j]? = some c) : s.step (.timer j) = s.afterTimer j c := by
  simp [step, Pipeline.expireConsumer, h, afterTimer]

theorem begin_of_nil {s : System} {i : Nat} (h : (s.caller i).tasks = []) (call : Call) :
    s.begin i call = s.setCaller i (.begin call) := by
  rw [begin, if_pos (List.isEmpty_iff.2 h)]

/-- Only its own steps change what a caller with something to do still has to do. -/
theorem next_caller_of_ne {s : System} {j : Nat} (hj : (s.caller j).tasks ≠ []) {m : Move}
    (hm : m ≠ .act (.caller j)) : (s.next m).caller j = s.caller j := by
  match m with
  | .begin i call =>
    simp only [next, System.begin]
    split
    · next hnil =>
      refine setCaller_caller_of_ne _ _ ?_
      rintro rfl
      exact hj (List.isEmpty_iff.1 hnil)
    · rfl
  | .act (.caller i) =>
    refine setCaller_caller_of_ne _ _ ?_
    rintro rfl
    exact hm rfl
  | .act (.consumer _) | .act (.timer _) | .outside _ => rfl

/-- A caller with something to do stays as it is until its next step. -/
theorem caller_run_of_notMem {world : World} {front part : List Move} {i : Nat}
    (hi : ((run world front).caller i).tasks ≠ []) (hpart : .act (.caller i) ∉ part) :
    (run world (front ++ part)).caller i = (run world front).caller i := by
  induction part using List.reverseRecOn with
  | nil => rw [List.append_nil]
  | append_singleton part m ih =>
    have hsame := ih fun hmem => hpart (List.mem_append_left _ hmem)
    have hm : m ≠ .act (.caller i) := fun hm => hpart (by simp [hm])
    rw [run_append_concat, next_caller_of_ne (by rwa [hsame]) hm, hsame]

/-- What a move can do: nothing, begin a call, take a step of a caller's first
task, take a step of a consumer, end a consumer's wait, or change the world. -/
theorem next_cases {P : System → Prop} (s : System) (m : Move)
    (nothing : P s)
    (begin : ∀ i call, m = .begin i call → (s.caller i).tasks = [] →
      P (s.setCaller i (.begin call)))
    (task : ∀ i t rest, (s.caller i).tasks = t :: rest → P (s.afterTask i t rest))
    (consumer : ∀ j c, s.pipeline.consumers[j]? = some c → P (s.afterConsumer j c))
    (timer : ∀ j c, s.pipeline.consumers[j]? = some c → P (s.afterTimer j c))
    (outside : ∀ w, P { s with pipeline := { s.pipeline with world := w } }) :
    P (s.next m) := by
  match m with
  | .begin i call =>
    simp only [next, System.begin]
    split
    · next h => exact begin i call rfl (List.isEmpty_iff.1 h)
    · exact nothing
  | .act (.caller i) =>
    cases h : (s.caller i).tasks with
    | nil => rw [next, step_caller_of_nil h]; exact nothing
    | cons t rest => rw [next, step_caller_of_cons h]; exact task i t rest h
  | .act (.consumer j) =>
    cases h : s.pipeline.consumers[j]? with
    | none => simpa [next, step, Pipeline.stepConsumer, h] using nothing
    | some c => rw [next, step_consumer_of_some h]; exact consumer j c h
  | .act (.timer j) =>
    cases h : s.pipeline.consumers[j]? with
    | none => simpa [next, step, Pipeline.expireConsumer, h] using nothing
    | some c => rw [next, step_timer_of_some h]; exact timer j c h
  | .outside w => exact outside w

/-- A caller with nothing to do stays as it is until it begins a call. -/
theorem next_caller_of_idle {s : System} {i : Nat} (hi : (s.caller i).tasks = []) {m : Move}
    (hm : ∀ call, m ≠ .begin i call) : (s.next m).caller i = s.caller i := by
  apply next_cases (P := fun s' => s'.caller i = s.caller i)
  case begin =>
    intro j call hj _
    refine setCaller_caller_of_ne _ _ ?_
    rintro rfl
    exact hm call hj
  case task =>
    intro j t rest ht
    refine setCaller_caller_of_ne _ _ ?_
    rintro rfl
    cases hi.symm.trans ht
  all_goals
    intros
    rfl

end System

/-! ## What a task can do to the pipeline -/

namespace Task

/-- A task that may change nothing: its caller looks at a cell, or waits. -/
def Looks : Task → Prop
  | .compose _ | .onBuffer _ _ | .countDropped _ | .onEvent _ _ | .store _ | .unlockLifecycle
  | .spawn => False
  | _ => True

/-- What a step of a task can do to the pipeline: nothing, or change the one cell
that the task is about. -/
theorem pipeline_cases {P : Pipeline → Prop} (i : Nat) (p : Pipeline) (t : Task)
    (looks : t.Looks → P p)
    (compose : ∀ r, t = .compose r → P { p with world := p.world.tick })
    (onBuffer : ∀ c stake, t = .onBuffer c stake → P { p with buffer := (c.step p.buffer).1 })
    (countDropped : ∀ n, t = .countDropped n → P (p.addDropped n))
    (onEvent : ∀ name c, t = .onEvent name c → P (p.setEvent name (c.step (p.event name)).1))
    (store : ∀ setting, t = .store setting → P (setting.apply p))
    (lockLifecycle : t = .lockLifecycle → P { p with lifecycle := some i })
    (unlockLifecycle : t = .unlockLifecycle → P { p with lifecycle := none })
    (spawn : t = .spawn → P { p with
      consumers := p.consumers ++ [.new], worker := some p.consumers.length })
    (takeWorker : t = .takeWorker → P { p with worker := none })
    (join : ∀ k, t = .join k → P { p with notices := .consumerPanicked :: p.notices }) :
    P (t.step i p).pipeline := by
  cases t with
  | checkSwitch | checkLevel | chooseMode | checkDumping | checkThreshold => exact looks trivial
  | checkBlocks level blocks =>
    simp only [step]
    split <;> exact looks trivial
  | compose r => exact compose r rfl
  | onBuffer c stake =>
    simp only [step]
    split <;> exact onBuffer c stake rfl
  | countDropped n => exact countDropped n rfl
  | onEvent name c =>
    simp only [step]
    split <;> exact onEvent name c rfl
  | store setting => exact store setting rfl
  | lockLifecycle =>
    simp only [step]
    split
    · exact lockLifecycle rfl
    · exact looks trivial
  | unlockLifecycle => exact unlockLifecycle rfl
  | checkStopped =>
    simp only [step]
    split <;> exact looks trivial
  | spawn => exact spawn rfl
  | takeWorker =>
    simp only [step]
    split
    · exact takeWorker rfl
    · exact looks trivial
  | join k =>
    simp only [step]
    split
    · split
      · exact join k rfl
      · exact looks trivial
    · exact looks trivial

end Task

/-! ## What a consumer leaves alone -/

namespace Consumer

/-- A step of a consumer changes neither the settings nor who starts and stops
the pipeline, nor any consumer but itself. -/
theorem step_frame (p : Pipeline) (c : Consumer) :
    (c.step p).1.worker = p.worker ∧ (c.step p).1.lifecycle = p.lifecycle ∧
      (c.step p).1.consumers = p.consumers ∧ (c.step p).1.sink = p.sink ∧
      (c.step p).1.level = p.level ∧ (c.step p).1.dumping = p.dumping ∧
      (c.step p).1.switchFile = p.switchFile := by
  unfold step
  split <;> (try split) <;> exact ⟨rfl, rfl, rfl, rfl, rfl, rfl, rfl⟩

@[simp] theorem step_worker (p : Pipeline) (c : Consumer) :
    (c.step p).1.worker = p.worker := (step_frame p c).1

@[simp] theorem step_lifecycle (p : Pipeline) (c : Consumer) :
    (c.step p).1.lifecycle = p.lifecycle := (step_frame p c).2.1

@[simp] theorem step_consumers (p : Pipeline) (c : Consumer) :
    (c.step p).1.consumers = p.consumers := (step_frame p c).2.2.1

@[simp] theorem step_level (p : Pipeline) (c : Consumer) :
    (c.step p).1.level = p.level := (step_frame p c).2.2.2.2.1

@[simp] theorem step_dumping (p : Pipeline) (c : Consumer) :
    (c.step p).1.dumping = p.dumping := (step_frame p c).2.2.2.2.2.1

/-- A consumer that has ended does nothing more. -/
theorem step_of_ended {p : Pipeline} {c : Consumer} (h : c.stage = .ended) :
    c.step p = (p, c) := by
  simp [step, h]

end Consumer

end LogPipeline
