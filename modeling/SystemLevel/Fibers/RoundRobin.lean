import SystemLevel.Foundations.Rotation
import SystemLevel.Fibers.FiberPlaces

namespace SystemLevel.Fibers

open Rotation

variable {T : Type}

def Program.Segmented : Program T → ℕ → Prop
  | .finish, m => m = 1
  | .yield next, m => ∃ k, m = k + 1 ∧ next.Segmented k
  | .load _ next, m => ∀ value, (next value).Segmented m
  | .store _ _ next, m => next.Segmented m
  | _, _ => False

def Program.segment : Program T → (ℕ → T) → (ℕ → T) × Program T
  | .load x next, memory => (next (memory x)).segment memory
  | .store x value next, memory => next.segment (Function.update memory x value)
  | .yield next, memory => (memory, next)
  | p, memory => (memory, p)

def Program.endsSegment : Program T → Bool
  | .yield _ | .finish => true
  | _ => false

theorem Program.Segmented.segment {p : Program T} {m : ℕ} (h : p.Segmented m) (hmore : m ≠ 1) (memory : ℕ → T) :
    (p.segment memory).2.Segmented (m - 1) := by
  induction p generalizing memory with
  | finish => exact absurd h hmore
  | yield next ih =>
    obtain ⟨k, rfl, hnext⟩ := h
    exact hnext
  | load x next ih => exact ih (memory x) (h _) memory
  | store x value next ih => exact ih h (Function.update memory x value)
  | lock m next ih => cases h
  | unlock m next ih => cases h
  | send c value next ih => cases h
  | receive c next ih => cases h

theorem Program.Segmented.pos {p : Program T} {m : ℕ} (memory : ℕ → T) (h : p.Segmented m) : 0 < m := by
  induction p generalizing m with
  | finish =>
    rw [show m = 1 from h]
    exact Nat.one_pos
  | yield next ih =>
    obtain ⟨k, rfl, -⟩ := h
    exact Nat.succ_pos k
  | load x next ih => exact ih (memory x) (h (memory x))
  | store x value next ih => exact ih h
  | lock m next ih => cases h
  | unlock m next ih => cases h
  | send c value next ih => cases h
  | receive c next ih => cases h

def runSegment (s : (ℕ → T) × (ℕ → Program T)) (f : ℕ) : (ℕ → T) × (ℕ → Program T) :=
  (((s.2 f).segment s.1).1, Function.update s.2 f ((s.2 f).segment s.1).2)

namespace Thread

variable (capacity : ℕ → ℕ)

def segmentEnd (t : Thread T) : List ℕ :=
  match t.control with
  | .fiber _ f => if (t.rest f).endsSegment then [f] else []
  | _ => []

def segments : ℕ → Thread T → List ℕ
  | 0, _ => []
  | steps + 1, t => t.segmentEnd ++ segments steps (t.advance capacity)

theorem segments_add (a b : ℕ) (t : Thread T) :
    segments capacity (a + b) t = segments capacity a t ++ segments capacity b ((advance capacity)^[a] t) := by
  induction a generalizing t with
  | zero => rw [Nat.zero_add, segments, List.nil_append, Function.iterate_zero_apply]
  | succ a ih =>
    rw [Nat.add_right_comm, segments, segments, ih, List.append_assoc, Function.iterate_succ_apply]

def settle (t : Thread T) (f : ℕ) (last : Bool) (memory : ℕ → T) (next : Program T) : Thread T :=
  { t with
    memory
    rest := Function.update t.rest f next
    state := Function.update t.state f (if last then .dead else .ready)
    queues := Function.update t.queues (.ready 0)
      (if last then t.queues (.ready 0) else t.queues (.ready 0) ++ [f])
    control := .loop 0 }

variable {capacity} {t : Thread T} {f : ℕ}

section Settle

variable (t f) (last : Bool) (memory : ℕ → T) (next : Program T)

theorem settle_state (g : ℕ) : (t.settle f last memory next).state g =
    if g = f then if last then .dead else .ready else t.state g :=
  Function.update_apply _ _ _ _

theorem settle_rest (g : ℕ) : (t.settle f last memory next).rest g = if g = f then next else t.rest g :=
  Function.update_apply _ _ _ _

theorem settle_ready : (t.settle f last memory next).queues (.ready 0) =
    if last then t.queues (.ready 0) else t.queues (.ready 0) ++ [f] :=
  Function.update_self (Place.ready 0) _ t.queues

end Settle

theorem goOn_nil (t : Thread T) (f : ℕ) (next : Program T) :
    t.goOn f next [] = { t with rest := Function.update t.rest f next } := by
  rw [goOn, List.append_nil]

theorem advance_fiber (hcontrol : t.control = .fiber 0 f) : t.advance capacity = t.perform capacity f := by
  rw [advance, hcontrol]

theorem segmentEnd_eq (hcontrol : t.control = .fiber 0 f) :
    t.segmentEnd = if (t.rest f).endsSegment then [f] else [] := by
  rw [segmentEnd, hcontrol]

theorem finish_settles (hcurrent : t.current = some 0) (hcontrol : t.control = .fiber 0 f)
    (hrest : t.rest f = .finish) : t.advance capacity = t.settle f true t.memory .finish := by
  rw [advance_fiber hcontrol, perform, hrest]
  dsimp only
  rw [finish_eq hcurrent hcontrol, settle, ← hrest, Function.update_eq_self]
  simp only [if_true, Function.update_eq_self]
  rfl

theorem yield_settles (hcurrent : t.current = some 0) (hcontrol : t.control = .fiber 0 f)
    (hstate : t.state f = .running) {next : Program T} (hrest : t.rest f = .yield next) :
    t.advance capacity = t.settle f false t.memory next := by
  rw [advance_fiber hcontrol, perform, hrest]
  dsimp only
  rw [goOn_nil]
  exact @yield_eq T { t with rest := Function.update t.rest f next } 0 f hcurrent hcontrol hstate

theorem segment_goes_on {next next' : Program T} {memory memory' : ℕ → T} {last : Bool}
    (hcontrol : t.control = .fiber 0 f) (hgoes : (t.rest f).endsSegment = false)
    (hstep : t.advance capacity = { t with memory, rest := Function.update t.rest f next })
    (h : ∃ steps, segments capacity steps (t.advance capacity) = [f] ∧
      (advance capacity)^[steps] (t.advance capacity) = (t.advance capacity).settle f last memory' next') :
    ∃ steps, segments capacity steps t = [f] ∧ (advance capacity)^[steps] t = t.settle f last memory' next' := by
  obtain ⟨steps, hsegments, hend⟩ := h
  refine ⟨steps + 1, ?_, ?_⟩
  · rw [segments, segmentEnd_eq hcontrol, hgoes, hsegments]
    rfl
  · rw [Function.iterate_succ_apply, hend, hstep]
    simp only [settle, Function.update_idem]

theorem segment_runs {p : Program T} {m : ℕ} (hp : p.Segmented m) (hcurrent : t.current = some 0)
    (hcontrol : t.control = .fiber 0 f) (hstate : t.state f = .running) (hrest : t.rest f = p) :
    ∃ steps, segments capacity steps t = [f] ∧
      (advance capacity)^[steps] t =
        t.settle f (decide (m = 1)) (p.segment t.memory).1 (p.segment t.memory).2 := by
  induction p generalizing t with
  | finish =>
    obtain rfl : m = 1 := hp
    refine ⟨1, ?_, finish_settles hcurrent hcontrol hrest⟩
    rw [segments, segments, segmentEnd_eq hcontrol, hrest]
    rfl
  | yield next ih =>
    obtain ⟨k, rfl, hnext⟩ := hp
    have hmore := hnext.pos t.memory
    refine ⟨1, ?_, ?_⟩
    · rw [segments, segments, segmentEnd_eq hcontrol, hrest]
      rfl
    · rw [decide_eq_false (by omega)]
      exact yield_settles hcurrent hcontrol hstate hrest
  | load x next ih =>
    have hstep : t.advance capacity = { t with rest := Function.update t.rest f (next (t.memory x)) } := by
      rw [advance_fiber hcontrol, perform, hrest]
      exact goOn_nil t f _
    refine segment_goes_on hcontrol (by rw [hrest]; rfl) hstep ?_
    rw [hstep]
    exact ih (t.memory x) (hp _) hcurrent hcontrol hstate (Function.update_self f (next (t.memory x)) t.rest)
  | store x value next ih =>
    have hstep : t.advance capacity =
        { t with memory := Function.update t.memory x value, rest := Function.update t.rest f next } := by
      rw [advance_fiber hcontrol, perform, hrest]
      exact goOn_nil { t with memory := Function.update t.memory x value } f next
    refine segment_goes_on hcontrol (by rw [hrest]; rfl) hstep ?_
    rw [hstep]
    exact ih hp hcurrent hcontrol hstate (Function.update_self f next t.rest)
  | lock m next ih => cases hp
  | unlock m next ih => cases hp
  | send c value next ih => cases hp
  | receive c next ih => cases hp

structure Turns (n : ℕ) (m : ℕ → ℕ) (past queue : List ℕ) (t : Thread T) : Prop where
  current : t.current = some 0
  control : t.control = .loop 0
  queue_eq : t.queues (.ready 0) = queue
  waiting : ∀ f ∈ queue, t.state f ≠ .dead ∧ (t.rest f).Segmented (m f - past.count f)
  dead : ∀ f < n, f ∉ queue → t.state f = .dead

variable {n : ℕ} {m : ℕ → ℕ} {past queue : List ℕ}

theorem Turns.settle (hrotates : Rotates n m past (f :: queue)) (h : Turns n m past (f :: queue) t) {t' : Thread T}
    (hcurrent : t'.current = t.current) (hqueue : t'.queues (.ready 0) = queue)
    (hstate : ∀ g, g ≠ f → t'.state g = t.state g) (hrest : t'.rest = t.rest) (memory : ℕ → T) :
    Turns n m (past ++ [f]) (requeue m past f queue)
      (t'.settle f (decide (m f - past.count f = 1)) ((t.rest f).segment memory).1 ((t.rest f).segment memory).2) := by
  obtain ⟨-, hleft⟩ := hrotates.first
  refine ⟨hcurrent.trans h.current, rfl, ?_, fun g hg => ?_, fun g hg hout => ?_⟩
  · rw [settle_ready, hqueue, requeue]
    by_cases hmore : past.count f + 1 < m f
    · rw [decide_eq_false (by omega), if_pos hmore]
      rfl
    · rw [decide_eq_true (by omega), if_neg hmore]
      rfl
  · rw [settle_state, settle_rest, hrest]
    rcases (Rotates.mem_requeue g).mp hg with hq | ⟨rfl, hmore⟩
    · have hne := hrotates.ne_of_mem hq
      rw [if_neg hne, if_neg hne, hstate g hne, hrotates.count_of_mem hq]
      exact h.waiting g (List.mem_cons_of_mem f hq)
    · have hmany : m g - past.count g ≠ 1 := by omega
      rw [if_pos rfl, if_pos rfl, decide_eq_false hmany, Rotates.count_turn, if_pos rfl, ← Nat.sub_sub]
      exact ⟨by decide, (h.waiting g List.mem_cons_self).2.segment hmany memory⟩
  · rw [settle_state]
    rw [Rotates.mem_requeue, not_or] at hout
    by_cases hgf : g = f
    · have hlast : ¬ past.count f + 1 < m f := fun hmore => hout.2 ⟨hgf, hmore⟩
      rw [if_pos hgf, decide_eq_true (by omega)]
      rfl
    · rw [if_neg hgf, hstate g hgf]
      exact h.dead g hg (List.not_mem_cons_of_ne_of_not_mem hgf hout.1)

theorem Turns.turn (hrotates : Rotates n m past (f :: queue)) (h : Turns n m past (f :: queue) t) :
    ∃ steps, segments capacity steps t = [f] ∧
      Turns n m (past ++ [f]) (requeue m past f queue) ((advance capacity)^[steps] t) ∧
      (((advance capacity)^[steps] t).memory, ((advance capacity)^[steps] t).rest) =
        runSegment (t.memory, t.rest) f := by
  obtain ⟨hlive, hsegmented⟩ := h.waiting f List.mem_cons_self
  have hdispatch : t.advance capacity =
      { (t.setQueue (.ready 0) queue).setState f .running with control := .fiber 0 f } := by
    have hstate : (t.setQueue (.ready 0) queue).state f ≠ .dead := hlive
    rw [advance, h.control]
    simp only [dispatch, h.queue_eq, if_neg hstate]
  obtain ⟨steps, hsegments, hend⟩ := @segment_runs T capacity (t.advance capacity) f _ _ hsegmented
    (by rw [hdispatch]; exact h.current) (by rw [hdispatch]) (by rw [hdispatch]; exact Function.update_self _ _ _)
    (by rw [hdispatch]; rfl)
  rw [hdispatch] at hend
  refine ⟨steps + 1, ?_, ?_, ?_⟩
  · rw [segments, segmentEnd, h.control, hsegments]
    rfl
  · rw [Function.iterate_succ_apply, hdispatch, hend]
    refine h.settle hrotates ?_ ?_ (fun g hg => ?_) ?_ t.memory
    · rfl
    · exact Function.update_self (Place.ready 0) queue t.queues
    · exact Function.update_of_ne hg FiberState.running t.state
    · rfl
  · rw [Function.iterate_succ_apply, hdispatch, hend]
    rfl

def Taken (capacity : ℕ → ℕ) (n : ℕ) (m : ℕ → ℕ) (t : Thread T) (past queue : List ℕ) : Prop :=
  ∃ steps, segments capacity steps t = past ∧ Turns n m past queue ((advance capacity)^[steps] t) ∧
    (((advance capacity)^[steps] t).memory, ((advance capacity)^[steps] t).rest) =
      past.foldl runSegment (t.memory, t.rest)

theorem Taken.turn (hrotates : Rotates n m past (f :: queue)) (h : Taken capacity n m t past (f :: queue)) :
    Taken capacity n m t (past ++ [f]) (requeue m past f queue) := by
  obtain ⟨steps, hpast, hturns, hmemory⟩ := h
  obtain ⟨more, hsegments, hnext, hsegment⟩ := @Turns.turn T capacity _ _ _ _ _ _ hrotates hturns
  refine ⟨steps + more, ?_, ?_, ?_⟩
  · rw [segments_add, hpast, hsegments]
  · rw [Nat.add_comm, Function.iterate_add_apply]
    exact hnext
  · rw [Nat.add_comm, Function.iterate_add_apply, hsegment, hmemory, List.foldl_append]
    rfl

theorem Turns.advance (h : Turns n m past [] t) :
    segments capacity 1 t = [] ∧ t.advance capacity = { t with control := .main } := by
  constructor
  · rw [segments, segments, segmentEnd, h.control, List.append_nil]
  · rw [Thread.advance, h.control]
    simp only [dispatch, h.queue_eq]

structure Spawned (memory : ℕ → T) (bodies : List (Program T)) (t : Thread T) : Prop where
  current : t.current = some 0
  control : t.control = .main
  alive : t.alive 0 = true
  memory_eq : t.memory = memory
  spawned : t.spawned = bodies.length
  queue_eq : t.queues (.ready 0) = List.range bodies.length
  rest_eq : t.rest = fun i => bodies.getD i .finish
  ready : ∀ i, t.state i = .ready

theorem spawned_run (capacity : ℕ → ℕ) (memory : ℕ → T) (bodies : List (Program T)) :
    Spawned memory bodies (runOne capacity memory (bodies.map Call.spawn)) := by
  induction bodies using List.reverseRecOn with
  | nil => exact ⟨rfl, rfl, rfl, rfl, rfl, rfl, rfl, fun _ => rfl⟩
  | append_singleton bodies body ih =>
    rw [List.map_append, List.map_singleton, runOne_snoc, Call.op, step, if_pos ⟨ih.control, ih.alive⟩]
    refine ⟨ih.current, ih.control, ih.alive, ih.memory_eq, ?_, ?_, ?_, fun i => ?_⟩
    · rw [List.length_append, List.length_singleton, ← ih.spawned]
      rfl
    · rw [List.length_append, List.length_singleton, List.range_succ, ← ih.queue_eq, ← ih.spawned]
      exact Function.update_self (Place.ready 0) _ (runOne capacity memory (bodies.map Call.spawn)).queues
    · funext i
      refine (Function.update_apply _ _ _ _).trans ?_
      rw [ih.spawned, ih.rest_eq]
      dsimp only
      by_cases hi : i < bodies.length
      · rw [if_neg hi.ne, List.getD_append _ _ _ _ hi]
      · rw [List.getD_append_right _ _ _ _ (not_lt.mp hi)]
        by_cases hlast : i = bodies.length
        · subst hlast
          rw [if_pos rfl, Nat.sub_self]
          rfl
        · rw [if_neg hlast, List.getD_eq_default _ _ (not_lt.mp hi), List.getD_eq_default]
          rw [List.length_singleton]
          omega
    · refine (Function.update_apply _ _ _ _).trans ?_
      split_ifs
      · rfl
      · exact ih.ready i

theorem advance_runs (capacity : ℕ → ℕ) (memory : ℕ → T) (calls : List (Call T)) (steps : ℕ) :
    runOne capacity memory (calls ++ List.replicate steps Call.advance) =
      (advance capacity)^[steps] (runOne capacity memory calls) := by
  induction steps with
  | zero => rw [List.replicate_zero, List.append_nil, Function.iterate_zero_apply]
  | succ steps ih =>
    rw [List.replicate_succ', ← List.append_assoc, runOne_snoc, ih, Function.iterate_succ_apply']
    rfl

section Run

variable (capacity : ℕ → ℕ) (memory : ℕ → T) {bodies : List (Program T)} {m : ℕ → ℕ}
  (hbodies : ∀ i, ∀ body ∈ bodies[i]?, Program.Segmented body (m i))

include hbodies

theorem segmented_getD {i : ℕ} (hi : i < bodies.length) : (bodies.getD i .finish).Segmented (m i) := by
  apply hbodies i
  rw [List.getD_eq_getElem _ _ hi]
  exact List.getElem?_eq_getElem hi

theorem taken_start : Taken capacity bodies.length m
    (runOne capacity memory (bodies.map Call.spawn ++ [Call.run])) [] (List.range bodies.length) := by
  have h := spawned_run capacity memory bodies
  rw [runOne_snoc, Call.op, step, if_pos ⟨h.control, h.alive⟩]
  refine ⟨0, rfl, ⟨h.current, rfl, h.queue_eq, fun i hi => ?_, fun i hi hout => ?_⟩, rfl⟩
  · change (runOne capacity memory (bodies.map Call.spawn)).state i ≠ .dead ∧
      ((runOne capacity memory (bodies.map Call.spawn)).rest i).Segmented _
    rw [h.ready i, h.rest_eq, List.count_nil]
    exact ⟨by decide, segmented_getD hbodies (List.mem_range.mp hi)⟩
  · exact absurd (List.mem_range.mpr hi) hout

end Run

theorem round_robin (capacity : ℕ → ℕ) (memory : ℕ → T) (bodies : List (Program T)) (m : ℕ → ℕ)
    (hbodies : ∀ i, ∀ body ∈ bodies[i]?, Program.Segmented body (m i)) :
    let calls := bodies.map Call.spawn ++ [Call.run]
    ∃ steps,
      let t := runOne capacity memory (calls ++ List.replicate steps Call.advance)
      let executed := segments capacity steps (runOne capacity memory calls)
      t.control = .main ∧
      (numbered [] executed).Pairwise Earlier ∧
      (∀ k i, (k, i) ∈ numbered [] executed ↔ i < bodies.length ∧ k < m i) ∧
      t.memory = (executed.foldl runSegment (memory, fun i => bodies.getD i .finish)).1 ∧
      (∀ i < bodies.length, t.state i = .dead) ∧
      t.queues (.ready 0) = [] := by
  intro calls
  have hstart : (runOne capacity memory calls).memory = memory ∧
      (runOne capacity memory calls).rest = fun i => bodies.getD i .finish := by
    have h := spawned_run capacity memory bodies
    rw [runOne_snoc, Call.op, step, if_pos ⟨h.control, h.alive⟩]
    exact ⟨h.memory_eq, h.rest_eq⟩
  have hrotates := Rotates.start fun i hi => (segmented_getD hbodies hi).pos memory
  obtain ⟨past, hend, steps, hpast, hturns, hmemory⟩ :=
    hrotates.finishes (fun past f queue => Taken.turn) (taken_start capacity memory hbodies)
  obtain ⟨hnothing, hreturn⟩ := @Turns.advance T capacity _ _ _ _ hturns
  have hlast : runOne capacity memory (calls ++ List.replicate (steps + 1) Call.advance) =
      { (advance capacity)^[steps] (runOne capacity memory calls) with control := .main } := by
    rw [advance_runs, Function.iterate_succ_apply', hreturn]
  have hexecuted : segments capacity (steps + 1) (runOne capacity memory calls) = past := by
    rw [segments_add, hpast, hnothing, List.append_nil]
  refine ⟨steps + 1, ?_⟩
  rw [hlast, hexecuted]
  refine ⟨rfl, hend.sorted, hend.mem_numbered_iff, ?_, fun i hi => ?_, hturns.queue_eq⟩
  · rw [hstart.1, hstart.2] at hmemory
    exact congrArg Prod.fst hmemory
  · exact hturns.dead i hi List.not_mem_nil

def pushBackTwice (first second : ℕ) : Program (List ℕ) :=
  .load 0 fun order => .store 0 (order ++ [first])
    (.yield (.load 0 fun order => .store 0 (order ++ [second]) .finish))

def twoFibers : List (Program (List ℕ)) := [pushBackTwice 1 3, pushBackTwice 2 4]

theorem two_fibers_take_turns :
    (∀ i : ℕ, ∀ body ∈ twoFibers[i]?, Program.Segmented body 2) ∧
      ∃ steps,
        let t := runOne (fun _ => 0) (fun _ => [])
          (twoFibers.map Call.spawn ++ [Call.run] ++ List.replicate steps Call.advance)
        t.control = .main ∧ t.queues (.ready 0) = [] := by
  have hsegmented (first second : ℕ) : (pushBackTwice first second).Segmented 2 := fun _ => ⟨1, rfl, fun _ => rfl⟩
  have hbodies : ∀ i : ℕ, ∀ body ∈ twoFibers[i]?, Program.Segmented body 2 := by
    intro i body hbody
    rcases List.mem_pair.mp (List.mem_of_getElem? hbody) with rfl | rfl
    · exact hsegmented 1 3
    · exact hsegmented 2 4
  obtain ⟨steps, hmain, -, -, -, -, hqueue⟩ := round_robin (fun _ => 0) (fun _ => []) _ (fun _ => 2) hbodies
  exact ⟨hbodies, steps, hmain, hqueue⟩

end Thread

end SystemLevel.Fibers
