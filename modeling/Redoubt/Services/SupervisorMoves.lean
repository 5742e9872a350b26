import Redoubt.Services.Supervisor
import Mathlib.Logic.Relation

/-!
# The moves of the supervisor

Whatever the supervisor does is a sequence of a dozen elementary moves: a system call, a
child that comes up, a child that is reaped and accounted for, a change that an operator
asks for.  The lemmas here take every function apart into such moves, so that a property
of all runs only has to be checked for each move.
-/

namespace Redoubt.Services

open Redoubt.Foundation Redoubt.Storage

/-! ### Services and their states -/

def SvcState.IsRunning (state : SvcState) : Prop := ∃ tid, state = .running tid

def SvcState.IsWaiting (state : SvcState) : Prop := ∃ resume, state = .waiting resume

variable {w : Surroundings} {s s' : Supd} {index other tid : Nat} {svc : Service}

@[simp]
theorem Supd.modify_trace (s : Supd) (index : Nat) (f : Service → Service) :
    (s.modify index f).trace = s.trace :=
  rfl

theorem Supd.modify_self (found : s.services[index]? = some svc)
    (f : Service → Service) : (s.modify index f).services[index]? = some (f svc) := by
  simp [Supd.modify, found]

theorem Supd.modify_other (ne : other ≠ index) (f : Service → Service) :
    (s.modify index f).services[other]? = s.services[other]? := by
  simp only [Supd.modify, List.getElem?_modify, if_neg ne.symm]
  cases s.services[other]? <;> rfl

/-- A service after a change of one service. -/
theorem Supd.modify_cases {f : Service → Service}
    (h : (s.modify index f).services[other]? = some svc) :
    (other = index ∧ ∃ old, s.services[index]? = some old ∧ svc = f old) ∨
      (other ≠ index ∧ s.services[other]? = some svc) := by
  by_cases heq : other = index
  · subst heq
    simp only [Supd.modify, List.getElem?_modify, if_true] at h
    obtain ⟨old, hold, rfl⟩ := Option.map_eq_some_iff.mp h
    exact .inl ⟨rfl, old, hold, rfl⟩
  · rw [Supd.modify_other heq] at h
    exact .inr ⟨heq, h⟩

/-! ### Moves -/

/-- Events that only report. -/
def Event.Plain : Event → Prop
  | .refused _ | .listening _ | .answered _ _ => True
  | _ => False

namespace Supd

/-- A child of this service has come up. -/
def raise (s : Supd) (index tid : Nat) (elf : List UInt8) (due : Option Nat) : Supd :=
  (({ s with
      children := s.children ++ [{ tid, owner := index, code := none }]
      nextTid := tid + 1 } : Supd).modify index
    fun svc => { svc with state := .running tid, failures := 0 }).note (.spawned index tid elf due)

/-- The spawn of a child was refused. -/
def fail (s : Supd) (index : Nat) : Supd :=
  (s.modify index fun svc => { svc with state := .failed }).note (.refused index)

/-- Without the first child that has ended. -/
def reapFirst (s : Supd) : Supd := { s with children := s.children.eraseP Child.ended }

def killChild (s : Supd) (tid : Nat) : Supd :=
  { s with children := s.children.map fun child =>
      if child.tid = tid then { child with code := some 0x200 } else child }

def unwant (s : Supd) (index : Nat) : Supd := s.modify index fun svc => { svc with restart := false }

def rest (s : Supd) (index now : Nat) : Supd :=
  s.modify index fun svc => { svc with state := .waiting (now + 1) }

def count (s : Supd) (index : Nat) : Supd :=
  s.modify index fun svc => { svc with restarts := svc.restarts + 1 }

end Supd

/-- No stop request was answered yet. -/
def Supd.Unstopped (s : Supd) : Prop := ∀ index before, Event.stopped index before ∉ s.trace

/-- On its own the supervisor starts a service that is due, and at the beginning one that
was never up. -/
def Timely (s : Supd) : Option Nat → SvcState → Prop
  | some now, state => ∃ resume, state = .waiting resume ∧ resume ≤ now
  | none, state => state = .stopped ∧ s.Unstopped

theorem Timely.down {due : Option Nat} {state : SvcState} (h : Timely s due state) :
    ¬ state.IsRunning := by
  rintro ⟨tid, rfl⟩
  cases due with
  | none => cases h.1
  | some =>
      obtain ⟨resume, hstate, -⟩ := h
      cases hstate

/-- What the supervision loop does on its own. -/
inductive LoopMove (w : Surroundings) : Supd → Supd → Prop where
  | enter (s : Supd) : LoopMove w s (enter w s).2
  | note (s : Supd) {event : Event} (plain : event.Plain) : LoopMove w s (s.note event)
  | raise {s : Supd} {index tid : Nat} {svc : Service} (elf : List UInt8) {due : Option Nat}
      (found : s.services[index]? = some svc) (timely : Timely s due svc.state)
      (fresh : s.nextTid ≤ tid) : LoopMove w s (s.raise index tid elf due)
  | fail {s : Supd} {index : Nat} {svc : Service} (found : s.services[index]? = some svc)
      (down : ¬ svc.state.IsRunning) : LoopMove w s (s.fail index)
  | count (s : Supd) (index : Nat) : LoopMove w s (s.count index)
  | account {s : Supd} {child : Child} (first : s.children.find? Child.ended = some child)
      (code : UInt64) :
      LoopMove w s (accountExit w child.tid code s.reapFirst).2

/-- What the loop and the operators do. -/
inductive Move (w : Surroundings) : Supd → Supd → Prop where
  | loop {s s' : Supd} (step : LoopMove w s s') : Move w s s'
  | drain {s : Supd} {child : Child} (first : s.children.find? Child.ended = some child) :
      Move w s (drain child.tid s.reapFirst)
  | want (s : Supd) (index : Nat) : Move w s (s.want index)
  | raise {s : Supd} {index tid : Nat} {svc : Service} (elf : List UInt8)
      (found : s.services[index]? = some svc) (down : ¬ svc.state.IsRunning) (wanted : svc.restart = true)
      (fresh : s.nextTid ≤ tid) : Move w s (s.raise index tid elf none)
  | unwant (s : Supd) (index : Nat) : Move w s (s.unwant index)
  | kill (s : Supd) (tid : Nat) : Move w s (s.killChild tid)
  /-- A service waits once its child was killed. -/
  | rest {s : Supd} {index tid : Nat} {svc : Service} (now : Nat) (found : s.services[index]? = some svc)
      (running : svc.state = .running tid) (wanted : svc.restart = true)
      (killed : ∀ child ∈ s.children, child.tid = tid → child.code ≠ none) : Move w s (s.rest index now)
  | stopped {s : Supd} {index : Nat} {svc : Service} {before : SvcState}
      (found : s.services[index]? = some svc) (unwanted : svc.restart = false)
      (kept : ¬ before.IsWaiting → ¬ svc.state.IsWaiting) : Move w s (s.note (.stopped index before))

def LoopMoves (w : Surroundings) : Supd → Supd → Prop := Relation.ReflTransGen (LoopMove w)

def Moves (w : Surroundings) : Supd → Supd → Prop := Relation.ReflTransGen (Move w)

/-- Nothing but system calls. -/
def Idle (w : Surroundings) : Supd → Supd → Prop := Relation.ReflTransGen fun s s' => s' = (enter w s).2

theorem LoopMoves.moves (h : LoopMoves w s s') : Moves w s s' := by
  induction h with
  | refl => exact .refl
  | tail _ step ih => exact ih.tail (.loop step)

namespace Idle

theorem moves (h : Idle w s s') : LoopMoves w s s' := by
  induction h with
  | refl => exact .refl
  | tail _ hstep ih =>
      rw [hstep]
      exact ih.tail (.enter _)

theorem services_eq (h : Idle w s s') : s'.services = s.services := by
  induction h with
  | refl => rfl
  | tail _ hstep ih =>
      rw [hstep]
      exact ih

theorem trace_eq (h : Idle w s s') : ∃ calls, s'.trace = s.trace ++ calls ∧
    ∀ event ∈ calls, ∃ services children, event = .call services children := by
  induction h with
  | refl => exact ⟨[], (List.append_nil _).symm, fun _ hmem => absurd hmem List.not_mem_nil⟩
  | @tail mid _ _ hstep ih =>
      obtain ⟨calls, htrace, hcalls⟩ := ih
      refine ⟨calls ++ [.call mid.services mid.children], ?_, fun event hevent => ?_⟩
      · rw [hstep, ← List.append_assoc, ← htrace]
        rfl
      · rcases List.mem_append.mp hevent with hold | hnew
        · exact hcalls event hold
        · exact ⟨_, _, List.mem_singleton.mp hnew⟩

theorem unstopped (h : Idle w s s') (quiet : s.Unstopped) : s'.Unstopped := by
  obtain ⟨calls, htrace, hcalls⟩ := h.trace_eq
  intro index before hmem
  rw [htrace] at hmem
  rcases List.mem_append.mp hmem with hold | hnew
  · exact quiet index before hold
  · obtain ⟨_, _, hevent⟩ := hcalls _ hnew
    cases hevent

theorem timely (h : Idle w s s') {due : Option Nat} {state : SvcState} (timely : Timely s due state) :
    Timely s' due state := by
  cases due with
  | none => exact ⟨timely.1, h.unstopped timely.2⟩
  | some => exact timely

theorem enter (w : Surroundings) (s : Supd) : Idle w s (enter w s).2 := .single rfl

end Idle

/-! ### Functions as moves -/

/-- A call is one system call, whatever is replied. -/
theorem call_snd (endpoint : Endpoint) (bytes : List UInt8) (s : Supd) :
    (call w endpoint bytes s).2 = (enter w s).2 := rfl

theorem call_idle (endpoint : Endpoint) (bytes : List UInt8) (s : Supd) :
    Idle w s (call w endpoint bytes s).2 := Idle.enter w s

theorem printPieces_idle (pieces : List (List UInt8)) (s : Supd) : Idle w s (printPieces w pieces s) := by
  induction pieces generalizing s with
  | nil => exact .refl
  | cons piece _ ih =>
      rw [printPieces]
      have hcall := @call_idle w .console (1 :: piece) s
      generalize call w .console (1 :: piece) s = result at hcall ⊢
      obtain ⟨_ | words, after⟩ := result
      · exact hcall
      · exact hcall.trans (ih after)

theorem fetchChunks_idle (name : List UInt8) (len fuel : Nat) (buf : List UInt8) (s : Supd) :
    Idle w s (fetchChunks w name len fuel buf s).2 := by
  induction fuel generalizing buf s with
  | zero => exact .refl
  | succ _ ih =>
      rw [fetchChunks]
      split_ifs
      · have hcall := @call_idle w .initfs
          (ascii "chunk " ++ name ++ [32] ++ pushNum (UInt64.ofNat buf.length)) s
        generalize call w .initfs
          (ascii "chunk " ++ name ++ [32] ++ pushNum (UInt64.ofNat buf.length)) s = result at hcall ⊢
        obtain ⟨_ | words, after⟩ := result
        · exact hcall
        · exact hcall.trans (ih _ _)
      · exact .refl

theorem fetchProgram_idle (name : List UInt8) (s : Supd) : Idle w s (fetchProgram w name s).2 := by
  have hcall := @call_idle w .initfs (ascii "fetch " ++ name) s
  unfold fetchProgram
  generalize call w .initfs (ascii "fetch " ++ name) s = result at hcall ⊢
  obtain ⟨_ | words, after⟩ := result
  · exact hcall
  · dsimp only
    cases announcedLen (Msg.unpack words) with
    | none => exact hcall
    | some len => exact hcall.trans (fetchChunks_idle name len len [] after)

/-- What an attempt to start a service does. -/
theorem spawnService_cases (index : Nat) (due : Option Nat)
    (found : s.services[index]? = some svc) : ∃ fetched, Idle w s fetched ∧
      ((∃ last, (spawnService w index due s) = (false, last) ∧
        Idle w (fetched.note (.refused index)) last) ∨
        (∃ mid tid elf, Idle w fetched mid ∧ fetched.nextTid ≤ tid ∧ mid.nextTid = fetched.nextTid ∧
          spawnService w index due s = (true, (enter w (mid.raise index tid elf due)).2)) ∨
        ∃ mid, Idle w fetched mid ∧ spawnService w index due s = (false, mid.fail index)) := by
  have hfetch := @fetchProgram_idle w svc.name s
  unfold spawnService
  rw [found]
  dsimp only
  generalize fetchProgram w svc.name s = result at hfetch ⊢
  obtain ⟨errno | elf, fetched⟩ := result
  · exact ⟨fetched, hfetch, .inl ⟨_, rfl, printPieces_idle _ _⟩⟩
  · refine ⟨fetched, hfetch, .inr ?_⟩
    unfold spawn
    dsimp only
    cases (enter w fetched).1.refusal with
    | some => exact .inr ⟨(enter w fetched).2, Idle.enter w _, rfl⟩
    | none =>
        exact .inl ⟨(enter w fetched).2, _, elf, Idle.enter w _, Nat.le_add_right _ _, rfl, rfl⟩

/-- Any steps that have the moves of the loop and raise the service make up the start. -/
theorem spawnService_steps {Step : Supd → Supd → Prop} {due : Option Nat}
    (found : s.services[index]? = some svc) (down : ¬ svc.state.IsRunning)
    (loop : ∀ s s', LoopMove w s s' → Step s s')
    (raise : ∀ mid tid elf, Idle w s mid → mid.services[index]? = some svc → mid.nextTid ≤ tid →
      Step mid (mid.raise index tid elf due)) :
    Relation.ReflTransGen Step s (spawnService w index due s).2 := by
  obtain ⟨fetched, hfetch, hcases⟩ := @spawnService_cases w s svc index due found
  have hidle : ∀ {before after}, Idle w before after → Relation.ReflTransGen Step before after :=
    fun h => Relation.ReflTransGen.mono loop _ _ h.moves
  obtain ⟨last, hresult, hlast⟩ | ⟨mid, tid, elf, hmid, hfresh, hnext, hresult⟩ |
    ⟨mid, hmid, hresult⟩ := hcases
  · have hplain : (Event.refused index).Plain := trivial
    rw [hresult]
    exact (hidle hfetch).trans (.head (loop _ _ (.note fetched hplain)) (hidle hlast))
  · have hfound : mid.services[index]? = some svc := by rw [hmid.services_eq, hfetch.services_eq, found]
    have hraise := raise mid tid elf (hfetch.trans hmid) hfound (by omega)
    rw [hresult]
    exact (hidle (hfetch.trans hmid)).trans (.head hraise (hidle (Idle.enter w _)))
  · have hfound : mid.services[index]? = some svc := by rw [hmid.services_eq, hfetch.services_eq, found]
    rw [hresult]
    exact (hidle (hfetch.trans hmid)).trans (.single (loop _ _ (.fail hfound down)))

theorem spawnService_moves {due : Option Nat}
    (found : s.services[index]? = some svc) (timely : Timely s due svc.state) :
    LoopMoves w s (spawnService w index due s).2 :=
  spawnService_steps found timely.down (fun _ _ => id) fun _ _ elf hidle hfound hfresh =>
    .raise elf hfound (hidle.timely timely) hfresh

/-- The same for an operator. -/
theorem spawnService_wanted (found : s.services[index]? = some svc)
    (down : ¬ svc.state.IsRunning) (wanted : svc.restart = true) :
    Moves w s (spawnService w index none s).2 :=
  spawnService_steps found down (fun _ _ => .loop) fun _ _ elf _ hfound hfresh =>
    .raise elf hfound down wanted hfresh

/-- Starting a service leaves the others alone. -/
theorem spawnService_other (due : Option Nat) (ne : other ≠ index) :
    (spawnService w index due s).2.services[other]? = s.services[other]? := by
  cases hfound : s.services[index]? with
  | none =>
      unfold spawnService
      rw [hfound]
  | some svc =>
      obtain ⟨fetched, hfetch, hcases⟩ := @spawnService_cases w s svc index due hfound
      rw [← hfetch.services_eq]
      obtain ⟨last, hresult, hlast⟩ | ⟨mid, tid, elf, hmid, -, -, hresult⟩ | ⟨mid, hmid, hresult⟩ :=
        hcases
      · rw [hresult]
        exact congrArg (·[other]?) hlast.services_eq
      · rw [hresult, ← hmid.services_eq]
        exact Supd.modify_other ne _
      · rw [hresult, ← hmid.services_eq]
        exact Supd.modify_other ne _

/-! ### Reaping -/

theorem lastRunning_some {services : List Service} (h : lastRunning tid services = some index) :
    ∃ svc, services[index]? = some svc ∧ svc.state = .running tid := by
  unfold lastRunning at h
  obtain ⟨⟨svc, index'⟩, hlast, rfl⟩ := Option.map_eq_some_iff.mp h
  have hmem := List.mem_of_getLast? hlast
  obtain ⟨hzip, hstate⟩ := List.mem_filter.mp hmem
  exact ⟨svc, List.mem_zipIdx_iff_getElem?.mp hzip, of_decide_eq_true hstate⟩

theorem lastRunning_none {services : List Service}
    (h : lastRunning tid services = none) (found : services[index]? = some svc) :
    svc.state ≠ .running tid := by
  intro hstate
  unfold lastRunning at h
  rw [Option.map_eq_none_iff, List.getLast?_eq_none_iff, List.filter_eq_nil_iff] at h
  exact h (svc, index) (List.mem_zipIdx_iff_getElem?.mpr found) (decide_eq_true hstate)

theorem markExited_getElem? (tid : Nat) (services : List Service) (index : Nat) :
    (markExited tid services)[index]? = (services[index]?).map fun svc =>
      if svc.state = .running tid then
        { svc with state := .stopped, failures := svc.failures + 1 }
      else svc :=
  List.getElem?_map

/-- Nothing is marked for a child that no service runs. -/
theorem markExited_eq_self {services : List Service}
    (h : lastRunning tid services = none) : markExited tid services = services := by
  refine List.ext_getElem? fun index => ?_
  rw [markExited_getElem?]
  cases hfound : services[index]? with
  | none => rfl
  | some => rw [Option.map_some, if_neg (lastRunning_none h hfound)]

def Service.exited (svc : Service) : Service :=
  { svc with state := .stopped, failures := svc.failures + 1 }

def Supd.markExited (s : Supd) (tid : Nat) : Supd :=
  { s with services := Services.markExited tid s.services }

/-- The service whose child has ended. -/
theorem Supd.markExited_self (found : s.services[index]? = some svc)
    (running : svc.state = .running tid) : (s.markExited tid).services[index]? = some svc.exited := by
  change (Services.markExited tid s.services)[index]? = _
  rw [markExited_getElem?, found, Option.map_some, if_pos running]
  rfl

/-- A service that has another child. -/
theorem Supd.markExited_other (found : s.services[index]? = some svc)
    (other : svc.state ≠ .running tid) : (s.markExited tid).services[index]? = some svc := by
  change (Services.markExited tid s.services)[index]? = _
  rw [markExited_getElem?, found, Option.map_some, if_neg other]

def Supd.backOff (s : Supd) (index now delay : Nat) : Supd :=
  (s.modify index fun svc => { svc with state := .waiting (now + backoffTicks svc.failures) }).note
    (.backoff index now delay)

def Supd.giveUp (s : Supd) (index : Nat) : Supd :=
  (s.modify index fun svc => { svc with state := .failed }).note (.gaveUp index)

/-- What the loop does about a reaped child. -/
theorem accountExit_cases (tid : Nat) (code : UInt64) (s : Supd) :
    (∃ index svc last, s.services[index]? = some svc ∧ svc.state = .running tid ∧
      (accountExit w tid code s).2 = last.note (.reaped tid true s.services last.services) ∧
      (svc.restart = true ∧ svc.failures + 1 ≤ 5 ∧
          last = (enter w ((s.markExited tid).note (.exited index))).2.backOff index
            (enter w ((s.markExited tid).note (.exited index))).1.tick (backoffTicks (svc.failures + 1)) ∨
        ¬ (svc.restart = true ∧ svc.failures + 1 ≤ 5) ∧
          last = ((s.markExited tid).note (.exited index)).giveUp index)) ∨
      lastRunning tid s.services = none ∧
        (accountExit w tid code s).2 = s.note (.reaped tid true s.services s.services) := by
  unfold accountExit
  dsimp only
  cases hlast : lastRunning tid s.services with
  | none =>
      refine .inr ⟨rfl, ?_⟩
      rw [Option.bind_none, markExited_eq_self hlast]
  | some index =>
      obtain ⟨svc, hfound, hstate⟩ := lastRunning_some hlast
      have hmarked : (markExited tid s.services)[index]? = some svc.exited :=
        Supd.markExited_self hfound hstate
      rw [Option.bind_some, hmarked, Option.map_some]
      refine .inl ⟨index, svc, _, hfound, hstate, rfl, ?_⟩
      unfold settle
      by_cases hagain : svc.restart = true ∧ svc.failures + 1 ≤ 5
      · refine .inl ⟨hagain.1, hagain.2, ?_⟩
        rw [if_pos (by simpa [Service.exited] using hagain)]
        rfl
      · refine .inr ⟨hagain, ?_⟩
        rw [if_neg (by simpa [Service.exited] using hagain)]
        rfl

/-- Events that no operator caused. -/
def Event.OfLoop : Event → Prop
  | .wanted _ | .stopped _ _ => False
  | _ => True

theorem Supd.backOff_trace (s : Supd) (index now delay : Nat) :
    ((enter w (s.note (.exited index))).2.backOff index now delay).trace =
      s.trace ++ [.exited index, .call s.services s.children, .backoff index now delay] := by
  simp [Supd.backOff, Supd.note, Supd.modify, enter]

theorem Supd.giveUp_trace (s : Supd) (index : Nat) :
    ((s.note (.exited index)).giveUp index).trace = s.trace ++ [.exited index, .gaveUp index] := by
  simp [Supd.giveUp, Supd.note, Supd.modify]

/-- What the loop writes down about a reaped child before it closes the case. -/
def Event.OfExit : Event → Prop
  | .exited _ | .call _ _ | .backoff _ _ _ | .gaveUp _ => True
  | _ => False

theorem accountExit_trace (tid : Nat) (code : UInt64) (s : Supd) :
    ∃ body, (accountExit w tid code s).2.trace =
        s.trace ++ (body ++ [.reaped tid true s.services (accountExit w tid code s).2.services]) ∧
      ∀ event ∈ body, event.OfExit := by
  -- the last event closes the case
  have hclose : ∀ (last : Supd) (body : List Event),
      (accountExit w tid code s).2 = last.note (.reaped tid true s.services last.services) →
      last.trace = s.trace ++ body → (accountExit w tid code s).2.trace =
        s.trace ++ (body ++ [.reaped tid true s.services (accountExit w tid code s).2.services]) := by
    intro last body hresult htrace
    rw [hresult, ← List.append_assoc, ← htrace]
    rfl
  obtain ⟨index, svc, last, -, -, hresult, ⟨-, -, rfl⟩ | ⟨-, rfl⟩⟩ | ⟨-, hresult⟩ :=
    @accountExit_cases w tid code s
  · refine ⟨_, hclose _ _ hresult (Supd.backOff_trace _ index _ _), ?_⟩
    simp [Event.OfExit]
  · refine ⟨_, hclose _ _ hresult (Supd.giveUp_trace _ index), ?_⟩
    simp [Event.OfExit]
  · exact ⟨[], hclose s [] hresult (List.append_nil _).symm, fun _ hmem => absurd hmem List.not_mem_nil⟩

theorem Event.OfExit.ofLoop {event : Event} (h : event.OfExit) : event.OfLoop := by
  cases event <;> trivial

theorem Event.Plain.ofLoop {event : Event} (h : event.Plain) : event.OfLoop := by
  cases event <;> trivial

/-- The loop writes no event of an operator. -/
theorem LoopMove.trace (step : LoopMove w s s') :
    ∃ new, s'.trace = s.trace ++ new ∧ ∀ event ∈ new, event.OfLoop := by
  have hone : ∀ event : Event, event.OfLoop → ∀ event' ∈ [event], event'.OfLoop :=
    fun event hevent event' hmem => List.mem_singleton.mp hmem ▸ hevent
  cases step with
  | enter => exact ⟨_, rfl, hone _ trivial⟩
  | note plain => exact ⟨_, rfl, hone _ plain.ofLoop⟩
  | raise => exact ⟨_, rfl, hone _ trivial⟩
  | fail => exact ⟨_, rfl, hone _ trivial⟩
  | count => exact ⟨[], (List.append_nil _).symm, fun _ hmem => absurd hmem List.not_mem_nil⟩
  | account _ code =>
      obtain ⟨body, htrace, hbody⟩ := @accountExit_trace w _ code s.reapFirst
      refine ⟨_, htrace, fun event hevent => ?_⟩
      rcases List.mem_append.mp hevent with hold | hlast
      · exact (hbody event hold).ofLoop
      · rw [List.mem_singleton.mp hlast]
        trivial

theorem LoopMoves.unstopped (h : LoopMoves w s s') (quiet : s.Unstopped) : s'.Unstopped := by
  induction h with
  | refl => exact quiet
  | tail _ step ih =>
      obtain ⟨new, htrace, hnew⟩ := step.trace
      intro index before hmem
      rw [htrace] at hmem
      rcases List.mem_append.mp hmem with hold | hadded
      · exact ih index before hold
      · exact hnew _ hadded

theorem tryWait_cases (w : Surroundings) (s : Supd) :
    (∃ child, (enter w s).2.children.find? Child.ended = some child ∧
      tryWait w s = (some (child.tid, child.code.getD 0), (enter w s).2.reapFirst)) ∨
      tryWait w s = (none, (enter w s).2) := by
  unfold tryWait
  dsimp only
  cases hfind : (enter w s).2.children.find? Child.ended with
  | none => exact .inr rfl
  | some child => exact .inl ⟨child, rfl, rfl⟩

theorem reapExited_moves (fuel : Nat) (s : Supd) : LoopMoves w s (reapExited w fuel s) := by
  induction fuel generalizing s with
  | zero => exact .refl
  | succ _ ih =>
      rw [reapExited]
      obtain ⟨child, hfirst, hwait⟩ | hwait := tryWait_cases w s
      · rw [hwait]
        refine .head (.enter s) (.head (.account hfirst (child.code.getD 0)) ?_)
        exact .head (.enter _) (ih _)
      · rw [hwait]
        exact .single (.enter s)

theorem respawnDue_moves (now : Nat) (indices : List Nat) (deadline : Nat) (s : Supd) :
    LoopMoves w s (respawnDue w now indices deadline s).2 := by
  induction indices generalizing deadline s with
  | nil => exact .refl
  | cons index _ ih =>
      rw [respawnDue]
      cases hfound : s.services[index]? with
      | none => exact ih deadline s
      | some svc =>
          cases hstate : svc.state with
          | waiting resume =>
              rw [Option.map_some, hstate]
              dsimp only
              split_ifs with hdue
              · have hspawn := @spawnService_moves w s index svc (some now) hfound ⟨resume, hstate, hdue⟩
                exact hspawn.trans (.head (.count _ index) (ih _ _))
              · exact ih _ s
          | stopped =>
              rw [Option.map_some, hstate]
              exact ih deadline s
          | running =>
              rw [Option.map_some, hstate]
              exact ih deadline s
          | failed =>
              rw [Option.map_some, hstate]
              exact ih deadline s

/-- At most one child is reaped after a kill. -/
theorem drainOne_cases (s : Supd) : ∃ mid, Idle w s mid ∧
    (drainOne w s = mid ∨ ∃ child, mid.children.find? Child.ended = some child ∧
      drainOne w s = drain child.tid mid.reapFirst) := by
  unfold drainOne
  obtain ⟨child, hfirst, hwait⟩ | hwait := tryWait_cases w s
  · rw [hwait]
    exact ⟨_, Idle.enter w s, .inr ⟨child, hfirst, rfl⟩⟩
  · rw [hwait]
    dsimp only
    have hslept : Idle w s (sleep w (enter w s).2) := (Idle.enter w s).tail rfl
    obtain ⟨child, hfirst, hwait'⟩ | hwait' := tryWait_cases w (sleep w (enter w s).2)
    · rw [hwait']
      exact ⟨_, hslept.tail rfl, .inr ⟨child, hfirst, rfl⟩⟩
    · rw [hwait']
      exact ⟨_, hslept.tail rfl, .inl rfl⟩

theorem drainOne_moves (s : Supd) : Moves w s (drainOne w s) := by
  obtain ⟨mid, hidle, hdone | ⟨child, hfirst, hdrain⟩⟩ := @drainOne_cases w s
  · rw [hdone]
    exact hidle.moves.moves
  · rw [hdrain]
    exact hidle.moves.moves.tail (.drain hfirst)

theorem kill_moves (tid : Nat) (s : Supd) : Moves w s (kill w tid s) :=
  .head (.loop (.enter s)) (.single (.kill _ tid))

theorem opRestart_moves (found : s.services[index]? = some svc) :
    Moves w s (opRestart w index svc s).2 := by
  unfold opRestart
  split
  · rename_i tid hstate
    -- the child is dead from the kill on, also after the next system call
    have hkilled : ∀ child ∈ ((kill w tid s).want index).children, child.tid = tid →
        child.code ≠ none := by
      intro child hchild htid
      obtain ⟨old, -, rfl⟩ := List.mem_map.mp hchild
      split_ifs at htid ⊢ with heq
      · exact Option.some_ne_none _
      · exact absurd htid heq
    have hwanted : ((kill w tid s).want index).services[index]? =
        some { svc with restart := true, failures := 0 } :=
          @Supd.modify_self (kill w tid s) index svc found _
    have hlater : ∀ child ∈ (enter w ((kill w tid s).want index)).2.children, child.tid = tid →
        child.code ≠ none := by
      intro child hchild htid
      obtain ⟨old, hold, rfl⟩ := List.mem_map.mp hchild
      unfold Child.endIn at htid ⊢
      split at htid
      · rename_i code hcode
        exact hcode ▸ Option.some_ne_none _
      · rename_i hcode
        exact absurd hcode (hkilled old hold htid)
    refine (kill_moves tid s).trans (.head (.want _ index) (.head (.loop (.enter _)) ?_))
    refine .head (.rest _ hwanted hstate rfl hlater) (drainOne_moves _)
  · rename_i hdown
    have hwanted : (s.want index).services[index]? = some { svc with restart := true, failures := 0 } :=
      Supd.modify_self found _
    refine .head (.want s index) (spawnService_wanted hwanted ?_ rfl)
    rintro ⟨tid, htid⟩
    exact hdown tid htid

theorem opStart_moves (found : s.services[index]? = some svc) :
    Moves w s (opStart w index svc s).2 := by
  unfold opStart
  dsimp only
  split
  · exact .single (.want s index)
  · rename_i hdown
    have hwanted : (s.want index).services[index]? = some { svc with restart := true, failures := 0 } :=
      Supd.modify_self found _
    refine .head (.want s index) (spawnService_wanted hwanted ?_ rfl)
    rintro ⟨tid, htid⟩
    exact hdown tid htid

theorem release_getElem? (tid : Nat) (services : List Service) (index : Nat) :
    (release tid services)[index]? = (services[index]?).map fun svc =>
      if svc.state = .running tid then { svc with state := .stopped } else svc :=
  List.getElem?_map

/-- The reaping after a kill at most stops the service. -/
theorem drainOne_service (found : s.services[index]? = some svc) :
    ∃ svc', (drainOne w s).services[index]? = some svc' ∧ svc'.restart = svc.restart ∧
      (svc'.state = svc.state ∨ svc'.state = .stopped) := by
  obtain ⟨mid, hidle, hdone | ⟨child, -, hdrain⟩⟩ := @drainOne_cases w s
  · rw [hdone, hidle.services_eq]
    exact ⟨svc, found, rfl, .inl rfl⟩
  · have hservices : (drainOne w s).services = release child.tid s.services := by
      rw [hdrain, ← hidle.services_eq]
      rfl
    rw [hservices, release_getElem?, found]
    refine ⟨_, rfl, ?_⟩
    dsimp only
    split_ifs
    · exact ⟨rfl, .inr rfl⟩
    · exact ⟨rfl, .inl rfl⟩

theorem opStop_moves (found : s.services[index]? = some svc) :
    Moves w s (opStop w index svc s).2 := by
  have hunwant : (s.unwant index).services[index]? = some { svc with restart := false } :=
    Supd.modify_self found _
  unfold opStop
  dsimp only
  split
  · rename_i tid hstate
    obtain ⟨last, hlast, hrestart, hkept⟩ :=
      @drainOne_service w (kill w tid (s.unwant index)) index _ hunwant
    refine .head (.unwant s index)
      ((kill_moves tid _).trans ((drainOne_moves _).tail (.stopped hlast hrestart ?_)))
    rintro - ⟨resume, hwaiting⟩
    rw [hwaiting] at hkept
    rcases hkept with hsame | hstopped
    · rw [hstate] at hsame
      cases hsame
    · cases hstopped
  · exact .head (.unwant s index) (.single (.stopped hunwant rfl id))

theorem onService_moves {name : List UInt8} {op : Nat → Service → Supd → List UInt8 × Supd}
    (hop : ∀ index svc, s.services[index]? = some svc → Moves w s (op index svc s).2) :
    Moves w s (onService name op s).2 := by
  unfold onService
  cases findService s.services name with
  | none => exact .refl
  | some index =>
      dsimp only
      cases hfound : s.services[index]? with
      | none => exact .refl
      | some svc => exact hop index svc hfound

theorem forward_moves (req : List UInt8) (s : Supd) : Moves w s (forward w req s).2 := by
  have hafter : (forward w req s).2 = (enter w s).2 := by
    have hcall := @call_snd w .config req s
    unfold forward
    generalize call w .config req s = result at hcall ⊢
    obtain ⟨_ | words, after⟩ := result
    · exact hcall
    · exact hcall
  rw [hafter]
  exact .single (.loop (.enter s))

theorem handleOp_moves (req : List UInt8) (s : Supd) : Moves w s (handleOp w req s).2 := by
  unfold handleOp
  split
  · exact .refl
  split
  · split <;> exact .refl
  split
  · exact onService_moves fun index svc hfound => opRestart_moves hfound
  split
  · exact onService_moves fun index svc hfound => opStop_moves hfound
  split
  · exact onService_moves fun index svc hfound => opStart_moves hfound
  split
  · exact forward_moves _ s
  split
  · exact forward_moves req s
  · exact .refl

theorem listen_moves {deadline : Nat} (h : listen w deadline s = some s') : Moves w s s' := by
  have hplain : (Event.listening deadline).Plain := trivial
  refine .head (.loop (.note s hplain)) (.head (.loop (.enter _)) ?_)
  unfold listen at h
  dsimp only at h
  split at h
  · cases h
    have hanswered : ∀ req reply, (Event.answered req reply).Plain := fun _ _ => trivial
    exact ((handleOp_moves _ _).tail (.loop (.enter _))).tail (.loop (.note _ (hanswered _ _)))
  · split_ifs at h
    cases h
    exact .refl

/-- No operator ever asks for anything. -/
def Silent (w : Surroundings) : Prop := ∀ n words, (w n).message ≠ .ok words

theorem listen_loop (silent : Silent w) {deadline : Nat} (h : listen w deadline s = some s') :
    LoopMoves w s s' := by
  have hplain : (Event.listening deadline).Plain := trivial
  refine .head (.note s hplain) (.head (.enter _) ?_)
  unfold listen at h
  dsimp only at h
  split at h
  · rename_i words hmessage
    exact absurd hmessage (silent _ words)
  · split_ifs at h
    cases h
    exact .refl

/-- A round of the loop before it listens. -/
theorem pass_split (h : pass w s = some s') :
    ∃ mid deadline, LoopMoves w s mid ∧ listen w deadline mid = some s' := by
  unfold pass at h
  dsimp only at h
  exact ⟨_, _, (reapExited_moves _ s).trans (.head (.enter _) (respawnDue_moves ..)), h⟩

theorem pass_moves (h : pass w s = some s') : Moves w s s' := by
  obtain ⟨mid, deadline, hmoves, hlisten⟩ := pass_split h
  exact hmoves.moves.trans (listen_moves hlisten)

/-! ### Start -/

/-- A roster was loaded and nothing is up. -/
structure Loaded (s : Supd) : Prop where
  childless : s.children = []
  down : ∀ svc ∈ s.services, svc.state = .stopped ∧ svc.failures = 0
  calls : ∀ event ∈ s.trace, ∃ services, event = .call services []

theorem Loaded.enter (h : Loaded s) (w : Surroundings) : Loaded (enter w s).2 where
  childless := by
    change s.children.map _ = []
    rw [h.childless, List.map_nil]
  down := h.down
  calls := by
    intro event hevent
    rcases List.mem_append.mp hevent with hold | hnew
    · exact h.calls event hold
    · rw [List.mem_singleton.mp hnew, h.childless]
      exact ⟨_, rfl⟩

theorem Loaded.unstopped (h : Loaded s) : s.Unstopped := by
  intro index before hmem
  obtain ⟨_, hevent⟩ := h.calls _ hmem
  cases hevent

theorem Loaded.idle (h : Loaded s) (calls : Idle w s s') : Loaded s' := by
  induction calls with
  | refl => exact h
  | tail _ hstep ih =>
      rw [hstep]
      exact ih.enter w

theorem rosterService_down {line : List UInt8} (h : rosterService line = some svc) :
    svc.state = .stopped ∧ svc.failures = 0 := by
  unfold rosterService at h
  split at h
  · cases h
    exact ⟨rfl, rfl⟩
  · cases h

theorem loadEntries_loaded (indices : List Nat) (h : Loaded s) : Loaded (loadEntries w indices s) := by
  induction indices generalizing s with
  | nil => exact h
  | cons index _ ih =>
      rw [loadEntries]
      have hcall := h.idle (@call_idle w .query (ascii "roster " ++ pushNum (UInt64.ofNat index)) s)
      generalize call w .query (ascii "roster " ++ pushNum (UInt64.ofNat index)) s = result at hcall ⊢
      obtain ⟨_ | words, after⟩ := result
      · exact ih hcall
      · refine ih ⟨hcall.childless, fun svc hsvc => ?_, hcall.calls⟩
        rcases List.mem_append.mp hsvc with hold | hnew
        · exact hcall.down svc hold
        · exact rosterService_down (Option.mem_toList.mp hnew)

theorem loadRoster_loaded (h : Loaded s) : Loaded (loadRoster w s) := by
  have hcall := h.idle (@call_idle w .query (ascii "roster-count") s)
  unfold loadRoster
  generalize call w .query (ascii "roster-count") s = result at hcall ⊢
  obtain ⟨_ | words, after⟩ := result
  · exact hcall
  · exact loadEntries_loaded _ hcall

theorem autostart_moves {indices : List Nat} (distinct : indices.Nodup) (quiet : s.Unstopped)
    (down : ∀ index ∈ indices, ∀ svc, s.services[index]? = some svc → svc.state = .stopped) :
    LoopMoves w s (autostart w indices s) := by
  induction indices generalizing s with
  | nil => exact .refl
  | cons index _ ih =>
      rw [List.nodup_cons] at distinct
      rw [List.forall_mem_cons] at down
      rw [autostart]
      cases hfound : s.services[index]? with
      | none => exact ih distinct.2 quiet down.2
      | some svc =>
          dsimp only
          split_ifs
          · have hspawn := @spawnService_moves w s index svc none hfound ⟨down.1 svc hfound, quiet⟩
            refine hspawn.trans
              (ih distinct.2 (LoopMoves.unstopped hspawn quiet) fun other hother svc' hsvc' => ?_)
            have hne : other ≠ index := fun heq => distinct.1 (heq ▸ hother)
            rw [spawnService_other none hne] at hsvc'
            exact down.2 other hother svc' hsvc'
          · exact ih distinct.2 quiet down.2

/-- The supervisor after loading some roster, before anything was started. -/
theorem start_moves (nextTid : Nat) : ∃ loaded, Loaded loaded ∧ LoopMoves w loaded (start w nextTid) := by
  have hempty : Loaded { services := [], children := [], nextTid, calls := 0, trace := [] } :=
    ⟨rfl, fun _ h => absurd h List.not_mem_nil, fun _ h => absurd h List.not_mem_nil⟩
  have hgreeted := (hempty.enter w).idle
    (@printPieces_idle w ((ascii "[supd] starting\n").toChunks 37) _)
  have hloaded := @loadRoster_loaded w _ hgreeted
  refine ⟨_, hloaded, autostart_moves List.nodup_range hloaded.unstopped fun index _ svc hsvc => ?_⟩
  exact (hloaded.down svc (List.mem_of_getElem? hsvc)).1

/-- The states of the supervisor at the head of its loop. -/
inductive Reaches (w : Surroundings) (nextTid : Nat) : Supd → Prop where
  | start : Reaches w nextTid (start w nextTid)
  | pass {s s' : Supd} (before : Reaches w nextTid s) (step : pass w s = some s') : Reaches w nextTid s'

/-- Several rounds of the loop. -/
def rounds (w : Surroundings) : Nat → Supd → Option Supd
  | 0, s => some s
  | n + 1, s => (pass w s).bind (rounds w n)

namespace Reaches

variable {nextTid : Nat}

theorem rounds {n : Nat} (before : Reaches w nextTid s) (h : rounds w n s = some s') :
    Reaches w nextTid s' := by
  induction n generalizing s with
  | zero =>
      cases h
      exact before
  | succ n ih =>
      obtain ⟨mid, hpass, hrest⟩ := Option.bind_eq_some_iff.mp h
      exact ih (before.pass hpass) hrest

/-- A property of the state after some rounds. -/
theorem of_rounds {n : Nat} {p : Supd → Bool}
    (h : (Services.rounds w n (Services.start w nextTid)).any p = true) :
    ∃ s, Reaches w nextTid s ∧ p s = true := by
  cases hrounds : Services.rounds w n (Services.start w nextTid) with
  | none =>
      rw [hrounds] at h
      cases h
  | some s =>
      rw [hrounds] at h
      exact ⟨s, Reaches.start.rounds hrounds, h⟩

theorem moves (h : Reaches w nextTid s) : ∃ loaded, Loaded loaded ∧ Moves w loaded s := by
  induction h with
  | start =>
      obtain ⟨loaded, hloaded, hmoves⟩ := @start_moves w nextTid
      exact ⟨loaded, hloaded, hmoves.moves⟩
  | pass _ step ih =>
      obtain ⟨loaded, hloaded, hmoves⟩ := ih
      exact ⟨loaded, hloaded, hmoves.trans (pass_moves step)⟩

theorem loop (silent : Silent w) (h : Reaches w nextTid s) :
    ∃ loaded, Loaded loaded ∧ LoopMoves w loaded s := by
  induction h with
  | start => exact start_moves nextTid
  | pass _ step ih =>
      obtain ⟨loaded, hloaded, hmoves⟩ := ih
      obtain ⟨mid, deadline, hmid, hlisten⟩ := pass_split step
      exact ⟨loaded, hloaded, (hmoves.trans hmid).trans (listen_loop silent hlisten)⟩

end Reaches

end Redoubt.Services
