import Redoubt.Services.SupervisorMoves
import Mathlib.Data.List.Nodup

/-!
# One living child for each service, and its exits

The first invariant ties children and services together: a living child is the one its
service runs, and no task number is used twice.  From it follows that every service has
one living child at most, and that the loop accounts for every exit it reaps.
-/

namespace Redoubt.Services

open Redoubt.Foundation Redoubt.Storage

/-! ### Children and services -/

structure Paired (s : Supd) : Prop where
  known : ∀ child ∈ s.children, child.tid < s.nextTid
  distinct : (s.children.map Child.tid).Nodup
  tracked : ∀ child ∈ s.children, child.code = none →
    ∃ svc, s.services[child.owner]? = some svc ∧ svc.state = .running child.tid
  issued : ∀ (index : Nat) (svc : Service) (tid : Nat), s.services[index]? = some svc →
    svc.state = .running tid → tid < s.nextTid
  single : ∀ (index other : Nat) (svc svc' : Service) (tid : Nat), s.services[index]? = some svc →
    s.services[other]? = some svc' →
    svc.state = .running tid → svc'.state = .running tid → index = other

/-- Every living child is the one its service runs, and the only one of the service. -/
def OneLive (services : List Service) (children : List Child) : Prop :=
  ∀ child ∈ children, child.code = none →
    (∃ svc, services[child.owner]? = some svc ∧ svc.state = .running child.tid) ∧
      ∀ other ∈ children, other.code = none → other.owner = child.owner → other = child

namespace Paired

variable {w : Surroundings} {s : Supd}

theorem oneLive (h : Paired s) : OneLive s.services s.children := by
  intro child hchild hlive
  obtain ⟨svc, hfound, hstate⟩ := h.tracked child hchild hlive
  refine ⟨⟨svc, hfound, hstate⟩, fun other hother hlive' howner => ?_⟩
  obtain ⟨svc', hfound', hstate'⟩ := h.tracked other hother hlive'
  rw [howner, hfound] at hfound'
  cases hfound'
  rw [hstate] at hstate'
  exact List.inj_on_of_nodup_map h.distinct hother hchild (SvcState.running.inj hstate').symm

/-- Children only end. -/
theorem mapChildren {f : Child → Child} (h : Paired s)
    (hf : ∀ child, (f child).tid = child.tid ∧ (f child).owner = child.owner ∧
      ((f child).code = none → child.code = none)) : Paired { s with children := s.children.map f } where
  known := by
    intro child hchild
    obtain ⟨old, hold, rfl⟩ := List.mem_map.mp hchild
    rw [(hf old).1]
    exact h.known old hold
  distinct := by
    have htids : (s.children.map f).map Child.tid = s.children.map Child.tid := by
      rw [List.map_map]
      exact List.map_congr_left fun child _ => (hf child).1
    rw [htids]
    exact h.distinct
  tracked := by
    intro child hchild hlive
    obtain ⟨old, hold, rfl⟩ := List.mem_map.mp hchild
    rw [(hf old).1, (hf old).2.1]
    exact h.tracked old hold ((hf old).2.2 hlive)
  issued := h.issued
  single := h.single

theorem note (h : Paired s) (event : Event) :
    Paired (s.note event) := ⟨h.known, h.distinct, h.tracked, h.issued, h.single⟩

theorem endIn_spec (exits : List (Nat × UInt64)) (child : Child) :
    (child.endIn exits).tid = child.tid ∧ (child.endIn exits).owner = child.owner ∧
      ((child.endIn exits).code = none → child.code = none) := by
  unfold Child.endIn
  split
  · exact ⟨rfl, rfl, id⟩
  · rename_i hcode
    exact ⟨rfl, rfl, fun _ => hcode⟩

theorem enter (h : Paired s) : Paired (enter w s).2 := by
  have hended := (h.note (.call s.services s.children)).mapChildren (endIn_spec (w s.calls).exits)
  exact ⟨hended.known, hended.distinct, hended.tracked, hended.issued, hended.single⟩

theorem killChild (h : Paired s) (tid : Nat) : Paired (s.killChild tid) := by
  refine h.mapChildren fun child => ?_
  split_ifs
  · exact ⟨rfl, rfl, fun hcode => hcode.elim⟩
  · exact ⟨rfl, rfl, id⟩

/-- One service changes: it keeps its state, or it stops running once its child is dead. -/
theorem modify {index : Nat} {f : Service → Service} (h : Paired s)
    (hf : ∀ svc, s.services[index]? = some svc → (f svc).state = svc.state ∨
      ¬ (f svc).state.IsRunning ∧ ∀ tid, svc.state = .running tid →
        ∀ child ∈ s.children, child.tid = tid → child.code ≠ none) : Paired (s.modify index f) where
  known := h.known
  distinct := h.distinct
  tracked := by
    intro child hchild hlive
    obtain ⟨svc, hfound, hstate⟩ := h.tracked child hchild hlive
    by_cases heq : child.owner = index
    · rw [heq] at hfound ⊢
      refine ⟨f svc, Supd.modify_self hfound f, ?_⟩
      rcases hf svc hfound with hsame | ⟨-, hdead⟩
      · rw [hsame, hstate]
      · exact absurd hlive (hdead child.tid hstate child hchild rfl)
    · exact ⟨svc, by rw [Supd.modify_other heq, hfound], hstate⟩
  issued := by
    intro other svc tid hfound hstate
    obtain ⟨rfl, old, hold, rfl⟩ | ⟨-, hold⟩ := Supd.modify_cases hfound
    · rcases hf old hold with hsame | ⟨hdown, -⟩
      · exact h.issued other old tid hold (hsame ▸ hstate)
      · exact absurd ⟨tid, hstate⟩ hdown
    · exact h.issued other svc tid hold hstate
  single := by
    -- a running service was running the same child before
    have hbefore : ∀ (other : Nat) (svc : Service) (tid : Nat),
        (s.modify index f).services[other]? = some svc → svc.state = .running tid →
        ∃ old : Service, s.services[other]? = some old ∧ old.state = .running tid := by
      intro other svc tid hfound hstate
      obtain ⟨rfl, old, hold, rfl⟩ | ⟨-, hold⟩ := Supd.modify_cases hfound
      · rcases hf old hold with hsame | ⟨hdown, -⟩
        · exact ⟨old, hold, hsame ▸ hstate⟩
        · exact absurd ⟨tid, hstate⟩ hdown
      · exact ⟨svc, hold, hstate⟩
    intro first second svc svc' tid hfirst hsecond hstate hstate'
    obtain ⟨old, hold, hrun⟩ := hbefore first svc tid hfirst hstate
    obtain ⟨old', hold', hrun'⟩ := hbefore second svc' tid hsecond hstate'
    exact h.single first second old old' tid hold hold' hrun hrun'

theorem raise {index tid : Nat} {svc : Service} (elf : List UInt8) (due : Option Nat) (h : Paired s)
    (found : s.services[index]? = some svc) (down : ¬ svc.state.IsRunning) (fresh : s.nextTid ≤ tid) :
    Paired (s.raise index tid elf due) where
  known := by
    intro child hchild
    change child.tid < tid + 1
    rcases List.mem_append.mp hchild with hold | hnew
    · have hlt := h.known child hold
      omega
    · rw [List.mem_singleton.mp hnew]
      exact Nat.lt_succ_self tid
  distinct := by
    change ((s.children ++ [_]).map Child.tid).Nodup
    rw [List.map_append, List.nodup_append]
    refine ⟨h.distinct, List.nodup_singleton _, fun old hold new hnew => ?_⟩
    obtain ⟨child, hchild, rfl⟩ := List.mem_map.mp hold
    have hlt := h.known child hchild
    have htid : new = tid := List.mem_singleton.mp hnew
    omega
  tracked := by
    intro child hchild hlive
    rcases List.mem_append.mp hchild with hold | hnew
    · obtain ⟨old, hfound, hstate⟩ := h.tracked child hold hlive
      have hne : child.owner ≠ index := by
        intro heq
        rw [heq, found] at hfound
        cases hfound
        exact down ⟨_, hstate⟩
      exact ⟨old, by rw [← hfound]; exact Supd.modify_other hne _, hstate⟩
    · rw [List.mem_singleton.mp hnew]
      exact ⟨_, @Supd.modify_self { s with children := _, nextTid := tid + 1 } index svc found _, rfl⟩
  issued := by
    intro other svc' tid' hfound hstate
    change tid' < tid + 1
    obtain ⟨rfl, old, -, rfl⟩ | ⟨-, hold⟩ :=
      @Supd.modify_cases { s with children := _, nextTid := tid + 1 } index other svc' _ hfound
    · cases hstate
      exact Nat.lt_succ_self tid
    · have hlt := h.issued other svc' tid' hold hstate
      omega
  single := by
    intro first second svc' svc'' tid' hfirst hsecond hstate hstate'
    obtain ⟨rfl, old, -, rfl⟩ | ⟨-, hold⟩ :=
      @Supd.modify_cases { s with children := _, nextTid := tid + 1 } index first svc' _ hfirst
    · obtain ⟨rfl, -, -, -⟩ | ⟨-, hold'⟩ :=
        @Supd.modify_cases { s with children := _, nextTid := tid + 1 } first second svc'' _ hsecond
      · rfl
      · have hlt := h.issued second svc'' tid' hold' hstate'
        cases hstate
        omega
    · obtain ⟨rfl, old, -, rfl⟩ | ⟨-, hold'⟩ :=
        @Supd.modify_cases { s with children := _, nextTid := tid + 1 } index second svc'' _ hsecond
      · have hlt := h.issued first svc' tid' hold hstate
        cases hstate'
        omega
      · exact h.single first second svc' svc'' tid' hold hold' hstate hstate'

/-- Reaping removes a child and no service. -/
theorem reapFirst (h : Paired s) : Paired s.reapFirst where
  known := fun child hchild => h.known child (List.mem_of_mem_eraseP hchild)
  distinct := (List.eraseP_sublist.map Child.tid).nodup h.distinct
  tracked := fun child hchild => h.tracked child (List.mem_of_mem_eraseP hchild)
  issued := h.issued
  single := h.single

/-- A child is reaped and the services that ran it are down. -/
theorem reap {child : Child} {g : Service → Service} (h : Paired s)
    (first : s.children.find? Child.ended = some child)
    (hg : ∀ svc, svc.state = .running child.tid → ¬ (g svc).state.IsRunning)
    (hkeeps : ∀ svc, svc.state ≠ .running child.tid → g svc = svc) :
    Paired { s.reapFirst with services := s.services.map g } where
  known := h.reapFirst.known
  distinct := h.reapFirst.distinct
  tracked := by
    intro other hother hlive
    have hmem := List.mem_of_mem_eraseP hother
    obtain ⟨svc, hfound, hstate⟩ := h.tracked other hmem hlive
    have hne : svc.state ≠ .running child.tid := by
      intro heq
      rw [hstate] at heq
      have hsame : other = child :=
        List.inj_on_of_nodup_map h.distinct hmem (List.mem_of_find?_eq_some first)
          (SvcState.running.inj heq)
      have hended := List.find?_some first
      rw [← hsame, Child.ended, hlive] at hended
      cases hended
    refine ⟨svc, ?_, hstate⟩
    rw [List.getElem?_map, hfound, Option.map_some, hkeeps svc hne]
  issued := by
    intro index svc tid hfound hstate
    rw [List.getElem?_map] at hfound
    obtain ⟨old, hold, rfl⟩ := Option.map_eq_some_iff.mp hfound
    by_cases hrun : old.state = .running child.tid
    · exact absurd ⟨tid, hstate⟩ (hg old hrun)
    · exact h.issued index old tid hold (hkeeps old hrun ▸ hstate)
  single := by
    intro index other svc svc' tid hfound hfound' hstate hstate'
    rw [List.getElem?_map] at hfound hfound'
    obtain ⟨old, hold, rfl⟩ := Option.map_eq_some_iff.mp hfound
    obtain ⟨old', hold', rfl⟩ := Option.map_eq_some_iff.mp hfound'
    by_cases hrun : old.state = .running child.tid
    · exact absurd ⟨tid, hstate⟩ (hg old hrun)
    by_cases hrun' : old'.state = .running child.tid
    · exact absurd ⟨tid, hstate'⟩ (hg old' hrun')
    exact h.single index other old old' tid hold hold' (hkeeps old hrun ▸ hstate)
      (hkeeps old' hrun' ▸ hstate')

theorem markExited {child : Child} (h : Paired s) (first : s.children.find? Child.ended = some child) :
    Paired (s.reapFirst.markExited child.tid) := by
  refine h.reap first (fun svc hstate => ?_) fun svc hne => if_neg hne
  rw [if_pos hstate]
  rintro ⟨tid, ⟨⟩⟩

theorem release {child : Child} (h : Paired s) (first : s.children.find? Child.ended = some child) :
    Paired { s.reapFirst with services := release child.tid s.services } := by
  refine h.reap first (fun svc hstate => ?_) fun svc hne => if_neg hne
  rw [if_pos hstate]
  rintro ⟨tid, ⟨⟩⟩

/-- A service that is not running may move to any other state in which it is not. -/
theorem modifyDown {index : Nat} {f : Service → Service} (h : Paired s)
    (down : ∀ svc, s.services[index]? = some svc → ¬ svc.state.IsRunning ∧ ¬ (f svc).state.IsRunning) :
    Paired (s.modify index f) :=
  h.modify fun svc hfound =>
    .inr ⟨(down svc hfound).2, fun tid hstate => absurd ⟨tid, hstate⟩ (down svc hfound).1⟩

end Paired

/-! ### Whole runs -/

/-- The invariant of all moves: also at every system call so far there was one child at
most for each service. -/
structure Sound (s : Supd) : Prop where
  paired : Paired s
  calls : ∀ services children, Event.call services children ∈ s.trace → OneLive services children

namespace Sound

variable {w : Surroundings} {s s' : Supd}

theorem of_trace (h : Sound s) (paired : Paired s') (same : s'.trace = s.trace) : Sound s' :=
  ⟨paired, fun services children hmem => h.calls services children (same ▸ hmem)⟩

theorem note {event : Event} (h : Sound s)
    (quiet : ∀ services children, event ≠ .call services children) :
    Sound (s.note event) := by
  refine ⟨h.paired.note event, fun services children hmem => ?_⟩
  rcases List.mem_append.mp hmem with hold | hnew
  · exact h.calls services children hold
  · exact absurd (List.mem_singleton.mp hnew).symm (quiet services children)

theorem enter (h : Sound s) : Sound (enter w s).2 := by
  refine ⟨h.paired.enter, fun services children hmem => ?_⟩
  rcases List.mem_append.mp hmem with hold | hnew
  · exact h.calls services children hold
  · cases List.mem_singleton.mp hnew
    exact h.paired.oneLive

theorem account {child : Child} (h : Sound s) (first : s.children.find? Child.ended = some child)
    (code : UInt64) : Sound (accountExit w child.tid code s.reapFirst).2 := by
  have hmarked : Sound (s.reapFirst.markExited child.tid) := h.of_trace (h.paired.markExited first) rfl
  obtain ⟨index, svc, last, hfound, hstate, hresult, hlast⟩ | ⟨hnone, hresult⟩ :=
    @accountExit_cases w child.tid code s.reapFirst
  · have hdown : ∀ svc', (s.reapFirst.markExited child.tid).services[index]? = some svc' →
        ¬ svc'.state.IsRunning := by
      intro svc' hsvc'
      cases (Supd.markExited_self hfound hstate).symm.trans hsvc'
      rintro ⟨tid, ⟨⟩⟩
    rw [hresult]
    refine Sound.note ?_ fun _ _ => Event.noConfusion
    have hexited := hmarked.note (fun _ _ => Event.noConfusion : ∀ _ _, Event.exited index ≠ .call _ _)
    obtain ⟨-, -, rfl⟩ | ⟨-, rfl⟩ := hlast
    · have hcalled := hexited.enter (w := w)
      refine Sound.note
        (hcalled.of_trace (hcalled.paired.modifyDown fun svc' hsvc' => ⟨hdown svc' hsvc', ?_⟩) rfl)
        fun _ _ => Event.noConfusion
      rintro ⟨tid, ⟨⟩⟩
    · refine Sound.note
        (hexited.of_trace (hexited.paired.modifyDown fun svc' hsvc' => ⟨hdown svc' hsvc', ?_⟩) rfl)
        fun _ _ => Event.noConfusion
      rintro ⟨tid, ⟨⟩⟩
  · -- no service ran it, so nothing was marked
    have hsame : s.reapFirst.markExited child.tid = s.reapFirst := by
      rw [Supd.markExited, markExited_eq_self hnone]
    rw [hresult, ← hsame]
    exact hmarked.note fun _ _ => Event.noConfusion

theorem raise {index tid : Nat} {svc : Service} (elf : List UInt8) (due : Option Nat) (h : Sound s)
    (found : s.services[index]? = some svc) (down : ¬ svc.state.IsRunning) (fresh : s.nextTid ≤ tid) :
    Sound (s.raise index tid elf due) := by
  refine ⟨h.paired.raise elf due found down fresh, fun services children hmem => ?_⟩
  rcases List.mem_append.mp hmem with hold | hnew
  · exact h.calls services children hold
  · cases List.mem_singleton.mp hnew

/-- A change that leaves the state of the service alone. -/
theorem modify {index : Nat} {f : Service → Service} (h : Sound s)
    (same : ∀ svc, (f svc).state = svc.state) :
    Sound (s.modify index f) :=
  h.of_trace (h.paired.modify fun svc _ => .inl (same svc)) rfl

theorem loopMove (h : Sound s) (step : LoopMove w s s') : Sound s' := by
  cases step with
  | enter => exact h.enter
  | note plain =>
      refine h.note fun services children heq => ?_
      rw [heq] at plain
      exact plain
  | raise elf found timely fresh => exact h.raise elf _ found timely.down fresh
  | fail found down =>
      refine Sound.note (h.of_trace (h.paired.modifyDown fun svc' hsvc' => ?_) rfl) fun _ _ =>
        Event.noConfusion
      cases found.symm.trans hsvc'
      exact ⟨down, fun ⟨_, hstate⟩ => SvcState.noConfusion hstate⟩
  | count => exact h.modify fun _ => rfl
  | account first code => exact h.account first code

theorem move (h : Sound s) (step : Move w s s') : Sound s' := by
  cases step with
  | loop step => exact h.loopMove step
  | drain first => exact Sound.note (h.of_trace (h.paired.release first) rfl) fun _ _ => Event.noConfusion
  | want => exact Sound.note (h.modify fun _ => rfl) fun _ _ => Event.noConfusion
  | raise elf found down _ fresh => exact h.raise elf none found down fresh
  | unwant => exact h.modify fun _ => rfl
  | kill tid => exact h.of_trace (h.paired.killChild tid) rfl
  | rest _ found running _ killed =>
      refine h.of_trace
        (h.paired.modify fun svc' hsvc' => .inr ⟨fun ⟨_, hstate⟩ => SvcState.noConfusion hstate, ?_⟩) rfl
      cases found.symm.trans hsvc'
      intro tid' hstate'
      cases running.symm.trans hstate'
      exact killed
  | stopped => exact h.note fun _ _ => Event.noConfusion

theorem moves (h : Sound s) (steps : Moves w s s') : Sound s' := by
  induction steps with
  | refl => exact h
  | tail _ step ih => exact ih.move step

theorem of_loaded (h : Loaded s) : Sound s where
  paired :=
    { known := by simp [h.childless]
      distinct := by simp [h.childless]
      tracked := by simp [h.childless]
      issued := by
        intro index svc tid hfound hstate
        cases (h.down svc (List.mem_of_getElem? hfound)).1.symm.trans hstate
      single := by
        intro index other svc svc' tid hfound _ hstate
        cases (h.down svc (List.mem_of_getElem? hfound)).1.symm.trans hstate }
  calls := by
    intro services children hmem
    obtain ⟨services', heq⟩ := h.calls _ hmem
    cases heq
    exact fun child hchild => absurd hchild List.not_mem_nil

theorem of_reaches {nextTid : Nat} (h : Reaches w nextTid s) : Sound s := by
  obtain ⟨loaded, hloaded, hmoves⟩ := h.moves
  exact (of_loaded hloaded).moves hmoves

end Sound

variable {w : Surroundings} {nextTid : Nat} {s s' : Supd}

/-- Whatever the surroundings do, at every system call of the supervisor and between its
rounds a service has one living child at most, and then it is running with its number. -/
theorem one_live_instance (reached : Reaches w nextTid s) :
    (∀ services children, Event.call services children ∈ s.trace → OneLive services children) ∧
      OneLive s.services s.children :=
  have hsound := Sound.of_reaches reached
  ⟨hsound.calls, hsound.paired.oneLive⟩

/-- Storage that answers with these roster lines, and empty programs. -/
def rosterReplies (lines : List (List UInt8)) : Endpoint → Words → Except UInt64 Words
  | .query, words =>
      let req := Msg.unpack words
      if req = ascii "roster-count" then .ok (Msg.pack (pushNum (UInt64.ofNat lines.length)))
      else
        match stripPrefix req (ascii "roster ") with
        | some rest => .ok (Msg.pack (lines.getD (indexArg rest) []))
        | none => .ok (Msg.pack [])
  | .initfs, _ => .ok (Msg.pack (ascii "len 0"))
  | _, _ => .ok (Msg.pack [])

/-- Surroundings in which every spawn succeeds and each system call takes ten ticks. -/
def steady (lines : List (List UInt8)) (exits : Nat → List (Nat × UInt64))
    (message : Nat → Except UInt64 Words) : Surroundings := fun n =>
  { exits := exits n
    tick := 10 * n
    refusal := none
    skipped := 0
    reply := rosterReplies lines
    message := message n }

def twoServices : List (List UInt8) := [ascii "a autostart restart", ascii "b autostart restart"]

/-- The first child ends at the first wait of the loop. -/
def firstCrashes : Surroundings :=
  steady twoServices (fun n => if n = 11 then [(1, 7)] else []) fun _ => .error 10

theorem one_live_instance_two : (start firstCrashes 1).children.length = 2 ∧
    OneLive (start firstCrashes 1).services (start firstCrashes 1).children :=
  ⟨by decide +kernel, (one_live_instance .start).2⟩

/-! ### Exits -/

/-- The exit of a running service that is to be restarted was counted, and the service
waits or was given up. -/
def Accounted (tid : Nat) (before after : List Service) : Prop :=
  ∀ (index : Nat) (svc : Service), before[index]? = some svc → svc.state = .running tid →
    svc.restart = true →
    ∃ svc' : Service, after[index]? = some svc' ∧ svc'.failures = svc.failures + 1 ∧
      if svc'.failures ≤ 5 then svc'.state.IsWaiting else svc'.state = .failed

/-- No running service that is to be restarted has this child. -/
def Unowned (tid : Nat) (before : List Service) : Prop :=
  ∀ svc ∈ before, svc.state = .running tid → svc.restart = false

/-- The loop accounts for every exit. -/
theorem accountExit_accounted {tid : Nat} (code : UInt64) (h : Paired s) :
    Accounted tid s.services (accountExit w tid code s).2.services := by
  obtain ⟨index, svc, last, hfound, hstate, hresult, hlast⟩ | ⟨hnone, hresult⟩ :=
    @accountExit_cases w tid code s
  · intro other svc' hfound' hstate' hrestart
    cases h.single index other svc svc' tid hfound hfound' hstate hstate'
    cases hfound.symm.trans hfound'
    have hmarked := Supd.markExited_self hfound hstate
    rw [hresult]
    obtain ⟨-, hfew, rfl⟩ | ⟨hmany, rfl⟩ := hlast
    · refine ⟨_, @Supd.modify_self (enter w ((s.markExited tid).note (.exited index))).2 index _
        hmarked _, rfl, ?_⟩
      rw [if_pos (show svc.exited.failures ≤ 5 from hfew)]
      exact ⟨_, rfl⟩
    · refine ⟨_, @Supd.modify_self ((s.markExited tid).note (.exited index)) index _ hmarked _, rfl, ?_⟩
      rw [if_neg (show ¬ svc.exited.failures ≤ 5 from fun hfew => hmany ⟨hrestart, hfew⟩)]
  · intro index svc hfound hstate
    exact absurd hstate (lastRunning_none hnone hfound)

/-- The reaping after a kill counts nothing. -/
theorem release_accounted_iff (tid : Nat) (services : List Service) :
    Accounted tid services (release tid services) ↔ Unowned tid services := by
  constructor
  · intro haccounted svc hmem hstate
    obtain ⟨index, hfound⟩ := List.mem_iff_getElem?.mp hmem
    by_contra hrestart
    rw [Bool.not_eq_false] at hrestart
    obtain ⟨svc', hfound', hcount, -⟩ := haccounted index svc hfound hstate hrestart
    rw [release_getElem?, hfound, Option.map_some, if_pos hstate] at hfound'
    cases hfound'
    exact absurd hcount (Nat.ne_of_lt (Nat.lt_succ_self _))
  · intro hunowned index svc hfound hstate hrestart
    rw [hunowned svc (List.mem_of_getElem? hfound) hstate] at hrestart
    cases hrestart

/-- The exits of a trace are accounted for by the loop, and after a kill only where no
service lost its child. -/
def ExitsSettled (trace : List Event) : Prop :=
  ∀ tid inLoop before after, Event.reaped tid inLoop before after ∈ trace →
    (Accounted tid before after ↔ inLoop = true ∨ Unowned tid before)

namespace ExitsSettled

theorem append {trace new : List Event} (h : ExitsSettled trace) (hnew : ExitsSettled new) :
    ExitsSettled (trace ++ new) := by
  intro tid inLoop before after hmem
  rcases List.mem_append.mp hmem with hold | hadded
  · exact h tid inLoop before after hold
  · exact hnew tid inLoop before after hadded

theorem single {event : Event}
    (other : ∀ tid inLoop before after, event ≠ .reaped tid inLoop before after) :
    ExitsSettled [event] :=
  fun tid inLoop before after hmem =>
    absurd (List.mem_singleton.mp hmem).symm (other tid inLoop before after)

theorem account {child : Child} (code : UInt64) (h : ExitsSettled s.trace) (paired : Paired s) :
    ExitsSettled (accountExit w child.tid code s.reapFirst).2.trace := by
  obtain ⟨body, htrace, hbody⟩ := @accountExit_trace w child.tid code s.reapFirst
  rw [htrace]
  refine append h (append (fun tid inLoop before after hmem => (hbody _ hmem).elim) ?_)
  intro tid inLoop before after hmem
  cases List.mem_singleton.mp hmem
  exact iff_of_true (accountExit_accounted code paired.reapFirst) (.inl rfl)

theorem loopMove (h : ExitsSettled s.trace) (paired : Paired s) (step : LoopMove w s s') :
    ExitsSettled s'.trace := by
  cases step with
  | enter => exact h.append (single fun _ _ _ _ => Event.noConfusion)
  | note plain =>
      refine h.append (single fun _ _ _ _ heq => ?_)
      rw [heq] at plain
      exact plain
  | raise => exact h.append (single fun _ _ _ _ => Event.noConfusion)
  | fail => exact h.append (single fun _ _ _ _ => Event.noConfusion)
  | count => exact h
  | account _ code => exact h.account code paired

theorem move (h : ExitsSettled s.trace) (paired : Paired s) (step : Move w s s') :
    ExitsSettled s'.trace := by
  cases step with
  | loop step => exact h.loopMove paired step
  | drain =>
      refine h.append fun tid inLoop before after hmem => ?_
      cases List.mem_singleton.mp hmem
      exact (release_accounted_iff _ s.services).trans
        ⟨.inr, fun hor => hor.resolve_left Bool.false_ne_true⟩
  | want => exact h.append (single fun _ _ _ _ => Event.noConfusion)
  | raise => exact h.append (single fun _ _ _ _ => Event.noConfusion)
  | unwant => exact h
  | kill => exact h
  | rest => exact h
  | stopped => exact h.append (single fun _ _ _ _ => Event.noConfusion)

end ExitsSettled

/-- In every run an exit that the supervisor reaps is accounted for exactly when its main
loop reaps it, unless the child belongs to no running service that is to be restarted. -/
theorem exits_accounted_iff (reached : Reaches w nextTid s) {tid : Nat} {inLoop : Bool}
    {before after : List Service} (reaped : Event.reaped tid inLoop before after ∈ s.trace) :
    Accounted tid before after ↔ inLoop = true ∨ Unowned tid before := by
  obtain ⟨loaded, hloaded, hmoves⟩ := reached.moves
  have hsettled : Sound s ∧ ExitsSettled s.trace := by
    clear reached reaped
    induction hmoves with
    | refl =>
        refine ⟨.of_loaded hloaded, fun tid inLoop before after hmem => ?_⟩
        obtain ⟨_, heq⟩ := hloaded.calls _ hmem
        cases heq
    | tail _ step ih => exact ⟨ih.1.move step, ih.2.move ih.1.paired step⟩
  exact hsettled.2 tid inLoop before after reaped

/-- One of two services, as the samples see it. -/
def sampleService (name : UInt8) (restart : Bool) (state : SvcState) (failures : Nat) : Service :=
  { name := [name], autostart := true, restart, state, failures, restarts := 0 }

theorem exits_accounted_iff_loop : ∃ s before after, Reaches firstCrashes 1 s ∧
    Event.reaped 1 true before after ∈ s.trace ∧
    before[0]? = some (sampleService 97 true (.running 1) 0) ∧ Accounted 1 before after := by
  obtain ⟨s, hreached, hmem⟩ := @Reaches.of_rounds firstCrashes 1 1
    (fun s => .reaped 1 true [sampleService 97 true (.running 1) 0, sampleService 98 true (.running 2) 0]
      [sampleService 97 true (.waiting 160) 1, sampleService 98 true (.running 2) 0] ∈ s.trace)
        (by decide +kernel)
  have hreaped := of_decide_eq_true hmem
  exact ⟨s, _, _, hreached, hreaped, rfl, (exits_accounted_iff hreached hreaped).mpr (.inl rfl)⟩

/-- The first child ends while an operator asks to stop the second service. -/
def crashDuringStop : Surroundings :=
  steady twoServices (fun n => if n = 13 then [(1, 7)] else []) fun _ => .ok (Msg.pack (ascii "stop b"))

/-- The reaping after the kill takes the exit of the first service for the killed one, and
nobody restarts it. -/
theorem exit_lost_after_kill : ∃ s before after, Reaches crashDuringStop 1 s ∧
    Event.reaped 1 false before after ∈ s.trace ∧
    before[0]? = some (sampleService 97 true (.running 1) 0) ∧
    after[0]? = some (sampleService 97 true .stopped 0) ∧ ¬ Accounted 1 before after := by
  obtain ⟨s, hreached, hmem⟩ := @Reaches.of_rounds crashDuringStop 1 1
    (fun s => .reaped 1 false
      [sampleService 97 true (.running 1) 0, sampleService 98 false (.running 2) 0]
      [sampleService 97 true .stopped 0, sampleService 98 false (.running 2) 0] ∈ s.trace)
        (by decide +kernel)
  refine ⟨s, _, _, hreached, of_decide_eq_true hmem, rfl, rfl, fun haccounted => ?_⟩
  obtain ⟨svc, hfound, hcount, -⟩ := haccounted 0 _ rfl rfl rfl
  cases hfound
  cases hcount

end Redoubt.Services
